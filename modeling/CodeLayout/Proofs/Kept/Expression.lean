import CodeLayout.Proofs.Account.Expression
import CodeLayout.Proofs.Kept.Lists

/-!
# Expressions keep line breaks

An operator, a mark of a conditional and the dot before a call start an element with what is behind
them.
-/

namespace CodeLayout.Build

open Chunk Node

variable {x : BuildContext} {spacing : Spacing} {build : NodeBuilder} {depth : Nat} {n : Node}
  {ns : List Node} {parts : List Chunk} {s : Option Int}

section Expressions

variable (hb : MarksNodes x spacing build depth)
include hb

theorem marks_operands {ns : List Node}
    (hns : ∀ n ∈ ns, n.Fine x depth) :
    Marks x spacing (operands x build ns) (Row spacing (ns.findSome? opening?)) := by
  match ns with
  | [] => exact Marks.pure row_nil
  | [op] =>
      have hop := hns op (by simp)
      rw [operands, findSome?_cons_or]
      refine (hb op hop).bind fun c hc => ?_
      obtain ⟨d, rfl, hd⟩ := exists_some_of_fine hop hc
      exact marks_element_cons hop hd.withSpace (m := Pure.pure []) (Marks.pure row_nil)
  | op :: operand :: rest =>
      have hop := hns op (by simp)
      rw [operands, findSome?_cons_or, findSome?_cons_or, or_opening hop,
        ← or_opening hop (rest.findSome? opening?)]
      refine (hb op hop).bind fun c hc => ?_
      refine (hb operand (hns operand (by simp))).bind fun d hd => ?_
      have hboth := opens_sequence (opens_spaced (opens_spaced opens_nil hc) hd)
      rw [Option.none_or, or_opening hop] at hboth
      obtain ⟨e, heq, he⟩ := exists_some_of_fine hop hboth
      dsimp only
      rw [heq]
      exact marks_element_cons hop he.withSpace
        (marks_operands fun m hm => hns m (by simp [hm]))
termination_by ns.length

theorem marks_branches {ns : List Node}
    (hns : ∀ n ∈ ns, n.Fine x depth) :
    Marks x spacing (branches x build ns) (Row spacing (ns.findSome? opening?)) := by
  match ns with
  | [] => exact Marks.pure row_nil
  | [op] =>
      have hop := hns op (by simp)
      rw [branches, findSome?_cons_or]
      refine (hb op hop).bind fun c hc => ?_
      obtain ⟨d, rfl, hd⟩ := exists_some_of_fine hop hc
      exact marks_element_cons hop hd.withSpace (m := Pure.pure []) (Marks.pure row_nil)
  | op :: other :: rest =>
      have hop := hns op (by simp)
      rw [branches, findSome?_cons_or]
      refine (hb op hop).bind fun c hc => ?_
      obtain ⟨d, rfl, hd⟩ := exists_some_of_fine hop hc
      refine Marks.ite (fun _ => ?_) fun _ => ?_
      · exact marks_element_cons hop hd.withSpace
          (marks_branches fun m hm => hns m (by simp_all))
      · rw [or_opening hop, ← or_opening hop (rest.findSome? opening?)]
        refine (hb other (hns other (by simp))).bind fun c' hc' => ?_
        have hboth := opens_sequence (opens_spaced (opens_spaced opens_nil hc) hc')
        rw [Option.none_or, or_opening hop] at hboth
        obtain ⟨e, heq, he⟩ := exists_some_of_fine hop hboth
        rw [heq]
        exact marks_element_cons hop he.withSpace
          (marks_branches fun m hm => hns m (by simp [hm]))
termination_by ns.length

/-- A first node and marked elements behind it make a group. -/
theorem marks_grouped {first : Node} {rest : List Node} {m : Build (List Chunk)}
    (context : WrapContext) (hfirst : first.Fine x depth)
    (hm : Marks x spacing m (Row spacing (rest.findSome? opening?))) :
    Marks x spacing (do
      let c ← build first
      return some (Chunk.ofElements context (c.toList ++ (← m))))
      fun c => Opens spacing ((first :: rest).findSome? opening?) c.toList := by
  rw [findSome?_cons_or]
  refine (hb first hfirst).bind fun c hc => hm.last fun es hes => ?_
  exact hc.elements hes (by cases c <;> simp) context

theorem marks_binary (hn : n.Parts x depth) :
    Marks x spacing (binary x build n) fun c => Opens spacing n.opening? c.toList := by
  rw [hn.opening?_eq, binary]
  have hfine := hn.fine
  generalize n.children = children at hfine ⊢
  cases children with
  | nil => exact Marks.pure opens_nil
  | cons first rest =>
      obtain ⟨hfirst, hrest⟩ := List.forall_mem_cons.mp hfine
      exact marks_grouped hb .binaryExpression hfirst (marks_operands hb hrest)

theorem marks_conditional (hn : n.Parts x depth) :
    Marks x spacing (conditional x build n) fun c => Opens spacing n.opening? c.toList := by
  rw [hn.opening?_eq, conditional]
  have hfine := hn.fine
  generalize n.children = children at hfine ⊢
  cases children with
  | nil => exact Marks.pure opens_nil
  | cons first rest =>
      obtain ⟨hfirst, hrest⟩ := List.forall_mem_cons.mp hfine
      exact marks_grouped hb .conditionalExpression hfirst (marks_branches hb hrest)

theorem marks_assign (hn : n.Parts x depth) :
    Marks x spacing (assign x build n) fun c => Opens spacing n.opening? c.toList := by
  rw [hn.opening?_eq, assign]
  have hfine := hn.fine
  generalize n.children = children at hfine ⊢
  cases children with
  | nil => exact Marks.pure opens_nil
  | cons lhs rest =>
      have hlhs := hfine lhs List.mem_cons_self
      -- The left side is there, so what comes behind it does not matter.
      rw [findSome?_cons_or, or_opening hlhs]
      obtain ⟨-, t, -, -, hstart⟩ := hlhs.opening
      have hl := hb lhs hlhs
      rw [hstart] at hl ⊢
      rcases rest with _ | ⟨op, _ | ⟨rhs, more⟩⟩
      · exact hl.last fun c hc => opens_sequence (opens_glued opens_nil hc)
      · refine hl.bind fun c hc => (hb op (hfine op (by simp))).last fun d hd => ?_
        exact opens_sequence (opens_spaced (opens_glued opens_nil hc) hd)
      · refine hl.bind fun c hc => (hb op (hfine op (by simp))).bind fun d hd => ?_
        exact marks_assignment hb
          (opens_sequence (opens_spaced (opens_glued opens_nil hc) hd)) (hfine rhs (by simp))

theorem marks_unary (hn : n.Parts x depth) :
    Marks x spacing (unary build n) fun c => Opens spacing n.opening? c.toList := by
  rw [hn.opening?_eq, unary]
  have hfine := hn.fine
  generalize n.children = children at hfine ⊢
  rcases children with _ | ⟨op, _ | ⟨operand, more⟩⟩
  · exact Marks.pure opens_nil
  · rw [findSome?_cons_or, List.findSome?_nil, Option.or_none]
    exact hb op (hfine op (by simp))
  · have hop := hfine op (by simp)
    rw [findSome?_cons_or, or_opening hop]
    obtain ⟨-, t, -, -, hstart⟩ := hop.opening
    have ho := hb op hop
    rw [hstart] at ho ⊢
    refine ho.bind fun o ho => (hb operand (hfine operand (by simp))).last fun c hc => ?_
    refine (ho.behind ?_).seq
    split_ifs
    · exact hc.any_withSpace.marks
    · exact hc.marks

theorem marks_castParts (hns : ∀ n ∈ ns, n.Fine x depth) (behindParen : Bool)
    (hparts : Opens spacing s parts) : Marks x spacing (castParts build behindParen parts ns)
      (Opens spacing (s.or (ns.findSome? opening?))) := by
  induction ns generalizing behindParen parts s with
  | nil =>
      rw [List.findSome?_nil, Option.or_none]
      exact Marks.pure hparts
  | cons n ns ih =>
      obtain ⟨hn, hrest⟩ := List.forall_mem_cons.mp hns
      rw [castParts, findSome?_cons_or, ← Option.or_assoc]
      refine (hb n hn).bind fun c hc => ih hrest _ ?_
      split_ifs
      · exact opens_spaced hparts hc
      · exact opens_glued hparts hc

theorem marks_cast (hn : n.Parts x depth) :
    Marks x spacing (cast build n) fun c => Opens spacing n.opening? c.toList := by
  rw [hn.opening?_eq]
  refine (marks_castParts hb hn.fine false opens_nil).last fun parts hparts => ?_
  rw [Option.none_or] at hparts
  exact opens_sequence hparts

theorem marks_call (hn : n.Parts x depth) :
    Marks x spacing (call x build n) fun c => Opens spacing n.opening? c.toList := by
  rw [hn.opening?_eq]
  refine marks_sequence fun c hc s parts hparts => ?_
  have hfine := hn.fine c hc
  split_ifs with hk
  · exact marks_glued hparts (marks_list hb _ (hfine.below hk))
  · exact marks_glued hparts (hb c hfine)

omit hb in
/-- A chain of selections starts where its base does. -/
theorem opening?_selections (hn : n.Fine x depth) : (selections n).1.opening? = n.opening? := by
  induction n using selections.induct with
  | case1 start stop base dot more _ _ _ ih =>
      have hparts := hn.below (show Node.isKind .select _ = true from rfl)
      have hbase : base.Fine x depth := hparts.fine base List.mem_cons_self
      have hopening : (branch .select start stop (base :: dot :: more)).opening? =
          base.opening?.or ((dot :: more).findSome? opening?) :=
        hparts.opening?_eq.trans (findSome?_cons_or ..)
      rw [selections, hopening, or_opening hbase]
      exact ih hbase
  | case2 n hother =>
      rw [selections.eq_def]
      split
      · exact absurd rfl (hother _ _ _ _ _)
      · rfl

/-- A step of a chain behind other parts, or by itself. -/
theorem marks_selected {step : Selection} (hs : step.Fine x depth)
    (hparts : Opens spacing s parts) :
    Marks x spacing (selected build parts step) (Opens spacing (s.or step.dot.opening?)) := by
  refine (hb step.dot hs.1).bind fun c hc => ?_
  refine (marks_optional hb hs.2).last fun d hd => ?_
  have hboth := opens_glued (opens_glued hparts hc) hd
  rwa [Option.or_assoc, or_opening hs.1] at hboth

theorem marks_chainElements {steps : List Selection}
    (hs : ∀ step ∈ steps, step.Fine x depth) {start : Node} (hstart : start.Fine x depth)
    (hparts : Opens spacing start.opening? parts) :
    Marks x spacing (chainElements x build start parts steps) (Row spacing start.opening?) := by
  obtain ⟨c, hc, hopens⟩ := exists_some_of_fine hstart (opens_sequence hparts)
  induction steps generalizing start parts c with
  | nil =>
      rw [chainElements, hc, ← or_opening hstart none]
      exact marks_element_cons hstart hopens (m := Pure.pure []) (Marks.pure row_nil)
  | cons step rest ih =>
      obtain ⟨hstep, hrest⟩ := List.forall_mem_cons.mp hs
      have hnext {start : Node} {parts : List Chunk} (hstart : start.Fine x depth)
          (hparts : Opens spacing start.opening? parts) :
          Marks x spacing (chainElements x build start parts rest)
            (Row spacing start.opening?) := by
        obtain ⟨c, hc, hopens⟩ := exists_some_of_fine hstart (opens_sequence hparts)
        exact ih hrest hstart hparts c hc hopens
      rw [chainElements]
      refine Marks.ite (fun _ => ?_) fun _ => ?_
      · -- The element at hand is done, and the call starts the next one.
        rw [hc, Option.toList_some, List.mapM_cons, List.mapM_nil, bind_assoc,
          ← or_opening hstart step.dot.opening?]
        refine Marks.element hstart hopens fun e he hmarked => ?_
        simp only [pure_bind]
        refine (marks_selected hb hstep opens_nil).bind fun behind hbehind => ?_
        exact (hnext hstep.1 hbehind).last fun es hes => Row.cons he hmarked hes
      · refine (marks_selected hb hstep hparts).bind fun parts' hparts' => ?_
        rw [or_opening hstart] at hparts'
        exact hnext hstart hparts'

theorem marks_selectChain {start stop : Nat}
    {children : List Node} (hn : (branch .select start stop children).Parts x depth)
    (htakes : NodeKind.select.Takes children) :
    Marks x spacing (selectChain x build (branch .select start stop children))
      fun c => Opens spacing (branch .select start stop children).opening? c.toList := by
  match children with
  | [] => simp [NodeKind.Takes] at htakes
  | [_] => simp [NodeKind.Takes] at htakes
  | base :: dot :: more =>
      obtain ⟨hbase, hs, -⟩ := selection_fine hn htakes
      obtain ⟨hroot, hsteps, -⟩ := selections_fine hbase
      have hall : ∀ s ∈ (⟨dot, more.head?⟩ :: (selections base).2).reverse, s.Fine x depth :=
        fun s hmem => (List.forall_mem_cons.mpr ⟨hs, hsteps⟩) s (List.mem_reverse.mp hmem)
      have hopening : (branch .select start stop (base :: dot :: more)).opening? =
          base.opening?.or ((dot :: more).findSome? opening?) :=
        hn.opening?_eq.trans (findSome?_cons_or ..)
      rw [hopening, or_opening hbase, ← opening?_selections hbase, selectChain, selections]
      refine (hb _ hroot).bind fun c hc => ?_
      have hfirst := opens_glued opens_nil hc
      rw [Option.none_or] at hfirst
      refine Marks.ite (fun _ => ?_) fun _ => ?_
      · refine Marks.last (Marks.foldlM hfirst fun s hs parts hparts => ?_)
          fun _ h => opens_sequence h
        have hselected := marks_selected hb (hall s hs) hparts
        rwa [or_opening hroot] at hselected
      · exact (marks_chainElements hb hall hroot hfirst).last fun es hes => hes.ofElements _

theorem marks_creation (hn : n.Parts x depth) :
    Marks x spacing (creation x build n) fun c => Opens spacing n.opening? c.toList := by
  rw [hn.opening?_eq]
  refine marks_sequence_zipIdx fun c hc i s parts hparts => ?_
  have hfine := hn.fine c hc
  dsimp only
  split_ifs with _ hk
  · exact marks_spaced hparts (hb c hfine)
  · exact marks_glued hparts (marks_list hb _ (hfine.below hk))
  · exact marks_glued hparts (hb c hfine)

theorem marks_arrayInit (hn : n.Parts x depth) :
    Marks x spacing (arrayInit x build n) fun c => Opens spacing n.opening? c.toList := by
  rw [hn.opening?_eq, arrayInit]
  have hfine := hn.fine
  generalize n.children = children at hfine ⊢
  cases children with
  | nil => exact Marks.pure opens_nil
  | cons first rest =>
      obtain ⟨hfirst, hrest⟩ := List.forall_mem_cons.mp hfine
      obtain ⟨hin, hclosing⟩ := splitClosing_mem (isText "\x7d") rest
      rw [findSome?_cons_or, or_opening hfirst]
      obtain ⟨-, t, -, -, hstart⟩ := hfirst.opening
      have ho := hb first hfirst
      rw [hstart] at ho ⊢
      refine ho.bind fun opening hopening => ?_
      refine (marks_elements hb _ true fun m hm => hrest m (hin m hm)).bind fun es hes => ?_
      refine (marks_optional hb fun m hm =>
        hrest m (hclosing m (Option.mem_toList.mp hm))).bind fun closing hclose => ?_
      refine Marks.ite (fun _ => Marks.pure ?_) fun _ => Marks.pure ?_
      · exact (hopening.behind hclose.marks).seq
      · have hgroup := hes.ofElements .arrayInitializer
        exact ((hopening.behind hgroup.withSpace.marks).behind hclose.withSpace.marks).seq

theorem marks_lambda (hn : n.Parts x depth) :
    Marks x spacing (lambda x build n) fun c => Opens spacing n.opening? c.toList := by
  rw [hn.opening?_eq]
  refine marks_sequence fun c hc s parts hparts => ?_
  have hfine := hn.fine c hc
  split_ifs with hk
  · exact marks_spaced hparts (marks_list hb _ (hfine.below hk))
  · exact marks_spaced hparts (hb c hfine)

end Expressions

end CodeLayout.Build
