import CodeLayout.Chunk.Expression
import CodeLayout.Proofs.Account.Lists

/-!
# Expressions settle their nodes

An assignment, a sign with its operand and a step of a chain of selections are read by the places
of their children, and a formed tree has no more of them.
-/

namespace CodeLayout.Build

open Chunk Node

/-- The indices of the leaves of a step of a chain. -/
def Selection.ids (s : Selection) : List Nat :=
  s.dot.ids ++ s.member.toList.flatMap Node.ids

/-- Whether the nodes of a step of a chain are fine. -/
def Selection.Fine (x : BuildContext) (depth : Nat) (s : Selection) : Prop :=
  s.dot.Fine x depth ∧ ∀ m ∈ s.member.toList, m.Fine x depth

variable {x : BuildContext} {build : NodeBuilder} {depth : Nat} {n : Node} {ns : List Node}
  {ids : List Nat} {parts : List Chunk}

section Expressions

variable (hb : Completes x build depth)
include hb

omit hb in
/-- An element behind a space, in front of others. -/
theorem settles_spaced_element {c : Chunk} {m : Build (List Chunk)} (hc : c.IsHead)
    (hm : Settles m ids fun es => ∀ e ∈ es, e.Neat) :
    Settles (do
      let e ← element x n c.withSpace
      return e :: (← m)) ids fun es => ∀ e ∈ es, e.Neat :=
  Settles.element (neat_withSpace.mpr hc.neat) fun _ he _ =>
    hm.last fun _ hes => List.forall_mem_cons.mpr ⟨he, hes⟩

theorem settles_operands {ns : List Node} (hns : ∀ n ∈ ns, n.Fine x depth) :
    Settles (operands x build ns) (ns.flatMap Node.ids) fun es => ∀ e ∈ es, e.Neat := by
  match ns with
  | [] => exact Settles.pure (by simp)
  | [op] =>
      rw [operands, List.flatMap_cons]
      refine (hb op (hns op (by simp))).bind ?_
      rintro _ ⟨c, rfl, hc⟩
      exact settles_spaced_element hc (m := Pure.pure []) (Settles.pure (by simp))
  | op :: operand :: rest =>
      rw [operands, List.flatMap_cons, List.flatMap_cons]
      refine (hb op (hns op (by simp))).bind ?_
      rintro _ ⟨c, rfl, hc⟩
      refine (hb operand (hns operand (by simp))).bind ?_
      rintro _ ⟨d, rfl, hd⟩
      obtain ⟨e, he, hhead⟩ := isBuilt_sequence
        (isFilled_spaced (isFilled_spaced isRow_nil hc).toIsRow hd)
      dsimp only
      rw [he]
      exact settles_spaced_element hhead (settles_operands fun m hm => hns m (by simp [hm]))
termination_by ns.length

theorem settles_binary (hn : n.Parts x depth) : Settles (binary x build n) n.ids IsBuilt := by
  obtain ⟨hne, hfine, hids⟩ := hn
  rw [hids, binary]
  cases hchildren : n.children with
  | nil => exact absurd hchildren hne
  | cons first rest =>
      rw [hchildren] at hfine
      rw [List.flatMap_cons]
      refine (hb first (hfine first List.mem_cons_self)).bind ?_
      rintro _ ⟨c, rfl, hc⟩
      refine (settles_operands hb fun m hm => hfine m (List.mem_cons_of_mem first hm)).last ?_
      exact fun es hes => ⟨_, rfl, (hc.cons hes).ofElements _⟩

theorem settles_assign (hn : n.Parts x depth) (htakes : n.children.length ≤ 3) :
    Settles (assign x build n) n.ids IsBuilt := by
  obtain ⟨hne, hfine, hids⟩ := hn
  rw [hids, assign]
  generalize n.children = children at hne hfine htakes ⊢
  match children with
  | [] => exact absurd rfl hne
  | [lhs] =>
      rw [List.flatMap_singleton]
      refine (hb lhs (hfine lhs (by simp))).last ?_
      rintro _ ⟨c, rfl, hc⟩
      exact isBuilt_sequence (isFilled_glued isRow_nil hc)
  | [lhs, op] =>
      rw [List.flatMap_cons, List.flatMap_singleton]
      refine (hb lhs (hfine lhs (by simp))).bind ?_
      rintro _ ⟨c, rfl, hc⟩
      refine (hb op (hfine op (by simp))).last ?_
      rintro _ ⟨d, rfl, hd⟩
      exact isBuilt_sequence (isFilled_spaced (isFilled_glued isRow_nil hc).toIsRow hd)
  | [lhs, op, rhs] =>
      rw [List.flatMap_cons, List.flatMap_cons, List.flatMap_singleton]
      refine (hb lhs (hfine lhs (by simp))).bind ?_
      rintro _ ⟨c, rfl, hc⟩
      refine (hb op (hfine op (by simp))).bind ?_
      rintro _ ⟨d, rfl, hd⟩
      obtain ⟨l, hl, hhead⟩ := isBuilt_sequence
        (isFilled_spaced (isFilled_glued isRow_nil hc).toIsRow hd)
      dsimp only
      rw [hl]
      exact settles_assignment hb hhead (hfine rhs (by simp))
  | _ :: _ :: _ :: _ :: _ =>
      simp only [List.length_cons] at htakes
      omega

theorem settles_branches {ns : List Node} (hns : ∀ n ∈ ns, n.Fine x depth) :
    Settles (branches x build ns) (ns.flatMap Node.ids) fun es => ∀ e ∈ es, e.Neat := by
  match ns with
  | [] => exact Settles.pure (by simp)
  | [op] =>
      rw [branches, List.flatMap_cons]
      refine (hb op (hns op (by simp))).bind ?_
      rintro _ ⟨c, rfl, hc⟩
      exact settles_spaced_element hc (m := Pure.pure []) (Settles.pure (by simp))
  | op :: other :: rest =>
      rw [branches, List.flatMap_cons]
      refine (hb op (hns op (by simp))).bind ?_
      rintro _ ⟨c, rfl, hc⟩
      refine Settles.ite (fun _ => ?_) fun _ => ?_
      · exact settles_spaced_element hc (settles_branches fun m hm => hns m (by simp_all))
      · rw [List.flatMap_cons]
        refine (hb other (hns other (by simp))).bind ?_
        rintro _ ⟨d, rfl, hd⟩
        obtain ⟨e, he, hhead⟩ := isBuilt_sequence
          (isFilled_spaced (isFilled_spaced isRow_nil hc).toIsRow hd)
        rw [he]
        exact settles_spaced_element hhead (settles_branches fun m hm => hns m (by simp [hm]))
termination_by ns.length

theorem settles_conditional (hn : n.Parts x depth) :
    Settles (conditional x build n) n.ids IsBuilt := by
  obtain ⟨hne, hfine, hids⟩ := hn
  rw [hids, conditional]
  cases hchildren : n.children with
  | nil => exact absurd hchildren hne
  | cons first rest =>
      rw [hchildren] at hfine
      rw [List.flatMap_cons]
      refine (hb first (hfine first List.mem_cons_self)).bind ?_
      rintro _ ⟨c, rfl, hc⟩
      refine (settles_branches hb fun m hm => hfine m (List.mem_cons_of_mem first hm)).last ?_
      exact fun es hes => ⟨_, rfl, (hc.cons hes).ofElements _⟩

theorem settles_unary (hn : n.Parts x depth) (htakes : n.children.length ≤ 2) :
    Settles (unary build n) n.ids IsBuilt := by
  obtain ⟨hne, hfine, hids⟩ := hn
  rw [hids, unary]
  generalize n.children = children at hne hfine htakes ⊢
  match children with
  | [] => exact absurd rfl hne
  | [op] =>
      rw [List.flatMap_singleton]
      exact hb op (hfine op (by simp))
  | [op, operand] =>
      rw [List.flatMap_cons, List.flatMap_singleton]
      refine (hb op (hfine op (by simp))).bind ?_
      rintro _ ⟨c, rfl, hc⟩
      refine (hb operand (hfine operand (by simp))).last ?_
      rintro _ ⟨d, rfl, hd⟩
      refine ⟨_, rfl, (hc.cons ?_).seq⟩
      split_ifs <;> simpa using hd.neat
  | _ :: _ :: _ :: _ => simp at htakes

theorem settles_castParts (hns : ∀ n ∈ ns, n.Fine x depth) (behindParen : Bool)
    (hparts : IsRow parts) (hfull : parts ≠ [] ∨ ns ≠ []) :
    Settles (castParts build behindParen parts ns) (ns.flatMap Node.ids) IsFilled := by
  induction ns generalizing behindParen parts with
  | nil => exact Settles.pure ⟨hparts, by simpa using hfull⟩
  | cons n ns ih =>
      rw [castParts, List.flatMap_cons]
      refine (hb n (hns n List.mem_cons_self)).bind ?_
      rintro _ ⟨c, rfl, hc⟩
      have hfilled : IsFilled (if behindParen then spaced parts (some c)
          else glued parts (some c)) := by
        split_ifs
        · exact isFilled_spaced hparts hc
        · exact isFilled_glued hparts hc
      exact ih (fun m hm => hns m (List.mem_cons_of_mem n hm)) _ hfilled.toIsRow
        (Or.inl hfilled.ne_nil)

theorem settles_cast (hn : n.Parts x depth) : Settles (cast build n) n.ids IsBuilt := by
  rw [hn.ids]
  exact (settles_castParts hb hn.fine false isRow_nil (Or.inr hn.ne_nil)).last
    fun _ h => isBuilt_sequence h

theorem settles_call (hn : n.Parts x depth) : Settles (call x build n) n.ids IsBuilt := by
  rw [hn.ids]
  refine settles_sequence hn.ne_nil fun c hc parts hparts => ?_
  have hfine := hn.fine c hc
  split_ifs with hk
  · exact settles_glued hparts (settles_list hb _ (hfine.below hk))
  · exact settles_glued hparts (hb c hfine)

omit hb in
/-- A selection has the leaves of its base and of a step, and at most a member is behind the dot. -/
theorem selection_fine {start stop : Nat} {base dot : Node} {more : List Node}
    (hn : (branch .select start stop (base :: dot :: more)).Parts x depth)
    (htakes : NodeKind.select.Takes (base :: dot :: more)) :
    base.Fine x depth ∧ (Selection.mk dot more.head?).Fine x depth ∧
      (branch .select start stop (base :: dot :: more)).ids =
        base.ids ++ (Selection.mk dot more.head?).ids := by
  obtain ⟨-, hfine, hids⟩ := hn
  obtain ⟨hbase, hdot, hmore⟩ : base.Fine x depth ∧ dot.Fine x depth ∧
      ∀ m ∈ more, m.Fine x depth := by simpa [Node.children] using hfine
  have hhead : more.head?.toList = more := by
    rcases more with _ | ⟨m, _ | ⟨_, _⟩⟩
    · rfl
    · rfl
    · simp [NodeKind.Takes] at htakes
  refine ⟨hbase, ⟨hdot, by rwa [hhead]⟩, ?_⟩
  rw [hids, Selection.ids, hhead]
  rfl

omit hb in
/-- The base and the steps of a chain have the leaves of the chain. -/
theorem selections_fine (hn : n.Fine x depth) :
    (selections n).1.Fine x depth ∧ (∀ s ∈ (selections n).2, s.Fine x depth) ∧
      n.ids = (selections n).1.ids ++ (selections n).2.reverse.flatMap Selection.ids := by
  induction n using selections.induct with
  | case1 start stop base dot more _ _ _ ih =>
      have hk : (branch .select start stop (base :: dot :: more)).isKind .select = true := rfl
      obtain ⟨hbase, hs, hids⟩ := selection_fine (hn.below hk) (hn.formed.takes hk)
      obtain ⟨hroot, hsteps, hbaseIds⟩ := ih hbase
      rw [selections]
      refine ⟨hroot, List.forall_mem_cons.mpr ⟨hs, hsteps⟩, ?_⟩
      rw [hids, hbaseIds]
      simp
  | case2 n hother =>
      have heq : selections n = (n, []) := by
        rw [selections.eq_def]
        split
        · exact absurd rfl (hother _ _ _ _ _)
        · rfl
      rw [heq]
      exact ⟨hn, by simp, by simp⟩

theorem settles_selected {s : Selection} (hs : s.Fine x depth) (hparts : IsRow parts) :
    Settles (selected build parts s) s.ids IsFilled := by
  refine (hb s.dot hs.1).bind ?_
  rintro _ ⟨c, rfl, hc⟩
  have hfilled := isFilled_glued hparts hc
  refine (settles_optional hb hs.2).last ?_
  rintro d ⟨hd, -⟩
  cases d with
  | none => exact hfilled
  | some d => exact isFilled_glued hfilled.toIsRow (hd d (by simp))

theorem settles_chainElements {steps : List Selection} (hs : ∀ s ∈ steps, s.Fine x depth)
    (start : Node) (hparts : IsFilled parts) :
    Settles (chainElements x build start parts steps) (steps.flatMap Selection.ids) IsFilled := by
  induction steps generalizing start parts with
  | nil =>
      obtain ⟨c, hc, hhead⟩ := isBuilt_sequence hparts
      rw [chainElements, hc]
      refine Settles.element hhead.neat fun e he hsame => Settles.pure ?_
      exact isFilled_singleton ⟨hsame hhead.toIsFirst, he⟩
  | cons s rest ih =>
      have hstep := hs s List.mem_cons_self
      have hrest : ∀ s' ∈ rest, s'.Fine x depth := fun s' hs' => hs s' (List.mem_cons_of_mem s hs')
      rw [chainElements, List.flatMap_cons]
      refine Settles.ite (fun _ => ?_) fun _ => ?_
      · -- The element at hand is done, and the call starts the next one.
        obtain ⟨c, hc, hhead⟩ := isBuilt_sequence hparts
        rw [hc, Option.toList_some, List.mapM_cons, List.mapM_nil, bind_assoc]
        refine Settles.element hhead.neat fun e he hsame => ?_
        simp only [pure_bind]
        refine (settles_selected hb hstep isRow_nil).bind fun behind hbehind => ?_
        refine (ih hrest s.dot hbehind).last fun es hes => ?_
        exact (isFilled_singleton ⟨hsame hhead.toIsFirst, he⟩).append hes.neat
      · exact (settles_selected hb hstep hparts.toIsRow).bind fun parts' hparts' =>
          ih hrest start hparts'

theorem settles_selectChain {start stop : Nat} {children : List Node}
    (hn : (branch .select start stop children).Parts x depth)
    (htakes : NodeKind.select.Takes children) :
    Settles (selectChain x build (branch .select start stop children))
      (branch .select start stop children).ids IsBuilt := by
  match children with
  | [] => simp [NodeKind.Takes] at htakes
  | [_] => simp [NodeKind.Takes] at htakes
  | base :: dot :: more =>
      obtain ⟨hbase, hs, hids⟩ := selection_fine hn htakes
      obtain ⟨hroot, hsteps, hbaseIds⟩ := selections_fine hbase
      have hall : ∀ s ∈ (⟨dot, more.head?⟩ :: (selections base).2).reverse, s.Fine x depth :=
        fun s hmem => (List.forall_mem_cons.mpr ⟨hs, hsteps⟩) s (List.mem_reverse.mp hmem)
      rw [hids, hbaseIds, List.append_assoc, selectChain, selections]
      rw [show (selections base).2.reverse.flatMap Selection.ids ++
        (Selection.mk dot more.head?).ids =
          (⟨dot, more.head?⟩ :: (selections base).2).reverse.flatMap Selection.ids by simp]
      refine (hb _ hroot).bind ?_
      rintro _ ⟨c, rfl, hc⟩
      have hfirst : IsFilled (glued [] (some c)) := isFilled_glued isRow_nil hc
      refine Settles.ite (fun _ => ?_) fun _ => ?_
      · refine (Settles.foldlM hfirst fun s hs parts hparts => ?_).last
          fun _ h => isBuilt_sequence h
        exact settles_selected hb (hall s hs) hparts.toIsRow
      · exact (settles_chainElements hb hall _ hfirst).last
          fun es hes => ⟨_, rfl, hes.ofElements _⟩

theorem settles_creation (hn : n.Parts x depth) : Settles (creation x build n) n.ids IsBuilt := by
  rw [hn.ids]
  refine settles_sequence_zipIdx hn.ne_nil fun c hc i parts hparts _ => ?_
  have hfine := hn.fine c hc
  dsimp only
  split_ifs with _ hk
  · exact settles_spaced hparts (hb c hfine)
  · exact settles_glued hparts (settles_list hb _ (hfine.below hk))
  · exact settles_glued hparts (hb c hfine)

theorem settles_arrayInit (hn : n.Parts x depth) :
    Settles (arrayInit x build n) n.ids IsBuilt := by
  obtain ⟨hne, hfine, hids⟩ := hn
  rw [hids, arrayInit]
  cases hchildren : n.children with
  | nil => exact absurd hchildren hne
  | cons first rest =>
      rw [hchildren] at hfine
      have hsplit := splitClosing_append (isText "\x7d") rest
      obtain ⟨hin, hclosing⟩ := splitClosing_mem (isText "\x7d") rest
      have hrest : ∀ m ∈ rest, m.Fine x depth := fun m hm => hfine m (List.mem_cons_of_mem first hm)
      have hrestIds : rest.flatMap Node.ids =
          (splitClosing (isText "\x7d") rest).1.flatMap Node.ids ++
            (splitClosing (isText "\x7d") rest).2.toList.flatMap Node.ids := by
        rw [← List.flatMap_append, hsplit]
      rw [List.flatMap_cons, hrestIds]
      refine (hb first (hfine first List.mem_cons_self)).bind ?_
      rintro _ ⟨opening, rfl, hopening⟩
      refine (settles_elements hb _ true fun m hm => hrest m (hin m hm)).bind fun es hes => ?_
      refine (settles_optional hb fun m hm =>
        hrest m (hclosing m (Option.mem_toList.mp hm))).ended ?_
      rintro closing ⟨hheads, -⟩
      refine Settles.ite (fun _ => Settles.pure ?_) fun hnonempty => Settles.pure ?_
      · exact ⟨_, rfl, (hopening.cons fun d hd => (hheads d hd).neat).seq⟩
      · have hes' : IsFilled es := ⟨hes.isRow, by simpa using hnonempty⟩
        refine ⟨_, rfl, IsFilled.seq ((hopening.cons ?_).append ?_)⟩
        · simpa using (hes'.ofElements .arrayInitializer).neat
        · intro d hd
          obtain ⟨e, he, rfl⟩ := List.mem_map.mp hd
          exact neat_withSpace.mpr (hheads e he).neat

theorem settles_lambda (hn : n.Parts x depth) : Settles (lambda x build n) n.ids IsBuilt := by
  rw [hn.ids]
  refine settles_sequence hn.ne_nil fun c hc parts hparts => ?_
  have hfine := hn.fine c hc
  split_ifs with hk
  · exact settles_spaced hparts (settles_list hb _ (hfine.below hk))
  · exact settles_spaced hparts (hb c hfine)

end Expressions

end CodeLayout.Build
