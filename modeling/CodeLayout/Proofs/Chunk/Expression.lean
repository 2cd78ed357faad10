import CodeLayout.Chunk.Expression
import CodeLayout.Proofs.Chunk.Lists

/-!
# Expressions lay what they hold
-/

namespace CodeLayout.Build

open Chunk

variable {x : BuildContext} {regions : Regions} {build : NodeBuilder} {before : List Leaf}
  {n : Node}

theorem adds_operands (hb : Keeps x regions build) {ns : List Node}
    (hns : ∀ n ∈ ns, n.Within x.tokens) : Adds x regions (operands x build ns) contentAll := by
  intro before
  match ns with
  | [] => exact Adds.pure rfl before
  | [op] =>
      rw [operands]
      refine Lays.add (hb op (hns op (by simp))) fun c => ?_
      cases c with
      | none => exact Lays.pure (by simp)
      | some c =>
          rw [contentAny_some]
          exact lays_element_singleton (content_withSpace c)
  | op :: operand :: rest =>
      have hrest : Adds x regions (operands x build rest) contentAll :=
        adds_operands hb fun m hm => hns m (by simp [hm])
      rw [operands]
      refine Lays.add (hb op (hns op (by simp))) fun c => ?_
      refine Lays.add (hb operand (hns operand (by simp))) fun d => ?_
      have hparts : contentAny c ++ contentAny d =
          contentAny (sequence (spaced (spaced [] c) d)) := by simp
      rw [List.append_assoc, hparts]
      extract_lets parts
      change Lays x regions _ (before ++ contentAny (sequence parts)) _
      cases sequence parts with
      | none => simpa using hrest before
      | some e =>
          rw [contentAny_some]
          exact lays_element_cons (content_withSpace e) hrest
termination_by ns.length

theorem adds_binary (hb : Keeps x regions build) (hn : n.Within x.tokens) :
    Adds x regions (binary x build n) contentAny := by
  intro before
  rw [binary]
  have hchildren := hn.children
  generalize n.children = children at hchildren ⊢
  cases children with
  | nil => exact Lays.pure (by simp)
  | cons first rest =>
      refine Lays.add (hb first (hchildren first List.mem_cons_self)) fun c => ?_
      have hrest := adds_operands hb fun m hm => hchildren m (List.mem_cons_of_mem first hm)
      exact Lays.add hrest fun cs => Lays.pure (by simp)

theorem adds_assign (hb : Keeps x regions build) (hn : n.Within x.tokens) :
    Adds x regions (assign x build n) contentAny := by
  intro before
  rw [assign]
  have hchildren := hn.children
  generalize n.children = children at hchildren ⊢
  match children with
  | [] => exact Lays.pure (by simp)
  | [lhs] =>
      refine Lays.add (hb lhs (hchildren lhs (by simp))) fun l => Lays.pure ?_
      simp
  | [lhs, op] =>
      refine Lays.add (hb lhs (hchildren lhs (by simp))) fun l => ?_
      refine Lays.add (hb op (hchildren op (by simp))) fun o => Lays.pure ?_
      simp
  | lhs :: op :: rhs :: _ =>
      refine Lays.add (hb lhs (hchildren lhs (by simp))) fun l => ?_
      refine Lays.add (hb op (hchildren op (by simp))) fun o => ?_
      have hl : contentAny l ++ contentAny o = contentAny (sequence (spaced (glued [] l) o)) := by
        simp
      rw [List.append_assoc, hl]
      exact lays_assignment hb _ (hchildren rhs (by simp))

theorem adds_branches (hb : Keeps x regions build) {ns : List Node}
    (hns : ∀ n ∈ ns, n.Within x.tokens) : Adds x regions (branches x build ns) contentAll := by
  intro before
  match ns with
  | [] => exact Adds.pure rfl before
  | [op] =>
      rw [branches]
      refine Lays.add (hb op (hns op (by simp))) fun c => ?_
      cases c with
      | none => exact Lays.pure (by simp)
      | some c =>
          rw [contentAny_some]
          exact lays_element_singleton (content_withSpace c)
  | op :: branch :: rest =>
      have htail : Adds x regions (branches x build (branch :: rest)) contentAll :=
        adds_branches hb fun m hm => hns m (by simp_all)
      have hrest : Adds x regions (branches x build rest) contentAll :=
        adds_branches hb fun m hm => hns m (by simp [hm])
      rw [branches]
      refine Lays.add (hb op (hns op (by simp))) fun c => ?_
      refine Lays.ite (fun _ => ?_) fun _ => ?_
      · cases c with
        | none => simpa using htail before
        | some c =>
            rw [contentAny_some]
            exact lays_element_cons (content_withSpace c) htail
      · refine Lays.add (hb branch (hns branch (by simp))) fun d => ?_
        have hparts : contentAny c ++ contentAny d =
            contentAny (sequence (spaced (spaced [] c) d)) := by simp
        rw [List.append_assoc, hparts]
        cases sequence (spaced (spaced [] c) d) with
        | none => simpa using hrest before
        | some e =>
            rw [contentAny_some]
            exact lays_element_cons (content_withSpace e) hrest
termination_by ns.length

theorem adds_conditional (hb : Keeps x regions build) (hn : n.Within x.tokens) :
    Adds x regions (conditional x build n) contentAny := by
  intro before
  rw [conditional]
  have hchildren := hn.children
  generalize n.children = children at hchildren ⊢
  cases children with
  | nil => exact Lays.pure (by simp)
  | cons cond rest =>
      refine Lays.add (hb cond (hchildren cond List.mem_cons_self)) fun c => ?_
      have hrest := adds_branches hb fun m hm => hchildren m (List.mem_cons_of_mem cond hm)
      exact Lays.add hrest fun cs => Lays.pure (by simp)

theorem adds_unary (hb : Keeps x regions build) (hn : n.Within x.tokens) :
    Adds x regions (unary build n) contentAny := by
  intro before
  rw [unary]
  have hchildren := hn.children
  generalize n.children = children at hchildren ⊢
  match children with
  | [] => exact Lays.pure (by simp)
  | [op] => exact hb op (hchildren op (by simp)) before
  | op :: operand :: _ =>
      refine Lays.add (hb op (hchildren op (by simp))) fun o => ?_
      refine Lays.add (hb operand (hchildren operand (by simp))) fun c => Lays.pure ?_
      split_ifs <;> simp

theorem extends_castParts (hb : Keeps x regions build) {ns : List Node}
    (hns : ∀ n ∈ ns, n.Within x.tokens) (behindParen : Bool) (parts : List Chunk) :
    Extends x regions (castParts build behindParen parts ns) parts := by
  induction ns generalizing behindParen parts with
  | nil => exact Extends.pure
  | cons n ns ih =>
      rw [castParts]
      have hrest := ih fun m hm => hns m (List.mem_cons_of_mem n hm)
      refine Extends.part (hb n (hns n List.mem_cons_self)) (fun c => ?_) fun c => hrest _ _
      split_ifs <;> simp

theorem adds_cast (hb : Keeps x regions build) (hn : n.Within x.tokens) :
    Adds x regions (cast build n) contentAny :=
  (extends_castParts hb hn.children false []).sequence

theorem adds_call (hb : Keeps x regions build) (hn : n.Within x.tokens) :
    Adds x regions (call x build n) contentAny := by
  refine adds_foldlM fun c hc parts => ?_
  have hc := hn.children c hc
  split_ifs
  · exact extends_glued (adds_list hb _ hc.children)
  · exact extends_glued (hb c hc)

/-- Whether the nodes of a step of a chain are within a stream. -/
def Selection.Within (ts : Array Token) (s : Selection) : Prop :=
  s.dot.Within ts ∧ ∀ m ∈ s.member, m.Within ts

theorem selections_within {ts : Array Token} (hn : n.Within ts) :
    (selections n).1.Within ts ∧ ∀ s ∈ (selections n).2, s.Within ts := by
  induction n using selections.induct with
  | case1 start stop base dot more root steps heq ih =>
      have hchildren := hn.children
      simp only [Node.children] at hchildren
      have hbase := ih (hchildren base (by simp))
      rw [heq] at hbase
      rw [selections, heq]
      refine ⟨hbase.1, fun s hs => ?_⟩
      rcases List.mem_cons.mp hs with rfl | hs
      · refine ⟨hchildren dot (by simp), fun m hm => hchildren m ?_⟩
        simp [List.mem_of_mem_head? hm]
      · exact hbase.2 s hs
  | case2 n hother =>
      rw [selections.eq_def]
      split
      · exact absurd rfl (hother _ _ _ _ _)
      · exact ⟨hn, by simp⟩

theorem extends_selected (hb : Keeps x regions build) {s : Selection} (hs : s.Within x.tokens)
    (parts : List Chunk) : Extends x regions (selected build parts s) parts :=
  Extends.part (hb s.dot hs.1) (contentAll_glued parts) fun _ =>
    extends_glued (adds_optional hb hs.2)

theorem lays_chainElements (hb : Keeps x regions build) {steps : List Selection}
    (hs : ∀ s ∈ steps, s.Within x.tokens) (start : Node) (parts : List Chunk) :
    Lays x regions (chainElements x build start parts steps) (before ++ contentAll parts)
      fun cs after => after = before ++ contentAll cs := by
  induction steps generalizing before start parts with
  | nil =>
      rw [chainElements, ← contentAny_sequence]
      cases sequence parts with
      | none => exact Lays.pure (by simp)
      | some c =>
          rw [contentAny_some]
          exact lays_element_singleton rfl
  | cons s rest ih =>
      have hstep := hs s List.mem_cons_self
      have hrest : ∀ {before} start parts, Lays x regions (chainElements x build start parts rest)
          (before ++ contentAll parts) fun cs after => after = before ++ contentAll cs :=
        ih fun s' hs' => hs s' (List.mem_cons_of_mem s hs')
      rw [chainElements]
      refine Lays.ite (fun _ => ?_) fun _ => ?_
      · -- The element at hand is done, and the call starts the next one.
        have hdone : ∀ {k : List Chunk → Build (List Chunk)}, (∀ done,
            contentAll done = contentAll parts → Lays x regions (k done)
              (before ++ contentAll parts) fun cs after => after = before ++ contentAll cs) →
            Lays x regions ((sequence parts).toList.mapM (element x start) >>= k)
              (before ++ contentAll parts) fun cs after => after = before ++ contentAll cs := by
          intro k hk
          have hseq := contentAny_sequence parts
          generalize sequence parts = whole at hseq ⊢
          cases whole with
          | none => exact hk [] hseq
          | some c =>
              rw [Option.toList_some, List.mapM_cons, bind_assoc]
              refine Lays.element fun e he => hk [e] ?_
              simpa [he] using hseq
        refine hdone fun done hdone => ?_
        have hsel := extends_selected hb hstep [] (before ++ contentAll parts)
        rw [contentAll_nil, List.append_nil] at hsel
        refine hsel.bind ?_
        rintro selected _ rfl
        refine (hrest s.dot selected).bind ?_
        rintro cs _ rfl
        exact Lays.pure (by simp [hdone])
      · refine (extends_selected hb hstep parts before).bind ?_
        rintro parts' _ rfl
        exact hrest start parts'

theorem adds_selectChain (hb : Keeps x regions build) (hn : n.Within x.tokens) :
    Adds x regions (selectChain x build n) contentAny := by
  intro before
  rw [selectChain]
  obtain ⟨hbase, hsteps⟩ := selections_within hn
  have hrev : ∀ s ∈ (selections n).2.reverse, s.Within x.tokens := fun s hs =>
    hsteps s (List.mem_reverse.mp hs)
  refine Lays.add (hb _ hbase) fun c => ?_
  have hfirst : contentAny c = contentAll (glued [] c) := by simp
  rw [hfirst]
  refine Lays.ite (fun _ => ?_) fun _ => ?_
  · have hfold : Extends x regions ((selections n).2.reverse.foldlM (selected build) (glued [] c))
        (glued [] c) :=
      Extends.foldlM fun s hs parts => extends_selected hb (hrev s hs) parts
    refine (hfold before).bind ?_
    rintro parts _ rfl
    exact Lays.pure (by simp)
  · refine (lays_chainElements hb hrev _ _).bind ?_
    rintro cs _ rfl
    exact Lays.pure (by simp)

theorem adds_creation (hb : Keeps x regions build) (hn : n.Within x.tokens) :
    Adds x regions (creation x build n) contentAny := by
  refine adds_foldlM ?_
  rintro ⟨c, i⟩ hc parts
  have hc := hn.children c (List.fst_mem_of_mem_zipIdx hc)
  dsimp only
  split_ifs
  · exact extends_spaced (hb c hc)
  · exact extends_glued (adds_list hb _ hc.children)
  · exact extends_glued (hb c hc)

theorem adds_arrayInit (hb : Keeps x regions build) (hn : n.Within x.tokens) :
    Adds x regions (arrayInit x build n) contentAny := by
  intro before
  rw [arrayInit]
  have hchildren := hn.children
  generalize n.children = children at hchildren ⊢
  cases children with
  | nil => exact Lays.pure (by simp)
  | cons first rest =>
      obtain ⟨hin, hclosing⟩ := splitClosing_mem (isText "\x7d") rest
      have hrest : ∀ m ∈ rest, m.Within x.tokens := fun m hm =>
        hchildren m (List.mem_cons_of_mem first hm)
      refine Lays.add (hb first (hchildren first List.mem_cons_self)) fun opening => ?_
      refine Lays.add (adds_elements hb _ true fun m hm => hrest m (hin m hm)) fun es => ?_
      refine Lays.add (adds_optional hb fun m hm => hrest m (hclosing m hm)) fun closing => ?_
      refine Lays.ite (fun hempty => Lays.pure ?_) fun _ => Lays.pure ?_
      · simp [List.isEmpty_iff.mp hempty]
      · simp

theorem adds_lambda (hb : Keeps x regions build) (hn : n.Within x.tokens) :
    Adds x regions (lambda x build n) contentAny := by
  refine adds_foldlM fun c hc parts => ?_
  have hc := hn.children c hc
  split_ifs
  · exact extends_spaced (adds_list hb _ hc.children)
  · exact extends_spaced (hb c hc)

end CodeLayout.Build
