import CodeLayout.Proofs.Chunk.Laid

/-!
# Lists and types lay what they hold

Each builder lays what its result holds if the builder of the nodes below does.
-/

namespace CodeLayout.Build

open Chunk

/-- A builder of nodes lays what its results hold. -/
def Keeps (x : BuildContext) (regions : Regions) (build : NodeBuilder) : Prop :=
  ∀ n, n.Within x.tokens → Adds x regions (build n) contentAny

variable {x : BuildContext} {regions : Regions} {build : NodeBuilder} {before : List Leaf}
  {n : Node} {ns : List Node}

theorem adds_gluedNodes (hb : Keeps x regions build) (hns : ∀ n ∈ ns, n.Within x.tokens) :
    Adds x regions (gluedNodes build ns) contentAny :=
  adds_foldlM fun n hn _ => extends_glued (hb n (hns n hn))

theorem adds_spacedNodes (hb : Keeps x regions build) (hns : ∀ n ∈ ns, n.Within x.tokens) :
    Adds x regions (spacedNodes build ns) contentAny :=
  adds_foldlM fun n hn _ => extends_spaced (hb n (hns n hn))

/-- An element in front of others. -/
theorem lays_element_cons {c d : Chunk} {m : Build (List Chunk)} (hd : d.content = c.content)
    (hm : Adds x regions m contentAll) :
    Lays x regions (do let e ← element x n d; return e :: (← m)) (before ++ c.content)
      fun cs after => after = before ++ contentAll cs := by
  refine Lays.element fun e he => ?_
  refine Lays.add hm fun cs => Lays.pure ?_
  rw [contentAll_cons, he, hd, List.append_assoc]

/-- A last element. -/
theorem lays_element_singleton {c d : Chunk} (hd : d.content = c.content) :
    Lays x regions (do return [← element x n d]) (before ++ c.content)
      fun cs after => after = before ++ contentAll cs := by
  refine Lays.element fun e he => Lays.pure ?_
  rw [contentAll_cons, he, hd, contentAll_nil, List.append_nil]

theorem content_spacedUnless (isFirst : Bool) (c : Chunk) :
    (if isFirst then c else c.withSpace).content = c.content := by
  split_ifs
  · rfl
  · exact content_withSpace c

theorem adds_elements (hb : Keeps x regions build) (sep : Bytes) (isFirst : Bool)
    {ns : List Node} (hns : ∀ n ∈ ns, n.Within x.tokens) :
    Adds x regions (elements x build sep isFirst ns) contentAll := by
  intro before
  match ns with
  | [] => exact Adds.pure rfl before
  | [n] =>
      rw [elements]
      refine Lays.add (hb n (hns n (by simp))) fun c => ?_
      cases c with
      | none => exact Lays.pure (by simp)
      | some c =>
          rw [contentAny_some]
          exact lays_element_singleton (content_spacedUnless isFirst c)
  | n :: s :: rest =>
      have htail : ∀ m ∈ s :: rest, m.Within x.tokens := fun m hm => hns m (by simp_all)
      have hrest : ∀ m ∈ rest, m.Within x.tokens := fun m hm => hns m (by simp [hm])
      rw [elements]
      refine Lays.add (hb n (hns n (by simp))) fun c => ?_
      refine Lays.ite (fun _ => ?_) fun _ => ?_
      · refine Lays.add (hb s (hns s (by simp))) fun mark => ?_
        have hparts : contentAny c ++ contentAny mark =
            contentAny (sequence (glued (glued [] c) mark)) := by simp
        rw [List.append_assoc, hparts]
        cases sequence (glued (glued [] c) mark) with
        | none => simpa using adds_elements hb sep isFirst hrest before
        | some c =>
            rw [contentAny_some]
            exact lays_element_cons (content_spacedUnless isFirst c)
              (adds_elements hb sep false hrest)
      · cases c with
        | none => simpa using adds_elements hb sep isFirst htail before
        | some c =>
            rw [contentAny_some]
            exact lays_element_cons (content_spacedUnless isFirst c)
              (adds_elements hb sep false htail)
termination_by ns.length

theorem adds_optional (hb : Keeps x regions build) {n : Option Node}
    (hn : ∀ m ∈ n, m.Within x.tokens) : Adds x regions (optional build n) contentAny := by
  cases n with
  | none => exact Adds.pure rfl
  | some n => exact hb n (hn n rfl)

/-- What is inside of brackets, and the closing one, are nodes that were given. -/
theorem splitClosing_mem (isClosing : Node → Bool) (ns : List Node) :
    (∀ n ∈ (splitClosing isClosing ns).1, n ∈ ns) ∧
      ∀ n ∈ (splitClosing isClosing ns).2, n ∈ ns := by
  rw [splitClosing]
  cases hlast : ns.getLast? with
  | none => simp
  | some last =>
      dsimp only
      split_ifs
      · refine ⟨fun n hn => List.dropLast_subset ns hn, fun n hn => ?_⟩
        cases hn
        exact List.mem_of_getLast? hlast
      · simp

theorem adds_list (hb : Keeps x regions build) (context : WrapContext)
    (hns : ∀ n ∈ ns, n.Within x.tokens) :
    Adds x regions (list x build context ns) contentAny := by
  intro before
  -- What is between the brackets, whether or not there is an opening one.
  have hinner : ∀ (opening : Option Chunk) (inner : List Node), (∀ n ∈ inner, n ∈ ns) →
      Lays x regions (do
        let es ← elements x build (ascii ",") true (splitClosing closesList inner).1
        return some (bracketed context opening
          (← optional build (splitClosing closesList inner).2) es))
        (before ++ contentAny opening) fun c after => after = before ++ contentAny c := by
    intro opening inner hmem
    obtain ⟨hin, hclosing⟩ := splitClosing_mem closesList inner
    refine Lays.add (adds_elements hb _ true fun n hn => hns n (hmem n (hin n hn))) fun es => ?_
    refine Lays.add (adds_optional hb fun n hn => hns n (hmem n (hclosing n hn))) fun closing => ?_
    exact Lays.pure (by simp)
  have hnone : Lays x regions (do
      let es ← elements x build (ascii ",") true (splitClosing closesList ns).1
      return some (bracketed context none (← optional build (splitClosing closesList ns).2) es))
      before fun c after => after = before ++ contentAny c := by
    simpa using hinner none ns fun n hn => hn
  cases ns with
  | nil => exact hnone
  | cons n rest =>
      rw [list]
      refine Lays.ite (fun _ => ?_) fun _ => ?_
      · refine Lays.add (hb n (hns n List.mem_cons_self)) fun opening => ?_
        exact hinner opening rest fun m hm => List.mem_cons_of_mem n hm
      · exact hnone

theorem adds_annot (hb : Keeps x regions build) (hn : n.Within x.tokens) :
    Adds x regions (annot x build n) contentAny := by
  refine adds_foldlM fun c hc parts => ?_
  have hc := hn.children c hc
  split_ifs
  · exact extends_glued (adds_list hb _ hc.children)
  · exact extends_glued (hb c hc)

theorem adds_type (hb : Keeps x regions build) (hn : n.Within x.tokens) :
    Adds x regions (type x build n) contentAny := by
  intro before
  rw [type]
  refine (Lays.foldlM (fun acc after => after = before ++ contentAll acc.1) (by simp)
    fun c hc acc now hnow => ?_).bind ?_
  · have hc := hn.children c hc
    subst hnow
    obtain ⟨parts, previous⟩ := acc
    rw [typePart.eq_def]
    cases c with
    | leaf id t =>
        refine Lays.add (hb _ hc) fun c => Lays.pure ?_
        split_ifs <;> simp
    | branch kind start stop children =>
        refine Lays.ite (fun _ => ?_) fun _ => ?_
        · refine Lays.add (adds_annot hb hc) fun c => Lays.pure ?_
          dsimp only
          split_ifs <;> simp
        · refine Lays.add (hb _ hc) fun c => Lays.pure ?_
          simp
  · rintro ⟨parts, previous⟩ _ rfl
    exact Lays.pure (by simp)

theorem adds_modifiers (hb : Keeps x regions build) (decl : Bool) (hn : n.Within x.tokens) :
    Adds x regions (modifiers x build decl n) contentAny := by
  intro before
  rw [modifiers]
  refine (Lays.foldlM (fun parts after => after = before ++ contentAll parts) (by simp)
    fun c hc parts now hnow => ?_).bind ?_
  · subst hnow
    refine Lays.add (hb c (hn.children c hc)) fun m => Lays.pure ?_
    split_ifs
    · rw [contentAll_spaced, contentAny_map, List.append_assoc]
      exact fun c => content_modify c fun _ => ⟨rfl, rfl⟩
    · simp
  · rintro parts _ rfl
    refine Lays.pure ?_
    rw [contentAny_map, contentAny_sequence]
    intro c
    split_ifs
    · exact content_modify c fun _ => ⟨rfl, rfl⟩
    · rfl

theorem adds_braces {item : NodeBuilder} (hb : Keeps x regions build)
    (hitem : Keeps x regions item) (hn : n.Within x.tokens) :
    Adds x regions (braces x build item n) contentAny := by
  intro before
  rw [braces]
  have hchildren := hn.children
  generalize n.children = children at hchildren ⊢
  cases children with
  | nil => exact Lays.pure (by simp)
  | cons first rest =>
      obtain ⟨hin, hclosing⟩ := splitClosing_mem (isText "\x7d") rest
      have hrest : ∀ m ∈ rest, m.Within x.tokens := fun m hm =>
        hchildren m (List.mem_cons_of_mem first hm)
      dsimp only
      refine Lays.add (hb first (hchildren first List.mem_cons_self)) fun opening => ?_
      refine Lays.add (adds_items fun m hm => hitem m (hrest m (hin m hm))) fun own => ?_
      cases hclose : (splitClosing (isText "\x7d") rest).2 with
      | none => exact Lays.pure (by simp)
      | some c =>
          refine Lays.add (adds_detach c.firstId? true) fun comments => ?_
          refine Lays.add (hb c (hrest c (hclosing c hclose))) fun closing => Lays.pure ?_
          simp

/-- The right side of an assignment behind a left side that is laid. -/
theorem lays_assignment (hb : Keeps x regions build) (lhs : Option Chunk) (hn : n.Within x.tokens) :
    Lays x regions (assignment x build lhs n) (before ++ contentAny lhs)
      fun c after => after = before ++ contentAny c := by
  rw [assignment]
  refine Lays.add (hb n hn) fun c => ?_
  cases c with
  | none => exact Lays.pure (by simp)
  | some r =>
      refine Lays.element fun e he => Lays.pure ?_
      simp [he]

theorem adds_param (hb : Keeps x regions build) (hn : n.Within x.tokens) :
    Adds x regions (param x build n) contentAny := by
  refine adds_foldlM fun c hc parts => ?_
  have hc := hn.children c hc
  split_ifs
  · exact extends_spaced (adds_modifiers hb false hc)
  · exact extends_glued (hb c hc)
  · exact extends_spaced (hb c hc)

theorem adds_varDecl (hb : Keeps x regions build) (decl : Bool) (hn : n.Within x.tokens) :
    Adds x regions (varDecl x build decl n) contentAny := by
  refine adds_foldlM fun c hc parts => ?_
  have hc := hn.children c hc
  split_ifs
  · exact extends_spaced (adds_modifiers hb decl hc)
  · exact extends_glued (hb c hc)
  · exact extends_spaced (hb c hc)

theorem keeps_item (hb : Keeps x regions build) : Keeps x regions (item x build) := fun n hn =>
  Adds.ite (fun _ => adds_varDecl hb true hn) fun _ => hb n hn

theorem keeps_block (hb : Keeps x regions build) : Keeps x regions (block x build) :=
  fun _ hn => adds_braces hb (keeps_item hb) hn

end CodeLayout.Build
