import CodeLayout.Chunk.Declaration
import CodeLayout.Proofs.Chunk.Lists

/-!
# Declarations lay what they hold
-/

namespace CodeLayout.Build

open Chunk

variable {x : BuildContext} {regions : Regions} {build : NodeBuilder} {before : List Leaf}
  {n : Node}

theorem extends_qualifiedParts (hb : Keeps x regions build) {ns : List Node}
    (hns : ∀ n ∈ ns, n.Within x.tokens) (named : Bool) (parts : List Chunk) :
    Extends x regions (qualifiedParts build named parts ns) parts := by
  induction ns generalizing named parts with
  | nil => exact Extends.pure
  | cons n ns ih =>
      have hn := hb n (hns n List.mem_cons_self)
      have hrest := ih fun m hm => hns m (List.mem_cons_of_mem n hm)
      rw [qualifiedParts]
      split_ifs
      · exact Extends.part hn (contentAll_spaced parts) fun _ => hrest _ _
      · exact Extends.part hn (contentAll_glued parts) fun _ => hrest _ _
      · exact Extends.part hn (contentAll_spaced parts) fun _ => hrest _ _

theorem adds_qualified (hb : Keeps x regions build) (hn : n.Within x.tokens) :
    Adds x regions (qualified build n) contentAny := by
  rw [qualified]
  have hchildren := hn.children
  generalize n.children = children at hchildren ⊢
  cases children with
  | nil => exact Adds.pure rfl
  | cons first rest =>
      have hfirst := hb first (hchildren first List.mem_cons_self)
      have hrest := extends_qualifiedParts hb (fun m hm =>
        hchildren m (List.mem_cons_of_mem first hm)) false
      exact Extends.sequence (Extends.part hfirst (contentAll_spaced []) fun c => hrest _)

theorem adds_clause (hb : Keeps x regions build) (context : WrapContext)
    (hn : n.Within x.tokens) : Adds x regions (clause x build context n) contentAny := by
  intro before
  rw [clause]
  have htypes : ∀ types, n.first? .typeList = some types → types.Within x.tokens := by
    intro types htypes
    exact hn.children types (List.mem_of_find?_eq_some htypes)
  have hchildren := hn.children
  generalize n.first? .typeList = types at htypes ⊢
  generalize n.children = children at hchildren ⊢
  cases children with
  | nil => exact Lays.pure (by simp)
  | cons wordNode rest =>
      refine Lays.add (hb wordNode (hchildren wordNode List.mem_cons_self)) fun word => ?_
      cases types with
      | none => exact Lays.pure rfl
      | some types =>
          have hin := (htypes types rfl).children
          refine Lays.add (adds_elements hb (ascii ",") true hin) fun es => ?_
          cases es with
          | nil => exact Lays.pure (by simp)
          | cons e es =>
              refine Lays.element fun d hd => Lays.pure ?_
              simp [hd]

theorem adds_typeList (hb : Keeps x regions build) (hn : n.Within x.tokens) :
    Adds x regions (typeList x build n) contentAny := by
  intro before
  exact Lays.add (adds_elements hb (ascii ",") true hn.children) fun es => Lays.pure (by simp)

/-- A child of a type declaration goes behind the parts before it. -/
theorem lays_typeHeadPart (hb : Keeps x regions build) (h : TypeHead) (hn : n.Within x.tokens) :
    Lays x regions (typeHeadPart x build h n) (before ++ contentAll h.parts)
      fun h' after => after = before ++ contentAll h'.parts := by
  cases n with
  | leaf id t =>
      refine Lays.add (hb _ hn) fun c => Lays.pure ?_
      dsimp only
      split_ifs <;> simp
  | branch kind start stop children =>
      have hspaced : ∀ {m : Build (Option Chunk)}, Adds x regions m contentAny →
          Lays x regions (do let c ← m; return { h with parts := spaced h.parts c })
            (before ++ contentAll h.parts)
            fun h' after => after = before ++ contentAll h'.parts :=
        fun hm => Lays.add hm fun c => Lays.pure (by simp)
      have hglued : ∀ {m : Build (Option Chunk)}, Adds x regions m contentAny →
          Lays x regions (do let c ← m; return { h with parts := glued h.parts c })
            (before ++ contentAll h.parts)
            fun h' after => after = before ++ contentAll h'.parts :=
        fun hm => Lays.add hm fun c => Lays.pure (by simp)
      rw [typeHeadPart.eq_def]
      dsimp only
      split
      · exact hspaced (adds_modifiers hb true hn)
      · exact hglued (adds_type hb hn)
      · exact hglued (adds_list hb _ hn.children)
      · exact hspaced (adds_clause hb _ hn)
      · exact hspaced (hb _ hn)

theorem adds_typeDecl (hb : Keeps x regions build) (hn : n.Within x.tokens) :
    Adds x regions (typeDecl x build n) contentAny := by
  intro before
  rw [typeDecl]
  refine (Lays.foldlM (fun h after => after = before ++ contentAll h.parts) (by simp)
    fun c hc h now hnow => ?_).bind ?_
  · subst hnow
    exact lays_typeHeadPart hb h (hn.children c hc)
  · rintro h _ rfl
    exact Lays.pure (by simp)

/-- The constants of an enumeration; what is left are nodes that were given. -/
theorem lays_constants (hb : Keeps x regions build) {ns : List Node}
    (hns : ∀ n ∈ ns, n.Within x.tokens) :
    Lays x regions (constants x build ns) before fun r after =>
      after = before ++ contentAll r.1 ∧ ∀ n ∈ r.2, n.Within x.tokens := by
  unfold constants
  -- The semicolon goes behind the constants, and then the item is finished.
  extract_lets finish ending
  have hfinish : ∀ (comments parts : List Chunk) (blank : Int) (rest : List Node),
      (∀ n ∈ rest, n.Within x.tokens) → Lays x regions (finish (comments, blank, parts, rest))
        (before ++ contentAll comments ++ contentAll parts) fun r after =>
          after = before ++ contentAll r.1 ∧ ∀ n ∈ r.2, n.Within x.tokens := by
    intro comments parts blank rest hrest
    refine Lays.pure ⟨?_, hrest⟩
    rw [contentAll_append, contentAll_map, contentAll_toList, contentAny_sequence,
      List.append_assoc]
    exact fun c => content_modify c fun _ => ⟨rfl, rfl⟩
  clear_value finish
  have hending : ∀ (comments parts : List Chunk) (blank : Int) (rest : List Node),
      (∀ n ∈ rest, n.Within x.tokens) → Lays x regions (ending (comments, blank, parts, rest))
        (before ++ contentAll comments ++ contentAll parts) fun r after =>
          after = before ++ contentAll r.1 ∧ ∀ n ∈ r.2, n.Within x.tokens := by
    intro comments parts blank rest hrest
    simp only [ending]
    cases rest with
    | nil => exact hfinish comments parts blank [] hrest
    | cons n others =>
        have hothers : ∀ m ∈ others, m.Within x.tokens := fun m hm =>
          hrest m (List.mem_cons_of_mem n hm)
        have hmark : ∀ (comments : List Chunk) (blank : Int), Lays x regions (do
            let c ← build n
            finish (comments, blank, glued parts c, others))
            (before ++ contentAll comments ++ contentAll parts) fun r after =>
              after = before ++ contentAll r.1 ∧ ∀ n ∈ r.2, n.Within x.tokens := by
          intro comments blank
          refine Lays.add (hb n (hrest n List.mem_cons_self)) fun c => ?_
          rw [List.append_assoc, ← contentAll_glued]
          exact hfinish comments (glued parts c) blank others hothers
        refine Lays.ite (fun _ => ?_) fun _ => hfinish comments parts blank (n :: others) hrest
        split
        · rename_i id _
          refine Lays.add (adds_detach (some id) false) fun more => ?_
          refine Lays.add (adds_blankBefore id) fun blank => ?_
          simpa using hmark (comments ++ more) blank
        · exact hmark comments blank
  clear_value ending
  have hnone : ∀ (rest : List Node), (∀ n ∈ rest, n.Within x.tokens) →
      Lays x regions (ending ([], 0, [], rest)) before fun r after =>
        after = before ++ contentAll r.1 ∧ ∀ n ∈ r.2, n.Within x.tokens := by
    intro rest hrest
    simpa using hending [] [] 0 rest hrest
  cases ns with
  | nil => exact hnone [] hns
  | cons n rest =>
      have hrest : ∀ m ∈ rest, m.Within x.tokens := fun m hm => hns m (List.mem_cons_of_mem n hm)
      dsimp only
      split
      · rename_i id _ _
        have hin := (hns n List.mem_cons_self).children
        refine Lays.add (adds_detach (some id) false) fun comments => ?_
        refine Lays.add (adds_blankBefore id) fun blank => ?_
        refine Lays.add (adds_elements hb (ascii ",") true hin) fun es => ?_
        simpa using hending comments [Chunk.ofElements .enumConstants es] blank rest hrest
      · exact hnone rest hrest
      · exact hnone (n :: rest) hns

theorem adds_enumBody (hb : Keeps x regions build) (hn : n.Within x.tokens) :
    Adds x regions (enumBody x build n) contentAny := by
  intro before
  rw [enumBody]
  have hchildren := hn.children
  generalize n.children = children at hchildren ⊢
  cases children with
  | nil => exact Lays.pure (by simp)
  | cons first rest =>
      obtain ⟨hin, hclosing⟩ := splitClosing_mem (isText "\x7d") rest
      have hrest : ∀ m ∈ rest, m.Within x.tokens := fun m hm =>
        hchildren m (List.mem_cons_of_mem first hm)
      dsimp only
      refine Lays.add (hb first (hchildren first List.mem_cons_self)) fun opening => ?_
      refine (lays_constants hb fun m hm => hrest m (hin m hm)).bind ?_
      rintro ⟨own, members⟩ _ ⟨rfl, hmembers⟩
      refine Lays.add (adds_items fun m hm => keeps_item hb m (hmembers m hm)) fun cs => ?_
      cases hclose : (splitClosing (isText "\x7d") rest).2 with
      | none => exact Lays.pure (by simp)
      | some c =>
          refine Lays.add (adds_detach c.firstId? true) fun comments => ?_
          refine Lays.add (hb c (hrest c (hclosing c hclose))) fun closing => Lays.pure ?_
          simp

theorem adds_enumConstant (hb : Keeps x regions build) (hn : n.Within x.tokens) :
    Adds x regions (enumConstant x build n) contentAny := by
  refine adds_foldlM fun c hc parts => ?_
  have hc := hn.children c hc
  split_ifs
  · exact extends_spaced (adds_modifiers hb false hc)
  · exact extends_glued (adds_list hb _ hc.children)
  · exact extends_spaced (hb c hc)

theorem adds_method (hb : Keeps x regions build) (hn : n.Within x.tokens) :
    Adds x regions (method x build n) contentAny := by
  refine adds_foldlM fun c hc parts => ?_
  have hc := hn.children c hc
  split_ifs
  · exact extends_spaced (adds_modifiers hb true hc)
  · exact extends_glued (adds_list hb _ hc.children)
  · exact extends_spaced (adds_clause hb _ hc)
  · exact extends_glued (hb c hc)
  · exact extends_spaced (hb c hc)

theorem adds_declarators (hb : Keeps x regions build) (hn : n.Within x.tokens) :
    Adds x regions (declarators x build n) contentAny := by
  intro before
  refine Lays.add (adds_elements hb (ascii ",") true hn.children) fun es => ?_
  rcases es with _ | ⟨d, _ | ⟨e, es⟩⟩
  · exact Lays.pure (by simp)
  · exact Lays.pure (by simp)
  · exact Lays.pure (by simp)

theorem lays_declaratorParts (hb : Keeps x regions build) {ns : List Node}
    (hns : ∀ n ∈ ns, n.Within x.tokens) (parts : List Chunk) :
    Lays x regions (declaratorParts x build parts ns) (before ++ contentAll parts)
      fun c after => after = before ++ contentAny c := by
  induction ns generalizing parts with
  | nil => exact Lays.pure (by simp)
  | cons n ns ih =>
      have hrest := ih fun m hm => hns m (List.mem_cons_of_mem n hm)
      rw [declaratorParts]
      refine Lays.add (hb n (hns n List.mem_cons_self)) fun c => ?_
      refine Lays.ite (fun _ => ?_) fun _ => ?_
      · have hlhs : contentAll parts ++ contentAny c = contentAny (sequence (spaced parts c)) := by
          simp
        rw [List.append_assoc, hlhs]
        cases ns with
        | nil => exact Lays.pure rfl
        | cons value others => exact lays_assignment hb _ (hns value (by simp))
      · rw [List.append_assoc, ← contentAll_glued]
        exact hrest _

theorem adds_declarator (hb : Keeps x regions build) (hn : n.Within x.tokens) :
    Adds x regions (declarator x build n) contentAny := by
  intro before
  have hparts : Lays x regions (declarator x build n) (before ++ contentAll [])
      fun c after => after = before ++ contentAny c :=
    lays_declaratorParts hb hn.children []
  rwa [contentAll_nil, List.append_nil] at hparts

mutual

theorem lays_rawPart (hb : Keeps x regions build) {n : Node} (hn : n.Within x.tokens)
    (acc : List Chunk × Option Nat) :
    Lays x regions (rawPart x build acc n) (before ++ contentAll acc.1)
      fun r after => after = before ++ contentAll r.1 := by
  match n with
  | .leaf id t =>
      rw [rawPart]
      refine Lays.add (hb _ hn) fun c => Lays.pure ?_
      dsimp only
      split_ifs <;> simp
  | .branch kind start stop children =>
      rw [rawPart]
      refine Lays.ite (fun _ => ?_) fun _ => ?_
      · refine Lays.add (keeps_block hb _ hn) fun c => Lays.pure ?_
        dsimp only
        split_ifs <;> simp
      · exact lays_rawParts hb hn.children acc

theorem lays_rawParts (hb : Keeps x regions build) {ns : List Node}
    (hns : ∀ n ∈ ns, n.Within x.tokens) (acc : List Chunk × Option Nat) :
    Lays x regions (rawParts x build acc ns) (before ++ contentAll acc.1)
      fun r after => after = before ++ contentAll r.1 := by
  match ns with
  | [] => exact Lays.pure rfl
  | n :: ns =>
      rw [rawParts]
      refine (lays_rawPart hb (hns n List.mem_cons_self) acc).bind ?_
      rintro r _ rfl
      exact lays_rawParts hb (fun m hm => hns m (List.mem_cons_of_mem n hm)) r

end

theorem adds_raw (hb : Keeps x regions build) (hn : n.Within x.tokens) :
    Adds x regions (raw x build n) contentAny := by
  intro before
  rw [raw]
  have hpart : Lays x regions (rawPart x build ([], none) n) before
      fun r after => after = before ++ contentAll r.1 := by
    simpa using lays_rawPart hb hn ([], none)
  refine hpart.bind ?_
  rintro r _ rfl
  exact Lays.pure (by simp)

end CodeLayout.Build
