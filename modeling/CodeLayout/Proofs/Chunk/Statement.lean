import CodeLayout.Chunk.Statement
import CodeLayout.Proofs.Chunk.Lists

/-!
# Statements lay what they hold
-/

namespace CodeLayout.Build

open Chunk

variable {x : BuildContext} {regions : Regions} {build : NodeBuilder} {n : Node}
  {parts : List Chunk}

/-- Items that go one level deeper behind other parts. -/
theorem extends_items (hb : Keeps x regions build) {ns : List Node}
    (hns : ∀ n ∈ ns, n.Within x.tokens) :
    Extends x regions (do
      let own ← items x (item x build) ns
      return spaced parts (some (Chunk.ofItems none none own))) parts := by
  refine Extends.part (adds_items fun n hn => keeps_item hb n (hns n hn)) (fun own => ?_)
    fun _ => Extends.pure
  simp

theorem extends_body (hb : Keeps x regions build) (hn : n.Within x.tokens) :
    Extends x regions (body x build parts n) parts := by
  rw [body]
  split_ifs
  · exact extends_glued (hb n hn)
  · exact extends_spaced (keeps_block hb n hn)
  · exact extends_items hb (by simpa using hn)

theorem extends_ifParts (hb : Keeps x regions build) {ns : List Node}
    (hns : ∀ n ∈ ns, n.Within x.tokens) (parts : List Chunk) :
    Extends x regions (ifParts x build parts ns) parts := by
  match ns with
  | [] => exact Extends.pure
  | [n] =>
      have hn := hns n (by simp)
      rw [ifParts]
      split_ifs
      · exact extends_spaced (hb n hn)
      · exact extends_body hb hn
  | n :: m :: rest =>
      have hn := hns n (by simp)
      have hm := hns m (by simp)
      have htail : ∀ parts, Extends x regions (ifParts x build parts (m :: rest)) parts :=
        extends_ifParts hb fun k hk => hns k (by simp_all)
      have hrest : ∀ parts, Extends x regions (ifParts x build parts rest) parts :=
        extends_ifParts hb fun k hk => hns k (by simp [hk])
      rw [ifParts]
      split_ifs
      · exact Extends.part (hb n hn) (contentAll_spaced parts) fun _ => htail _
      · refine Extends.part (hb n hn) (contentAll_spaced parts) fun _ => ?_
        exact Extends.part (hb m hm) (contentAll_spaced _) fun _ => hrest _
      · exact Extends.part (hb n hn) (contentAll_spaced parts) fun _ => htail _
      · exact (extends_body hb hn).bind fun parts' => htail parts'
termination_by ns.length

theorem adds_ifStmt (hb : Keeps x regions build) (hn : n.Within x.tokens) :
    Adds x regions (ifStmt x build n) contentAny := by
  rw [ifStmt]
  have hchildren := hn.children
  generalize n.children = children at hchildren ⊢
  cases children with
  | nil => exact Adds.pure rfl
  | cons first rest =>
      have hfirst := hb first (hchildren first List.mem_cons_self)
      have hrest := fun parts =>
        extends_ifParts hb (fun m hm => hchildren m (List.mem_cons_of_mem first hm)) parts
      exact Extends.sequence (Extends.part hfirst (contentAll_spaced []) fun c => hrest _)

theorem adds_wordStmt (hb : Keeps x regions build) (hn : n.Within x.tokens) :
    Adds x regions (wordStmt x build n) contentAny := by
  refine adds_foldlM ?_
  rintro ⟨c, i⟩ hc parts
  have hc := hn.children c (List.fst_mem_of_mem_zipIdx hc)
  dsimp only
  split_ifs
  · exact extends_spaced (hb c hc)
  · exact extends_glued (hb c hc)
  · exact extends_glued (adds_param hb hc)
  · exact extends_body hb hc

theorem adds_doStmt (hb : Keeps x regions build) (hn : n.Within x.tokens) :
    Adds x regions (doStmt x build n) contentAny := by
  refine adds_foldlM ?_
  rintro ⟨c, i⟩ hc parts
  have hc := hn.children c (List.fst_mem_of_mem_zipIdx hc)
  dsimp only
  split_ifs
  · exact extends_spaced (hb c hc)
  · exact extends_glued (hb c hc)
  · exact extends_body hb hc

theorem adds_forStmt (hb : Keeps x regions build) (hn : n.Within x.tokens) :
    Adds x regions (forStmt x build n) contentAny := by
  refine adds_foldlM ?_
  rintro ⟨c, i⟩ hc parts
  have hc := hn.children c (List.fst_mem_of_mem_zipIdx hc)
  dsimp only
  split_ifs
  · exact extends_spaced (hb c hc)
  · exact extends_body hb hc

theorem extends_forParts (hb : Keeps x regions build) {ns : List Node}
    (hns : ∀ n ∈ ns, n.Within x.tokens) (behindParen : Bool) (parts : List Chunk) :
    Extends x regions (forParts x build behindParen parts ns) parts := by
  induction ns generalizing behindParen parts with
  | nil => exact Extends.pure
  | cons n ns ih =>
      have hn := hns n List.mem_cons_self
      have hrest := ih fun m hm => hns m (List.mem_cons_of_mem n hm)
      have hpart : ∀ {m : Build (Option Chunk)}, Adds x regions m contentAny →
          Extends x regions (do
            let c ← m
            forParts x build (isText "(" n)
              (if parts.isEmpty || behindParen || isText ";" n || isText ")" n then glued parts c
                else spaced parts c) ns) parts := by
        intro m hm
        refine Extends.part hm (fun c => ?_) fun c => hrest _ _
        split_ifs <;> simp
      rw [forParts]
      dsimp only
      split
      · exact hpart (adds_varDecl hb false hn)
      · split
        · exact hpart (adds_param hb hn)
        · exact hpart (hb n hn)

theorem adds_forControl (hb : Keeps x regions build) (hn : n.Within x.tokens) :
    Adds x regions (forControl x build n) contentAny :=
  (extends_forParts hb hn.children false []).sequence

theorem adds_resources (hb : Keeps x regions build) (hn : n.Within x.tokens) :
    Adds x regions (resources x build n) contentAny := by
  intro before
  rw [resources]
  have hchildren := hn.children
  generalize n.children = children at hchildren ⊢
  cases children with
  | nil => exact Lays.pure (by simp)
  | cons first rest =>
      obtain ⟨hin, hclosing⟩ := splitClosing_mem (isText ")") rest
      have hrest : ∀ m ∈ rest, m.Within x.tokens := fun m hm =>
        hchildren m (List.mem_cons_of_mem first hm)
      refine Lays.add (hb first (hchildren first List.mem_cons_self)) fun opening => ?_
      refine Lays.add (adds_elements hb _ true fun m hm => hrest m (hin m hm)) fun es => ?_
      refine Lays.add (adds_optional hb fun m hm => hrest m (hclosing m hm)) fun closing => ?_
      exact Lays.pure (by simp)

theorem extends_caseParts (hb : Keeps x regions build) {ns : List Node}
    (hns : ∀ n ∈ ns, n.Within x.tokens) (parts : List Chunk) :
    Extends x regions (caseParts x build parts ns) parts := by
  induction ns generalizing parts with
  | nil => exact Extends.pure
  | cons n rest ih =>
      have hn := hns n List.mem_cons_self
      have hmem : ∀ m ∈ rest, m.Within x.tokens := fun m hm => hns m (List.mem_cons_of_mem n hm)
      have hrest := ih hmem
      rw [caseParts]
      split_ifs
      · exact Extends.part (hb n hn) (contentAll_glued parts) fun _ => hrest _
      · exact Extends.part (hb n hn) (contentAll_glued parts) fun _ => Extends.pure
      · exact Extends.part (hb n hn) (contentAll_glued parts) fun _ => extends_items hb hmem
      · refine Extends.part (hb n hn) (contentAll_spaced parts) fun _ => ?_
        exact Extends.foldlM fun m hm _ => extends_spaced (keeps_item hb m (hmem m hm))
      · exact Extends.part (adds_param hb hn) (contentAll_spaced parts) fun _ => hrest _
      · exact Extends.part (hb n hn) (contentAll_spaced parts) fun _ => hrest _

theorem adds_switchCase (hb : Keeps x regions build) (hn : n.Within x.tokens) :
    Adds x regions (switchCase x build n) contentAny := by
  rw [switchCase]
  have hchildren := hn.children
  generalize n.children = children at hchildren ⊢
  cases children with
  | nil => exact Adds.pure rfl
  | cons first rest =>
      have hfirst := hb first (hchildren first List.mem_cons_self)
      have hrest := fun parts =>
        extends_caseParts hb (fun m hm => hchildren m (List.mem_cons_of_mem first hm)) parts
      exact Extends.sequence (Extends.part hfirst (contentAll_spaced []) fun c => hrest _)

theorem adds_simpleStmt (hb : Keeps x regions build) (hn : n.Within x.tokens) :
    Adds x regions (simpleStmt build n) contentAny := by
  refine adds_foldlM fun c hc parts => ?_
  have hc := hn.children c hc
  split_ifs
  · exact extends_glued (hb c hc)
  · exact extends_spaced (hb c hc)

theorem adds_labeled (hb : Keeps x regions build) (hn : n.Within x.tokens) :
    Adds x regions (labeled x build n) contentAny := by
  refine adds_foldlM fun c hc parts => ?_
  have hc := hn.children c hc
  split_ifs
  · exact extends_glued (hb c hc)
  · exact extends_spaced (keeps_item hb c hc)

end CodeLayout.Build
