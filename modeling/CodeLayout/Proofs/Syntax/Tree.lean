import CodeLayout.Proofs.Syntax.Declaration
import CodeLayout.Syntax.Tree
import CodeLayout.Token.Lexer

/-!
# What the tree of a stream covers

Every production of a sound grammar is sound with one more level of nesting, so the parsers of all
rules are sound within the levels they are given, and the levels that a stream asks for are given.
Reading a stream therefore always comes to a tree, and no loop comes round without having consumed
a token. The leaves of the tree are tokens with structure in order, and they are all of them unless
a list of resources has dropped modifiers.
-/

namespace CodeLayout

namespace Grammar

open CodeLayout.Cursor CodeLayout.Parser

variable {g : Grammar} {budget : Nat} {s : ParserState}

theorem sound_production (hg : Sound g budget) : Sound (production g) (budget + 1) := by
  intro r s hpos hs
  have hroom := hs.room
  have hfits : Fits budget r.rank s.cursor := ⟨hs.ordered, by omega⟩
  cases r with
  | expr => exact yields_expr hg hfits
  | ternary => exact yields_ternary hg hfits
  | binary least => exact yields_binary hg hfits least
  | unary => exact yields_unary hg hfits
  | annotValue => exact yields_annotValue hg hfits
  | arrayInit e => exact yields_arrayInit hg hfits (hpos rfl) e
  | block => exact yields_block hg hfits (hpos rfl)
  | statement => exact yields_statement hg hfits
  | member => exact yields_typeMember hg hfits
  | typeBody => exact yields_typeBody hg hfits (hpos rfl)

theorem sound_within (n : Nat) : Sound (within n) n := by
  induction n with
  | zero =>
      intro r s _ hs
      have hroom := hs.room
      omega
  | succ n ih => exact sound_production ih

theorem yields_qualified {kind : NodeKind} (hk : kind ≠ .resources) (hpos : 0 < s.cursor.left) :
    Yields (qualified kind) s fun n s' => Moves s.cursor s'.cursor [n] := by
  refine (Yields.next_moves hpos).bind fun word s₁ h₁ => ?_
  have hnext : ∀ s : ParserState, Yields next s fun n s' => Reads s.cursor s'.cursor [n] :=
    fun _ => Yields.next.mono fun _ _ h => h.reads
  refine Yields.isAt (Yields.either (fun _ => hnext s₁) (fun _ => yields_none)
    fun static s₂ h₂ => ?_)
  refine (Yields.many (fun c => (!c.isAt 0 ";" && !c.isDone) && !c.isAt 0 "\x7d" &&
    (c.isWord 0 || c.isAt 0 "." || c.isAt 0 "*")) (fun _ => rfl) fun s₃ _ hm => ?_).bind
    fun parts s₃ h₃ => ?_
  · simp only [Bool.and_eq_true, Bool.not_eq_true', isDone_eq_false_iff] at hm
    exact Yields.next_moves hm.1.1.2
  refine (Yields.accept ";").bind fun semi s₄ h₄ => ?_
  have hall := ((h₁.append h₂).append h₃.1).append h₄.reads
  refine Yields.ite (fun _ => Yields.unexpected fun _ => ?_) fun _ => ?_
  · exact Yields.node (hall.make hk)
  · exact Yields.node (hall.make hk)

/-- Every item of a text consumes a token. -/
theorem yields_item (hg : Sound g budget) (hs : Fits budget 3 s.cursor)
    (hpos : 0 < s.cursor.left) (kind : SourceKind) :
    Yields (item g kind) s fun n s' => Moves s.cursor s'.cursor [n] := by
  have hs₁ := hs.mono (by decide : 1 ≤ 3)
  refine Yields.cursor (Yields.ite (fun _ => Yields.unexpected fun r => ?_) fun hclose => ?_)
  · refine (yields_raw (s := { s with recorded := r }) hg hs₁ (Reads.refl _)).mono
      fun n s' h => ?_
    exact h.1.moves (h.2.2 hpos (Or.inl rfl))
  have hmember : Yields (g .member) s fun n s' => Moves s.cursor s'.cursor [n] :=
    (hg.member (hs.mono (by decide))).mono fun _ _ h =>
      h.1.moves (h.2 hpos (by simpa using hclose))
  cases kind with
  | body =>
      refine Yields.ite (fun _ => hmember) fun _ => ?_
      exact (hg.statement hs).mono fun _ _ h => h.1.moves (h.2 hpos)
  | unit =>
      refine Yields.ite (fun _ => yields_qualified (by decide) hpos) fun _ => ?_
      exact Yields.ite (fun _ => yields_qualified (by decide) hpos) fun _ => hmember

theorem yields_items (hg : Sound g budget) (hs : Fits budget 3 s.cursor) (kind : SourceKind) :
    Yields (items g kind) s fun ns s' => Reads s.cursor s'.cursor ns ∧
      s'.cursor.isDone = true := by
  refine (Yields.many (fun c => !c.isDone) (fun _ => rfl) fun s₁ hlater hm => ?_).mono
    fun ns s' h => ⟨h.1, by simpa using h.2.2⟩
  refine yields_item hg (hlater.fits hs) ?_ kind
  rw [← isDone_eq_false_iff]
  simpa using hm

end Grammar

/-- The tokens of a stream that carry structure, each with its index. -/
def TokenStream.structural (s : TokenStream) : List (Nat × Token) :=
  (s.tokens.toList.zipIdx.filter fun (t, _) => !t.kind.isSkippable).map fun (t, i) => (i, t)

theorem TokenStream.structural_pairwise (s : TokenStream) :
    s.structural.Pairwise fun a b => a.1 < b.1 := by
  have hzip : s.tokens.toList.zipIdx.Pairwise fun a b => a.2 < b.2 := by
    rw [← List.pairwise_map, List.zipIdx_map_snd]
    exact List.pairwise_lt_range'
  exact List.pairwise_map.mpr (hzip.filter _)

namespace Cursor

theorem ofStream_stretch (s : TokenStream) {n : Nat} (h : (ofStream s).lexemes.size ≤ n) :
    stretch (ofStream s).lexemes 0 n = s.structural := by
  have hlen : (ofStream s).lexemes.toList.length ≤ n := by simpa using h
  rw [stretch, List.drop_zero, Nat.sub_zero, List.take_of_length_le hlen]
  simp [ofStream, TokenStream.structural]

theorem ofStream_ordered (s : TokenStream) :
    (ofStream s).lexemes.toList.Pairwise fun a b => a.id < b.id := by
  have hids : (ofStream s).lexemes.toList.map (fun l => (l.id, l.token)) = s.structural := by
    simp [ofStream, TokenStream.structural]
  have hpair := s.structural_pairwise
  rw [← hids, List.pairwise_map] at hpair
  exact hpair

/-- The levels of nesting that are given for a stream leave room at each of its tokens. -/
theorem fits_ofStream {s : TokenStream} {c : Cursor} (h : Later (ofStream s) c) :
    Fits (8 * (ofStream s).bound) 3 c := by
  refine h.fits ⟨ofStream_ordered s, ?_⟩
  simp only [left, Cursor.bound]
  omega

end Cursor

namespace Node

open CodeLayout.Cursor

/-- Reading a stream comes to a tree that covers the tokens with structure. -/
theorem ofStream_covers (s : TokenStream) (kind : SourceKind) : ∃ tree,
    (ofStream s kind).tree = .ok tree ∧
      Covers (Cursor.ofStream s).lexemes s.structural [tree] := by
  obtain ⟨items, s', hrun, hreads, hdone⟩ :=
    Grammar.yields_items (s := ⟨s.file, Cursor.ofStream s, false, []⟩)
      (Grammar.sound_within _) (fits_ofStream (Later.refl _)) kind
  have hcov := hreads.covers
  simp only [isDone, decide_eq_true_eq, hreads.lexemes] at hdone
  have hseg : stretch (Cursor.ofStream s).lexemes 0 s'.cursor.pos = s.structural :=
    ofStream_stretch s hdone
  refine ⟨.branch .unit 0 s.file.text.length (make .unit items).children, ?_, ?_⟩
  · simp only [ofStream, hrun]
    rfl
  · have hroot : Covers (Cursor.ofStream s).lexemes s.structural [make .unit items] :=
      hseg ▸ hcov.make (by decide)
    exact ⟨hroot.sublist, hroot.head_eq, hroot.eq_iff⟩

/-- Reading a stream always comes to a tree. Its leaves have increasing indices and are tokens with
structure; they are all of them exactly if no list of resources in the tree lacks the modifiers in
front of a resource that is no declaration. -/
theorem ofStream_leaves_eq_iff (s : TokenStream) (kind : SourceKind) : ∃ tree,
    (ofStream s kind).tree = .ok tree ∧
      (tree.leaves.map Prod.fst).Pairwise (· < ·) ∧ tree.leaves.Sublist s.structural ∧
      (tree.leaves.map Prod.fst = s.structural.map Prod.fst ↔
        tree.isLossy (Cursor.ofStream s).lexemes = false) := by
  obtain ⟨tree, htree, hcov⟩ := ofStream_covers s kind
  have hsub := hcov.sublist
  have hiff := hcov.eq_iff
  rw [leavesList_singleton] at hsub hiff
  rw [anyLossy_singleton] at hiff
  refine ⟨tree, htree, ?_, hsub, ?_⟩
  · exact List.pairwise_map.mpr (s.structural_pairwise.sublist hsub)
  · rw [← hiff]
    constructor
    · intro hids
      refine hsub.eq_of_length ?_
      simpa using congrArg List.length hids
    · exact congrArg _

/-- The word `final` in front of a resource that is no declaration is in no leaf. -/
theorem ofStream_drops_final :
    ((ofStream (TokenStream.ofFile ⟨[], ascii "try (final x) \x7b\x7d"⟩) .body).tree.toOption.map
      fun tree => tree.leaves.map Prod.fst) = some [0, 2, 5, 6, 8, 9] ∧
    (TokenStream.ofFile ⟨[], ascii "try (final x) \x7b\x7d"⟩).structural.map Prod.fst =
      [0, 2, 3, 5, 6, 8, 9] := by
  decide +kernel

/-- Reading is total. A stream comes to a tree, and so does every part of the grammar wherever the
cursor stands in the stream: an item of the text consumes a token if there is one, and each rule
reads what it promises. The fault of a loop that comes round at the same token is handled nowhere,
so no loop behind these results has met it. -/
theorem ofStream_total (s : TokenStream) (kind : SourceKind) :
    (∃ tree, (ofStream s kind).tree = .ok tree) ∧
      ∀ state : ParserState, state.cursor.lexemes = (Cursor.ofStream s).lexemes →
        (state.cursor.isDone = false →
          Yields (Grammar.item (Grammar.within (8 * (Cursor.ofStream s).bound)) kind) state
            fun n state' => Moves state.cursor state'.cursor [n]) ∧
        ∀ r : Rule, (r.rank = 0 → state.cursor.isDone = false) →
          Yields (Grammar.within (8 * (Cursor.ofStream s).bound) r) state
            fun n state' => r.Reading state.cursor n state'.cursor := by
  constructor
  · obtain ⟨tree, htree, -⟩ := ofStream_covers s kind
    exact ⟨tree, htree⟩
  intro state hlexemes
  have hsound := Grammar.sound_within (8 * (Cursor.ofStream s).bound)
  have hfits := fits_ofStream ⟨hlexemes, Nat.zero_le state.cursor.pos⟩
  constructor
  · intro hdone
    exact Grammar.yields_item hsound hfits (isDone_eq_false_iff.mp hdone) kind
  · intro r hdone
    refine hsound r state (fun hrank => isDone_eq_false_iff.mp (hdone hrank)) (hfits.mono ?_)
    cases r with
    | _ => simp [Rule.rank]

end Node

end CodeLayout
