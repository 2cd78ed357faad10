import CodeLayout.Proofs.Token.Rules.Symbol

/-!
# The tokens of a text are the text

Every text can be read to its end by the table of patterns: at each place the first pattern that
recognizes anything takes at least one byte. The tokens read so leave nothing out and overlap
nowhere, white space is never cut in two, and a character that no rule knows is a token of its own.
-/

namespace CodeLayout

/-- The tokens of a list lie side by side between two offsets. -/
def Token.Tile (first last : Nat) : List Token → Prop
  | [] => first = last
  | t :: ts => t.start = first ∧ Tile t.stop last ts

namespace Pattern

/-- The kind of the first pattern of a table that recognizes the start of a text, with what is left
of the text behind it. -/
def first? (table : List (TokenKind × Pattern)) (s : Bytes) : Option (TokenKind × Bytes) :=
  table.findSome? fun r => (r.2.rest? s).map fun rest => (r.1, rest)

/-- The tokens that a table of patterns reads from a text at an offset. Each one takes something. A
text that no pattern recognizes has no tokens. -/
inductive Reads (table : List (TokenKind × Pattern)) : Nat → Bytes → List Token → Prop
  | done (offset : Nat) : Reads table offset [] []
  | next {offset : Nat} {kind : TokenKind} {s text rest : Bytes} {ts : List Token}
      (hfirst : first? table s = some (kind, rest)) (hsplit : text ++ rest = s) (htext : text ≠ [])
      (hrest : Reads table (offset + text.length) rest ts) :
      Reads table offset s (⟨kind, offset, text⟩ :: ts)

variable {patterns : List (TokenKind × Pattern)} {rs : List (TokenKind × (Bytes → Nat))}
  {s rest : Bytes} {kind : TokenKind} {offset : Nat} {ts : List Token}

/-- The pattern that recognizes the start of a text is one of the table. -/
theorem exists_of_first? (h : first? patterns s = some (kind, rest)) :
    ∃ p, (kind, p) ∈ patterns ∧ p.rest? s = some rest := by
  obtain ⟨⟨kind', p⟩, hmem, hp⟩ := List.exists_of_findSome?_eq_some h
  obtain ⟨rest', hrest, heq⟩ := Option.map_eq_some_iff.mp hp
  obtain ⟨rfl, rfl⟩ := Prod.mk.inj heq
  exact ⟨p, hmem, hrest⟩

/-- Patterns that go together with rules recognize what the first of the rules does. -/
theorem first?_eq (h : List.Forall₂ (fun r r' => r.1 = r'.1 ∧ Recognizes r.2 r'.2) patterns rs)
    (hsome : ∃ r ∈ rs, r.2 s ≠ 0) :
    first? patterns s =
      some ((Lexer.firstToken s rs).1, s.drop (Lexer.firstToken s rs).2) := by
  induction h with
  | nil => simp at hsome
  | @cons r r' patterns rs hr _ ih =>
      obtain ⟨kind, p⟩ := r
      obtain ⟨kind', rule⟩ := r'
      obtain ⟨rfl, hp⟩ := hr
      rw [first?, List.findSome?_cons, ← first?, hp s]
      by_cases hzero : rule s = 0
      · have hlater : ∃ r ∈ rs, r.2 s ≠ 0 := by
          obtain ⟨r, hr, hne⟩ := hsome
          rcases List.mem_cons.mp hr with rfl | hr
          · exact absurd hzero hne
          · exact ⟨r, hr, hne⟩
        rw [if_pos hzero, Lexer.firstToken_of_eq_zero hzero]
        exact ih hlater
      · rw [if_neg hzero, Lexer.firstToken_of_ne_zero hzero]
        rfl

/-- The tokens of a text are read by the table of patterns. -/
theorem reads_tokensFrom (n offset : Nat) (s : Bytes) (h : s.length ≤ n) :
    Reads table offset s (Lexer.tokensFrom n offset s) := by
  induction n generalizing offset s with
  | zero =>
      obtain rfl := List.length_eq_zero_iff.mp (Nat.le_zero.mp h)
      exact .done offset
  | succ n ih =>
      rcases s with _ | ⟨b, rest⟩
      · exact .done offset
      have hany : ∃ r ∈ Lexer.rules, r.2 (b :: rest) ≠ 0 :=
        ⟨(.unrecognized, Lexer.anyCharacter), by simp [Lexer.rules],
          Nat.ne_of_gt (Utf8.first_bytes_pos b rest)⟩
      have hfirst := first?_eq table_recognizes hany
      have hpos := Lexer.firstToken_pos (b :: rest) Lexer.rules
      simp only [Lexer.tokensFrom]
      generalize Lexer.firstToken (b :: rest) Lexer.rules = r at hfirst hpos ⊢
      obtain ⟨kind, length⟩ := r
      simp only at hfirst hpos ⊢
      have hle : ((b :: rest).drop length).length ≤ n := by
        rw [List.length_drop]
        omega
      have hnext := ih (offset + ((b :: rest).take length).length) _ hle
      have hsplit : (b :: rest).take length ++ (b :: rest).drop length = b :: rest :=
        List.take_append_drop _ _
      have hne : (b :: rest).take length ≠ [] := by
        cases length with
        | zero => exact absurd hpos (Nat.lt_irrefl 0)
        | succ length => exact List.cons_ne_nil _ _
      -- A length beyond the end of the text leaves nothing to be read behind it.
      have hsame : Lexer.tokensFrom n (offset + length) ((b :: rest).drop length) =
          Lexer.tokensFrom n (offset + ((b :: rest).take length).length)
            ((b :: rest).drop length) := by
        rcases Nat.le_total length (b :: rest).length with hlength | hlength
        · rw [List.length_take_of_le hlength]
        · rw [List.drop_eq_nil_of_le hlength]
          cases n <;> rfl
      rw [hsame]
      exact .next hfirst hsplit hne hnext

namespace Reads

theorem flatMap_text (h : Reads patterns offset s ts) : ts.flatMap Token.text = s := by
  induction h with
  | done => rfl
  | next _ hsplit _ _ ih => rw [List.flatMap_cons, ih, hsplit]

theorem tile (h : Reads patterns offset s ts) : Token.Tile offset (offset + s.length) ts := by
  induction h with
  | done offset => exact rfl
  | @next offset kind s text rest ts _ hsplit _ _ ih =>
      refine ⟨rfl, ?_⟩
      rw [← hsplit, List.length_append, ← Nat.add_assoc]
      exact ih

theorem text_ne_nil (h : Reads patterns offset s ts) : ∀ t ∈ ts, t.text ≠ [] := by
  induction h with
  | done => simp
  | next _ _ htext _ ih => exact List.forall_mem_cons.mpr ⟨htext, ih⟩

/-- A token stands where it starts, and there the first pattern that recognizes anything takes its
text. -/
theorem exists_split (h : Reads patterns offset s ts) : ∀ t ∈ ts, ∃ before rest,
    s = before ++ (t.text ++ rest) ∧ t.start = offset + before.length ∧
      first? patterns (t.text ++ rest) = some (t.kind, rest) := by
  induction h with
  | done => simp
  | @next offset kind s text rest ts hfirst hsplit _ _ ih =>
      refine List.forall_mem_cons.mpr ⟨⟨[], rest, hsplit.symm, rfl, ?_⟩, fun t ht => ?_⟩
      · rw [hsplit]
        exact hfirst
      · obtain ⟨before, after, hrest, hstart, hkind⟩ := ih t ht
        refine ⟨text ++ before, after, ?_, ?_, hkind⟩
        · rw [List.append_assoc, ← hrest, hsplit]
        · rw [hstart, List.length_append, Nat.add_assoc]

end Reads

theorem rest_of_first?_space (h : first? table s = some (.space, rest)) :
    Lexer.space s ≠ 0 ∧ rest = s.drop (Lexer.space s) := by
  obtain ⟨p, hmem, hp⟩ := exists_of_first? h
  obtain rfl : p = spaces := by simpa [table] using hmem
  rw [recognizes_spaces s] at hp
  split_ifs at hp with hzero
  exact ⟨hzero, (Option.some.inj hp).symm⟩

/-- Behind white space there is none. -/
theorem kind_ne_space (h : first? table s = some (.space, rest)) {rest' : Bytes}
    (h' : first? table rest = some (kind, rest')) : kind ≠ .space := by
  rintro rfl
  obtain ⟨-, rfl⟩ := rest_of_first?_space h
  refine (rest_of_first?_space h').1 ?_
  have hhead := List.head?_dropWhile_not Lexer.isSpace s
  rw [Lexer.space, Lexer.space, Lexer.drop_length_takeWhile]
  cases hrest : s.dropWhile Lexer.isSpace with
  | nil => rfl
  | cons b rest =>
      rw [hrest] at hhead
      have hb : Lexer.isSpace b = false := by simpa using hhead
      exact Lexer.space_eq_zero hb

/-- What only the last pattern of the table recognizes is a single character. -/
theorem exists_character (h : first? table s = some (.unrecognized, rest)) (text : Bytes)
    (hsplit : text ++ rest = s) :
    ∃ r : Character, s.characters.head? = some r ∧ text = r.bytes ∧
      (r.isMalformed = true ∨ r.bytes = Utf8.encode r.code) := by
  obtain ⟨p, hmem, hp⟩ := exists_of_first? h
  obtain rfl : p = wild := by simpa [table] using hmem
  rcases s with _ | ⟨a, more⟩
  · cases hp
  refine ⟨Utf8.first a more, rfl, ?_, (Utf8.form_first a more).isMalformed_or_encode⟩
  have hpos := Utf8.first_bytes_pos a more
  obtain ⟨after, hafter⟩ := Utf8.first_isPrefix a more
  rw [recognizes_wild, Lexer.anyCharacter, if_neg (by omega), ← hafter, List.drop_left] at hp
  obtain rfl := Option.some.inj hp
  exact List.append_cancel_right (hsplit.trans hafter.symm)

/-- No white space of a text is cut in two. -/
theorem Reads.isChain (h : Reads table offset s ts) :
    ts.IsChain fun t u => ¬(t.kind = .space ∧ u.kind = .space) := by
  induction h with
  | done => exact .nil
  | next hfirst _ _ hrest ih =>
      refine List.isChain_cons.mpr ⟨fun u hu => ?_, ih⟩
      cases hrest with
      | done => cases hu
      | next hsecond =>
          cases hu
          rintro ⟨rfl, hspace⟩
          exact kind_ne_space hfirst hsecond hspace

end Pattern

/-- The tokens of a file are read by the table of patterns, one after the other up to the end of the
file, and none of them is empty. Their texts are the text of the file, and they lie side by side. No
two tokens of white space are neighbours, and an unrecognized token is a single character. -/
theorem TokenStream.ofFile_lossless (file : SourceFile) :
    let ts := (TokenStream.ofFile file).tokens.toList
    Pattern.Reads Pattern.table 0 file.text ts ∧
      ts.flatMap Token.text = file.text ∧
      Token.Tile 0 file.text.length ts ∧
      (∀ t ∈ ts, t.text ≠ []) ∧
      (ts.IsChain fun t u => ¬(t.kind = .space ∧ u.kind = .space)) ∧
      ∀ t ∈ ts, t.kind = .unrecognized →
        ∃ r : Character, (Bytes.characters (file.text.drop t.start)).head? = some r ∧
          t.text = r.bytes ∧ (r.isMalformed = true ∨ r.bytes = Utf8.encode r.code) := by
  have hreads := Pattern.reads_tokensFrom file.text.length 0 file.text (Nat.le_refl _)
  refine ⟨hreads, hreads.flatMap_text, ?_, hreads.text_ne_nil, hreads.isChain, fun t ht hkind => ?_⟩
  · have htile := hreads.tile
    rw [Nat.zero_add] at htile
    exact htile
  · obtain ⟨before, rest, hsplit, hstart, hfirst⟩ := hreads.exists_split t ht
    rw [hkind] at hfirst
    rw [Nat.zero_add] at hstart
    rw [hsplit, hstart, List.drop_left]
    exact Pattern.exists_character hfirst t.text rfl

end CodeLayout
