import CodeLayout.Proofs.Token.Lexer
import Mathlib.Data.List.TakeWhile

/-!
# Comments as tokens

A comment of a text goes on to the end of its line, or it stands between delimiters. Only at the end
of a text may the closing delimiter be missing.
-/

namespace CodeLayout

/-- Whether a text is empty or starts with a line break. -/
def Bytes.StartsLine (s : Bytes) : Prop :=
  ∀ b ∈ s.head?, Lexer.isEol b = true

theorem Bytes.startsLine_nil : Bytes.StartsLine [] := by
  rintro b ⟨⟩

/-- What closes a comment. -/
def commentEnd : Bytes :=
  ascii "*/"

theorem commentEnd_eq : commentEnd = [42, 47] := by
  decide

/-- What makes a doc comment of a comment between delimiters. -/
theorem CommentStyle.ofText_block (body : Bytes) :
    ofText (47 :: 42 :: body) =
      if body.head? = some 42 ∧ body ≠ commentEnd then .doc else .block := by
  have hslashes : ascii "//" = [47, 47] := by decide
  have hstars : ascii "/**" = [47, 42, 42] := by decide
  have hempty : ascii "/**/" = [47, 42, 42, 47] := by decide
  have hstar : ascii "/*" = [47, 42] := by decide
  rw [ofText, hslashes, hstars, hempty, hstar, commentEnd_eq]
  cases body with
  | nil => rfl
  | cons b body =>
      by_cases hb : b = 42
      · simp [hb]
      · simp [hb, Ne.symm hb]

theorem CommentStyle.ofText_line (body : Bytes) : ofText (47 :: 47 :: body) = .line := by
  have hslashes : ascii "//" = [47, 47] := by decide
  rw [ofText, hslashes]
  simp

/-- A comment, by its text and the text that follows it. -/
inductive IsComment : Bytes → Bytes → Prop
  | line {body rest : Bytes} (hbody : ∀ b ∈ body, Lexer.isEol b = false) (hrest : rest.StartsLine) :
      IsComment (47 :: 47 :: body) rest
  | closed {body rest : Bytes} (hbody : Lexer.lengthThrough? commentEnd body = some body.length) :
      IsComment (47 :: 42 :: body) rest
  | unclosed {body : Bytes} (hbody : Lexer.lengthThrough? commentEnd body = none) :
      IsComment (47 :: 42 :: body) []

namespace Lexer

section LengthThrough

variable {p s t : Bytes} {n : Nat}

theorem lengthThrough?_le (h : lengthThrough? p s = some n) : n ≤ s.length := by
  induction s generalizing n with
  | nil =>
      rw [lengthThrough?] at h
      split_ifs at h
      simp [← Option.some.inj h]
  | cons b s ih =>
      rw [lengthThrough?] at h
      split_ifs at h with hp
      · rw [List.isPrefixOf_iff_prefix] at hp
        rw [← Option.some.inj h]
        exact hp.length_le
      · obtain ⟨m, hm, rfl⟩ := Option.map_eq_some_iff.mp h
        exact Nat.succ_le_succ (ih hm)

/-- A text ends where its shortest start that ends in `p` does. -/
theorem lengthThrough?_take (h : lengthThrough? p s = some n) :
    lengthThrough? p (s.take n) = some n := by
  induction s generalizing n with
  | nil => simpa using h
  | cons b s ih =>
      rw [lengthThrough?] at h
      split_ifs at h with hp
      · obtain rfl := Option.some.inj h
        rw [List.isPrefixOf_iff_prefix] at hp
        rw [← List.prefix_iff_eq_take.mp hp]
        cases p with
        | nil => rfl
        | cons c p => rw [lengthThrough?, if_pos (by simp)]
      · obtain ⟨m, hm, rfl⟩ := Option.map_eq_some_iff.mp h
        have hno : ¬p.isPrefixOf (b :: s.take m) = true := by
          rw [List.isPrefixOf_iff_prefix] at hp ⊢
          intro hpre
          exact hp (hpre.trans (List.prefix_cons_inj b |>.mpr (List.take_prefix m s)))
        rw [List.take_succ_cons, lengthThrough?, if_neg hno, ih hm]
        rfl

end LengthThrough

section Rules

variable {s rest : Bytes} {n : Nat}

theorem space_eq_zero {b : UInt8} (h : isSpace b = false) : space (b :: s) = 0 := by
  simp [space, h]

/-- White space that something else follows is a first token. -/
theorem firstToken_space {gap : Bytes} (hgap : ∀ b ∈ gap, isSpace b = true) (hne : gap ≠ [])
    (hrest : ∀ b ∈ rest.head?, isSpace b = false) :
    firstToken (gap ++ rest) rules = (.space, gap.length) := by
  have hend : rest.takeWhile isSpace = [] := by
    cases rest with
    | nil => rfl
    | cons b rest =>
        have hb := hrest b rfl
        simp [hb]
  have hspace : space (gap ++ rest) = gap.length := by
    rw [space, List.takeWhile_append_of_pos hgap, hend, List.append_nil]
  have hpos : space (gap ++ rest) ≠ 0 := by
    rw [hspace, ne_eq, List.length_eq_zero_iff]
    exact hne
  rw [rules, firstToken_of_ne_zero hpos, hspace]

/-- A line comment at the start of a text is its first token. -/
theorem firstToken_line {body : Bytes} (hbody : ∀ b ∈ body, isEol b = false)
    (hrest : rest.StartsLine) :
    firstToken (47 :: 47 :: (body ++ rest)) rules = (.comment, 2 + body.length) := by
  have hend : (rest.takeWhile fun b => !isEol b) = [] := by
    cases rest with
    | nil => rfl
    | cons b rest =>
        have hb : isEol b = true := hrest b rfl
        simp [hb]
  have hall : ((body ++ rest).takeWhile fun b => !isEol b) = body := by
    rw [List.takeWhile_append_of_pos (by simpa using hbody), hend, List.append_nil]
  have hspace : space (47 :: 47 :: (body ++ rest)) = 0 := space_eq_zero (by decide)
  have hline : lineComment (47 :: 47 :: (body ++ rest)) = 2 + body.length := by
    rw [lineComment, hall]
  rw [rules, firstToken_of_eq_zero hspace, firstToken_of_ne_zero (by omega), hline]

/-- A comment between delimiters is the first token of its text. -/
theorem firstToken_closed {body : Bytes}
    (hbody : lengthThrough? commentEnd body = some body.length) :
    firstToken (47 :: 42 :: body) rules = (.comment, 2 + body.length) := by
  have hspace : space (47 :: 42 :: body) = 0 := space_eq_zero (by decide)
  have hline : lineComment (47 :: 42 :: body) = 0 := rfl
  have hblock : blockComment (47 :: 42 :: body) = 2 + body.length := by
    rw [commentEnd] at hbody
    simp only [blockComment, hbody]
  rw [rules, firstToken_of_eq_zero hspace, firstToken_of_eq_zero hline,
    firstToken_of_ne_zero (by omega), hblock]

/-- A comment that is never closed is the first token of its text. -/
theorem firstToken_unclosed {body : Bytes} (hbody : lengthThrough? commentEnd body = none) :
    firstToken (47 :: 42 :: body) rules = (.comment, 2 + body.length) := by
  have hspace : space (47 :: 42 :: body) = 0 := space_eq_zero (by decide)
  have hline : lineComment (47 :: 42 :: body) = 0 := rfl
  have hblock : blockComment (47 :: 42 :: body) = 0 := by
    rw [commentEnd] at hbody
    simp only [blockComment, hbody]
  have hopen : openComment (47 :: 42 :: body) = 2 + body.length := rfl
  rw [rules, firstToken_of_eq_zero hspace, firstToken_of_eq_zero hline,
    firstToken_of_eq_zero hblock, firstToken_of_ne_zero (by omega), hopen]

theorem drop_length_takeWhile (f : UInt8 → Bool) (s : Bytes) :
    s.drop (s.takeWhile f).length = s.dropWhile f := by
  have htake : s.take (s.takeWhile f).length = s.takeWhile f :=
    (List.prefix_iff_eq_take.mp (List.takeWhile_prefix f)).symm
  refine (List.append_right_inj (s.takeWhile f)).mp ?_
  rw [List.takeWhile_append_dropWhile]
  nth_rewrite 1 [← htake]
  exact List.take_append_drop _ s

theorem isComment_lineComment (h : lineComment s ≠ 0) :
    IsComment (s.take (lineComment s)) (s.drop (lineComment s)) := by
  have hslashes : ∃ rest, s = 47 :: 47 :: rest := by
    unfold lineComment at h
    split at h
    · exact ⟨_, rfl⟩
    · exact absurd rfl h
  obtain ⟨rest, rfl⟩ := hslashes
  have htake : rest.take (rest.takeWhile fun b => !isEol b).length =
      rest.takeWhile fun b => !isEol b :=
    (List.prefix_iff_eq_take.mp (List.takeWhile_prefix _)).symm
  rw [lineComment, Nat.add_comm, List.take_succ_cons, List.take_succ_cons,
    List.drop_succ_cons, List.drop_succ_cons, htake, drop_length_takeWhile]
  refine .line (fun b hb => ?_) fun b hb => ?_
  · simpa using List.mem_takeWhile_imp hb
  · have hnot := List.head?_dropWhile_not (fun b => !isEol b) rest
    rw [Option.mem_def.mp hb] at hnot
    simpa using hnot

theorem exists_of_blockComment (h : blockComment s ≠ 0 ∨ openComment s ≠ 0) :
    ∃ rest, s = 47 :: 42 :: rest := by
  unfold blockComment openComment at h
  split at h
  · exact ⟨_, rfl⟩
  · simp at h

theorem isComment_blockComment (h : blockComment s ≠ 0) :
    IsComment (s.take (blockComment s)) (s.drop (blockComment s)) := by
  obtain ⟨rest, rfl⟩ := exists_of_blockComment (Or.inl h)
  cases hthrough : lengthThrough? (ascii "*/") rest with
  | none => simp [blockComment, hthrough] at h
  | some n =>
      have hbody := lengthThrough?_take hthrough
      have hlength : (rest.take n).length = n :=
        List.length_take_of_le (lengthThrough?_le hthrough)
      simp only [blockComment, hthrough]
      rw [Nat.add_comm, List.take_succ_cons, List.take_succ_cons]
      exact .closed (by rw [hlength]; exact hbody)

theorem isComment_openComment (hblock : blockComment s = 0) (h : openComment s ≠ 0) :
    IsComment (s.take (openComment s)) (s.drop (openComment s)) := by
  obtain ⟨rest, rfl⟩ := exists_of_blockComment (Or.inr h)
  have hnone : lengthThrough? commentEnd rest = none := by
    cases hthrough : lengthThrough? (ascii "*/") rest with
    | none => exact hthrough
    | some n => simp [blockComment, hthrough] at hblock
  have hlength : openComment (47 :: 42 :: rest) = (47 :: 42 :: rest).length := by
    simp only [openComment, List.length_cons]
    omega
  rw [hlength, List.take_length, List.drop_length]
  exact .unclosed hnone

/-- A first token that is a comment is a line comment or stands between delimiters. -/
theorem isComment_of_firstToken (h : firstToken s rules = (.comment, n)) :
    IsComment (s.take n) (s.drop n) := by
  rw [rules] at h
  by_cases hspace : space s = 0
  · rw [firstToken_of_eq_zero hspace] at h
    by_cases hline : lineComment s = 0
    · rw [firstToken_of_eq_zero hline] at h
      by_cases hblock : blockComment s = 0
      · rw [firstToken_of_eq_zero hblock] at h
        by_cases hopen : openComment s = 0
        · -- No other rule makes a comment.
          rw [firstToken_of_eq_zero hopen] at h
          exact absurd (firstToken_kind h) (by decide)
        · rw [firstToken_of_ne_zero hopen] at h
          exact (Prod.mk.inj h).2 ▸ isComment_openComment hblock hopen
      · rw [firstToken_of_ne_zero hblock] at h
        exact (Prod.mk.inj h).2 ▸ isComment_blockComment hblock
    · rw [firstToken_of_ne_zero hline] at h
      exact (Prod.mk.inj h).2 ▸ isComment_lineComment hline
  · rw [firstToken_of_ne_zero hspace] at h
    cases (Prod.mk.inj h).1

end Rules

end Lexer

/-- A comment of a text with what follows it. -/
theorem Token.isComment {s : Bytes} {t : Token} (h : t ∈ ofText s) (hkind : t.kind = .comment) :
    IsComment t.text (s.drop t.stop) := by
  obtain ⟨rest, n, hfirst, htext, hrest⟩ := exists_rest h
  rw [hkind] at hfirst
  rw [htext, hrest]
  exact Lexer.isComment_of_firstToken hfirst

end CodeLayout
