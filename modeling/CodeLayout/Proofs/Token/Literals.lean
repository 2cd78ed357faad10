import CodeLayout.Proofs.Token.Comments
import CodeLayout.Proofs.Token.Rules.Literal

/-!
# Literals as tokens

A literal of a text stands between triple quotes, or behind a single quote on one line. The latter
is read element by element up to a quote that closes it; only where its line breaks off may that
quote be missing. So the last byte of a literal closes it unless a backslash takes it along, and
that can be told from the number of backslashes in front of it.
-/

namespace CodeLayout

/-- What opens and closes a literal that may go on over several lines. -/
def tripleQuote : Bytes :=
  ascii "\"\"\""

theorem tripleQuote_eq : tripleQuote = [34, 34, 34] := by
  decide

/-- What stands in a literal on one line: bytes that stand for themselves, and backslashes that take
the bytes behind them along. -/
inductive IsQuoted (quote : UInt8) : Bytes → Prop
  | nil : IsQuoted quote []
  | plain {b : UInt8} {s : Bytes} (hb : Pattern.isPlain quote b = true) (hs : IsQuoted quote s) :
      IsQuoted quote (b :: s)
  | escape {c : UInt8} {s : Bytes} (hc : c ≠ 10) (hs : IsQuoted quote s) :
      IsQuoted quote (92 :: c :: s)

/-- Whether a literal on one line cannot go on at the start of a text: the line ends there, or
behind a backslash. -/
def Bytes.BreaksOff (s : Bytes) : Prop :=
  s.StartsLine ∨ ∃ t, s = 92 :: t ∧ ∀ c ∈ t.head?, c = 10

/-- What stands behind the opening quote of a literal on one line, by its text and the text that
follows it. -/
inductive IsQuotation (quote : UInt8) : Bytes → Bytes → Prop
  | closed {body rest : Bytes} (hbody : IsQuoted quote body) :
      IsQuotation quote (body ++ [quote]) rest
  | unclosed {body rest : Bytes} (hbody : IsQuoted quote body) (hrest : rest.BreaksOff) :
      IsQuotation quote body rest

/-- A literal, by its text and the text that follows it. -/
inductive IsLiteral : Bytes → Bytes → Prop
  | block {inner rest : Bytes} : IsLiteral (tripleQuote ++ inner ++ tripleQuote) rest
  | line {quote : UInt8} {text rest : Bytes} (htext : IsQuotation quote text rest) :
      IsLiteral (quote :: text) rest

/-- The number of backslashes at the end of a text. -/
def Bytes.backslashes (s : Bytes) : Nat :=
  (s.reverse.takeWhile (· = 92)).length

namespace Bytes

theorem backslashes_concat (s : Bytes) : (s ++ [92]).backslashes = s.backslashes + 1 := by
  simp [backslashes]

theorem backslashes_cons {b : UInt8} (hb : b ≠ 92) (s : Bytes) :
    backslashes (b :: s) = s.backslashes := by
  rw [backslashes, backslashes, List.reverse_cons, List.takeWhile_append]
  split_ifs with hall
  · rw [List.takeWhile_cons_of_neg (by simpa using hb), List.append_nil, hall]
  · rfl

/-- An escape in front of a text counts as two backslashes, or as none. -/
theorem backslashes_escape (c : UInt8) (s : Bytes) :
    backslashes (92 :: c :: s) % 2 = s.backslashes % 2 := by
  rw [backslashes, backslashes, List.reverse_cons, List.reverse_cons, List.append_assoc,
    List.takeWhile_append]
  split_ifs with hall
  · rw [List.length_append, hall]
    by_cases hc : c = 92 <;> simp [hc]
  · rfl

end Bytes

namespace IsQuoted

variable {quote : UInt8} {s : Bytes}

theorem backslashes_even (h : IsQuoted quote s) : s.backslashes % 2 = 0 := by
  induction h with
  | nil => rfl
  | plain hb _ ih =>
      rw [Bytes.backslashes_cons (Pattern.isPlain_iff.mp hb).2.2, ih]
  | escape _ _ ih => rw [Bytes.backslashes_escape, ih]

/-- A quote at the end of what stands in a literal is taken along by a backslash. -/
theorem exists_escape (h : IsQuoted quote s) (hlast : s.getLast? = some quote) :
    ∃ body, IsQuoted quote body ∧ s = body ++ [92, quote] := by
  induction h with
  | nil => cases hlast
  | @plain b s hb hs ih =>
      cases s with
      | nil =>
          have hquote : b = quote := Option.some.inj hlast
          exact absurd hquote (Pattern.isPlain_iff.mp hb).1
      | cons c s =>
          rw [List.getLast?_cons_cons] at hlast
          obtain ⟨body, hbody, heq⟩ := ih hlast
          exact ⟨b :: body, .plain hb hbody, by rw [heq, List.cons_append]⟩
  | @escape c s hc hs ih =>
      cases s with
      | nil =>
          obtain rfl : c = quote := Option.some.inj hlast
          exact ⟨[], .nil, rfl⟩
      | cons d s =>
          rw [List.getLast?_cons_cons, List.getLast?_cons_cons] at hlast
          obtain ⟨body, hbody, heq⟩ := ih hlast
          exact ⟨92 :: c :: body, .escape hc hbody, by rw [heq, List.cons_append, List.cons_append]⟩

end IsQuoted

namespace IsQuotation

variable {quote : UInt8} {text rest : Bytes}

theorem plain {b : UInt8} (h : IsQuotation quote text rest) (hb : Pattern.isPlain quote b = true) :
    IsQuotation quote (b :: text) rest := by
  cases h with
  | closed hbody => exact .closed (.plain hb hbody)
  | unclosed hbody hrest => exact .unclosed (.plain hb hbody) hrest

theorem escape {c : UInt8} (h : IsQuotation quote text rest) (hc : c ≠ 10) :
    IsQuotation quote (92 :: c :: text) rest := by
  cases h with
  | closed hbody => exact .closed (.escape hc hbody)
  | unclosed hbody hrest => exact .unclosed (.escape hc hbody) hrest

end IsQuotation

namespace Lexer

theorem lengthThrough?_isSuffix {p s : Bytes} {n : Nat} (h : lengthThrough? p s = some n) :
    p <:+ s.take n := by
  induction s generalizing n with
  | nil =>
      rw [lengthThrough?] at h
      split_ifs at h with hp
      simp [List.isEmpty_iff.mp hp]
  | cons b s ih =>
      rw [lengthThrough?] at h
      split_ifs at h with hp
      · obtain rfl : p.length = n := Option.some.inj h
        have htake := List.prefix_iff_eq_take.mp (List.isPrefixOf_iff_prefix.mp hp)
        exact ⟨[], htake⟩
      · obtain ⟨m, hm, rfl⟩ := Option.map_eq_some_iff.mp h
        rw [List.take_succ_cons]
        exact (ih hm).trans (List.suffix_cons b _)

theorem isLiteral_textBlock {s : Bytes} (h : textBlock s ≠ 0) :
    IsLiteral (s.take (textBlock s)) (s.drop (textBlock s)) := by
  have hquotes : ∃ rest, s = 34 :: 34 :: 34 :: rest := by
    unfold textBlock at h
    split at h
    · exact ⟨_, rfl⟩
    · exact absurd rfl h
  obtain ⟨rest, rfl⟩ := hquotes
  cases hthrough : lengthThrough? (ascii "\"\"\"") rest with
  | none => simp [textBlock, hthrough] at h
  | some n =>
      obtain ⟨inner, hinner⟩ := lengthThrough?_isSuffix hthrough
      have htake : (34 :: 34 :: 34 :: rest).take (3 + n) = tripleQuote ++ inner ++ tripleQuote := by
        rw [Nat.add_comm, List.take_succ_cons, List.take_succ_cons, List.take_succ_cons, ← hinner,
          tripleQuote_eq]
        rfl
      simp only [textBlock, hthrough, htake]
      exact .block

/-- A literal on one line goes on up to the quote that closes it, or to where its line breaks
off. -/
theorem isQuotation_literalRest (quote : UInt8) (s : Bytes) :
    IsQuotation quote (s.take (literalRest quote s)) (s.drop (literalRest quote s)) := by
  fun_induction literalRest quote s with
  | case1 => exact .unclosed .nil (Or.inl Bytes.startsLine_nil)
  | case2 b hends =>
      rw [Bool.or_eq_true, decide_eq_true_eq] at hends
      refine .unclosed .nil ?_
      rcases hends with heol | rfl
      · exact Or.inl fun c hc => Option.some.inj hc ▸ heol
      · exact Or.inr ⟨[], rfl, by simp⟩
  | case3 b hgoes =>
      rw [Bool.or_eq_true, decide_eq_true_eq, not_or, Bool.not_eq_true] at hgoes
      by_cases hquote : b = quote
      · exact hquote ▸ IsQuotation.closed .nil
      · exact .unclosed (.plain (Pattern.isPlain_iff.mpr ⟨hquote, hgoes⟩) .nil)
          (Or.inl Bytes.startsLine_nil)
  | case4 => exact .closed .nil
  | case5 b c rest _ heol => exact .unclosed .nil (Or.inl fun d hd => Option.some.inj hd ▸ heol)
  | case6 => exact .unclosed .nil (Or.inr ⟨_, rfl, fun d hd => (Option.some.inj hd).symm⟩)
  | case7 c rest hc _ _ ih =>
      rw [Nat.add_comm, List.take_succ_cons, List.take_succ_cons, List.drop_succ_cons,
        List.drop_succ_cons]
      exact ih.escape hc
  | case8 b c rest hquote heol hslash ih =>
      rw [Nat.add_comm, List.take_succ_cons, List.drop_succ_cons]
      exact ih.plain (Pattern.isPlain_iff.mpr ⟨hquote, by simpa using heol, hslash⟩)

theorem isLiteral_literal {quote : UInt8} {s : Bytes} (h : literal quote s ≠ 0) :
    IsLiteral (s.take (literal quote s)) (s.drop (literal quote s)) := by
  cases s with
  | nil => exact absurd rfl h
  | cons b rest =>
      rw [literal] at h ⊢
      split_ifs at h ⊢ with hb
      · rw [Nat.add_comm, List.take_succ_cons, List.drop_succ_cons, hb]
        exact .line (isQuotation_literalRest quote rest)
      · exact absurd rfl h

/-- A first token that is a literal. -/
theorem isLiteral_of_firstToken {s : Bytes} {n : Nat} (h : firstToken s rules = (.string, n)) :
    IsLiteral (s.take n) (s.drop n) := by
  obtain ⟨rule, hmem, rfl, hne⟩ := firstToken_rule h (by decide)
  have hrule : rule = textBlock ∨ rule = literal 34 ∨ rule = literal 39 := by
    simpa [rules] using hmem
  rcases hrule with rfl | rfl | rfl
  · exact isLiteral_textBlock hne
  · exact isLiteral_literal hne
  · exact isLiteral_literal hne

end Lexer

/-- A literal of a text with what follows it. -/
theorem Token.isLiteral {s : Bytes} {t : Token} (h : t ∈ ofText s) (hkind : t.kind = .string) :
    IsLiteral t.text (s.drop t.stop) := by
  obtain ⟨rest, n, hfirst, htext, hrest⟩ := exists_rest h
  rw [hkind] at hfirst
  rw [htext, hrest]
  exact Lexer.isLiteral_of_firstToken hfirst

end CodeLayout
