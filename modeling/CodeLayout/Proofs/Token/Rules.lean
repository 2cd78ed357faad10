import CodeLayout.Proofs.Token.Bytewise

/-!
# The rules of the lexer as patterns

Each rule of the lexer has a pattern, and the length that the rule counts is that of what the
pattern recognizes. So the rules can be read off the patterns: which characters a token starts with,
which ones it goes on with, and what it prefers.
-/

namespace CodeLayout

set_option maxRecDepth 1000

namespace Pattern

/-- The ASCII digits. -/
def digitRanges : List (Nat × Nat) :=
  [(48, 57)]

/-- A run of digits and of marks between them. -/
def digits : Pattern :=
  many (among (digitRanges ++ chars "_"))

def spaces : Pattern :=
  plus (among (chars " \t\r\n" ++ [(12, 12)]))

def lineComment : Pattern :=
  seq (text "//") (many (outside (chars "\r\n")))

/-- Anything up to the first delimiter that closes what another one opens. -/
def delimited (opening closing : String) : Pattern :=
  seq (text opening) (seq (few wild) (text closing))

/-- A comment that goes on to the end of the text. -/
def openComment : Pattern :=
  seq (text "/*") (many wild)

/-- One element of a literal on one line: a character that stands for itself, or a backslash with
the character behind it. -/
def quotedOne (quote : Char) : Pattern :=
  either (outside ([(quote.toNat, quote.toNat)] ++ chars "\\\r\n"))
    (seq (char '\\') (outside (chars "\n")))

/-- A literal on one line, with or without its closing quote. -/
def literal (quote : Char) : Pattern :=
  seq (char quote) (seq (many (quotedOne quote)) (optional (char quote)))

/-- A number with a base mark. -/
def based (marks : String) (ranges : List (Nat × Nat)) : Pattern :=
  seq (char '0') (seq (among (chars marks)) (plus (among (ranges ++ chars "_"))))

/-- A decimal number that starts with a digit. -/
def whole : Pattern :=
  seq (among digitRanges) (seq digits (optional (seq (char '.') digits)))

/-- A decimal number that starts with a point. -/
def fraction : Pattern :=
  seq (char '.') (seq (among digitRanges) digits)

def exponent : Pattern :=
  seq (among (chars "eE")) (seq (optional (among (chars "+-"))) (plus (among digitRanges)))

def number : Pattern :=
  seq
    (either (based "xX" (digitRanges ++ [(97, 102), (65, 70)]))
      (either (based "bB" [(48, 49)])
        (seq (either whole fraction) (optional exponent))))
    (optional (among (chars "lLfFdD")))

def ident : Pattern :=
  seq (among (letterRanges ++ chars "_$"))
    (many (among (letterRanges ++ numeralRanges ++ chars "_$")))

def punct : Pattern :=
  texts ["...", "->", "::", "++", "--", "&&", "||", "<<=", "<<"]
    (either (seq (among (chars "-+*/%&|^!=<")) (char '='))
      (among (chars "()\x7b\x7d[];,.@=<>!~?:+-*/&|^%")))

/-- The patterns of the tokens, in the order in which they are tried. -/
def table : List (TokenKind × Pattern) :=
  [(.space, spaces), (.comment, lineComment), (.comment, delimited "/*" "*/"),
    (.comment, openComment), (.string, delimited "\"\"\"" "\"\"\""), (.string, literal '"'),
    (.string, literal '\''), (.number, number), (.ident, ident), (.punct, punct),
    (.unrecognized, wild)]

/-- A pattern recognizes something exactly where a rule counts at least one byte, and as much as the
rule counts. -/
def Recognizes (p : Pattern) (rule : Bytes → Nat) : Prop :=
  ∀ s, p.rest? s = if rule s = 0 then none else some (s.drop (rule s))

/-- A pattern that never fails takes as much as a function counts. -/
def Takes (p : Pattern) (count : Bytes → Nat) : Prop :=
  ∀ s, p.rest? s = some (s.drop (count s))

section Combinators

variable {p q : Pattern} {rule rule' count count' : Bytes → Nat} {f : Nat → Bool} {g : UInt8 → Bool}

theorem Takes.isSome (h : Takes p count) (s : Bytes) : (p.rest? s).isSome = true := by
  rw [h s]
  rfl

theorem Takes.seq (hp : Takes p count) (hq : Takes q count') :
    Takes (seq p q) fun s => count s + count' (s.drop (count s)) := by
  intro s
  rw [rest?_seq_of_isSome hq.isSome, hp s, Option.bind_some, hq, List.drop_drop]

theorem Takes.many (h : IsByteClass f g) : Takes (many (one f)) (Lexer.runLength g) :=
  rest?_many_one h

theorem Recognizes.optional (h : Recognizes p rule) : Takes (optional p) rule := by
  intro s
  rw [rest?_optional, h s]
  split_ifs with hzero
  · rw [hzero]
    rfl
  · rfl

theorem Recognizes.either (hp : Recognizes p rule) (hq : Recognizes q rule') :
    Recognizes (either p q) fun s => if rule s ≠ 0 then rule s else rule' s := by
  intro s
  rw [rest?_either, hp s, hq s]
  by_cases hzero : rule s = 0 <;> simp [hzero]

theorem Recognizes.seq (hp : Recognizes p rule) (hq : Takes q count) :
    Recognizes (seq p q) fun s => if rule s = 0 then 0 else rule s + count (s.drop (rule s)) := by
  intro s
  rw [rest?_seq_of_isSome hq.isSome, hp s]
  by_cases hzero : rule s = 0
  · simp [hzero]
  · simp [hzero, hq (s.drop (rule s)), List.drop_drop]

theorem rest?_seq_one_nil : (Pattern.seq (one f) q).rest? [] = none :=
  rest?_seq_of_nil rests_one_nil

theorem rest?_seq_one_cons (h : IsAsciiClass f g) (a : UInt8) (rest : Bytes) :
    (Pattern.seq (one f) q).rest? (a :: rest) = if g a then q.rest? rest else none := by
  have hrests := h.rests_cons a rest
  by_cases ha : g a = true
  · rw [if_pos ha] at hrests
    rw [rest?_seq_of_rests hrests, if_pos ha]
  · rw [if_neg ha] at hrests
    rw [rest?_seq_of_nil hrests, if_neg ha]

theorem rest?_one_cons (h : IsAsciiClass f g) (a : UInt8) (rest : Bytes) :
    (one f).rest? (a :: rest) = if g a then some rest else none := by
  rw [rest?, h.rests_cons]
  split <;> rfl

/-- A character and then a run of such characters is a run of at least one. -/
theorem Recognizes.plus (h : IsAsciiClass f g) : Recognizes (plus (one f)) (Lexer.runLength g) := by
  intro s
  cases s with
  | nil => exact rest?_seq_one_nil
  | cons a rest =>
      rw [Pattern.plus, rest?_seq_one_cons h]
      by_cases ha : g a = true
      · rw [if_pos ha, rest?_many_one h.toIsByteClass, Lexer.runLength, Lexer.runLength,
          List.takeWhile_cons_of_pos ha]
        rfl
      · rw [if_neg ha, Lexer.runLength, List.takeWhile_cons_of_neg ha]
        rfl

/-- A text and then what never fails. -/
theorem rest?_seq_text {w : String} (hw : isSingleBytes w = true) (s : Bytes) :
    (Pattern.seq (text w) q).rest? s =
      if (ascii w).isPrefixOf s then q.rest? (s.drop (ascii w).length) else none := by
  have hrests := rests_text w hw s
  by_cases hpre : (ascii w).isPrefixOf s = true
  · rw [if_pos hpre] at hrests
    rw [rest?_seq_of_rests hrests, if_pos hpre]
  · rw [if_neg hpre] at hrests
    rw [rest?_seq_of_nil hrests, if_neg hpre]

end Combinators

theorem recognizes_spaces : Recognizes spaces Lexer.space :=
  .plus (.among (by decide) (by decide))

end Pattern

end CodeLayout
