import CodeLayout.Text.Bytes

/-!
# Characters of a text

A text is read as UTF-8, character by character. A byte that starts no well-formed character
stands alone for the replacement character, so reading never fails and never skips a byte.
-/

namespace CodeLayout

/-- One character of a text: its code point and the bytes it was read from. -/
structure Character where
  code : Nat
  bytes : Bytes
  deriving DecidableEq, Repr, Inhabited

namespace Utf8

/-- The code point that stands for a byte which is no part of a character. -/
def replacement : Nat := 0xFFFD

/-- Whether `lo ≤ b ≤ hi`. -/
def within (lo hi b : UInt8) : Bool :=
  lo ≤ b && b ≤ hi

/-- Whether a byte continues a character. -/
def isTail (b : UInt8) : Bool :=
  within 0x80 0xBF b

/-- The six bits that a continuing byte adds. -/
def tailBits (b : UInt8) : Nat :=
  b.toNat - 0x80

/-- Whether `b` may follow the first byte `a` of a character of three bytes. -/
def secondOfThree (a b : UInt8) : Bool :=
  if a = 0xE0 then within 0xA0 0xBF b
  else if a = 0xED then within 0x80 0x9F b
  else isTail b

/-- Whether `b` may follow the first byte `a` of a character of four bytes. -/
def secondOfFour (a b : UInt8) : Bool :=
  if a = 0xF0 then within 0x90 0xBF b
  else if a = 0xF4 then within 0x80 0x8F b
  else isTail b

/-- A byte that starts no character. -/
def malformed (a : UInt8) : Character :=
  ⟨replacement, [a]⟩

/-- The character that a text with the first byte `a` starts with. -/
def first (a : UInt8) (rest : Bytes) : Character :=
  if a < 0x80 then ⟨a.toNat, [a]⟩
  else if within 0xC2 0xDF a then
    match rest with
    | b :: _ =>
      if isTail b then ⟨(a.toNat - 0xC0) * 64 + tailBits b, [a, b]⟩ else malformed a
    | [] => malformed a
  else if within 0xE0 0xEF a then
    match rest with
    | b :: c :: _ =>
      if secondOfThree a b && isTail c then
        ⟨((a.toNat - 0xE0) * 64 + tailBits b) * 64 + tailBits c, [a, b, c]⟩
      else malformed a
    | _ => malformed a
  else if within 0xF0 0xF4 a then
    match rest with
    | b :: c :: d :: _ =>
      if secondOfFour a b && isTail c && isTail d then
        ⟨(((a.toNat - 0xF0) * 64 + tailBits b) * 64 + tailBits c) * 64 + tailBits d, [a, b, c, d]⟩
      else malformed a
    | _ => malformed a
  else malformed a

/-- The bytes of a code point; no bytes beyond the last code point. -/
def encode (c : Nat) : Bytes :=
  let tail (k : Nat) : UInt8 := (0x80 + k % 64).toUInt8
  if c < 0x80 then [c.toUInt8]
  else if c < 0x800 then [(0xC0 + c / 64).toUInt8, tail c]
  else if c < 0x10000 then [(0xE0 + c / 4096).toUInt8, tail (c / 64), tail c]
  else if c < 0x110000 then
    [(0xF0 + c / 262144).toUInt8, tail (c / 4096), tail (c / 64), tail c]
  else []

/-- The characters of a text, read with as many steps as `n` allows. -/
def charactersWithin : Nat → Bytes → List Character
  | 0, _ => []
  | _ + 1, [] => []
  | n + 1, a :: rest =>
    let r := first a rest
    r :: charactersWithin n ((a :: rest).drop r.bytes.length)

/-- A character takes at least one byte. -/
theorem first_bytes_pos (a : UInt8) (rest : Bytes) : 0 < (first a rest).bytes.length := by
  unfold first
  repeat' split
  all_goals simp [malformed]

end Utf8

namespace Character

/-- Whether the character is the ASCII character with the code `b`. -/
def isByte (r : Character) (b : Nat) : Bool :=
  r.code = b && b < 0x80

/-- Whether the bytes were no character. -/
def isMalformed (r : Character) : Bool :=
  r.code = Utf8.replacement && r.bytes.length = 1

end Character

namespace Bytes

/-- The characters of a text in order. -/
def characters (s : Bytes) : List Character :=
  Utf8.charactersWithin s.length s

/-- The text that a list of characters was read from. -/
def ofCharacters (rs : List Character) : Bytes :=
  rs.flatMap Character.bytes

/-- The text of a string. -/
def ofString (s : String) : Bytes :=
  s.toList.flatMap fun c => Utf8.encode c.toNat

end Bytes

/-- Whether a code point lies in one of a list of closed ranges. -/
def inRanges (ranges : List (Nat × Nat)) (c : Nat) : Bool :=
  ranges.any fun (lo, hi) => lo ≤ c && c ≤ hi

end CodeLayout
