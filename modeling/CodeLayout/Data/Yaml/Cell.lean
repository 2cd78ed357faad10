import CodeLayout.Text.Utf8

/-!
# Characters of a YAML text

The characters of a text with their places. Line breaks are line feeds, whatever they are in the
text, and a character with the code zero stands at the end.
-/

namespace CodeLayout.Yaml

/-- A character and its place. -/
structure Cell where
  code : Nat
  line : Nat
  column : Nat
  index : Nat
  deriving DecidableEq, Repr, Inhabited

/-- Characters up to the end of a text. -/
abbrev Cells := List Cell

/-- The code of an ASCII character. -/
def code (c : Char) : Nat := c.toNat

/-- Whether a code is a line break. -/
def isBreak (c : Nat) : Bool :=
  c = 10 || c = 0x2028 || c = 0x2029

/-- Whether a code is a space or a tab. -/
def isBlank (c : Nat) : Bool :=
  c = 32 || c = 9

/-- Whether a code is a line break or the end. -/
def isBreakOrEnd (c : Nat) : Bool :=
  c = 0 || isBreak c

/-- Whether a code is white space or the end. -/
def isGap (c : Nat) : Bool :=
  isBlank c || isBreakOrEnd c

/-- Whether a code is a letter of ASCII, a digit, a dash or an underscore. -/
def isWordCode (c : Nat) : Bool :=
  (48 ≤ c && c ≤ 57) || (65 ≤ c && c ≤ 90) || (97 ≤ c && c ≤ 122) || c = 45 || c = 95

/-- Whether a character may stand in a text at all. -/
def isAllowed (r : Character) : Bool :=
  let c := r.code
  !r.isMalformed &&
    (c = 9 || c = 10 || c = 13 || (0x20 ≤ c && c ≤ 0x7E) || c = 0x85 ||
      (0xA0 ≤ c && c ≤ 0xD7FF) || (0xE000 ≤ c && c ≤ 0xFFFD) || (0x10000 ≤ c && c ≤ 0x10FFFF))

/-- Codes with every line break of ASCII and the next-line character as a line feed. -/
def normalBreaks : List Nat → List Nat
  | 13 :: 10 :: rest => 10 :: normalBreaks rest
  | 13 :: rest => 10 :: normalBreaks rest
  | 0x85 :: rest => 10 :: normalBreaks rest
  | c :: rest => c :: normalBreaks rest
  | [] => []

/-- Gives the codes of a text their places, and adds the end. -/
def placed (line column index : Nat) : List Nat → Cells
  | [] => [⟨0, line, column, index⟩]
  | c :: rest =>
    ⟨c, line, column, index⟩ ::
      if isBreak c then placed (line + 1) 0 (index + 1) rest
      else placed line (column + 1) (index + 1) rest

/-- The characters of a text, if all of them may stand in one. A mark of the byte order at the start
is passed over. -/
def cells? (s : Bytes) : Option Cells :=
  let rs := s.characters
  if rs.all isAllowed then
    let codes := rs.map Character.code
    let codes := if codes.head? = some 0xFEFF then codes.drop 1 else codes
    some (placed 0 0 0 (normalBreaks codes))
  else none

namespace Cells

/-- The character at the front. -/
def head (cs : Cells) : Cell :=
  cs.headD default

/-- The code `n` characters from the front; zero behind the end. -/
def codeAt (cs : Cells) (n : Nat) : Nat :=
  (cs.drop n).head?.map Cell.code |>.getD 0

/-- Whether a document starts or ends here: three dashes or dots at the start of a line. -/
def isMarker (cs : Cells) (c : Char) : Bool :=
  cs.head.column = 0 && (cs.take 3).all (fun d => d.code = code c) && isGap (Cells.codeAt cs 3)

end Cells

end CodeLayout.Yaml
