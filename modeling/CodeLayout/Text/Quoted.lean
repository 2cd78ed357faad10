import CodeLayout.Text.Decimal
import CodeLayout.Text.Printable

/-!
# Quoted text

A text shown between double quotes on one line: printable characters stand for themselves, all
others are written as escapes, and so are bytes that are no character.
-/

namespace CodeLayout

namespace Quoted

/-- The lower-case hexadecimal digit of a number below sixteen. -/
def hexDigit (n : Nat) : UInt8 :=
  if n < 10 then (48 + n).toUInt8 else (87 + n).toUInt8

/-- The lowest `width` hexadecimal digits of a number. -/
def hexDigits : Nat → Nat → Bytes
  | 0, _ => []
  | width + 1, n => hexDigits width (n / 16) ++ [hexDigit (n % 16)]

/-- The letter behind the backslash for the control characters that have one. -/
def controlLetter? : Nat → Option UInt8
  | 7 => some 97
  | 8 => some 98
  | 9 => some 116
  | 10 => some 110
  | 11 => some 118
  | 12 => some 102
  | 13 => some 114
  | _ => none

/-- One character between the quotes. -/
def escape (r : Character) : Bytes :=
  if r.isMalformed then ascii "\\x" ++ r.bytes.flatMap fun b => hexDigits 2 b.toNat
  else if r.code = 34 || r.code = 92 then 92 :: r.bytes
  else if isPrintable r.code then r.bytes
  else match controlLetter? r.code with
    | some letter => [92, letter]
    | none =>
      if r.code < 0x20 || r.code = 0x7F then ascii "\\x" ++ hexDigits 2 r.code
      else if r.code < 0x10000 then ascii "\\u" ++ hexDigits 4 r.code
      else ascii "\\U" ++ hexDigits 8 r.code

end Quoted

/-- The quoted form of a text. -/
def quoted (s : Bytes) : Bytes :=
  34 :: s.characters.flatMap Quoted.escape ++ [34]

end CodeLayout
