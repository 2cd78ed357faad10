import CodeLayout.Text.Decimal

/-!
# Integer literals

Integers with an optional sign, a base that their first characters may choose, and underscores
between digits, within the range of 64-bit words.
-/

namespace CodeLayout

/-- Why a text is no integer. -/
inductive LiteralError where
  | malformed
  | outOfRange
  deriving DecidableEq, Repr

/-- The text of an error. -/
def LiteralError.message : LiteralError → Bytes
  | .malformed => ascii "invalid syntax"
  | .outOfRange => ascii "value out of range"

namespace Literal

/-- A letter in lower case; other bytes may change as well, but never into a letter. -/
def lowered (b : UInt8) : UInt8 :=
  b ||| 32

/-- The value of a digit in bases up to sixteen and beyond. -/
def digit? (b : UInt8) : Option Nat :=
  if isDigit b then some (b.toNat - 48)
  else if 97 ≤ lowered b && lowered b ≤ 122 then some ((lowered b).toNat - 87)
  else none

/-- The number that digits of a base continue. -/
def valueFrom? (base n : Nat) : Bytes → Option Nat
  | [] => some n
  | b :: rest =>
    match digit? b with
    | some d => if d < base then valueFrom? base (base * n + d) rest else none
    | none => none

/-- The base that the first characters of a literal choose, and the digits behind them. -/
def baseOf (s : Bytes) : Nat × Bytes :=
  match s with
  | 48 :: m :: d :: rest =>
    if lowered m = 98 then (2, d :: rest)
    else if lowered m = 111 then (8, d :: rest)
    else if lowered m = 120 then (16, d :: rest)
    else (8, m :: d :: rest)
  | 48 :: rest => (8, rest)
  | _ => (10, s)

/-- Whether every underscore has a digit on either side; the mark of a base counts as one. -/
def underscoresSeparate (behindDigit : Bool) : Bytes → Bool
  | [] => true
  | [b] => b != 95
  | b :: c :: rest =>
    (b != 95 || (behindDigit && c != 95)) && underscoresSeparate (b != 95) (c :: rest)

/-- Natural numbers are below this one: two to the power of 64. -/
def naturalLimit : Nat := 0x10000000000000000

/-- Reads a natural number below the limit in a base. -/
def readNatural (base : Nat) (s : Bytes) : Except LiteralError Nat :=
  if s.isEmpty then .error .malformed
  else
    match valueFrom? base 0 s with
    | none => .error .malformed
    | some n => if n < naturalLimit then .ok n else .error .outOfRange

/-- Reads a natural number in the base that it chooses itself. -/
def readNaturalAny (s : Bytes) : Except LiteralError Nat :=
  let (base, digits) := baseOf s
  let marked := base = 2 || base = 16 || (base = 8 && digits.length + 1 < s.length)
  let isZero := base = 8 && digits.isEmpty
  if s.isEmpty || !underscoresSeparate (marked || base = 8) digits then .error .malformed
  else if isZero then .ok 0
  else readNatural base (digits.filter (· != 95))

/-- Reads an integer with an optional sign; `read` reads what is behind the sign. -/
def readSigned (read : Bytes → Except LiteralError Nat) (s : Bytes) : Except LiteralError Int :=
  match s with
  | 45 :: rest => do
    let n ← read rest
    if isWord (-(n : Int)) then return -(n : Int) else throw .outOfRange
  | _ => do
    let n ← read (if s.head? = some 43 then s.drop 1 else s)
    if isWord n then return (n : Int) else throw .outOfRange

/-- Reads an integer in the base that it chooses itself. -/
def read (s : Bytes) : Except LiteralError Int :=
  readSigned readNaturalAny s

end Literal

end CodeLayout
