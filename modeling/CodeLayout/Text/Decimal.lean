import CodeLayout.Text.Bytes

/-!
# Decimal numbers

Writing integers in base ten, and reading them back with a sign and within the range of 64-bit
words.
-/

namespace CodeLayout

/-- Whether a byte is an ASCII digit. -/
def isDigit (b : UInt8) : Bool :=
  48 ≤ b && b ≤ 57

/-- The number that a sequence of digits continues, read from the left. -/
def digitsValue (n : Nat) : Bytes → Nat
  | [] => n
  | b :: rest => digitsValue (10 * n + (b.toNat - 48)) rest

/-- The digits of a natural number. -/
def natDigits (n : Nat) : Bytes :=
  (Nat.toDigits 10 n).map fun c => c.toNat.toUInt8

/-- The digits of an integer behind its sign; only a negative number has one. -/
def intDigits (n : Int) : Bytes :=
  if n < 0 then 45 :: natDigits n.natAbs else natDigits n.natAbs

/-- Reads a natural number that consists of digits only. -/
def readNat? (s : Bytes) : Option Nat :=
  if s.isEmpty || !s.all isDigit then none else some (digitsValue 0 s)

/-- Two to the power of 63. -/
def wordLimit : Int := 0x8000000000000000

/-- Whether an integer fits into 64 bits. -/
def isWord (n : Int) : Bool :=
  -wordLimit ≤ n && n < wordLimit

/-- Reads an integer with an optional sign that fits into 64 bits. -/
def readInt? (s : Bytes) : Option Int :=
  let value : Option Int :=
    match s with
    | 45 :: rest => (readNat? rest).map fun n => -(n : Int)
    | 43 :: rest => (readNat? rest).map fun n => (n : Int)
    | _ => (readNat? s).map fun n => (n : Int)
  value.filter isWord

end CodeLayout
