import CodeLayout.Text.Decimal

/-!
# Floating-point numbers

Numbers of 53 bits and a binary exponent. A decimal is read as the nearest of them, and a number is
written with the fewest digits that are read back as the same number. All of this is exact
arithmetic on natural numbers.
-/

namespace CodeLayout

/-- A floating-point number. A finite one is `mantissa * 2 ^ exponent` up to its sign. -/
inductive Binary64 where
  | finite (negative : Bool) (mantissa : Nat) (exponent : Int)
  | infinite (negative : Bool)
  | nan
  deriving DecidableEq, Repr, Inhabited

namespace Binary64

/-- The number of bits of a mantissa. -/
def precision : Nat := 53

/-- The mantissas are below this number. -/
def mantissaLimit : Nat := 0x20000000000000

/-- The least mantissa with all bits. -/
def leastFull : Nat := 0x10000000000000

/-- The least exponent. -/
def minExponent : Int := -1074

/-- The greatest exponent. -/
def maxExponent : Int := 971

/-- A positive fraction. -/
structure Fraction where
  num : Nat
  den : Nat
  deriving DecidableEq, Repr, Inhabited

namespace Fraction

/-- The product of a fraction and a power. -/
def scale (x : Fraction) (base : Nat) (exponent : Int) : Fraction :=
  if 0 ≤ exponent then { x with num := x.num * Nat.pow base exponent.toNat }
  else { x with den := x.den * Nat.pow base exponent.natAbs }

/-- The greatest natural number that is not above a fraction. -/
def floor (x : Fraction) : Nat :=
  x.num / x.den

/-- Whether a fraction is not above another. -/
def le (x y : Fraction) : Bool :=
  x.num * y.den ≤ y.num * x.den

/-- The nearest natural number, of two the even one. -/
def round (x : Fraction) : Nat :=
  let below := x.floor
  let twice := 2 * (x.num % x.den)
  if twice < x.den then below
  else if x.den < twice then below + 1
  else if below % 2 = 0 then below
  else below + 1

/-- The number of bits of the whole part less the number of bits that a fraction below one lacks. -/
def magnitude (x : Fraction) : Int :=
  (Nat.log2 x.num : Int) - Nat.log2 x.den

end Fraction

/-- The exponent for a positive number: the least one at which its whole part has at most as many
bits as a mantissa. -/
def exponentFor (x : Fraction) : Int :=
  let guess := x.magnitude - precision
  let fits (e : Int) : Bool := (x.scale 2 (-e)).floor < mantissaLimit
  max minExponent (if fits guess then guess else if fits (guess + 1) then guess + 1 else guess + 2)

/-- The nearest number to a fraction, unless it is too great. -/
def ofFraction? (negative : Bool) (x : Fraction) : Option Binary64 :=
  let e := exponentFor x
  let m := (x.scale 2 (-e)).round
  let (m, e) := if m = mantissaLimit then (leastFull, e + 1) else (m, e)
  if maxExponent < e then none else some (.finite negative m e)

/-- The nearest number to `digits * 10 ^ exponent`, unless it is too great. -/
def ofDecimal? (negative : Bool) (digits : Nat) (exponent : Int) : Option Binary64 :=
  let places : Int := (natDigits digits).length + exponent
  if digits = 0 || places < -400 then some (.finite negative 0 minExponent)
  else if 400 < places then none
  else ofFraction? negative ((Fraction.mk digits 1).scale 10 exponent)

/-- A decimal number with an optional sign, point and exponent: whether it is negative, its digits,
and the exponent of the last one. -/
def decimal? (s : Bytes) : Option (Bool × Nat × Int) := do
  let negative := s.head? = some 45
  let s := if s.head? = some 45 || s.head? = some 43 then s.drop 1 else s
  let whole := s.takeWhile isDigit
  let rest := s.drop whole.length
  let (places, rest) :=
    match rest with
    | 46 :: more => (more.takeWhile isDigit, more.dropWhile isDigit)
    | _ => ([], rest)
  if whole.isEmpty && places.isEmpty then none
  let exponent ←
    match rest with
    | [] => some 0
    | e :: more => do
      if e != 101 && e != 69 then none
      let digits := if more.head? = some 45 || more.head? = some 43 then more.drop 1 else more
      let n ← readNat? digits
      pure (if more.head? = some 45 then -(n : Int) else (n : Int))
  return (negative, digitsValue 0 (whole ++ places), exponent - places.length)

/-- The nearest number to a decimal, unless it is too great. -/
def read? (s : Bytes) : Option Binary64 := do
  let (negative, digits, exponent) ← decimal? s
  ofDecimal? negative digits exponent

/-- The fractions that are read as a positive number lie between these two. -/
def bounds (mantissa : Nat) (exponent : Int) : Fraction × Fraction :=
  let isPower := mantissa = leastFull && minExponent < exponent
  let below := if isPower then 4 * mantissa - 1 else 4 * mantissa - 2
  ((Fraction.mk below 1).scale 2 (exponent - 2),
    (Fraction.mk (4 * mantissa + 2) 1).scale 2 (exponent - 2))

/-- The number of digits of the whole part of a fraction; for one below `1 / 10`, less the number of
zeros behind the point. -/
def decimalPoint (x : Fraction) : Int :=
  if x.den ≤ x.num then (natDigits x.floor).length
  else
    match (List.range 400).find? fun k => x.den ≤ x.num * Nat.pow 10 (k + 1) with
    | some k => -(k : Int)
    | none => -400

/-- The nearest decimal with `count` digits among those that are read as the given number: the
digits, and the exponent of their last place. -/
def decimalWith? (mantissa : Nat) (exponent : Int) (count : Nat) : Option (Nat × Int) :=
  let value := (Fraction.mk mantissa 1).scale 2 exponent
  let place := decimalPoint value - count
  let (lo, hi) := bounds mantissa exponent
  let inside (d : Nat) : Bool :=
    let x := (Fraction.mk d 1).scale 10 place
    if mantissa % 2 = 0 then lo.le x && x.le hi else !x.le lo && !hi.le x
  let exact := value.scale 10 (-place)
  let below := exact.floor
  let near := exact.round
  let far := if near = below then below + 1 else below
  if inside near then some (near, place) else if inside far then some (far, place) else none

/-- Digits without zeros at their end, with the exponent of their last place. -/
def trimZeros : Nat → Nat × Int → Nat × Int
  | 0, d => d
  | n + 1, (digits, place) =>
    if digits != 0 && digits % 10 = 0 then trimZeros n (digits / 10, place + 1) else (digits, place)

/-- The shortest decimal that is read as a positive number. -/
def shortest (mantissa : Nat) (exponent : Int) : Nat × Int :=
  let found := ((List.range 17).filterMap fun k => decimalWith? mantissa exponent (k + 1)).head?
  trimZeros 20 (found.getD (0, 0))

/-- A point behind the first digit if more digits follow. -/
def withPoint : Bytes → Bytes
  | d :: e :: rest => d :: 46 :: e :: rest
  | ds => ds

/-- The digits of a decimal with its point. Exponents below -4 and from 6 on are written out, with
two digits at least. -/
def decimalText (digits : Nat) (place : Int) : Bytes :=
  let ds := natDigits digits
  let exponent := place + ds.length - 1
  if exponent < -4 || 6 ≤ exponent then
    let size := natDigits exponent.natAbs
    withPoint ds ++ ascii (if exponent < 0 then "e-" else "e+") ++
      (if size.length < 2 then 48 :: size else size)
  else if 0 ≤ place then ds ++ List.replicate place.toNat 48
  else if 0 ≤ exponent then
    ds.take (exponent.toNat + 1) ++ [46] ++ ds.drop (exponent.toNat + 1)
  else ascii "0." ++ List.replicate (exponent.natAbs - 1) 48 ++ ds

/-- The text of a number. -/
def render : Binary64 → Bytes
  | .nan => ascii "NaN"
  | .infinite negative => ascii (if negative then "-Inf" else "+Inf")
  | .finite negative mantissa exponent =>
    let (digits, place) := if mantissa = 0 then (0, 0) else shortest mantissa exponent
    (if negative then [45] else []) ++ decimalText digits place

end Binary64

end CodeLayout
