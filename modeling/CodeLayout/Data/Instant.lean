import CodeLayout.Text.Decimal

/-!
# Dates and times

Points in time as they may stand in files of options: a date, a time of day, and the place on the
earth it holds for.
-/

namespace CodeLayout

/-- Where a time of day holds. -/
inductive Zone where
  | utc
  /-- A number of minutes ahead of universal time. -/
  | ahead (minutes : Int)
  /-- A place that is not told. -/
  | untold (name : Bytes)
  deriving DecidableEq, Repr, Inhabited

/-- A point in time. -/
structure Instant where
  year : Nat := 0
  month : Nat := 1
  day : Nat := 1
  hour : Nat := 0
  minute : Nat := 0
  second : Nat := 0
  /-- Billionths of a second. -/
  nanos : Nat := 0
  zone : Zone := .utc
  deriving DecidableEq, Repr, Inhabited

namespace Instant

/-- The digits of a number with zeros in front. -/
def padded (width n : Nat) : Bytes :=
  let ds := natDigits n
  List.replicate (width - ds.length) 48 ++ ds

/-- A number of minutes ahead of universal time: a sign, hours and minutes. -/
def aheadText (minutes : Int) : Bytes :=
  (if minutes < 0 then [45] else [43]) ++ padded 2 (minutes.natAbs / 60) ++
    padded 2 (minutes.natAbs % 60)

/-- A place as it is shown. -/
def zoneText : Zone → Bytes
  | .utc => aheadText 0 ++ ascii " UTC"
  | .ahead minutes => aheadText minutes ++ ascii " " ++ aheadText minutes
  | .untold name => aheadText 0 ++ ascii " " ++ name

/-- The fraction of a second without zeros at its end. -/
def fractionText (nanos : Nat) : Bytes :=
  if nanos = 0 then [] else 46 :: Bytes.trimRight (· = 48) (padded 9 nanos)

/-- A point in time as it is shown. -/
def render (t : Instant) : Bytes :=
  padded 4 t.year ++ ascii "-" ++ padded 2 t.month ++ ascii "-" ++ padded 2 t.day ++ ascii " " ++
    padded 2 t.hour ++ ascii ":" ++ padded 2 t.minute ++ ascii ":" ++ padded 2 t.second ++
    fractionText t.nanos ++ ascii " " ++ zoneText t.zone

/-- Whether a year has a leap day. -/
def isLeap (year : Nat) : Bool :=
  year % 4 = 0 && (year % 100 != 0 || year % 400 = 0)

/-- The number of days of a month. -/
def daysIn (year month : Nat) : Nat :=
  if month = 2 then (if isLeap year then 29 else 28)
  else if [4, 6, 9, 11].contains month then 30
  else 31

/-- Whether a date and a time of day exist. -/
def isValid (t : Instant) : Bool :=
  1 ≤ t.month && t.month ≤ 12 && 1 ≤ t.day && t.day ≤ daysIn t.year t.month && t.hour < 24 &&
    t.minute < 60 && t.second < 60

/-- A reader of the front of a text: what it finds, and what is left. -/
abbrev Reader (α : Type) := Bytes → Option (α × Bytes)

/-- Reads exactly `n` digits. -/
def digits (n : Nat) : Reader Nat := fun s =>
  let ds := s.take n
  if ds.length = n && ds.all isDigit then some (digitsValue 0 ds, s.drop n) else none

/-- Reads one or two digits. -/
def shortNumber : Reader Nat := fun s =>
  (digits 2 s).or (digits 1 s)

/-- Reads a given byte. -/
def byte (b : UInt8) : Reader Unit := fun s =>
  if s.head? = some b then some ((), s.drop 1) else none

/-- Reads a date whose month and day are read by `part`. -/
def readDate (part : Reader Nat) : Reader Instant := fun s => do
  let (year, s) ← digits 4 s
  let (_, s) ← byte 45 s
  let (month, s) ← part s
  let (_, s) ← byte 45 s
  let (day, s) ← part s
  return ({ year, month, day }, s)

/-- Reads the fraction of a second, if there is one. Digits behind the ninth are dropped. -/
def fraction (s : Bytes) : Nat × Bytes :=
  match s with
  | b :: rest =>
    let ds := rest.takeWhile isDigit
    if (b = 46 || b = 44) && !ds.isEmpty then
      let kept := ds.take 9
      (digitsValue 0 kept * Nat.pow 10 (9 - kept.length), rest.drop ds.length)
    else (0, s)
  | [] => (0, [])

/-- Reads a time of day, whose parts are read by `part`, into a date. -/
def readTime (part : Reader Nat) (t : Instant) : Reader Instant := fun s => do
  let (hour, s) ← part s
  let (_, s) ← byte 58 s
  let (minute, s) ← part s
  let (_, s) ← byte 58 s
  let (second, s) ← part s
  let (nanos, s) := fraction s
  return ({ t with hour, minute, second, nanos }, s)

/-- Reads a distance from universal time. -/
def readZone : Reader Zone := fun s =>
  match s with
  | 90 :: rest => some (.utc, rest)
  | sign :: rest => do
    let (hours, rest) ← digits 2 rest
    let (_, rest) ← byte 58 rest
    let (minutes, rest) ← digits 2 rest
    let n : Int := hours * 60 + minutes
    if 24 < hours || 60 < minutes then none
    else if n = 0 && (sign = 43 || sign = 45) then some (.utc, rest)
    else if sign = 43 then some (.ahead n, rest)
    else if sign = 45 then some (.ahead (-n), rest)
    else none
  | [] => none

/-- The result of a reader that must use up the text, if the date exists. -/
def whole (r : Option (Instant × Bytes)) : Option Instant :=
  match r with
  | some (t, []) => if t.isValid then some t else none
  | _ => none

end Instant

end CodeLayout
