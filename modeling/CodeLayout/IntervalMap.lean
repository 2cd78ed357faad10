import CodeLayout.Text.Decimal

/-!
# Maps of disjoint intervals

An ordered collection of half-open intervals over 64-bit keys, each with a value. The entries are
kept in the order of their ends, and no two of them overlap.
-/

namespace CodeLayout

/-- The keys from `start` up to, and not including, `stop`, with a value. -/
structure Interval (α : Type) where
  start : Int64
  stop : Int64
  value : α
  deriving DecidableEq, Repr, Inhabited

namespace Interval

variable {α : Type}

/-- Whether a key lies in the interval. -/
def contains (i : Interval α) (key : Int64) : Bool :=
  i.start ≤ key && key < i.stop

end Interval

/-- Intervals in the order of their ends. -/
structure IntervalMap (α : Type) where
  entries : List (Interval α) := []
  deriving Repr, Inhabited

namespace IntervalMap

variable {α : Type}

/-- A map without intervals. -/
def empty : IntervalMap α := ⟨[]⟩

/-- The number of intervals. -/
def size (m : IntervalMap α) : Nat :=
  m.entries.length

/-- The first interval that ends at or behind a key. -/
def seek? (m : IntervalMap α) (key : Int64) : Option (Interval α) :=
  m.entries.find? fun i => key ≤ i.stop

/-- The interval that a key lies in: of all intervals only the first that ends behind the key can
hold it. The successor of the greatest key is the least one. -/
def get? (m : IntervalMap α) (key : Int64) : Option (Interval α) :=
  (m.seek? (key + 1)).filter fun i => i.start ≤ key

/-- Puts an interval in front of the first entry that ends behind it. An entry with the same end
gives way to it. -/
def put (i : Interval α) : List (Interval α) → List (Interval α)
  | [] => [i]
  | e :: rest =>
    if i.stop < e.stop then i :: e :: rest
    else if i.stop = e.stop then i :: rest
    else e :: put i rest

/-- The stored interval that an interval overlaps, the one with the least start. -/
def overlap? (m : IntervalMap α) (i : Interval α) : Option (Interval α) :=
  (m.seek? (i.start + 1)).filter fun e => e.start < i.stop

/-- What inserting an interval comes to. -/
inductive Insertion (α : Type) where
  /-- The interval starts behind its end. -/
  | reversed
  /-- A stored interval is in the way, and the map stays as it is. -/
  | blocked (other : Interval α)
  /-- The interval is stored; an empty one leaves the map as it is. -/
  | done (map : IntervalMap α)

/-- Inserts an interval unless it overlaps a stored one. -/
def insert (m : IntervalMap α) (i : Interval α) : Insertion α :=
  if i.stop < i.start then .reversed
  else if i.start = i.stop then .done m
  else match m.overlap? i with
    | some e => .blocked e
    | none => .done ⟨put i m.entries⟩

/-- The intervals in order between braces, with each value shown by `f`. -/
def render (f : α → Bytes) (m : IntervalMap α) : Bytes :=
  let entry (i : Interval α) : Bytes :=
    ascii "[" ++ intDigits i.start.toInt ++ ascii ", " ++ intDigits i.stop.toInt ++ ascii "): " ++
      f i.value
  ascii "\x7b" ++ Bytes.join (ascii ", ") (m.entries.map entry) ++ ascii "\x7d"

end IntervalMap

end CodeLayout
