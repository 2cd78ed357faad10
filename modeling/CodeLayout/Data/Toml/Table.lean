import CodeLayout.Data.Toml.Line

/-!
# Tables of a TOML text

Which keys the lines of a text give values to. A key may be given a value once. A table that was
only named on the way to another one is implied, and may still be opened once.
-/

namespace CodeLayout.Toml

/-- What is under a key while lines are being read. -/
inductive Slot where
  | value (v : Value)
  | table (entries : List (Bytes × Slot))
  /-- An array of tables; the last one is open. -/
  | tables (closed : List Value) (last : List (Bytes × Slot))
  deriving Inhabited

/-- What is under the keys of a table. -/
abbrev Slots := List (Bytes × Slot)

/-- Puts something under a key. -/
def put {α : Type} (key : Bytes) (x : α) : List (Bytes × α) → List (Bytes × α)
  | [] => [(key, x)]
  | (k, y) :: rest => if k = key then (k, x) :: rest else (k, y) :: put key x rest

namespace Slot

mutual

/-- The value of what is under a key. -/
def toValue : Slot → Value
  | .value v => v
  | .table entries => .table (toEntries entries)
  | .tables closed last => .list (closed ++ [.table (toEntries last)])

/-- The values of what is under several keys. -/
def toEntries : List (Bytes × Slot) → List (Bytes × Value)
  | [] => []
  | (k, s) :: rest => (k, toValue s) :: toEntries rest

end

mutual

/-- What is under a key that a value is given to. Tables stay open to further keys. -/
def ofValue : Value → Slot
  | .table entries => .table (ofEntries entries)
  | v => .value v

/-- What is under keys that values are given to. -/
def ofEntries : List (Bytes × Value) → List (Bytes × Slot)
  | [] => []
  | (k, v) :: rest => (k, ofValue v) :: ofEntries rest

end

end Slot

namespace Slots

/-- Changes the table at a path. Of an array of tables the last one is taken. There is no table if
the path leads through anything else. -/
def changeAt (change : Slots → Option Slots) : Key → Slots → Option Slots
  | [], own => change own
  | k :: path, own =>
    match own.lookup k with
    | some (.table inner) => (changeAt change path inner).map fun t => put k (.table t) own
    | some (.tables closed last) =>
      (changeAt change path last).map fun t => put k (.tables closed t) own
    | _ => none

/-- The table at a path. -/
def at? : Key → Slots → Option Slots
  | [], own => some own
  | k :: path, own =>
    match own.lookup k with
    | some (.table inner) => at? path inner
    | some (.tables _ last) => at? path last
    | _ => none

end Slots

/-- The tables that the lines so far stand for. -/
structure Draft where
  root : Slots := []
  /-- The paths of tables that are only implied. -/
  implied : List Key := []
  /-- The paths of keys that an array was given to last. -/
  arrays : List Key := []
  deriving Inhabited

namespace Draft

/-- Notes that a table is implied. -/
def imply (d : Draft) (path : Key) : Draft :=
  { d with implied := path :: d.implied }

/-- Notes that a table is no longer implied. -/
def settle (d : Draft) (path : Key) : Draft :=
  { d with implied := d.implied.filter (· != path) }

/-- Notes whether the last value given to a key is an array. A key without a name is not told from
its table, unless that is the root. -/
def mark (d : Draft) (context : Key) (key : Bytes) (isArray : Bool) : Draft :=
  let path := if key.isEmpty && !context.isEmpty then context else context ++ [key]
  let others := d.arrays.filter (· != path)
  { d with arrays := if isArray then path :: others else others }

/-- Puts something under a key of the table at a path. -/
def putAt (d : Draft) (context : Key) (key : Bytes) (slot : Slot) : Option Draft := do
  let root ← d.root.changeAt (fun own => some (put key slot own)) context
  return { d with root }

/-- Gives a value to a key. If there is one, it must be implied, and it is kept unless it stands for
an array. -/
def define (d : Draft) (context : Key) (key : Bytes) (slot : Slot) : Option Draft := do
  let own ← d.root.at? context
  let path := context ++ [key]
  if (own.lookup key).isNone then d.putAt context key slot
  else if !d.implied.contains path then none
  else if d.arrays.contains path then (d.settle path).putAt context key slot
  else return d.settle path

/-- Implies the tables that are missing on the way along `path` from the table at `context`. -/
def reach (d : Draft) (context : Key) : Key → Option Draft
  | [] => some d
  | k :: path => do
    let own ← d.root.at? context
    let d ←
      if (own.lookup k).isSome then some d
      else (d.imply (context ++ [k])).putAt context k (.table [])
    reach d (context ++ [k]) path

/-- Opens the table at a path, or a further one of the array of tables there. -/
def enter (d : Draft) (path : Key) (isElement : Bool) : Option Draft := do
  let context := path.dropLast
  let key := path.getLastD []
  let d ← d.reach [] context
  if isElement then
    match (← d.root.at? context).lookup key with
    | none => d.putAt context key (.tables [] [])
    | some (.tables closed last) =>
      d.putAt context key (.tables (closed ++ [.table (Slot.toEntries last)]) [])
    | some _ => none
  else d.define context key (.table [])

/-- Opens the tables on the way to a dotted key, each of them implied. -/
def enterParents (d : Draft) (context : Key) : Key → Option (Draft × Key)
  | [] => some (d, context)
  | k :: path => do
    let inner := context ++ [k]
    let d ← (d.imply inner).enter inner false
    enterParents d inner path

end Draft

/-- Whether a value is written as an array. -/
def Term.isArray : Term → Bool
  | .array _ => true
  | _ => false

/-- Gives a value to a dotted key of a table in braces. -/
def putField (path : Key) (key : Bytes) (v : Value) (own : List (Bytes × Value)) :
    Option (List (Bytes × Value)) :=
  match path with
  | [] => some (put key v own)
  | k :: path =>
    let inner? : Option (List (Bytes × Value)) :=
      match own.lookup k with
      | none => some []
      | some (.table inner) => some inner
      | some _ => none
    match inner? with
    | none => none
    | some inner => (putField path key v inner).map fun t => put k (.table t) own

namespace Draft

mutual

/-- The value that is written for a key. A table in braces is opened, and its fields are given their
values there as well. -/
def value (d : Draft) (context : Key) (key : Bytes) (inArray : Bool) :
    Term → Option (Draft × Value)
  | .scalar v => some (d, v)
  | .array items => do
    let (d, vs) ← (d.mark context key true).values context key items
    return (d, .list vs)
  | .table fields => do
    let path := context ++ [key]
    let d ← (d.imply path).enter path inArray
    let (d, entries) ← d.fields path [] fields
    return (d, .table entries)

/-- The values that are written in an array for a key. -/
def values (d : Draft) (context : Key) (key : Bytes) : List Term → Option (Draft × List Value)
  | [] => some (d, [])
  | t :: ts => do
    let (d, v) ← d.value context key true t
    let (d, vs) ← d.values context key ts
    return (d, v :: vs)

/-- Gives values to the fields of a table in braces, and adds them to `entries`. -/
def fields (d : Draft) (context : Key) (entries : List (Bytes × Value)) :
    List (Key × Term) → Option (Draft × List (Bytes × Value))
  | [] => some (d, entries)
  | (path, t) :: rest => do
    let key := path.getLastD []
    let (d, inner) ← d.enterParents context path.dropLast
    let (d, v) ← d.value inner key false t
    let d ← d.define inner key (Slot.ofValue v)
    let entries ← putField path.dropLast key v entries
    (d.mark inner key t.isArray).fields context entries rest

end

/-- Takes in a line; `context` is the open table. -/
def line (d : Draft) (context : Key) : Line → Option (Draft × Key)
  | .table key => do return ((← d.enter key false).mark key [] false, key)
  | .element key => do return ((← d.enter key true).mark key [] false, key)
  | .field key t => do
    let (d, _) ← d.fields context [] [(key, t)]
    return (d, context)

/-- Takes in lines. -/
def lines (d : Draft) (context : Key) : List Line → Option Draft
  | [] => some d
  | l :: ls => do
    let (d, context) ← d.line context l
    d.lines context ls

end Draft

/-- The table that a text stands for. -/
def table (text : Bytes) : Option (List (Bytes × Value)) := do
  let d ← ({} : Draft).lines [] (← lines? text)
  return Slot.toEntries d.root

end CodeLayout.Toml
