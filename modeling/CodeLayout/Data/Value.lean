import CodeLayout.Data.Instant
import CodeLayout.Number.Binary64
import CodeLayout.Style.Options

/-!
# Values in files of options

What a file of options says, whatever its format. Tables are flattened into options: the keys of
nested tables are joined by dots, and every other value is shown as text.
-/

namespace CodeLayout

/-- A value. -/
inductive Value where
  | null
  | bool (b : Bool)
  | int (n : Int)
  | float (x : Binary64)
  | text (s : Bytes)
  | instant (t : Instant)
  | list (items : List Value)
  /-- Values under texts. -/
  | table (entries : List (Bytes × Value))
  /-- Values under values of any form. -/
  | dictionary (entries : List (Value × Value))
  deriving Repr, Inhabited

namespace Value

/-- The rank of the forms of keys in a dictionary. -/
def rank : Value → Nat
  | .null => 0
  | .bool _ => 1
  | .float _ => 2
  | .int _ => 3
  | .text _ => 4
  | _ => 5

/-- Whether a finite number is less than another. -/
def floatBefore (x y : Binary64) : Bool :=
  let signed (negative : Bool) (m : Nat) : Int := if negative then -m else m
  match x, y with
  | .nan, .nan => false
  | .nan, _ => true
  | _, .nan => false
  | .infinite s, .infinite t => s && !t
  | .infinite s, .finite .. => s
  | .finite .., .infinite t => !t
  | .finite s m e, .finite t n f =>
    let low := min e f
    signed s (m * Nat.pow 2 (e - low).toNat) < signed t (n * Nat.pow 2 (f - low).toNat)

/-- Whether a key of a dictionary is shown before another. -/
def keyBefore (a b : Value) : Bool :=
  match a, b with
  | .bool x, .bool y => !x && y
  | .int m, .int n => m < n
  | .float x, .float y => floatBefore x y
  | .text s, .text t => s.before t
  | a, b => a.rank < b.rank

/-- Puts an entry in front of the first one with a greater key. -/
def insertEntry {α β : Type} (before : α → α → Bool) (e : α × β) : List (α × β) → List (α × β)
  | [] => [e]
  | f :: rest => if before e.1 f.1 then e :: f :: rest else f :: insertEntry before e rest

/-- Entries in the order of their keys. -/
def sortEntries {α β : Type} (before : α → α → Bool) (entries : List (α × β)) : List (α × β) :=
  entries.foldr (insertEntry before) []

/-- Shown entries between brackets. -/
def entriesText (entries : List (Bytes × Bytes)) : Bytes :=
  ascii "map[" ++ Bytes.join [32] (entries.map fun (k, v) => k ++ [58] ++ v) ++ ascii "]"

mutual

/-- A value as it is shown inside of others. -/
def render : Value → Bytes
  | .null => ascii "<nil>"
  | .bool b => if b then ascii "true" else ascii "false"
  | .int n => intDigits n
  | .float x => x.render
  | .text s => s
  | .instant t => t.render
  | .list items => ascii "[" ++ Bytes.join [32] (renderList items) ++ ascii "]"
  | .table entries => entriesText (sortEntries Bytes.before (renderTable entries))
  | .dictionary entries =>
    entriesText ((sortEntries keyBefore (renderDictionary entries)).map (·.2))

/-- The values of a list as they are shown. -/
def renderList : List Value → List Bytes
  | [] => []
  | v :: vs => render v :: renderList vs

/-- The values of a table as they are shown. -/
def renderTable : List (Bytes × Value) → List (Bytes × Bytes)
  | [] => []
  | (k, v) :: rest => (k, render v) :: renderTable rest

/-- The entries of a dictionary as they are shown, behind their keys. -/
def renderDictionary : List (Value × Value) → List (Value × Bytes × Bytes)
  | [] => []
  | (k, v) :: rest => (k, render k, render v) :: renderDictionary rest

end

/-- The key of an entry in a table that is itself under a key. -/
def joinKey (outer key : Bytes) : Bytes :=
  if outer.isEmpty then key else outer ++ ascii "." ++ key

mutual

/-- The options that a value under a key stands for. -/
def flatten (key : Bytes) : Value → OptionMap
  | .table entries => flattenTable key entries
  | .null => [(key, [])]
  | v => [(key, v.render)]

/-- The options that the entries of a table under a key stand for. -/
def flattenTable (outer : Bytes) : List (Bytes × Value) → OptionMap
  | [] => []
  | (key, v) :: rest => flatten (joinKey outer key) v ++ flattenTable outer rest

end

/-- The options that a table stands for. Of entries for one key the last one counts. -/
def toOptions (entries : List (Bytes × Value)) : OptionMap :=
  (flattenTable [] entries).foldl (fun m (k, v) => m.set k v) []

end Value

end CodeLayout
