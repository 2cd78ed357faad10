import CodeLayout.Data.Value
import CodeLayout.Data.Yaml.Node
import CodeLayout.Number.Literal

/-!
# Values of a YAML text

A plain scalar stands for the value that it looks like: nothing, a truth value, a number or a date,
and else a text. A tag may ask for one of these forms.
-/

namespace CodeLayout.Yaml

/-- The short forms of the tags that scalars may look like. -/
inductive Form where
  | null
  | bool
  | int
  | float
  | timestamp
  | text
  deriving DecidableEq, Repr

/-- The form that a tag asks for. Other tags leave a scalar a text. -/
def formOf? (tag : Bytes) : Option Form :=
  ([(ascii "!!null", Form.null), (ascii "!!bool", .bool), (ascii "!!int", .int),
    (ascii "!!float", .float), (ascii "!!timestamp", .timestamp), (ascii "!!str", .text)] :
    List (Bytes × Form)).lookup tag

/-- The form of a scalar value. -/
def formOfValue : Value → Form
  | .null => .null
  | .bool _ => .bool
  | .int _ => .int
  | .float _ => .float
  | .instant _ => .timestamp
  | _ => .text

/-- The words that stand for a value. -/
def wordValue? (s : Bytes) : Option Value :=
  let isAny (words : List String) : Bool := (words.map ascii).contains s
  if isAny ["", "~", "null", "Null", "NULL"] then some .null
  else if isAny ["true", "True", "TRUE"] then some (.bool true)
  else if isAny ["false", "False", "FALSE"] then some (.bool false)
  else if isAny [".nan", ".NaN", ".NAN"] then some (.float .nan)
  else if isAny [".inf", ".Inf", ".INF", "+.inf", "+.Inf", "+.INF"] then
    some (.float (.infinite false))
  else if isAny ["-.inf", "-.Inf", "-.INF"] then some (.float (.infinite true))
  else none

/-- A date, alone or with a time of day behind a letter or spaces. -/
def timestamp? (s : Bytes) : Option Instant := do
  let (date, rest) ← Instant.readDate Instant.shortNumber s
  match rest with
  | [] => Instant.whole (some (date, []))
  | 32 :: _ =>
    Instant.whole (Instant.readTime Instant.shortNumber date (rest.dropWhile (· = 32)))
  | mark :: rest => do
    if mark != 84 && mark != 116 then none
    let (t, rest) ← Instant.readTime Instant.shortNumber date rest
    let (zone, rest) ← Instant.readZone rest
    Instant.whole (some ({ t with zone }, rest))

/-- An integer; it may have two forms of octal numbers. -/
def int? (s : Bytes) : Option Int :=
  match Literal.read s with
  | .ok n => some n
  | .error _ =>
    match Literal.readNaturalAny s with
    | .ok n => some n
    | .error _ => none

/-- Whether every underscore is between two digits. -/
def underscoresInside (behindDigit : Bool) : Bytes → Bool
  | [] => true
  | b :: rest =>
    (b != 95 || (behindDigit && (rest.head?.map isDigit).getD false)) &&
      underscoresInside (isDigit b) rest

/-- The value that a plain scalar looks like. Dates are left alone if another form is asked for. -/
def plainValue (dates : Bool) (s : Bytes) : Value :=
  match s.head? with
  | none => .null
  | some c =>
    let isNumeral := isDigit c || c = 43 || c = 45
    let isWord := (ascii "yYnNtTfFoO~").contains c
    match if isNumeral || isWord || c = 46 then wordValue? s else none with
    | some v => v
    | none =>
      let bare := s.filter (· != 95)
      if c = 46 then
        if underscoresInside false s then ((Binary64.read? bare).map Value.float).getD (.text s)
        else .text s
      else if isNumeral then
        let found := ((if dates then timestamp? s else none).map Value.instant).or
          (((int? bare).map Value.int).or ((Binary64.read? bare).map Value.float))
        found.getD (.text s)
      else .text s

/-- The bytes that a text in base 64 stands for, with `bits` bits of `value` left. -/
def base64From (value bits : Nat) : Bytes → Option Bytes
  | [] => some []
  | c :: rest =>
    let digit? : Option Nat :=
      if 65 ≤ c && c ≤ 90 then some (c.toNat - 65)
      else if 97 ≤ c && c ≤ 122 then some (c.toNat - 71)
      else if isDigit c then some (c.toNat + 4)
      else if c = 43 then some 62
      else if c = 47 then some 63
      else none
    match digit? with
    | none => none
    | some d =>
      let value := value * 64 + d
      let bits := bits + 6
      if bits < 8 then base64From value bits rest
      else
        (base64From (value % Nat.pow 2 (bits - 8)) (bits - 8) rest).map fun more =>
          (value / Nat.pow 2 (bits - 8)).toUInt8 :: more

/-- The bytes that a text in base 64 stands for. -/
def base64? (s : Bytes) : Option Bytes :=
  let s := s.filter fun c => c != 10 && c != 13
  let own := s.takeWhile (· != 61)
  let fill := s.drop own.length
  if s.length % 4 != 0 || fill.length > 2 || !fill.all (· = 61) || own.length % 4 = 1 then none
  else base64From 0 0 own

/-- The value of a scalar. There is none if it is not of the form that its tag asks for. -/
def scalarValue? (tag text : Bytes) (plain : Bool) : Option Value :=
  let tag := if tag = ascii "!" then [] else tag
  if tag.isEmpty then some (if plain then plainValue true text else .text text)
  else if tag = ascii "!!binary" then (base64? text).map Value.text
  else
    match formOf? tag with
    | none | some .text => some (.text text)
    | some form =>
      let v := plainValue (form = .timestamp) text
      if formOfValue v = form then some v
      else
        match form, v with
        | .float, .int n =>
          if isWord n then (Binary64.ofDecimal? (n < 0) n.natAbs 0).map Value.float else none
        | _, _ => none

/-- Whether a node is the key under which other mappings are merged. -/
def isMerge : Node → Bool
  | .scalar tag text plain =>
    text = ascii "<<" && (tag = ascii "!!merge" || ((tag.isEmpty || tag = ascii "!") && plain))
  | _ => false

/-- Whether a node is a text. -/
def isText : Node → Bool
  | .scalar tag text plain =>
    match scalarValue? tag text plain with
    | some (.text _) => tag.isEmpty || tag = ascii "!" || (formOf? tag).isSome
    | _ => false
  | _ => false

/-- Whether two nodes cannot both be keys of one mapping. -/
def sameKey : Node → Node → Bool
  | .scalar _ s _, .scalar _ t _ => s = t
  | .sequence .., .sequence .. => true
  | .mapping .., .mapping .. => true
  | _, _ => false

/-- Whether two keys of a mapping are the same. -/
def hasRepeatedKey : List (Node × Node) → Bool
  | [] => false
  | (k, _) :: rest => rest.any (fun e => sameKey k e.1) || hasRepeatedKey rest

/-- The text of a key. There is none for a key that is null, which is passed over. -/
def keyText? : Node → Option (Option Bytes)
  | .scalar tag text plain =>
    match scalarValue? tag text plain with
    | none => none
    | some .null => some none
    | some (.text s) => some (some s)
    | some _ => some (some text)
  | _ => none

/-- Whether two keys of a dictionary are the same. -/
def sameValue : Value → Value → Bool
  | .null, .null => true
  | .bool a, .bool b => a = b
  | .int a, .int b => a = b
  | .float a, .float b => a = b && a != .nan
  | .text a, .text b => a = b
  | .instant a, .instant b => a = b
  | _, _ => false

/-- Adds an entry unless its key is there. -/
def addNew {α : Type} (same : α → α → Bool) (entries : List (α × Value)) (e : α × Value) :
    List (α × Value) :=
  if entries.any fun f => same f.1 e.1 then entries else entries ++ [e]

/-- The mappings that are merged under a key. -/
def mergedNodes? : Node → Option (List Node)
  | .mapping tag entries => some [.mapping tag entries]
  | .sequence _ items =>
    let isMapping : Node → Bool
      | .mapping .. => true
      | _ => false
    if items.all isMapping then some items else none
  | _ => none

mutual

/-- The value of a node, with nodes nested at most `n` deep. -/
def value? : Nat → Node → Option Value
  | 0, _ => none
  | n + 1, node =>
    match node with
    | .scalar tag text plain => scalarValue? tag text plain
    | .sequence _ items => (items.mapM (value? n)).map Value.list
    | .mapping tag entries =>
      if entries.all fun e => isText e.1 || isMerge e.1 then
        (table? n (.mapping tag entries)).map Value.table
      else (dictionary? n (.mapping tag entries)).map Value.dictionary

/-- The entries of a mapping whose keys are taken as texts. Entries that are merged come last. -/
def table? : Nat → Node → Option (List (Bytes × Value))
  | 0, _ => none
  | n + 1, node =>
    match node with
    | .mapping _ entries => do
      if hasRepeatedKey entries then none
      let own := entries.filter fun e => !isMerge e.1
      let found ← own.foldlM (fun found (k, v) => do
        match ← keyText? k with
        | none => some found
        | some key => return addNew (· == ·) found (key, ← value? n v)) []
      let merged ← (entries.filter fun e => isMerge e.1).getLast?.elim (some [])
        fun e => mergedNodes? e.2
      merged.foldlM (fun found m => do
        return (← table? n m).foldl (addNew (· == ·)) found) found
    | _ => none

/-- The entries of a mapping with keys of any form. Entries that are merged come last. -/
def dictionary? : Nat → Node → Option (List (Value × Value))
  | 0, _ => none
  | n + 1, node =>
    match node with
    | .mapping _ entries => do
      if hasRepeatedKey entries then none
      let own := entries.filter fun e => !isMerge e.1
      let found ← own.foldlM (fun found (k, v) => do
        match ← value? n k with
        | .list _ | .table _ | .dictionary _ => none
        | key => return addNew sameValue found (key, ← value? n v)) []
      let merged ← (entries.filter fun e => isMerge e.1).getLast?.elim (some [])
        fun e => mergedNodes? e.2
      merged.foldlM (fun found m => do
        return (← dictionary? n m).foldl (addNew sameValue) found) found
    | _ => none

end

/-- The table that a text stands for. A text without a root, or with nothing as its root, stands for
the empty table. -/
def table (text : Bytes) : Option (List (Bytes × Value)) := do
  match ← read? text with
  | none => some []
  | some root =>
    let depth := 2 * text.length + 4
    match root with
    | .mapping .. => table? depth root
    | _ =>
      match ← value? depth root with
      | .null => some []
      | _ => none

end CodeLayout.Yaml
