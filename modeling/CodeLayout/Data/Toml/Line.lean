import CodeLayout.Data.Toml.Scalar

/-!
# Lines of a TOML text

What a text says line by line: a line opens a table, adds a table to an array of tables, or gives a
value to a key. Values are kept as they are written, since tables in braces take part in the rules
on keys as well.
-/

namespace CodeLayout.Toml

/-- The parts of a dotted key. -/
abbrev Key := List Bytes

/-- A value as it is written. -/
inductive Term where
  | scalar (v : Value)
  | array (items : List Term)
  | table (fields : List (Key × Term))
  deriving Inhabited

/-- A line. -/
inductive Line where
  /-- Opens a table. -/
  | table (key : Key)
  /-- Adds a table to an array of tables and opens it. -/
  | element (key : Key)
  /-- Gives a value to a key of the open table. -/
  | field (key : Key) (term : Term)
  deriving Inhabited

/-- Whether a byte may stand in a key without quotes. -/
def isBare (b : UInt8) : Bool :=
  isDigit b || (65 ≤ b && b ≤ 90) || (97 ≤ b && b ≤ 122) || b = 95 || b = 45

/-- Reads one part of a key. -/
def keyPart? (s : Bytes) : Option (Bytes × Bytes) :=
  if s.head? = some 34 || s.head? = some 39 then shortText? s
  else
    let own := s.takeWhile isBare
    if own.isEmpty then none else some (own, s.drop own.length)

/-- Reads a key of at most `n` parts, and the blanks behind it. -/
def keyWithin : Nat → Bytes → Option (Key × Bytes)
  | 0, _ => none
  | n + 1, s => do
    let (part, s) ← keyPart? (skipBlanks s)
    match skipBlanks s with
    | 46 :: rest => (keyWithin n rest).map fun (key, rest) => (part :: key, rest)
    | s => some ([part], s)

/-- Reads a key. -/
def key? (s : Bytes) : Option (Key × Bytes) :=
  keyWithin (s.length + 1) s

/-- The text without white space, line breaks and comments at its start. -/
def skipLines (inComment : Bool) : Bytes → Bytes
  | [] => []
  | b :: rest =>
    if inComment then skipLines (b != 10) rest
    else if isSpace b then skipLines false rest
    else if b = 35 then skipLines true rest
    else b :: rest

mutual

/-- Reads a value, in at most `n` steps. -/
def term? : Nat → Bytes → Option (Term × Bytes)
  | 0, _ => none
  | n + 1, s =>
    match skipBlanks s with
    | 91 :: rest => (items? n rest).map fun (items, rest) => (.array items, rest)
    | 123 :: rest =>
      match skipBlanks rest with
      | 125 :: rest => some (.table [], rest)
      | rest => (fields? n rest).map fun (fields, rest) => (.table fields, rest)
    | s => (scalar? s).map fun (v, rest) => (.scalar v, rest)

/-- Reads the values of an array up to its closing bracket. -/
def items? : Nat → Bytes → Option (List Term × Bytes)
  | 0, _ => none
  | n + 1, s =>
    match skipLines false s with
    | 93 :: rest => some ([], rest)
    | s => do
      let (t, s) ← term? n s
      match skipLines false s with
      | 44 :: rest => (items? n rest).map fun (ts, rest) => (t :: ts, rest)
      | 93 :: rest => some ([t], rest)
      | _ => none

/-- Reads the fields of a table in braces up to the closing one. -/
def fields? : Nat → Bytes → Option (List (Key × Term) × Bytes)
  | 0, _ => none
  | n + 1, s => do
    let (key, s) ← key? s
    match s with
    | 61 :: s => do
      let (t, s) ← term? n s
      match skipBlanks s with
      | 44 :: rest => (fields? n rest).map fun (fs, rest) => ((key, t) :: fs, rest)
      | 125 :: rest => some ([(key, t)], rest)
      | _ => none
    | _ => none

end

/-- Reads a line. -/
def line? (s : Bytes) : Option (Line × Bytes) :=
  match s with
  | 91 :: 91 :: rest => do
    match ← key? rest with
    | (key, 93 :: 93 :: rest) => some (.element key, rest)
    | _ => none
  | 91 :: rest => do
    match ← key? rest with
    | (key, 93 :: rest) => some (.table key, rest)
    | _ => none
  | _ => do
    match ← key? s with
    | (key, 61 :: rest) =>
      let (t, rest) ← term? (2 * rest.length + 2) rest
      some (.field key t, rest)
    | _ => none

/-- Whether nothing but a comment is left on a line. -/
def endsLine (s : Bytes) : Bool :=
  match skipBlanks s with
  | [] => true
  | b :: _ => b = 10 || b = 13 || b = 35

/-- Reads at most `n` lines. -/
def linesWithin : Nat → Bytes → Option (List Line)
  | 0, _ => none
  | n + 1, s =>
    match skipLines false s with
    | [] => some []
    | s => do
      let (line, rest) ← line? s
      if endsLine rest then (linesWithin n rest).map (line :: ·) else none

/-- The lines of a text, if all of it can be read. -/
def lines? (text : Bytes) : Option (List Line) :=
  let text := dropMark text
  if text.characters.all isAllowed && returnsPaired text then linesWithin (text.length + 1) text
  else none

end CodeLayout.Toml
