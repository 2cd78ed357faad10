import CodeLayout.Syntax.Declaration

/-!
# The syntax tree of a token stream

The productions of all rules are tied together, and the tree of a whole text is read from them: a
compilation unit, or the bare body of a declaration.
-/

namespace CodeLayout

/-- What a text contains. -/
inductive SourceKind where
  /-- A whole file: package, imports and types. -/
  | unit
  /-- A list of members and statements. -/
  | body
  deriving DecidableEq, Repr, Inhabited

namespace SourceKind

/-- The number of a kind. -/
def ofCode? : Nat → Option SourceKind
  | 0 => some .unit
  | 1 => some .body
  | _ => none

/-- What a kind is called. -/
def name : SourceKind → Bytes
  | .unit => ascii "compilation unit"
  | .body => ascii "body"

/-- What the kind with a number is called; other numbers are shown as such. -/
def nameOfCode (n : Nat) : Bytes :=
  match ofCode? n with
  | some k => k.name
  | none => ascii "Kind(" ++ natDigits n ++ ascii ")"

end SourceKind

namespace Grammar

open CodeLayout.Parser

/-- The production of a rule in terms of all rules. -/
def production (g : Grammar) : Grammar
  | .expr => expr g
  | .ternary => ternary g
  | .binary least => binary g least
  | .unary => unary g
  | .annotValue => annotValue g
  | .arrayInit e => arrayInit g e
  | .block => block g
  | .statement => statement g
  | .member => typeMember g
  | .typeBody => typeBody g

/-- The parsers of all rules, with rules nested at most `n` deep. -/
def within : Nat → Grammar
  | 0 => fun _ => throw .noProgress
  | n + 1 => production (within n)

variable (g : Grammar)

/-- A package or an import. -/
def qualified (kind : NodeKind) : Parser (Option Node) := do
  let word ← next
  let static ←
    if kind = .importDecl && (← isAt "static") then next else pure none
  let parts ← many
    (return (← before ";") && !(← isAt "\x7d") &&
      ((← cursor).isWord 0 || (← isAt ".") || (← isAt "*"))) next
  let semi ← accept ";"
  if semi.isNone then unexpected (shown ";") kind.name
  node kind ([word, static] ++ parts ++ [semi])

/-- Whether a name with parameters and a body or exceptions behind them stands at the cursor. -/
def isConstructor (c : Cursor) : Bool :=
  match c.skipBalanced 1 with
  | some k => c.isAt k "\x7b" || c.isAt k "throws"
  | none => false

/-- Whether a type, a name and parameters stand at the cursor. -/
def isMethod (c : Cursor) : Bool :=
  match c.skipType 0 with
  | some k => c.isName k && c.isAt (k + 1) "("
  | none => false

/-- Whether an item of a bare body is a member and not a statement. -/
def isMemberItem (c : Cursor) : Bool :=
  if c.isAt 0 "@" || c.isTypeDecl || c.isAt 0 "<" then true
  else if c.isWord 0 && Word.isModifier (c.text 0) && !c.isAt 0 "final" &&
      !c.isAt 0 "synchronized" && !c.isAt 0 "default" then true
  else if c.isName 0 && c.isAt 1 "(" then isConstructor c
  else isMethod c

/-- One item of a text. -/
def item (kind : SourceKind) : Parser (Option Node) := do
  let c ← cursor
  if c.isAt 0 "\x7d" then
    unexpected (ascii "a declaration") (ascii "file")
    raw g []
  else
    match kind with
    | .body => if isMemberItem c then g .member else g .statement
    | .unit =>
      if c.isAt 0 "package" then qualified .packageDecl
      else if c.isAt 0 "import" then qualified .importDecl
      else g .member

/-- All items of a text. -/
def items (kind : SourceKind) : Parser (List (Option Node)) :=
  many (return !(← isDone)) (item g kind)

end Grammar

/-- What reading a tree comes to: the tree or a fault, and what was recorded. -/
structure Parsed where
  tree : Except Fault Node
  report : Report

/-- Reads the tree of a token stream. The root covers the whole text. -/
def Node.ofStream (s : TokenStream) (kind : SourceKind) : Parsed :=
  let cursor := Cursor.ofStream s
  let g := Grammar.within (8 * cursor.bound)
  let (result, state) := (Grammar.items g kind).run { file := s.file, cursor }
  { tree := result.map fun items =>
      .branch .unit 0 s.file.text.length (Node.make .unit items).children
    report := state.recorded.reverse }

end CodeLayout
