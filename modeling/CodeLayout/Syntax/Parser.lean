import CodeLayout.Report
import CodeLayout.Syntax.Lookahead

/-!
# Consuming tokens

A parser consumes tokens from the cursor on, records what it misses, and returns a node, or no node
where nothing of the kind stands at the cursor. Errors never stop it: it goes on with what is
there. The only fault is a loop that comes round without having consumed a token.

The rules of the grammar refer to each other. Those through which the references go in circles have
a name in `Rule`; a production is a parser that takes the parsers of all rules as an argument.
-/

namespace CodeLayout

/-- Where a parser stands and what it has recorded, the latest first. -/
structure ParserState where
  file : SourceFile
  cursor : Cursor
  /-- Set in the labels of a switch, where an arrow does not make a lambda. -/
  noLambda : Bool := false
  recorded : List Diagnostic := []
  deriving Inhabited

/-- A parser. What it records stays recorded if it meets a fault. -/
abbrev Parser := ExceptT Fault (StateM ParserState)

/-- What the elements of a braced initializer are. -/
inductive Element where
  | expr
  | annotValue
  deriving DecidableEq, Repr, Inhabited

/-- The rules of the grammar through which it refers to itself. -/
inductive Rule where
  | expr
  | ternary
  /-- Operators of at least the given precedence. -/
  | binary (least : Nat)
  | unary
  /-- A value in the arguments of an annotation. -/
  | annotValue
  /-- A braced initializer. -/
  | arrayInit (element : Element)
  | block
  | statement
  | member
  | typeBody
  deriving DecidableEq, Repr, Inhabited

/-- Parsers for all rules. -/
abbrev Grammar := Rule → Parser (Option Node)

namespace Parser

/-- The cursor. -/
def cursor : Parser Cursor :=
  return (← get).cursor

/-- Whether the next token has a text. -/
@[inline] def isAt (s : String) : Parser Bool :=
  return (← cursor).isAt 0 s

/-- Whether all tokens are consumed. -/
def isDone : Parser Bool :=
  return (← cursor).isDone

/-- Whether the next token can be a name. -/
def isName : Parser Bool :=
  return (← cursor).isName 0

/-- Consumes the next token, if there is one. -/
def next : Parser (Option Node) := do
  let c ← cursor
  match c.get? 0 with
  | some l =>
    modify fun s => { s with cursor := { s.cursor with pos := s.cursor.pos + 1 } }
    return some (.leaf l.id l.token)
  | none => return none

/-- Consumes the next token if it has a text. -/
@[inline] def accept (s : String) : Parser (Option Node) := do
  if ← isAt s then next else return none

/-- Consumes the next token if it can be a name. -/
def acceptName : Parser (Option Node) := do
  if ← isName then next else return none

/-- Records that something else was expected at the cursor. -/
def unexpected (want place : Bytes) : Parser Unit :=
  modify fun s =>
    let diagnostic : Diagnostic :=
      match s.cursor.get? 0 with
      | none =>
        let length := s.file.text.length
        { level := .error, problem := .unexpectedEnd place want,
          span := ⟨some s.file, length, length⟩ }
      | some l =>
        { level := .error, problem := .unexpectedToken l.token.text place want,
          span := ⟨some s.file, l.token.start, l.token.stop⟩ }
    { s with recorded := diagnostic :: s.recorded }

/-- A token as it is shown in messages. -/
def shown (s : String) : Bytes :=
  ascii "`" ++ ascii s ++ ascii "`"

/-- Consumes the next token if it has a text, and records its absence otherwise. -/
@[inline] def expect (s : String) (place : String) : Parser (Option Node) := do
  match ← accept s with
  | some n => return some n
  | none =>
    unexpected (shown s) (ascii place)
    return none

/-- A branch of a kind, as the result of a parser. -/
def node (kind : NodeKind) (children : List (Option Node)) : Parser (Option Node) :=
  return some (Node.make kind children)

/-- A bound on how often a loop that consumes tokens can come round. -/
def bound : Parser Nat :=
  return (← cursor).bound

/-- Repeats a step as long as a condition holds and the step asks for more, and collects the nodes
of all steps. It is a fault to come round without having consumed a token. -/
def collectFrom (fuel : Nat) (last : Option Nat) (more : Parser Bool)
    (step : Parser (List (Option Node) × Bool)) : Parser (List (Option Node)) :=
  match fuel with
  | 0 => throw .noProgress
  | fuel + 1 => do
    if ← more then
      let pos := (← cursor).pos
      if last = some pos then throw .noProgress
      let (nodes, again) ← step
      if again then return nodes ++ (← collectFrom fuel (some pos) more step)
      else return nodes
    else return []

/-- Repeats a step as long as a condition holds and the step asks for more. -/
def collect (more : Parser Bool) (step : Parser (List (Option Node) × Bool)) :
    Parser (List (Option Node)) := do
  collectFrom (← bound) none more step

/-- Repeats a parser as long as a condition holds. -/
def many (more : Parser Bool) (one : Parser (Option Node)) : Parser (List (Option Node)) :=
  collect more do return ([← one], true)

/-- Neither a text nor the end of the stream is at the cursor. -/
@[inline] def before (stop : String) : Parser Bool :=
  return !(← isAt stop) && !(← isDone)

/-- Elements with a separator behind each but the last, as long as a condition holds. A missing
element ends the list, and so does a missing separator. -/
@[inline] def separated (more : Parser Bool) (element : Parser (Option Node)) (separator : String) :
    Parser (List (Option Node)) :=
  collect more do
    match ← element with
    | none => return ([], false)
    | some e =>
      match ← accept separator with
      | none => return ([some e], false)
      | some s => return ([some e, some s], true)

/-- Pairs of empty brackets. -/
def dims : Parser (List (Option Node)) :=
  collect (return (← isAt "[") && (← cursor).isAt 1 "]") do return ([← next, ← next], true)

/-- A number of tokens. -/
def tokens : Nat → Parser (List (Option Node))
  | 0 => return []
  | n + 1 => do
    let t ← next
    return t :: (← tokens n)

/-- The tokens up to a number of consumed tokens. -/
def tokensTo (stop : Nat) : Parser (List (Option Node)) := do
  tokens (stop - (← cursor).pos)

end Parser

end CodeLayout
