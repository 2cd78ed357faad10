import CodeLayout.Syntax.Statement

/-!
# Declarations

Types with their members, and the statements and members that may hold declarations in turn.
-/

namespace CodeLayout.Grammar

open CodeLayout.Parser

variable (g : Grammar)

/-- The members of a type in braces. -/
def typeBody : Parser (Option Node) := do
  let opening ← next
  let members ← many (before "\x7d") (g .member)
  node .typeBody ([opening] ++ members ++ [← expect "\x7d" "type body"])

/-- A constant of an enumeration, if one starts at the cursor; otherwise just its modifiers, and
the list of constants ends. -/
def enumConstant : Parser (List (Option Node) × Bool) := do
  let mods ← modifiers g false
  if ← isName then
    let name ← next
    let as ← if ← isAt "(" then args g else pure none
    let inner ← if ← isAt "\x7b" then g .typeBody else pure none
    let constant := some (Node.make .enumConstant [mods, name, as, inner])
    match ← accept "," with
    | some comma => return ([constant, some comma], true)
    | none => return ([constant], false)
  else return ([mods], false)

/-- The body of an enumeration: its constants, then its members. -/
def enumBody : Parser (Option Node) := do
  let opening ← next
  let constants ← collect (return !(← isAt ";") && (← before "\x7d")) (enumConstant g)
  let semi ← accept ";"
  let members ← many (before "\x7d") (g .member)
  let closing ← expect "\x7d" "enum body"
  node .enumBody
    ([opening, some (Node.make .enumConstants constants), semi] ++ members ++ [closing])

/-- One clause of a declaration: a word and a list of types. -/
def clause : Parser (Option Node) := do
  let place := (← cursor).text 0 ++ ascii " clause"
  let word ← next
  node .clause [word, ← typeList g place]

/-- Whether a clause of a type declaration starts at the cursor. -/
def isClause (c : Cursor) : Bool :=
  c.isAt 0 "extends" || c.isAt 0 "implements" || c.isAt 0 "permits"

/-- The name of a declared type; its absence is recorded. -/
def declaredName : Parser (Option Node) := do
  match ← acceptName with
  | some n => return some n
  | none =>
    unexpected (ascii "a name") (ascii "type declaration")
    return none

/-- The declaration of a type behind its modifiers. -/
def typeDecl (mods : Option Node) : Parser (Option Node) := do
  let sign ← accept "@"
  let isEnum ← isAt "enum"
  let word ← next
  let name ← declaredName
  let ts ← if ← isAt "<" then typeParams else pure none
  let ps ← if ← isAt "(" then params g false else pure none
  let clauses ← many (return isClause (← cursor)) (clause g)
  let inner ← do
    if ← isAt "\x7b" then
      if isEnum then enumBody g else g .typeBody
    else
      unexpected (shown "\x7b") (ascii "type declaration")
      pure none
  node .typeDecl ([mods, sign, word, name, ts, ps] ++ clauses ++ [inner])

/-- A method or a constructor behind its modifiers, type parameters and result type. -/
def method (mods typeParams result : Option Node) : Parser (Option Node) := do
  let name ← next
  let ps ← params g false
  let ds ← dims
  let throwing ← if ← isAt "throws" then clause g else pure none
  let value ← do
    if ← isAt "default" then
      let word ← next
      pure [word, ← annotValue g]
    else pure []
  let inner ← if ← isAt "\x7b" then g .block else expect ";" "method declaration"
  node .method ([mods, typeParams, result, name, ps] ++ ds ++ [throwing] ++ value ++ [inner])

/-- A member behind its modifiers. -/
def modifiedMember (mods : Option Node) : Parser (Option Node) := do
  if (← cursor).isTypeDecl then typeDecl g mods
  else
    let ts ← if ← isAt "<" then typeParams else pure none
    let c ← cursor
    if c.isName 0 && c.isAt 1 "(" then method g mods ts none
    else if c.isTyped then
      let t ← type g
      if (← cursor).isAt 1 "(" then method g mods ts t
      else if ts.isNone then varDecl g mods t true
      else raw g [mods, ts, t]
    else
      unexpected (ascii "a declaration") (ascii "type body")
      raw g [mods, ts]

/-- A member of a type. -/
def typeMember : Parser (Option Node) := do
  let c ← cursor
  if c.isAt 0 ";" then node .emptyStmt [← next]
  else if c.isAt 0 "\x7b" then node .initializer [← g .block]
  else if c.isAt 0 "static" && c.isAt 1 "\x7b" then
    let word ← next
    node .initializer [word, ← g .block]
  else modifiedMember g (← modifiers g true)

/-- A statement that starts with no word of its own: one behind a label, a declaration, or an
expression. -/
def plainStatement : Parser (Option Node) := do
  let c ← cursor
  if c.isName 0 && c.isAt 1 ":" then labeled g
  else
    let mods ← modifiers g false
    let c ← cursor
    if c.isTypeDecl then typeDecl g mods
    else if c.isTyped then
      let t ← type g
      varDecl g mods t true
    else if mods.isSome then
      unexpected (ascii "a declaration") (ascii "statement")
      raw g [mods]
    else exprStmt g

/-- A statement. It consumes a token unless a closing brace or the end of the stream is at the
cursor. -/
def statement : Parser (Option Node) := do
  let c ← cursor
  if c.isAt 0 "\x7b" then g .block
  else if c.isAt 0 ";" then node .emptyStmt [← next]
  else if c.isAt 0 "if" then ifStmt g
  else if c.isAt 0 "while" then whileStmt g
  else if c.isAt 0 "do" then doStmt g
  else if c.isAt 0 "for" then forStmt g
  else if c.isAt 0 "try" then tryStmt g
  else if c.isAt 0 "switch" then switch g
  else if c.isAt 0 "return" then returnStmt g
  else if c.isAt 0 "throw" then throwStmt g
  else if c.isAt 0 "break" || c.isAt 0 "continue" then jump
  else if c.isAt 0 "assert" then assertStmt g
  else if c.isAt 0 "synchronized" && c.isAt 1 "(" then synchronizedStmt g
  else if c.isAt 0 "yield" && !yieldIsName c then yieldStmt g
  else plainStatement g

end CodeLayout.Grammar
