import CodeLayout.Syntax.Expression

/-!
# Statements
-/

namespace CodeLayout.Grammar

open CodeLayout.Parser

variable (g : Grammar)

/-- A list of statements in braces. -/
def block : Parser (Option Node) := do
  let opening ← next
  let items ← many (before "\x7d") (g .statement)
  node .block ([opening] ++ items ++ [← expect "\x7d" "block"])

/-- A block, if one starts at the cursor. -/
def optionalBlock : Parser (Option Node) := do
  if ← isAt "\x7b" then g .block else return none

/-- A block; its absence is recorded. -/
def requiredBlock (place : String) : Parser (Option Node) := do
  if ← isAt "\x7b" then g .block
  else
    unexpected (shown "\x7b") (ascii place)
    return none

/-- The tokens of something that could not be parsed, with `depth` brackets open: up to and with a
semicolon or a block outside of brackets, or up to a closing brace that was not opened here. That
brace is taken too if nothing else is taken. -/
def rawFrom : Nat → Nat → Bool → Parser (List (Option Node))
  | 0, _, _ => throw .noProgress
  | fuel + 1, depth, taken => do
    let c ← cursor
    if c.isDone then return []
    else if c.isAt 0 ";" && depth = 0 then return [← next]
    else if c.isAt 0 "\x7d" then
      if taken then return [] else return [← next]
    else if c.isAt 0 "\x7b" then
      let b ← g .block
      if depth = 0 then return [b] else return b :: (← rawFrom fuel depth true)
    else
      let depth :=
        if c.isAt 0 "(" || c.isAt 0 "[" then depth + 1
        else if c.isAt 0 ")" || c.isAt 0 "]" then depth - 1
        else depth
      let t ← next
      return t :: (← rawFrom fuel depth true)

/-- What could not be parsed, behind the nodes that were read before that became clear. -/
def raw (lead : List (Option Node)) : Parser (Option Node) := do
  node .raw (lead ++ (← rawFrom g (← bound) 0 (!lead.isEmpty)))

/-- The statement under a control statement. -/
def body (place : String) : Parser (Option Node) := do
  if ← before "\x7d" then g .statement
  else
    unexpected (ascii "a statement") (ascii place)
    return none

/-- An initial value, if there is one. -/
def initialValue : Parser (List (Option Node)) := do
  match ← accept "=" with
  | none => return []
  | some eq =>
    if ← isAt "\x7b" then return [some eq, ← g (.arrayInit .expr)]
    else return [some eq, ← g .expr]

/-- A declared name with its brackets and its initial value. -/
def declarator : Parser (Option Node) := do
  let name ← next
  let ds ← dims
  node .declarator ([name] ++ ds ++ (← initialValue g))

/-- The declaration of variables behind its modifiers and its type. -/
def varDecl (mods type : Option Node) (withEnd : Bool) : Parser (Option Node) := do
  let ds ← separated isName (declarator g) ","
  let ending ← if withEnd then expect ";" "variable declaration" else pure none
  node .varDecl [mods, type, some (Node.make .declarators ds), ending]

/-- A statement with a condition in parentheses. -/
def whileStmt : Parser (Option Node) := do
  let word ← next
  let cond ← paren g "while statement"
  node .whileStmt [word, cond, ← body g "while statement"]

/-- A choice between two statements. -/
def ifStmt : Parser (Option Node) := do
  let word ← next
  let cond ← paren g "if statement"
  let yes ← body g "if statement"
  match ← accept "else" with
  | some otherwise => node .ifStmt [word, cond, yes, some otherwise, ← body g "else clause"]
  | none => node .ifStmt [word, cond, yes]

/-- A loop with its condition at the end. -/
def doStmt : Parser (Option Node) := do
  let word ← next
  let inner ← body g "do statement"
  let while_ ← expect "while" "do statement"
  let cond ← if while_.isSome then paren g "do statement" else pure none
  node .doStmt [word, inner, while_, cond, ← expect ";" "do statement"]

/-- Expressions with commas, up to a token. -/
@[inline] def exprList (stop : String) : Parser (Option Node) := do
  node .args (← separated (before stop) (g .expr) ",")

/-- The rest of the header of a loop over a collection, behind the type of its variable. -/
def forEach (opening mods type : Option Node) : Parser (Option Node) := do
  let name ← next
  let colon ← next
  let e ← g .expr
  let closing ← expect ")" "for statement"
  node .forControl [opening, some (Node.make .param [mods, type, name]), colon, e, closing]

/-- The rest of the header of a loop with three parts, behind the first of them. -/
def forParts (opening start : Option Node) : Parser (Option Node) := do
  let first ← expect ";" "for statement"
  let cond ← if ← isAt ";" then pure none else g .expr
  let second ← expect ";" "for statement"
  let update ← if ← isAt ")" then pure none else exprList g ")"
  let closing ← expect ")" "for statement"
  node .forControl [opening, start, first, cond, second, update, closing]

/-- The header of a loop behind its opening parenthesis. -/
def forControl (opening : Option Node) : Parser (Option Node) := do
  let mods ← modifiers g false
  if (← cursor).isTyped then
    let t ← type g
    if (← cursor).isAt 1 ":" then forEach g opening mods t
    else forParts g opening (← varDecl g mods t false)
  else if mods.isSome then forParts g opening mods
  else if ← isAt ";" then forParts g opening none
  else forParts g opening (← exprList g ";")

/-- A loop with a header. -/
def forStmt : Parser (Option Node) := do
  let word ← next
  match ← expect "(" "for statement" with
  | none => node .forStmt [word, ← body g "for statement"]
  | some opening =>
    let control ← forControl g (some opening)
    node .forStmt [word, control, ← body g "for statement"]

/-- The types that a handler catches. -/
def caughtTypes : Parser (List (Option Node)) :=
  collect (return ((← cursor).skipType 0).isSome) do
    let t ← type g
    match ← accept "|" with
    | some bar => return ([t, some bar], true)
    | none => return ([t], false)

/-- A handler. -/
def catchClause : Parser (Option Node) := do
  let word ← next
  let opening ← expect "(" "catch clause"
  let mods ← modifiers g false
  let types ← caughtTypes g
  let name ← acceptName
  let closing ← expect ")" "catch clause"
  let inner ← optionalBlock g
  let p := Node.make .param ([mods] ++ types ++ [name])
  node .catchClause [word, opening, some p, closing, inner]

/-- One resource: a declaration or an expression. -/
def resource : Parser (Option Node) := do
  let mods ← modifiers g false
  if (← cursor).isTyped then
    let t ← type g
    varDecl g mods t false
  else g .expr

/-- The resources of a statement in parentheses. -/
def resources : Parser (Option Node) := do
  let opening ← next
  let rs ← separated (before ")") (resource g) ";"
  node .resources ([opening] ++ rs ++ [← expect ")" "try resources"])

/-- The last clause of a guarded block, if it is there. -/
def finallyClause : Parser (Option Node) := do
  if ← isAt "finally" then
    let word ← next
    node .finallyClause [word, ← optionalBlock g]
  else return none

/-- A guarded block with its handlers. -/
def tryStmt : Parser (Option Node) := do
  let word ← next
  let rs ← if ← isAt "(" then resources g else pure none
  let inner ← requiredBlock g "try statement"
  let handlers ← many (isAt "catch") (catchClause g)
  node .tryStmt ([word, rs, inner] ++ handlers ++ [← finallyClause g])

/-- A statement that gives back a value. -/
def returnStmt : Parser (Option Node) := do
  let word ← next
  let value ← if ← isAt ";" then pure none else g .expr
  node .returnStmt [word, value, ← expect ";" "return statement"]

/-- A statement that raises an exception. -/
def throwStmt : Parser (Option Node) := do
  let word ← next
  let value ← g .expr
  node .throwStmt [word, value, ← expect ";" "throw statement"]

/-- A statement that leaves or repeats a loop. -/
def jump : Parser (Option Node) := do
  let word ← next
  let label ← acceptName
  node .jump [word, label, ← expect ";" "jump statement"]

/-- An assertion, with or without a detail. -/
def assertStmt : Parser (Option Node) := do
  let word ← next
  let cond ← g .expr
  let colon ← accept ":"
  let detail ← if colon.isSome then g .expr else pure none
  node .assertStmt [word, cond, colon, detail, ← expect ";" "assert statement"]

/-- A block under a lock. -/
def synchronizedStmt : Parser (Option Node) := do
  let word ← next
  let lock ← paren g "synchronized statement"
  node .synchronizedStmt [word, lock, ← requiredBlock g "synchronized statement"]

/-- The value of a switch. -/
def yieldStmt : Parser (Option Node) := do
  let word ← next
  let value ← g .expr
  node .yieldStmt [word, value, ← expect ";" "yield statement"]

/-- Whether the word `yield` at the cursor is a name and not a keyword. -/
def yieldIsName (c : Cursor) : Bool :=
  (["=", ".", "[", "++", "--", "(", "+=", "-=", "*=", "/="].map ascii).contains (c.text 1)

/-- A statement behind a label. -/
def labeled : Parser (Option Node) := do
  let label ← next
  let colon ← next
  node .labeled [label, colon, ← g .statement]

/-- An expression as a statement. -/
def exprStmt : Parser (Option Node) := do
  let start := (← cursor).pos
  match ← g .expr with
  | none =>
    if (← cursor).pos = start then unexpected (ascii "a statement") (ascii "block")
    raw g []
  | some e =>
    if ← isAt ";" then node .exprStmt [some e, ← next]
    else
      unexpected (shown ";") (ascii "expression statement")
      if ← before "\x7d" then raw g [some e] else node .exprStmt [some e]

end CodeLayout.Grammar
