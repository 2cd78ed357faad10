import CodeLayout.Syntax.Types

/-!
# Expressions

Operators bind by precedence, and a chain of operators of one precedence becomes one node. Closing
angle brackets that touch make one operator.
-/

namespace CodeLayout.Grammar

open CodeLayout.Parser

variable (g : Grammar)

/-- The precedence of a binary operator; zero for any other text. -/
def precedence (op : Bytes) : Nat :=
  let levels : List (List String) :=
    [["||"], ["&&"], ["|"], ["^"], ["&"], ["==", "!="], ["<", ">", "<=", ">=", "instanceof"],
      ["<<", ">>", ">>>"], ["+", "-"], ["*", "/", "%"]]
  match levels.findIdx? fun ops => (ops.map ascii).contains op with
  | some i => i + 1
  | none => 0

/-- Whether a text is an assignment operator. -/
def isAssignOp (op : Bytes) : Bool :=
  (["=", "+=", "-=", "*=", "/=", "%=", "&=", "|=", "^=", "<<=", ">>=", ">>>="].map ascii).contains
    op

/-- Whether a text names a primitive type. -/
def isPrimitive (word : Bytes) : Bool :=
  (["int", "long", "short", "byte", "char", "float", "double", "boolean"].map ascii).contains word

/-- The operator at the cursor and the number of its tokens. -/
def peekOperator : Parser (Bytes × Nat) :=
  return (← cursor).operator

/-- An operator of a number of tokens. -/
def operator (n : Nat) : Parser (Option Node) := do
  node .operator (← tokens n)

/-- One parameter of a method or a lambda. The parameters of a lambda may lack a type. -/
def paramTokens : Parser (List (Option Node)) := do
  let dots ← accept "..."
  let name ← if (← isName) || (← isAt "this") then next else pure none
  return [dots, name] ++ (← dims)

/-- Whether tokens that make no parameter end before the next token. -/
def endsRawParam (c : Cursor) : Bool :=
  c.isAt 0 "\x7d" || c.isAt 0 ";" || c.isAt 0 "," || c.isAt 0 ")"

/-- The tokens in place of a parameter, with `depth` more brackets opened than closed. -/
def rawParamFrom : Nat → Int → Parser (List (Option Node))
  | 0, _ => throw .noProgress
  | fuel + 1, depth => do
    let c ← cursor
    if c.isDone || (depth = 0 && endsRawParam c) then return []
    else if c.isAt 0 "\x7b" then
      let b ← g .block
      return b :: (← rawParamFrom fuel depth)
    else
      let change : Int :=
        if c.isAt 0 "(" || c.isAt 0 "[" then 1
        else if c.isAt 0 ")" || c.isAt 0 "]" then -1
        else 0
      let t ← next
      return t :: (← rawParamFrom fuel (depth + change))

/-- A parameter. -/
def param (lambda : Bool) : Parser (Option Node) := do
  let mods ← modifiers g false
  let c ← cursor
  if lambda && c.isName 0 && (c.isAt 1 "," || c.isAt 1 ")") then node .param [mods, ← next]
  else if (c.skipType 0).isSome then
    let t ← type g
    node .param ([mods, t] ++ (← paramTokens))
  else
    unexpected (ascii "a parameter") (ascii "parameter list")
    node .raw (mods :: (← rawParamFrom g (← bound) 0))

/-- Parameters in parentheses. -/
def params (lambda : Bool) : Parser (Option Node) := do
  let opening ← next
  let ps ← separated (before ")") (param g lambda) ","
  node .params ([opening] ++ ps ++ [← expect ")" "parameter list"])

/-- The parameters of a lambda, if one starts at the cursor. -/
def lambdaParams : Parser (Option Node) := do
  let c ← cursor
  if c.isName 0 && c.isAt 1 "->" then next
  else if c.isAt 0 "(" then
    match c.skipBalanced 0 with
    | some k => if c.isAt k "->" then params g true else return none
    | none => return none
  else return none

/-- A lambda, if one starts at the cursor. -/
def lambda : Parser (Option Node) := do
  if (← get).noLambda then return none
  match ← lambdaParams g with
  | none => return none
  | some ps =>
    let arrow ← next
    let body ← if ← isAt "\x7b" then g .block else g .expr
    node .lambda [some ps, arrow, body]

/-- Arguments in parentheses. -/
def args : Parser (Option Node) := do
  let opening ← next
  let saved := (← get).noLambda
  modify fun s => { s with noLambda := false }
  let es ← separated (before ")") (g .expr) ","
  let closing ← expect ")" "argument list"
  modify fun s => { s with noLambda := saved }
  node .args ([opening] ++ es ++ [closing])

/-- The rule for the elements of an initializer. -/
def elementRule : Element → Rule
  | .expr => .expr
  | .annotValue => .annotValue

/-- A braced initializer. -/
def arrayInit (e : Element) : Parser (Option Node) := do
  let opening ← next
  let es ← separated (before "\x7d")
    (do if ← isAt "\x7b" then g (.arrayInit e) else g (elementRule e)) ","
  node .arrayInit ([opening] ++ es ++ [← expect "\x7d" "array initializer"])

/-- The lengths of a new array in brackets. -/
def arrayLengths : Parser (List (Option Node)) :=
  collect (isAt "[") do
    let opening ← next
    let length ← if ← isAt "]" then pure none else g .expr
    let closing ← expect "]" "array creation"
    return ([opening, length, closing], true)

/-- What follows the type in a creation: arguments and perhaps a body, or the lengths or the
elements of an array. -/
def creationRest : Parser (List (Option Node)) := do
  if ← isAt "(" then
    let as ← args g
    if ← isAt "\x7b" then return [as, ← g .typeBody] else return [as]
  else if (← isAt "[") || (← isAt "\x7b") then
    let lengths ← arrayLengths g
    if ← isAt "\x7b" then return lengths ++ [← g (.arrayInit .expr)] else return lengths
  else
    unexpected (ascii "arguments") (ascii "new expression")
    return []

/-- The creation of an object or an array. -/
def creation : Parser (Option Node) := do
  let word ← next
  let ts ← if ← isAt "<" then typeParams else pure none
  if ((← cursor).skipType 0).isNone then
    unexpected (ascii "a type") (ascii "new expression")
    node .creation [word, ts]
  else
    let t ← type g
    node .creation ([word, ts, t] ++ (← creationRest g))

/-- An expression in parentheses. -/
def paren (place : String) : Parser (Option Node) := do
  match ← expect "(" place with
  | none => return none
  | some opening =>
    let inner ← g .expr
    node .paren [some opening, inner, ← expect ")" place]

/-- A binding in a test or a label: a type, and a name behind it. -/
def pattern : Parser (Option Node) := do
  let mods ← modifiers g false
  if ((← cursor).skipType 0).isNone then return mods
  let t ← type g
  if mods.isNone && !(← isName) then return t
  node .param [mods, t, ← acceptName]

/-- One label of a switch. -/
def caseLabel : Parser (Option Node) := do
  let c ← cursor
  if c.isAt 0 "default" then next
  else if c.isTyped then pattern g
  else g .ternary

/-- The labels behind the word `case`. No lambda starts in them. -/
def caseLabels : Parser (List (Option Node)) := do
  let saved := (← get).noLambda
  modify fun s => { s with noLambda := true }
  let labels ← separated (return !(← isAt ":") && !(← isAt "->") && !(← isDone)) (caseLabel g) ","
  modify fun s => { s with noLambda := saved }
  return labels

/-- A label of a switch with what it selects: one statement behind an arrow, or all statements up
to the next label behind a colon. -/
def switchCase : Parser (Option Node) := do
  let isCase ← isAt "case"
  let word ← next
  let labels ← if isCase then caseLabels g else pure []
  match ← accept "->" with
  | some arrow =>
    if ← before "\x7d" then node .switchCase ([word] ++ labels ++ [some arrow, ← g .statement])
    else node .switchCase ([word] ++ labels ++ [some arrow])
  | none =>
    let colon ← expect ":" "switch label"
    let body ← many
      (return (← before "\x7d") && !(← isAt "case") && !(← cursor).isDefaultLabel) (g .statement)
    node .switchCase ([word] ++ labels ++ [colon] ++ body)

/-- A switch, as a statement or an expression. -/
def switch : Parser (Option Node) := do
  let word ← next
  let subject ← paren g "switch"
  if ← isAt "\x7b" then
    let opening ← next
    let cases ← many (before "\x7d") do
      if (← isAt "case") || (← cursor).isDefaultLabel then switchCase g else g .statement
    let closing ← expect "\x7d" "switch"
    node .switchStmt [word, subject, some (Node.make .switchBody ([opening] ++ cases ++ [closing]))]
  else
    unexpected (shown "\x7b") (ascii "switch")
    node .switchStmt [word, subject]

/-- Whether no expression can start at the cursor and the token there belongs to something
around it. -/
def endsExpr (c : Cursor) : Bool :=
  c.isDone || ([";", ")", "]", "\x7d", ",", ":"].map ascii).contains (c.text 0)

/-- Whether the word at the cursor is an expression by itself. -/
def isOperandWord (c : Cursor) : Bool :=
  c.isName 0 ||
    (["this", "super", "true", "false", "null", "void", "class"].map ascii).contains (c.text 0)

/-- Records that there is no expression, and takes the token there unless it belongs to something
around it. -/
def missingExpr : Parser (Option Node) := do
  unexpected (ascii "an expression") (ascii "expression")
  if endsExpr (← cursor) then return none else node .raw [← next]

/-- A word that starts an expression: a lambda, a call or a name. -/
def wordExpr : Parser (Option Node) := do
  match ← lambda g with
  | some l => return some l
  | none =>
    let c ← cursor
    if c.isAt 1 "(" && (c.isName 0 || c.isAt 0 "this" || c.isAt 0 "super") then
      let name ← next
      node .call [name, ← args g]
    else if isOperandWord c then next
    else missingExpr

/-- A lambda or an expression in parentheses. -/
def parenExpr : Parser (Option Node) := do
  match ← lambda g with
  | some l => return some l
  | none =>
    let opening ← next
    let inner ← g .expr
    node .paren [opening, inner, ← expect ")" "parenthesized expression"]

/-- An operand without the selectors behind it. -/
def primary : Parser (Option Node) := do
  let c ← cursor
  if c.kind 0 = .string || c.kind 0 = .number then next
  else if c.isAt 0 "new" then creation g
  else if c.isAt 0 "switch" then switch g
  else if c.isAt 0 "\x7b" then g (.arrayInit .expr)
  else if c.isAt 0 "(" then parenExpr g
  else if c.isWord 0 then wordExpr g
  else missingExpr

/-- The name behind a dot, with the arguments of a call. -/
def selector : Parser (Option Node) := do
  if (← cursor).isWord 0 then
    let name ← next
    if ← isAt "(" then node .call [name, ← args g] else return name
  else
    unexpected (ascii "a member name") (ascii "selector")
    return none

/-- What follows a dot. -/
def member : Parser (Option Node) := do
  if ← isAt "new" then creation g
  else if ← isAt "<" then
    let ts ← typeParams
    node .call [ts, ← selector g]
  else selector g

/-- The selectors behind an operand. -/
def selectorsFrom : Nat → Node → Parser Node
  | 0, _ => throw .noProgress
  | fuel + 1, n => do
    if ← isAt "." then
      let dot ← next
      let m ← member g
      selectorsFrom fuel (Node.make .select [some n, dot, m])
    else if ← isAt "::" then
      let mark ← next
      let name ← do
        if (← cursor).isWord 0 then next
        else
          unexpected (ascii "a method name") (ascii "method reference")
          pure none
      selectorsFrom fuel (Node.make .methodRef [some n, mark, name])
    else if ← isAt "[" then
      let opening ← next
      let i ← if ← isAt "]" then pure none else g .expr
      let closing ← expect "]" "index expression"
      selectorsFrom fuel (Node.make .index [some n, opening, i, closing])
    else if (← isAt "++") || (← isAt "--") then
      let op ← next
      selectorsFrom fuel (Node.make .postfixExpr [some n, op])
    else return n

/-- An operand with its selectors. -/
def postfixExpr : Parser (Option Node) := do
  match ← primary g with
  | none => return none
  | some n => return some (← selectorsFrom g (← bound) n)

/-- Whether a cast starts at the cursor: a type in parentheses before something that it can apply
to. -/
def isCast (c : Cursor) : Bool :=
  match c.skipType 1 with
  | none => false
  | some k =>
    let next := k + 1
    c.isAt k ")" &&
      ((k = 2 && isPrimitive (c.text 1)) ||
        (c.isWord next && !c.isAt next "instanceof") || c.kind next = .string ||
        c.kind next = .number || c.isAt next "(" || c.isAt next "!" || c.isAt next "~")

/-- An operand with the signs in front of it. -/
def unary : Parser (Option Node) := do
  let c ← cursor
  if (["+", "-", "!", "~", "++", "--"].map ascii).contains (c.text 0) then
    let op ← next
    node .unary [op, ← g .unary]
  else if c.isAt 0 "(" && isCast c then
    let opening ← next
    let t ← type g
    let closing ← next
    node .cast [opening, t, closing, ← g .unary]
  else postfixExpr g

/-- The operators of one precedence at the cursor, each with the operand behind it. -/
def chainFrom (prec : Nat) : Nat → Parser (List (Option Node))
  | 0 => throw .noProgress
  | fuel + 1 => do
    let (op, n) ← peekOperator
    if precedence op ≠ prec then return []
    let o ← operator n
    let operand ← if op == ascii "instanceof" then pattern g else g (.binary (prec + 1))
    match operand with
    | none =>
      unexpected (ascii "an operand") (ascii "binary expression")
      return [o]
    | some r => return o :: some r :: (← chainFrom prec fuel)

/-- The chains of operators of at least a precedence behind an operand. -/
def chainsFrom (least : Nat) : Nat → Node → Parser Node
  | 0, _ => throw .noProgress
  | fuel + 1, lhs => do
    let (op, _) ← peekOperator
    let prec := precedence op
    if prec = 0 || prec < least then return lhs
    let rest ← chainFrom g prec (← bound)
    chainsFrom least fuel (Node.make .binary (some lhs :: rest))

/-- Operands joined by operators of at least a precedence. -/
def binary (least : Nat) : Parser (Option Node) := do
  match ← unary g with
  | none => return none
  | some lhs => return some (← chainsFrom g least (← bound) lhs)

/-- A branch of a conditional expression. -/
def conditionalBranch : Parser (Option Node) := do
  match ← lambda g with
  | some l => return some l
  | none => g .ternary

/-- A conditional expression, or anything that binds more tightly. -/
def ternary : Parser (Option Node) := do
  match ← binary g 1 with
  | none => return none
  | some cond =>
    if ← isAt "?" then
      let question ← next
      let yes ← conditionalBranch g
      let colon ← expect ":" "conditional expression"
      let no ← conditionalBranch g
      node .conditional [some cond, question, yes, colon, no]
    else return some cond

/-- An expression, assignments included. -/
def expr : Parser (Option Node) := do
  match ← ternary g with
  | none => return none
  | some lhs =>
    let (op, n) ← peekOperator
    if isAssignOp op then
      let o ← operator n
      let rhs ← if ← isAt "\x7b" then g (.arrayInit .expr) else g .expr
      node .assign [some lhs, o, rhs]
    else return some lhs

end CodeLayout.Grammar
