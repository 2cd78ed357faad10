import CodeLayout.Chunk.Lists

/-!
# Chunks of expressions

Lines break before operators, before the parts of a conditional, and before the calls of a chain of
selections.
-/

namespace CodeLayout.Build

variable (x : BuildContext) (build : NodeBuilder)

/-- Operators and the operands behind them, each pair one element. -/
def operands : List Node → Build (List Chunk)
  | [] => return []
  | [op] => do
    match ← build op with
    | none => return []
    | some c => return [← element x op c.withSpace]
  | op :: operand :: rest => do
    let c ← build op
    let parts := spaced (spaced [] c) (← build operand)
    match sequence parts with
    | none => operands rest
    | some e =>
      let e ← element x op e.withSpace
      return e :: (← operands rest)

/-- A chain of operands of one precedence. -/
def binary (n : Node) : Build (Option Chunk) := do
  match n.children with
  | [] => return none
  | first :: rest =>
    let c ← build first
    return some (Chunk.ofElements .binaryExpression (c.toList ++ (← operands x build rest)))

/-- An assignment; operator and right side may be missing. -/
def assign (n : Node) : Build (Option Chunk) := do
  match n.children with
  | [] => return none
  | [lhs] => return sequence (glued [] (← build lhs))
  | [lhs, op] =>
    let l := glued [] (← build lhs)
    return sequence (spaced l (← build op))
  | lhs :: op :: rhs :: _ =>
    let l := glued [] (← build lhs)
    let l := spaced l (← build op)
    assignment x build (sequence l) rhs

/-- The marks of a conditional, each with the branch behind it. -/
def branches : List Node → Build (List Chunk)
  | [] => return []
  | [op] => do
    match ← build op with
    | none => return []
    | some c => return [← element x op c.withSpace]
  | op :: branch :: rest => do
    let c ← build op
    if isText ":" branch then
      match c with
      | none => branches (branch :: rest)
      | some c =>
        let e ← element x op c.withSpace
        return e :: (← branches (branch :: rest))
    else
      match sequence (spaced (spaced [] c) (← build branch)) with
      | none => branches rest
      | some e =>
        let e ← element x op e.withSpace
        return e :: (← branches rest)

/-- A conditional expression. -/
def conditional (n : Node) : Build (Option Chunk) := do
  match n.children with
  | [] => return none
  | cond :: rest =>
    let c ← build cond
    return some (Chunk.ofElements .conditionalExpression (c.toList ++ (← branches x build rest)))

/-- Whether an operand would fuse with the sign before it. -/
def fuses (op operand : Node) : Bool :=
  (isText "-" op || isText "+" op) &&
    match op.text?, operand.leaves.head? with
    | some sign, some (_, t) => sign.isPrefixOf t.text
    | _, _ => false

/-- A sign and its operand. -/
def unary (n : Node) : Build (Option Chunk) := do
  match n.children with
  | [] => return none
  | [op] => build op
  | op :: operand :: _ =>
    let o ← build op
    let c ← build operand
    let c := if fuses op operand then c.map Chunk.withSpace else c
    return some (Chunk.seq (o.toList ++ c.toList))

/-- The parts of a cast: a space comes behind the closing parenthesis only. -/
def castParts (behindParen : Bool) (parts : List Chunk) : List Node → Build (List Chunk)
  | [] => return parts
  | n :: ns => do
    let c ← build n
    castParts (isText ")" n) (if behindParen then spaced parts c else glued parts c) ns

/-- A cast. -/
def cast (n : Node) : Build (Option Chunk) := do
  return sequence (← castParts build false [] n.children)

/-- A call. -/
def call (n : Node) : Build (Option Chunk) := do
  let parts ← n.children.foldlM (fun parts c => do
    if c.isKind .args then
      return glued parts (← list x build .invocationArguments c.children)
    else return glued parts (← build c)) []
  return sequence parts

/-- One step of a chain of selections: the dot and the member. -/
structure Selection where
  dot : Node
  member : Option Node

namespace Selection

/-- Whether the member is called. -/
def isCall (s : Selection) : Bool :=
  match s.member with
  | some m => m.isKind .call || m.isKind .creation
  | none => false

end Selection

/-- The base of a chain of selections and its steps, the last one first. -/
def selections : Node → Node × List Selection
  | .branch .select _ _ (base :: dot :: more) =>
    let (root, steps) := selections base
    (root, ⟨dot, more.head?⟩ :: steps)
  | n => (n, [])

/-- The dot and the member of a step behind what comes before them. -/
def selected (parts : List Chunk) (s : Selection) : Build (List Chunk) := do
  let parts := glued parts (← build s.dot)
  return glued parts (← optional build s.member)

/-- The elements of a chain that may break before each call. `parts` holds the element at hand,
which starts with the node `start`. -/
def chainElements (start : Node) (parts : List Chunk) : List Selection → Build (List Chunk)
  | [] => do
    match sequence parts with
    | none => return []
    | some c => return [← element x start c]
  | s :: rest => do
    if s.isCall then
      let done ← (sequence parts).toList.mapM (element x start)
      return done ++ (← chainElements s.dot (← selected build [] s) rest)
    else chainElements start (← selected build parts s) rest

/-- A chain of selections. With at least two calls it may break before each of them. -/
def selectChain (n : Node) : Build (Option Chunk) := do
  let (base, steps) := selections n
  let steps := steps.reverse
  let first := glued [] (← build base)
  if (steps.countP Selection.isCall) < 2 then
    return sequence (← steps.foldlM (selected build) first)
  else return some (Chunk.ofElements .selectorChain (← chainElements x build base first steps))

/-- The creation of an object or an array. -/
def creation (n : Node) : Build (Option Chunk) := do
  let parts ← n.children.zipIdx.foldlM (fun parts (c, i) => do
    if i = 0 || c.isKind .type || c.isKind .typeBody || c.isKind .arrayInit then
      return spaced parts (← build c)
    else if c.isKind .args then
      return glued parts (← list x build .allocationArguments c.children)
    else return glued parts (← build c)) []
  return sequence parts

/-- A braced initializer. -/
def arrayInit (n : Node) : Build (Option Chunk) := do
  match n.children with
  | [] => return none
  | first :: rest =>
    let opening ← build first
    let (inner, closing) := splitClosing (isText "\x7d") rest
    let es ← elements x build (ascii ",") true inner
    let closing ← optional build closing
    if es.isEmpty then return some (Chunk.seq (opening.toList ++ closing.toList))
    else
      let group := (Chunk.ofElements .arrayInitializer es).withSpace
      return some (Chunk.seq (opening.toList ++ [group] ++ closing.toList.map Chunk.withSpace))

/-- A lambda. -/
def lambda (n : Node) : Build (Option Chunk) := do
  let parts ← n.children.foldlM (fun parts c => do
    if c.isKind .params then return spaced parts (← list x build .plain c.children)
    else return spaced parts (← build c)) []
  return sequence parts

end CodeLayout.Build
