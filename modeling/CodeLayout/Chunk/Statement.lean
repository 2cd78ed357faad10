import CodeLayout.Chunk.Lists

/-!
# Chunks of statements
-/

namespace CodeLayout.Build

variable (x : BuildContext) (build : NodeBuilder)

/-- The body of a control statement behind its header. One without braces goes on a line of its own,
one level deeper. -/
def body (parts : List Chunk) (n : Node) : Build (List Chunk) := do
  if n.isKind .emptyStmt then return glued parts (← build n)
  else if n.isKind .block then return spaced parts (← block x build n)
  else
    let own ← items x (item x build) [n]
    return spaced parts (some (Chunk.ofItems none none own))

/-- The parts of a choice behind its first word. A choice behind `else` stays on its line. -/
def ifParts (parts : List Chunk) : List Node → Build (List Chunk)
  | [] => return parts
  | [n] => do
    if n.isKind .paren || isText "else" n then return spaced parts (← build n)
    else body x build parts n
  | n :: m :: rest => do
    if n.isKind .paren then ifParts (spaced parts (← build n)) (m :: rest)
    else if isText "else" n then
      let parts := spaced parts (← build n)
      if m.isKind .ifStmt then ifParts (spaced parts (← build m)) rest
      else ifParts parts (m :: rest)
    else ifParts (← body x build parts n) (m :: rest)

/-- A choice. -/
def ifStmt (n : Node) : Build (Option Chunk) := do
  match n.children with
  | [] => return none
  | first :: rest => return sequence (← ifParts x build (spaced [] (← build first)) rest)

/-- A word, an optional header in parentheses, and a body. -/
def wordStmt (n : Node) : Build (Option Chunk) := do
  let parts ← n.children.zipIdx.foldlM (fun parts (c, i) => do
    if i = 0 || c.isKind .paren || isText "(" c then return spaced parts (← build c)
    else if isText ")" c then return glued parts (← build c)
    else if c.isKind .param then return glued parts (← param x build c)
    else body x build parts c) []
  return sequence parts

/-- A loop with its condition at the end. -/
def doStmt (n : Node) : Build (Option Chunk) := do
  let parts ← n.children.zipIdx.foldlM (fun parts (c, i) => do
    if i = 0 || isText "while" c || c.isKind .paren then return spaced parts (← build c)
    else if isText ";" c then return glued parts (← build c)
    else body x build parts c) []
  return sequence parts

/-- A loop with a header. -/
def forStmt (n : Node) : Build (Option Chunk) := do
  let parts ← n.children.zipIdx.foldlM (fun parts (c, i) => do
    if i = 0 || c.isKind .forControl then return spaced parts (← build c)
    else body x build parts c) []
  return sequence parts

/-- The parts of the header of a loop. -/
def forParts (behindParen : Bool) (parts : List Chunk) : List Node → Build (List Chunk)
  | [] => return parts
  | n :: ns => do
    let c ←
      if n.isKind .varDecl then varDecl x build false n
      else if n.isKind .param then param x build n
      else build n
    let isGlued := parts.isEmpty || behindParen || isText ";" n || isText ")" n
    forParts (isText "(" n) (if isGlued then glued parts c else spaced parts c) ns

/-- The header of a loop. -/
def forControl (n : Node) : Build (Option Chunk) := do
  return sequence (← forParts x build false [] n.children)

/-- The resources of a guarded block. -/
def resources (n : Node) : Build (Option Chunk) := do
  match n.children with
  | [] => return none
  | first :: rest =>
    let opening ← build first
    let (inner, closing) := splitClosing (isText ")") rest
    let es ← elements x build (ascii ";") true inner
    return some (bracketed .tryResources opening (← optional build closing) es)

/-- The parts of a label of a switch and of what it selects. Statements behind a colon go one level
deeper, what an arrow leads to stays on its line. -/
def caseParts (parts : List Chunk) : List Node → Build (List Chunk)
  | [] => return parts
  | n :: rest => do
    if isText "," n then caseParts (glued parts (← build n)) rest
    else if isText ":" n then
      let parts := glued parts (← build n)
      if rest.isEmpty then return parts
      else
        let own ← items x (item x build) rest
        return spaced parts (some (Chunk.ofItems none none own))
    else if isText "->" n then
      let parts := spaced parts (← build n)
      rest.foldlM (fun parts m => return spaced parts (← item x build m)) parts
    else if n.isKind .param then caseParts (spaced parts (← param x build n)) rest
    else caseParts (spaced parts (← build n)) rest

/-- A label of a switch with what it selects. -/
def switchCase (n : Node) : Build (Option Chunk) := do
  match n.children with
  | [] => return none
  | first :: rest => return sequence (← caseParts x build (spaced [] (← build first)) rest)

/-- A statement that ends in a semicolon. -/
def simpleStmt (n : Node) : Build (Option Chunk) := do
  let parts ← n.children.foldlM (fun parts c => do
    if isText ";" c then return glued parts (← build c) else return spaced parts (← build c)) []
  return sequence parts

/-- A statement behind a label. -/
def labeled (n : Node) : Build (Option Chunk) := do
  let parts ← n.children.foldlM (fun parts c => do
    if isText ":" c then return glued parts (← build c)
    else return spaced parts (← item x build c)) []
  return sequence parts

end CodeLayout.Build
