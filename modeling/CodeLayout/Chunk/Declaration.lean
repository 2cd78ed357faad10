import CodeLayout.Chunk.Lists

/-!
# Chunks of declarations
-/

namespace CodeLayout.Build

variable (x : BuildContext) (build : NodeBuilder)

/-- The parts of a package or an import behind the first word. `named` says that the name has
started: its parts follow each other without spaces. -/
def qualifiedParts (named : Bool) (parts : List Chunk) : List Node → Build (List Chunk)
  | [] => return parts
  | n :: ns => do
    let c ← build n
    if !named && isText "static" n then qualifiedParts named (spaced parts c) ns
    else if named || isText ";" n then qualifiedParts named (glued parts c) ns
    else qualifiedParts true (spaced parts c) ns

/-- A package or an import. -/
def qualified (n : Node) : Build (Option Chunk) := do
  match n.children with
  | [] => return none
  | first :: rest => return sequence (← qualifiedParts build false (spaced [] (← build first)) rest)

/-- A word with the types behind it. The word goes with the first type, and the whole clause may
move to the next line. -/
def clause (context : WrapContext) (n : Node) : Build (Option Chunk) := do
  match n.children with
  | [] => return none
  | wordNode :: _ =>
    let word ← build wordNode
    match n.first? .typeList with
    | none => return word
    | some types =>
      match ← elements x build (ascii ",") true types.children with
      | [] => return word
      | e :: es =>
        let e ← element x wordNode (Chunk.seq (word.toList ++ [e.withSpace]))
        return some (.group {} context true (e :: es))

/-- A list of types. -/
def typeList (n : Node) : Build (Option Chunk) := do
  return some (Chunk.seq (← elements x build (ascii ",") true n.children))

/-- The head of a type declaration as far as it is built: its parts, the word that says what is
declared, and whether the last part was an at sign. -/
structure TypeHead where
  parts : List Chunk := []
  word : Option Bytes := none
  behindAt : Bool := false

/-- The context under which a clause of a type declaration wraps. -/
def clauseContext (word : Option Bytes) (n : Node) : WrapContext :=
  if word == some (ascii "class") && (n.children.head?.map (isText "extends")).getD false then
    .superclass
  else .superinterfaces

/-- Adds one child to a type declaration. -/
def typeHeadPart (h : TypeHead) (n : Node) : Build TypeHead := do
  match n with
  | .leaf _ t =>
    let c ← build n
    let isAt := isText "@" n
    return {
      parts := if h.behindAt then glued h.parts c else spaced h.parts c
      word := if isAt then h.word else h.word.or (some t.text)
      behindAt := isAt }
  | .branch kind _ _ children =>
    let parts ←
      match kind with
      | .modifiers => pure (spaced h.parts (← modifiers x build true n))
      | .type => pure (glued h.parts (← type x build n))
      | .params => pure (glued h.parts (← list x build .methodParameters children))
      | .clause => pure (spaced h.parts (← clause x build (clauseContext h.word n) n))
      | _ => pure (spaced h.parts (← build n))
    return { h with parts }

/-- The declaration of a type. -/
def typeDecl (n : Node) : Build (Option Chunk) := do
  return sequence (← n.children.foldlM (typeHeadPart x build) {}).parts

/-- The constants of an enumeration with the semicolon behind them, as the first item of its body,
with the comments before it, and the nodes that are left. -/
def constants (nodes : List Node) : Build (List Chunk × List Node) := do
  let (comments, blank, parts, rest) ← do
    match nodes with
    | n :: rest =>
      match n.isKind .enumConstants, n.firstId? with
      | true, some id =>
        let comments ← detach x (some id) false
        let blank ← blankBefore x id
        let es ← elements x build (ascii ",") true n.children
        pure (comments, blank, [Chunk.ofElements .enumConstants es], rest)
      | true, none => pure ([], 0, [], rest)
      | false, _ => pure ([], 0, [], nodes)
    | [] => pure ([], 0, [], [])
  let (comments, blank, parts, rest) ← do
    match rest with
    | n :: others =>
      if isText ";" n then
        let (comments, blank) ←
          match parts, n.firstId? with
          | [], some id => pure (comments ++ (← detach x (some id) false), ← blankBefore x id)
          | _, _ => pure (comments, blank)
        pure (comments, blank, glued parts (← build n), others)
      else pure (comments, blank, parts, rest)
    | [] => pure (comments, blank, parts, rest)
  let own := (sequence parts).toList.map fun c => c.modify fun t => { t with blank }
  return (comments ++ own, rest)

/-- The body of an enumeration. -/
def enumBody (n : Node) : Build (Option Chunk) := do
  match n.children with
  | [] => return none
  | first :: rest =>
    let opening ← build first
    let (inner, closing) := splitClosing (isText "\x7d") rest
    let (own, members) ← constants x build inner
    let own := own ++ (← items x (item x build) members)
    match closing with
    | none => return some (Chunk.ofItems opening none own)
    | some c =>
      let comments ← detach x c.firstId? true
      return some (Chunk.ofItems opening (← build c) (own ++ comments))

/-- A constant of an enumeration. -/
def enumConstant (n : Node) : Build (Option Chunk) := do
  let parts ← n.children.foldlM (fun parts c => do
    if c.isKind .modifiers then return spaced parts (← modifiers x build false c)
    else if c.isKind .args then
      return glued parts (← list x build .enumConstantArguments c.children)
    else return spaced parts (← build c)) []
  return sequence parts

/-- A method or a constructor. -/
def method (n : Node) : Build (Option Chunk) := do
  let parts ← n.children.foldlM (fun parts c => do
    if c.isKind .modifiers then return spaced parts (← modifiers x build true c)
    else if c.isKind .params then
      return glued parts (← list x build .methodParameters c.children)
    else if c.isKind .clause then return spaced parts (← clause x build .throwsClause c)
    else if isText "[" c || isText "]" c || isText ";" c then return glued parts (← build c)
    else return spaced parts (← build c)) []
  return sequence parts

/-- Variables that are declared together. -/
def declarators (n : Node) : Build (Option Chunk) := do
  match ← elements x build (ascii ",") true n.children with
  | [] => return none
  | [e] => return some e
  | es => return some (Chunk.ofElements .multipleFields es)

/-- The parts of a declared variable: its name and what belongs to it, and then its value, which may
move to the next line. -/
def declaratorParts (parts : List Chunk) : List Node → Build (Option Chunk)
  | [] => return sequence parts
  | n :: ns => do
    let c ← build n
    if isText "=" n then
      let lhs := sequence (spaced parts c)
      match ns with
      | [] => return lhs
      | value :: _ => assignment x build lhs value
    else declaratorParts (glued parts c) ns

/-- One of the variables of a declaration. -/
def declarator (n : Node) : Build (Option Chunk) :=
  declaratorParts x build [] n.children

mutual

/-- Adds the tokens of a node that is not understood. There is a space between two of them if
something was between them in the input. Nested blocks are blocks again. The second component is
the end of what was added last. -/
def rawPart (acc : List Chunk × Option Nat) : Node → Build (List Chunk × Option Nat)
  | .leaf id t => do
    let c ← build (.leaf id t)
    let apart := (acc.2.map fun stop => decide (stop < t.start)).getD false
    return (glued acc.1 (if apart then c.map Chunk.withSpace else c), some t.stop)
  | .branch kind start stop children => do
    if kind = .block then
      let c ← block x build (.branch kind start stop children)
      return (glued acc.1 (if acc.2.isSome then c.map Chunk.withSpace else c), some stop)
    else rawParts acc children

/-- Adds the tokens of nodes that are not understood. -/
def rawParts (acc : List Chunk × Option Nat) : List Node → Build (List Chunk × Option Nat)
  | [] => return acc
  | n :: ns => do rawParts (← rawPart acc n) ns

end

/-- Nodes that are not understood. -/
def raw (n : Node) : Build (Option Chunk) := do
  return sequence (← rawPart x build ([], none) n).1

end CodeLayout.Build
