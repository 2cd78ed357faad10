import CodeLayout.Chunk.Builder
import CodeLayout.Text.Letter

/-!
# Chunks of lists and types

The builders that expressions, statements and declarations have in common.
-/

namespace CodeLayout.Build

variable (x : BuildContext) (build : NodeBuilder)

/-- The sequence of nodes without spaces between them. -/
def gluedNodes (nodes : List Node) : Build (Option Chunk) := do
  let parts ← nodes.foldlM (fun parts n => return glued parts (← build n)) []
  return sequence parts

/-- The sequence of nodes with spaces between them. -/
def spacedNodes (nodes : List Node) : Build (Option Chunk) := do
  let parts ← nodes.foldlM (fun parts n => return spaced parts (← build n)) []
  return sequence parts

/-- The elements of a list, each with the separator behind it. `isFirst` says that no element comes
before them. -/
def elements (sep : Bytes) (isFirst : Bool) : List Node → Build (List Chunk)
  | [] => return []
  | [n] => do
    match ← build n with
    | none => return []
    | some c => return [← element x n (if isFirst then c else c.withSpace)]
  | n :: s :: rest => do
    let c ← build n
    if s.isToken sep then
      let mark ← build s
      match sequence (glued (glued [] c) mark) with
      | none => elements sep isFirst rest
      | some c =>
        let e ← element x n (if isFirst then c else c.withSpace)
        return e :: (← elements sep false rest)
    else
      match c with
      | none => elements sep isFirst (s :: rest)
      | some c =>
        let e ← element x n (if isFirst then c else c.withSpace)
        return e :: (← elements sep false (s :: rest))

/-- The chunks of an optional node. -/
def optional : Option Node → Build (Option Chunk)
  | some n => build n
  | none => return none

/-- Brackets with elements between them that wrap under a context. -/
def bracketed (context : WrapContext) (opening closing : Option Chunk) (es : List Chunk) : Chunk :=
  let inner := if es.isEmpty then none else some (Chunk.ofElements context es)
  Chunk.seq ([opening, inner, closing].filterMap id)

/-- Whether a node opens a list. -/
def opensList (n : Node) : Bool :=
  isText "(" n || isText "\x7b" n || isText "<" n

/-- Whether a node closes a list. -/
def closesList (n : Node) : Bool :=
  isText ")" n || isText "\x7d" n || isText ">" n

/-- A list with commas whose elements wrap under a context. Either bracket may be missing. -/
def list (context : WrapContext) (children : List Node) : Build (Option Chunk) := do
  let (opening, inner) ← do
    match children with
    | n :: rest => if opensList n then pure (← build n, rest) else pure (none, children)
    | [] => pure (none, [])
  let (inner, closing) := splitClosing closesList inner
  let es ← elements x build (ascii ",") true inner
  return some (bracketed context opening (← optional build closing) es)

/-- An annotation with its arguments. -/
def annot (n : Node) : Build (Option Chunk) := do
  let parts ← n.children.foldlM (fun parts c => do
    if c.isKind .annotArgs then
      return glued parts (← list x build .annotationArguments c.children)
    else return glued parts (← build c)) []
  return sequence parts

/-- Whether a text starts like a name or a number. -/
def startsWord (s : Bytes) : Bool :=
  match s.characters with
  | r :: _ => r.code = 95 || r.code = 36 || isLetter r.code || isNumeral r.code
  | [] => false

/-- Whether a space separates two tokens of a type. -/
def typeSpace (before after : Bytes) : Bool :=
  let isAny (words : List String) (s : Bytes) : Bool := (words.map ascii).contains s
  isAny ["@", ",", "&", "extends", "super"] before || isAny ["&", "extends", "super"] after ||
    (startsWord before && startsWord after)

/-- The parts of a type, with the text that the next token is compared with. -/
def typePart (acc : List Chunk × Bytes) (n : Node) : Build (List Chunk × Bytes) := do
  let (parts, before) := acc
  match n with
  | .leaf _ t =>
    let c ← build n
    let isSpaced := !before.isEmpty && typeSpace before t.text
    return (if isSpaced then spaced parts c else glued parts c, t.text)
  | .branch .. =>
    if n.isKind .annot then
      let c ← annot x build n
      let isSpaced := !before.isEmpty && before != ascii "." && before != ascii "<"
      return (if isSpaced then spaced parts c else glued parts c, ascii "@")
    else return (spaced parts (← build n), [])

/-- A type as a flat run of tokens. -/
def type (n : Node) : Build (Option Chunk) := do
  let (parts, _) ← n.children.foldlM (typePart x build) ([], [])
  return sequence parts

/-- Whether a chunk of a modifier is followed by a line break of its own. -/
def breaksBehind (decl : Bool) (n : Node) : Bool :=
  decl && n.isKind .annot && x.style.breakAfterAnnotations

/-- Annotations and modifiers. In front of a declaration, annotations may have lines of their
own. -/
def modifiers (decl : Bool) (n : Node) : Build (Option Chunk) := do
  let parts ← n.children.foldlM (fun parts m => do
    let c ← build m
    let c :=
      if breaksBehind x decl m then
        c.map fun c => c.modify fun t => { t with lead := true, breakAfter := .mandatory }
      else c
    return spaced parts c) []
  let leads := (parts.getLast?.map fun c => c.traits.lead).getD false
  return (sequence parts).map fun c =>
    if leads then c.modify fun t => { t with lead := true } else c

/-- Braces around items. -/
def braces (item : NodeBuilder) (n : Node) : Build (Option Chunk) := do
  match n.children with
  | [] => return none
  | first :: rest =>
    let opening ← build first
    let (inner, closing) := splitClosing (isText "\x7d") rest
    let own ← items x item inner
    match closing with
    | none => return some (Chunk.ofItems opening none own)
    | some c =>
      let comments ← detach x c.firstId? true
      return some (Chunk.ofItems opening (← build c) (own ++ comments))

/-- The left side of an assignment with its operator, and the right side. -/
def assignment (lhs : Option Chunk) (rhs : Node) : Build (Option Chunk) := do
  match ← build rhs with
  | none => return lhs
  | some r =>
    let r ← element x rhs r.withSpace
    return some (Chunk.ofElements .assignment (lhs.toList ++ [r]))

/-- A parameter, a handled exception or a pattern. -/
def param (n : Node) : Build (Option Chunk) := do
  let parts ← n.children.foldlM (fun parts c => do
    if c.isKind .modifiers then return spaced parts (← modifiers x build false c)
    else if isText "..." c || isText "[" c || isText "]" c then return glued parts (← build c)
    else return spaced parts (← build c)) []
  return sequence parts

/-- A declaration of variables. `decl` says that it stands alone. -/
def varDecl (decl : Bool) (n : Node) : Build (Option Chunk) := do
  let parts ← n.children.foldlM (fun parts c => do
    if c.isKind .modifiers then return spaced parts (← modifiers x build decl c)
    else if isText ";" c then return glued parts (← build c)
    else return spaced parts (← build c)) []
  return sequence parts

/-- An item of a block: a member or a statement. -/
def item (n : Node) : Build (Option Chunk) :=
  if n.isKind .varDecl then varDecl x build true n else build n

/-- A block. -/
def block (n : Node) : Build (Option Chunk) :=
  braces x build (item x build) n

end CodeLayout.Build
