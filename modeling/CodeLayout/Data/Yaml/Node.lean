import CodeLayout.Data.Yaml.Token

/-!
# Nodes of a YAML text

The first document of a text as a tree. An alias stands for the node that its anchor names, which
must be complete.
-/

namespace CodeLayout.Yaml

/-- A node. The tag is in its short form, and empty if there is none. -/
inductive Node where
  | scalar (tag text : Bytes) (plain : Bool)
  | sequence (tag : Bytes) (items : List Node)
  | mapping (tag : Bytes) (entries : List (Node × Node))
  deriving Repr, Inhabited

/-- The node that stands where nothing is written. -/
def Node.empty (tag : Bytes) : Node :=
  .scalar tag [] true

/-- The state of reading nodes. -/
structure Composer where
  tokens : Array Token
  /-- Whether the tokens reach to the end of the text. -/
  complete : Bool
  position : Nat := 0
  anchors : List (Bytes × Node) := []
  /-- What the handles of tags stand for. -/
  handles : List (Bytes × Bytes) := []
  deriving Inhabited

/-- A reader of nodes. -/
abbrev Compose := StateT Composer Option

namespace Compose

/-- The next token. Two tokens behind it must be there as well, unless the text ends before. -/
def peek : Compose Token := do
  let s ← get
  if !s.complete && s.tokens.size ≤ s.position + 2 then failure
  else return s.tokens.getD s.position .streamEnd

/-- Passes over the next token. -/
def advance : Compose Unit :=
  modify fun s => { s with position := s.position + 1 }

/-- What tags with the handle of two exclamation marks start with. -/
def standardUri : Bytes :=
  ascii "tag:yaml.org,2002:"

/-- A tag in its short form. -/
def shortTag (tag : Bytes) : Bytes :=
  if standardUri.isPrefixOf tag then ascii "!!" ++ tag.drop standardUri.length else tag

/-- The short form of a tag with a handle. -/
def resolveTag (handle suffix : Bytes) : Compose Bytes := do
  let s ← get
  if handle.isEmpty then return shortTag suffix
  else
    let known := s.handles ++ [(ascii "!", ascii "!"), (ascii "!!", standardUri)]
    match known.lookup handle with
    | some uri => return shortTag (uri ++ suffix)
    | none => failure

/-- The anchor and the tag in front of a node, in either order. -/
structure Properties where
  anchor : Option Bytes := none
  tag : Option Bytes := none

/-- Reads what stands in front of a node. -/
def properties : Compose Properties := do
  match ← peek with
  | .anchor a =>
    advance
    match ← peek with
    | .tag handle suffix =>
      advance
      return { anchor := some a, tag := some (← resolveTag handle suffix) }
    | _ => return { anchor := some a }
  | .tag handle suffix =>
    advance
    let tag ← resolveTag handle suffix
    match ← peek with
    | .anchor a =>
      advance
      return { anchor := some a, tag := some tag }
    | _ => return { tag := some tag }
  | _ => return {}

/-- Keeps a node under its anchor. -/
def keep (p : Properties) (n : Node) : Compose Node := do
  match p.anchor with
  | some a => modify fun s => { s with anchors := (a, n) :: s.anchors }
  | none => pure ()
  return n

/-- Reads a node unless one of the given tokens comes next, where the empty node is. -/
def orEmpty (stops : List Token) (node : Compose Node) : Compose Node := do
  if stops.contains (← peek) then return Node.empty [] else node

/-- Reads the value of an entry, if there is one. -/
def entryValue (stops : List Token) (node : Compose Node) : Compose Node := do
  match ← peek with
  | .value =>
    advance
    orEmpty stops node
  | _ => return Node.empty []

/-- The tokens that end the key or the value of an entry of a block. -/
def blockStops : List Token :=
  [.key, .value, .blockEnd]

mutual

/-- Reads a node. `block` says that it may be a block, and `loose` that it may be a sequence without
an indentation of its own. Nodes are nested, and collections are long, at most `n`. -/
def node (n : Nat) (block loose : Bool) : Compose Node := do
  match n with
  | 0 => failure
  | n + 1 =>
    match ← peek with
    | .alias a =>
      advance
      match (← get).anchors.lookup a with
      | some found => return found
      | none => failure
    | _ =>
      let p ← properties
      let tag := p.tag.getD []
      match ← peek with
      | .scalar text plain =>
        advance
        keep p (.scalar tag text plain)
      | .flowSequenceStart =>
        advance
        keep p (.sequence tag (← flowItems n true))
      | .flowMappingStart =>
        advance
        keep p (.mapping tag (← flowEntries n true))
      | t =>
        if loose && t = .blockEntry then keep p (.sequence tag (← looseItems n))
        else if block && t = .blockSequenceStart then
          advance
          keep p (.sequence tag (← blockItems n))
        else if block && t = .blockMappingStart then
          advance
          keep p (.mapping tag (← blockEntries n))
        else if p.anchor.isSome || p.tag.isSome then keep p (Node.empty tag)
        else failure
termination_by structural n

/-- Reads the items of a sequence in a block. -/
def blockItems (n : Nat) : Compose (List Node) := do
  match n with
  | 0 => failure
  | n + 1 =>
    match ← peek with
    | .blockEntry =>
      advance
      let item ← orEmpty [.blockEntry, .blockEnd] (node n true false)
      return item :: (← blockItems n)
    | .blockEnd =>
      advance
      return []
    | _ => failure
termination_by structural n

/-- Reads the items of a sequence without an indentation of its own. -/
def looseItems (n : Nat) : Compose (List Node) := do
  match n with
  | 0 => failure
  | n + 1 =>
    match ← peek with
    | .blockEntry =>
      advance
      let item ← orEmpty [.blockEntry, .key, .value, .blockEnd] (node n true false)
      return item :: (← looseItems n)
    | _ => return []
termination_by structural n

/-- Reads the entries of a mapping in a block. -/
def blockEntries (n : Nat) : Compose (List (Node × Node)) := do
  match n with
  | 0 => failure
  | n + 1 =>
    match ← peek with
    | .key =>
      advance
      let key ← orEmpty blockStops (node n true true)
      let value ← entryValue blockStops (node n true true)
      return (key, value) :: (← blockEntries n)
    | .blockEnd =>
      advance
      return []
    | _ => failure
termination_by structural n

/-- Reads the items of a sequence in brackets. A single entry may stand for a mapping. -/
def flowItems (n : Nat) (isFirst : Bool) : Compose (List Node) := do
  match n with
  | 0 => failure
  | n + 1 =>
    if (← peek) = .flowSequenceEnd then
      advance
      return []
    else
      if !isFirst then
        if (← peek) = .flowEntry then advance else failure
      match ← peek with
      | .flowSequenceEnd =>
        advance
        return []
      | .key =>
        advance
        let key ← orEmpty [.value, .flowEntry, .flowSequenceEnd] (node n false false)
        let value ← entryValue [.flowEntry, .flowSequenceEnd] (node n false false)
        return .mapping [] [(key, value)] :: (← flowItems n false)
      | _ =>
        let item ← node n false false
        return item :: (← flowItems n false)
termination_by structural n

/-- Reads the entries of a mapping in braces. -/
def flowEntries (n : Nat) (isFirst : Bool) : Compose (List (Node × Node)) := do
  match n with
  | 0 => failure
  | n + 1 =>
    if (← peek) = .flowMappingEnd then
      advance
      return []
    else
      if !isFirst then
        if (← peek) = .flowEntry then advance else failure
      match ← peek with
      | .flowMappingEnd =>
        advance
        return []
      | .key =>
        advance
        let key ← orEmpty [.value, .flowEntry, .flowMappingEnd] (node n false false)
        let value ← entryValue [.flowEntry, .flowMappingEnd] (node n false false)
        return (key, value) :: (← flowEntries n false)
      | _ =>
        let key ← node n false false
        return (key, Node.empty []) :: (← flowEntries n false)
termination_by structural n

end

/-- Reads the directives in front of a document, at most `n` of them. `versioned` says that one of
them gave a version. -/
def directives : Nat → Bool → Compose Bool
  | 0, _ => failure
  | n + 1, versioned => do
    match ← peek with
    | .version major minor =>
      if versioned || major != 1 || minor != 1 then failure
      else
        advance
        directives n true
    | .tagDirective handle uri =>
      if ((← get).handles.lookup handle).isSome then failure
      else
        advance
        modify fun s => { s with handles := s.handles ++ [(handle, uri)] }
        discard (directives n versioned)
        return true
    | _ => return versioned

/-- Reads the first document; there may be none. -/
def document (n : Nat) : Compose (Option Node) := do
  if (← peek) = .streamEnd then return none
  else
    let directed ← directives n false
    let root ←
      match ← peek with
      | .documentStart =>
        advance
        match ← peek with
        | .version .. | .tagDirective .. | .documentStart | .documentEnd | .streamEnd =>
          pure (Node.empty [])
        | _ => node n true false
      | _ => if directed then failure else node n true false
    let _ ← peek
    return some root

end Compose

/-- The first document of a text. There is none for a text that cannot be read; an empty text has no
root. -/
def read? (text : Bytes) : Option (Option Node) := do
  let cs ← cells? text
  let (tokens, complete) := tokens cs
  let (root, _) ← (Compose.document (4 * tokens.size + 8)).run { tokens, complete }
  return root

end CodeLayout.Yaml
