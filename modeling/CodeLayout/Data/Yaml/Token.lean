import CodeLayout.Data.Yaml.Scalar

/-!
# Tokens of a YAML text

The indicators and scalars of a text. Blocks are given by indentation: the tokens that start and end
them are added where it grows and shrinks. A key is only known as such once the colon behind it is
found; the token that announces it is then put in front of it.
-/

namespace CodeLayout.Yaml

/-- A token. -/
inductive Token where
  | version (major minor : Nat)
  /-- What the handle of tags stands for. -/
  | tagDirective (handle uri : Bytes)
  | documentStart
  | documentEnd
  | streamEnd
  | blockSequenceStart
  | blockMappingStart
  | blockEnd
  | flowSequenceStart
  | flowSequenceEnd
  | flowMappingStart
  | flowMappingEnd
  | blockEntry
  | flowEntry
  | key
  | value
  | alias (name : Bytes)
  | anchor (name : Bytes)
  | tag (handle suffix : Bytes)
  | scalar (text : Bytes) (plain : Bool)
  deriving DecidableEq, Repr, Inhabited

/-- A token that is a key if a colon follows. -/
structure PossibleKey where
  /-- The number of tokens before it. -/
  position : Nat
  cell : Cell
  /-- Whether nothing but a key may stand there. -/
  required : Bool
  deriving Repr, Inhabited

/-- The state of reading tokens. -/
structure Scanner where
  rest : Cells
  tokens : Array Token := #[]
  /-- The indentation of the current block; below zero outside of all blocks. -/
  indent : Int := -1
  /-- The indentations of the blocks around. -/
  outer : List Int := []
  /-- The possible keys, one for each flow collection that is open and one for the block around. -/
  keys : List (Option PossibleKey) := [none]
  keyAllowed : Bool := true
  deriving Inhabited

namespace Scanner

/-- Whether a flow collection is open. -/
def inFlow (s : Scanner) : Bool :=
  1 < s.keys.length

/-- Passes over white space and comments. -/
def skipGap (flow : Bool) (inComment keyAllowed : Bool) : Cells → Cells × Bool
  | [] => ([], keyAllowed)
  | c :: cs =>
    if isBreak c.code then skipGap flow false (keyAllowed || !flow) cs
    else if c.code = 0 then (c :: cs, keyAllowed)
    else if inComment then skipGap flow true keyAllowed cs
    else if c.code = 32 || ((flow || !keyAllowed) && c.code = 9) then
      skipGap flow false keyAllowed cs
    else if c.column = 0 && c.code = 0xFEFF then skipGap flow false keyAllowed cs
    else if c.code = code '#' then skipGap flow true keyAllowed cs
    else (c :: cs, keyAllowed)

/-- Adds a token at the end. -/
def push (s : Scanner) (t : Token) : Scanner :=
  { s with tokens := s.tokens.push t }

/-- Puts a token in front of the one at a position. -/
def insertAt (s : Scanner) (position : Nat) (t : Token) : Scanner :=
  { s with tokens := s.tokens.insertIdxIfInBounds position t }

/-- Passes over the next characters. -/
def skip (s : Scanner) (n : Nat) : Scanner :=
  { s with rest := s.rest.drop n }

/-- Ends the blocks that are indented more than a column. -/
def unroll (column : Int) : Nat → Scanner → Scanner
  | 0, s => s
  | n + 1, s =>
    if s.inFlow || s.indent ≤ column then s
    else
      unroll column n
        { s.push .blockEnd with indent := s.outer.headD (-1), outer := s.outer.drop 1 }

/-- Ends the blocks that are indented more than a column. -/
def unrollTo (s : Scanner) (column : Int) : Scanner :=
  unroll column (s.outer.length + 1) s

/-- Starts a block at a column unless one is there. The token that starts it goes to a position, or
to the end. -/
def roll (s : Scanner) (column : Nat) (position : Option Nat) (t : Token) : Scanner :=
  if s.inFlow || (column : Int) ≤ s.indent then s
  else
    let s := { s with outer := s.indent :: s.outer, indent := column }
    match position with
    | some p => s.insertAt p t
    | none => s.push t

/-- Gives up the possible key, which is an error if nothing else may stand there. -/
def dropKey (s : Scanner) : Option Scanner :=
  match s.keys with
  | some k :: rest => if k.required then none else some { s with keys := none :: rest }
  | _ => some s

/-- Notes that a key may start here. -/
def saveKey (s : Scanner) : Option Scanner :=
  if s.keyAllowed then do
    let cell := s.rest.head
    let required := !s.inFlow && s.indent = cell.column
    let s ← s.dropKey
    return { s with keys := some ⟨s.tokens.size, cell, required⟩ :: s.keys.drop 1 }
  else some s

/-- The number of characters that a key may have. -/
def keyLimit : Nat := 1024

/-- The possible key if it is still one: it must be on one line and not too long. -/
def validKey (s : Scanner) : Option (Option PossibleKey) :=
  match s.keys with
  | some k :: _ =>
    let here := s.rest.head
    if k.cell.line < here.line || k.cell.index + keyLimit < here.index then
      if k.required then none else some none
    else some (some k)
  | _ => some none

/-- Adds a token that ends all blocks around it. -/
def pushOutside (s : Scanner) (t : Token) (rest : Cells) : Option Scanner := do
  let s ← (s.unrollTo (-1)).dropKey
  return { s.push t with rest, keyAllowed := false }

/-- Starts a flow collection. -/
def openFlow (s : Scanner) (t : Token) : Option Scanner := do
  let s ← s.saveKey
  return { (s.push t).skip 1 with keys := none :: s.keys, keyAllowed := true }

/-- Ends a flow collection. -/
def closeFlow (s : Scanner) (t : Token) : Option Scanner := do
  let s ← s.dropKey
  let keys := if s.inFlow then s.keys.drop 1 else s.keys
  return { (s.push t).skip 1 with keys, keyAllowed := false }

/-- An entry of a flow collection. -/
def flowEntry (s : Scanner) : Option Scanner := do
  let s ← s.dropKey
  return { (s.push .flowEntry).skip 1 with keyAllowed := true }

/-- An entry of a block, or a key behind its own indicator. -/
def blockIndicator (s : Scanner) (starts own : Token) (keyAllowed : Bool) : Option Scanner := do
  if !s.inFlow && !s.keyAllowed then none
  else
    let s ← (s.roll s.rest.head.column none starts).dropKey
    return { (s.push own).skip 1 with keyAllowed }

/-- The colon behind a key. -/
def value (s : Scanner) : Option Scanner := do
  match ← s.validKey with
  | some k =>
    let s := s.insertAt k.position .key
    let s := s.roll k.cell.column (some k.position) .blockMappingStart
    return { (s.push .value).skip 1 with keys := none :: s.keys.drop 1, keyAllowed := false }
  | none =>
    if !s.inFlow && !s.keyAllowed then none
    else
      let s := s.roll s.rest.head.column none .blockMappingStart
      return { (s.push .value).skip 1 with keys := none :: s.keys.drop 1, keyAllowed := !s.inFlow }

/-- The text of codes. -/
def textOf (codes : List Nat) : Bytes :=
  codes.flatMap Utf8.encode

/-- An anchor or an alias. -/
def name (s : Scanner) (make : Bytes → Token) : Option Scanner := do
  let s ← s.saveKey
  let own := (s.rest.drop 1).takeWhile fun c => isWordCode c.code
  let rest := s.rest.drop (1 + own.length)
  let next := Cells.codeAt rest 0
  let isEnd := isGap next ||
    [code '?', code ':', code ',', code ']', code '\x7d', code '%', code '@', 96].contains next
  if own.isEmpty || !isEnd then none
  else return { s.push (make (textOf (own.map Cell.code))) with rest, keyAllowed := false }

/-- Whether a code may stand in a tag. -/
def isTagCode (c : Nat) : Bool :=
  isWordCode c ||
    [code ';', code '/', code '?', code ':', code '@', code '&', code '=', code '+', code '$',
      code '.', code ',', code '!', code '~', code '*', 39, code '(', code ')', code '[', code ']',
      code '%'].contains c

/-- The codes at the front that may stand in a tag. -/
def tagCodes (cs : Cells) : List Nat :=
  (cs.takeWhile fun c => isTagCode c.code).map Cell.code

/-- A tag: in angle brackets, behind a handle, or behind an exclamation mark only. -/
def tag (s : Scanner) : Option Scanner := do
  let s ← s.saveKey
  let behind := s.rest.drop 1
  let (t, rest) ←
    if Cells.codeAt behind 0 = code '<' then
      let uri := tagCodes (behind.drop 1)
      let rest := behind.drop (1 + uri.length)
      if uri.isEmpty || Cells.codeAt rest 0 != code '>' then none
      else some (Token.tag [] (textOf uri), rest.drop 1)
    else
      let word := (behind.takeWhile fun c => isWordCode c.code).map Cell.code
      let rest := behind.drop word.length
      if Cells.codeAt rest 0 = code '!' then
        let suffix := tagCodes (rest.drop 1)
        if suffix.isEmpty then none
        else
          some (Token.tag (textOf ([code '!'] ++ word ++ [code '!'])) (textOf suffix),
            rest.drop (1 + suffix.length))
      else
        let suffix := word ++ tagCodes rest
        let rest := behind.drop suffix.length
        if suffix.isEmpty then some (Token.tag [] (textOf [code '!']), rest)
        else some (Token.tag (textOf [code '!']) (textOf suffix), rest)
  if !isGap (Cells.codeAt rest 0) then none
  else return { s.push t with rest, keyAllowed := false }

/-- A quoted scalar. -/
def quotedToken (s : Scanner) (single : Bool) : Option Scanner := do
  let s ← s.saveKey
  let found ← quotedScalar single (s.rest.drop 1)
  let s := s.push (.scalar (textOf found.codes) false)
  return { s with rest := found.rest, keyAllowed := false }

/-- A block scalar. -/
def blockToken (s : Scanner) (literal : Bool) : Option Scanner := do
  let s ← s.dropKey
  let found ← blockScalar literal s.indent (s.rest.drop 1)
  return { s.push (.scalar (textOf found.codes) false) with rest := found.rest, keyAllowed := true }

/-- A plain scalar. -/
def plainToken (s : Scanner) : Option Scanner := do
  let s ← s.saveKey
  let found ← plainFrom (s.indent + 1) s.inFlow [] {} false s.rest
  return { s.push (.scalar (textOf found.codes) true) with
    rest := found.rest, keyAllowed := found.broken }

/-- The words of a line up to a comment. -/
def lineWords (cs : Cells) : List (List Nat) :=
  let line := (cs.takeWhile fun c => !isBreakOrEnd c.code).map Cell.code
  let step (acc : List (List Nat)) (c : Nat) : List (List Nat) :=
    if isBlank c then [] :: acc
    else
      match acc with
      | w :: ws => (w ++ [c]) :: ws
      | [] => [[c]]
  let words := ((line.foldl step [[]]).reverse).filter fun w => !w.isEmpty
  words.takeWhile fun w => w.head? != some (code '#')

/-- The number that digits stand for. -/
def number? (codes : List Nat) : Option Nat :=
  if codes.isEmpty || !codes.all (fun c => 48 ≤ c && c ≤ 57) then none
  else some (codes.foldl (fun n c => 10 * n + (c - 48)) 0)

/-- The version behind the directive for it. -/
def version? (word : List Nat) : Option Token := do
  let major := word.takeWhile (· != code '.')
  return .version (← number? major) (← number? (word.drop (major.length + 1)))

/-- A directive, with which a line starts. -/
def directive (s : Scanner) : Option Scanner := do
  let t ←
    match lineWords s.rest with
    | [name, v] => if textOf name = ascii "%YAML" then version? v else none
    | [name, handle, uri] =>
      if textOf name = ascii "%TAG" then some (.tagDirective (textOf handle) (textOf uri)) else none
    | _ => none
  s.pushOutside t (s.rest.dropWhile fun c => !isBreakOrEnd c.code)

/-- Whether a character may start a plain scalar. -/
def startsPlain (flow : Bool) (c next : Nat) : Bool :=
  !(isGap c || [code '-', code '?', code ':', code ',', code '[', code ']', code '\x7b',
      code '\x7d', code '#', code '&', code '*', code '!', code '|', code '>', 39, code '"',
      code '%', code '@', 96].contains c) ||
    (c = code '-' && !isBlank next) ||
    (!flow && (c = code '?' || c = code ':') && !isGap next)

/-- Reads the next token. -/
def next (s : Scanner) : Option Scanner :=
  let (rest, keyAllowed) := skipGap s.inFlow false s.keyAllowed s.rest
  let s := { s with rest, keyAllowed }.unrollTo rest.head.column
  let c := rest.head.code
  let behind := Cells.codeAt rest 1
  let flow := s.inFlow
  if c = 0 then s.pushOutside .streamEnd rest
  else if rest.head.column = 0 && c = code '%' then s.directive
  else if Cells.isMarker rest '-' then s.pushOutside .documentStart (rest.drop 3)
  else if Cells.isMarker rest '.' then s.pushOutside .documentEnd (rest.drop 3)
  else if c = code '[' then s.openFlow .flowSequenceStart
  else if c = code '\x7b' then s.openFlow .flowMappingStart
  else if c = code ']' then s.closeFlow .flowSequenceEnd
  else if c = code '\x7d' then s.closeFlow .flowMappingEnd
  else if c = code ',' then s.flowEntry
  else if c = code '-' && isGap behind then s.blockIndicator .blockSequenceStart .blockEntry true
  else if c = code '?' && (flow || isGap behind) then
    s.blockIndicator .blockMappingStart .key (!flow)
  else if c = code ':' && (flow || isGap behind) then s.value
  else if c = code '*' then s.name .alias
  else if c = code '&' then s.name .anchor
  else if c = code '!' then s.tag
  else if c = code '|' && !flow then s.blockToken true
  else if c = code '>' && !flow then s.blockToken false
  else if c = 39 then s.quotedToken true
  else if c = code '"' then s.quotedToken false
  else if startsPlain flow c behind then s.plainToken
  else none

/-- Reads at most `n` tokens, up to the end of the text or the first error. -/
def run : Nat → Scanner → Array Token × Bool
  | 0, s => (s.tokens, false)
  | n + 1, s =>
    match s.next with
    | none => (s.tokens, false)
    | some t => if t.tokens.back? = some .streamEnd then (t.tokens, true) else run n t

end Scanner

/-- The tokens of a text up to its end or to the first error, and whether it is the end. -/
def tokens (cs : Cells) : Array Token × Bool :=
  Scanner.run (2 * cs.length + 2) { rest := cs }

end CodeLayout.Yaml
