import CodeLayout.Chunk.Basic
import CodeLayout.Chunk.Trivia
import CodeLayout.Report
import CodeLayout.Syntax.Node

/-!
# Building chunks

A builder turns nodes of a syntax tree into chunks and takes the comments around their tokens
along. It keeps account of the tokens and comments it has placed, so that none is lost.

As with the grammar, the builder of one kind of node takes the builder of all nodes as an argument.
-/

namespace CodeLayout

/-- The comments that are not placed yet, and the indices of all that is, the latest first. -/
structure BuildState where
  trivia : TriviaIndex
  placed : List Nat := []
  deriving Inhabited

/-- What building depends on. -/
structure BuildContext where
  style : Style
  tokens : Array Token
  /-- The index of the comment that heads the file. -/
  header : Option Nat

/-- A builder. -/
abbrev Build := StateM BuildState

/-- A builder of all nodes. -/
abbrev NodeBuilder := Node → Build (Option Chunk)

namespace Build

variable (x : BuildContext)

/-- The parts of a sequence with one more part behind a space, if the part is there. -/
def spaced (parts : List Chunk) : Option Chunk → List Chunk
  | none => parts
  | some c => parts ++ [if parts.isEmpty then c else c.withSpace]

/-- The parts of a sequence with one more part right behind them, if the part is there. -/
def glued (parts : List Chunk) : Option Chunk → List Chunk
  | none => parts
  | some c => parts ++ [c]

/-- The sequence of some parts; a single part is its own sequence. -/
def sequence : List Chunk → Option Chunk
  | [] => none
  | [c] => some c
  | cs => some (Chunk.seq cs)

/-- Records that tokens or comments are placed. -/
def place (ids : List Nat) : Build Unit :=
  modify fun s => { s with placed := ids.reverse ++ s.placed }

/-- What stands around a token, or at the end. -/
def triviaAt (id : Option Nat) : Build Trivia :=
  return (← get).trivia.get id

/-- Changes what is left around a token, or at the end. -/
def modifyTrivia (id : Option Nat) (f : Trivia → Trivia) : Build Unit :=
  modify fun s => { s with trivia := s.trivia.modify id f }

/-- The text of a token of the stream. -/
def textOf (id : Nat) : Bytes :=
  (x.tokens.getD id default).text

/-- Whether comments of a form are reflowed. -/
def reflows (rules : CommentRules) : CommentStyle → Bool
  | .line => rules.lineComments
  | .block => rules.blockComments
  | .doc => rules.docComments
  | .none => false

/-- What may be done to a run of comments. The header of a file and comments that mention a tag have
rules of their own. -/
def commentOptions (run : CommentRun) (raw : List Bytes) : CommentOptions :=
  let rules := x.style.comments
  let isHeader := x.header.isSome && run.ids.head? = x.header
  let tagged := raw.any fun c => Verbatim.hasTag c x.style
  { reflow :=
      reflows rules (.ofText (raw.headD [])) && (!isHeader || rules.header) && !tagged
    header := isHeader
    join := rules.joinLines
    rootTags := rules.indentRootTags
    tabstop := x.style.tabSize }

/-- The chunk of a run of comments. A line comment ends its line. -/
def comment (run : CommentRun) : Build Chunk := do
  let raw := run.ids.map (textOf x)
  place run.ids
  let c := Comment.ofRaw raw (commentOptions x run raw)
  let first := x.tokens.getD (run.ids.headD 0) default
  let last := x.tokens.getD (run.ids.getLastD 0) default
  let breakAfter : Break :=
    if c.style = .line then .mandatory else if run.newline then .optional else .never
  return .comment { start := first.start, stop := last.stop, breakAfter } c.text (some c)

/-- The chunks of the comments in front of a token. Those that start a line keep doing so. -/
def leadingComments : List CommentRun → Build (List Chunk)
  | [] => return []
  | run :: runs => do
    let c ← comment x run
    let c :=
      if run.ownLine then c.modify fun t => { t with breakBefore := true, lead := true } else c
    return c :: (← leadingComments runs)

/-- The chunk of a token with the comments that lead and trail it. -/
def token (id : Nat) (t : Token) : Build Chunk := do
  let around ← triviaAt (some id)
  let leading ← leadingComments x around.leading
  let leading := leading.head?.toList ++ leading.tail.map Chunk.withSpace
  place [id]
  let c : Chunk := .token { start := t.start, stop := t.stop, space := !leading.isEmpty } t.text
  let trailing ←
    match around.trailing with
    | some run => pure [(← comment x run).withSpace]
    | none => pure []
  modifyTrivia (some id) fun t => { t with leading := [], trailing := none }
  match leading ++ [c] ++ trailing with
  | [c] => return c
  | parts => return Chunk.seq parts

/-- Takes the leading comments of a token, or those at the end, that have lines of their own, or all
of them, as items of a block. -/
def detach (id : Option Nat) (all : Bool) : Build (List Chunk) := do
  let around ← triviaAt id
  let taken := around.leading.takeWhile fun run => all || (run.ownLine && run.newline)
  let items ← taken.mapM fun run => do
    let c ← comment x run
    return c.modify fun t => { t with blank := min (run.blank : Int) x.style.blankLines }
  modifyTrivia id fun t => { t with leading := t.leading.drop taken.length }
  return items

/-- The number of blank lines to keep before a token and the comments that still lead it. -/
def blankBefore (id : Nat) : Build Int := do
  let around ← triviaAt (some id)
  let blank :=
    match around.leading with
    | run :: _ => run.blank
    | [] => around.blank
  return min (blank : Int) x.style.blankLines

/-- Marks the chunk of a node as starting a line if the node did so in the input and such breaks are
kept. -/
def element (n : Node) (c : Chunk) : Build Chunk := do
  let broken ←
    match n.firstId? with
    | some id => pure (← triviaAt (some id)).broken
    | none => pure false
  return if !x.style.joinWrapped && broken then c.modify fun t => { t with breakBefore := true }
    else c

/-- The items of a block, with the comments on lines of their own as items in between. -/
def items (item : NodeBuilder) : List Node → Build (List Chunk)
  | [] => return []
  | n :: ns => do
    match n.firstId? with
    | none => items item ns
    | some id =>
      let comments ← detach x (some id) false
      let blank ← blankBefore x id
      let c ← item n
      let own := c.toList.map fun c => c.modify fun t => { t with blank }
      return comments ++ own ++ (← items item ns)

/-- Splits the children of a node in brackets into those inside and the closing bracket. -/
def splitClosing (isClosing : Node → Bool) (children : List Node) : List Node × Option Node :=
  match children.getLast? with
  | some n => if isClosing n then (children.dropLast, some n) else (children, none)
  | none => (children, none)

/-- Whether a node is a token with a text. -/
@[inline] def isText (s : String) (n : Node) : Bool :=
  n.isToken (ascii s)

end Build

end CodeLayout
