import CodeLayout.Comment.Basic
import CodeLayout.Style.Context
import CodeLayout.Text.Quoted
import CodeLayout.Text.Width

/-!
# Chunks

The form between the syntax tree and the written text. A chunk is a token, a comment, a group of
chunks under one wrap context, or a block whose items have lines of their own. Chunks say what may
and what must happen between neighbours; where lines break is decided later.
-/

namespace CodeLayout

/-- What may happen behind a chunk. -/
inductive Break where
  | never
  | optional
  | mandatory
  deriving DecidableEq, Repr, Inhabited

namespace Break

/-- The number of a kind of break. -/
def code : Break → Nat
  | .never => 0
  | .optional => 1
  | .mandatory => 2

/-- The kind of break with a number. -/
def ofCode : Nat → Break
  | 0 => .never
  | 1 => .optional
  | _ => .mandatory

/-- The stronger one of two kinds of break. -/
def max (a b : Break) : Break :=
  if a.code < b.code then b else a

end Break

/-- The indentation of a line: levels, and columns of spaces behind them. -/
structure Indent where
  level : Int := 0
  align : Int := 0
  deriving DecidableEq, Repr, Inhabited

/-- The room that a chunk takes on one line. For a chunk that cannot be on one line, `width` is that
of its first line. -/
structure Measure where
  width : Int := 0
  /-- Whether the chunk must contain a line break. -/
  hard : Bool := false
  deriving DecidableEq, Repr, Inhabited

/-- What chunks of all forms have. -/
structure Traits where
  /-- The range of a token or a comment in the input; negative if it does not come from there. -/
  start : Int := -1
  stop : Int := -1
  /-- Whether a space is before the chunk when it does not start a line. -/
  space : Bool := false
  breakAfter : Break := .never
  /-- Whether a line break must be before the chunk. -/
  breakBefore : Bool := false
  /-- Whether the chunk decorates a declaration: the line behind it keeps its indentation. -/
  lead : Bool := false
  /-- The number of blank lines before the chunk if it is an item of a block. -/
  blank : Int := 0
  /-- The place of the chunk in its tree, counted from the root. -/
  id : Nat := 0
  /-- The room that the chunk takes, unless a comment without contents is in the way. -/
  measure : Option Measure := none
  deriving DecidableEq, Repr, Inhabited

/-- A chunk. -/
inductive Chunk where
  | token (traits : Traits) (text : Bytes)
  /-- A comment with its first text. A comment without contents cannot be laid out. -/
  | comment (traits : Traits) (text : Bytes) (contents : Option Comment)
  /-- Elements under one context. With `breakFirst` even the first of them may be moved to a new
  line. -/
  | group (traits : Traits) (context : WrapContext) (breakFirst : Bool) (children : List Chunk)
  /-- Items between braces. A body without braces has neither of them. -/
  | block (traits : Traits) (opening closing : Option Chunk) (indented : Bool) (items : List Chunk)
  deriving Repr, Inhabited

namespace Chunk

/-- The names of the forms of chunks by their numbers. -/
def nameOfCode : Nat → Bytes
  | 0 => ascii "token"
  | 1 => ascii "comment"
  | 2 => ascii "group"
  | 3 => ascii "block"
  | n => ascii "Kind(" ++ natDigits n ++ ascii ")"

/-- The traits of a chunk. -/
def traits : Chunk → Traits
  | .token t _ | .comment t _ _ | .group t _ _ _ | .block t _ _ _ _ => t

/-- The chunk with its traits changed. -/
def modify (f : Traits → Traits) : Chunk → Chunk
  | .token t s => .token (f t) s
  | .comment t s c => .comment (f t) s c
  | .group t ctx b cs => .group (f t) ctx b cs
  | .block t o c i cs => .block (f t) o c i cs

/-- The chunk with a space before it. -/
def withSpace (c : Chunk) : Chunk :=
  c.modify fun t => { t with space := true }

/-- A group of elements under a context. -/
def ofElements (context : WrapContext) (children : List Chunk) : Chunk :=
  .group {} context false children

/-- A group that takes no optional breaks. -/
def seq (children : List Chunk) : Chunk :=
  ofElements .plain children

/-- Items between braces, one level deeper than the braces. -/
def ofItems (opening closing : Option Chunk) (items : List Chunk) : Chunk :=
  .block { breakAfter := if opening.isNone then .mandatory else .never } opening closing true items

/-- Whether a chunk is a block without an opening brace. -/
def isBraceless : Chunk → Bool
  | .block _ none _ _ _ => true
  | _ => false

mutual

/-- Whether a chunk leaves nothing in the output. -/
def isEmpty : Chunk → Bool
  | .token _ s => s.isEmpty
  | .group _ _ _ cs => allEmpty cs
  | _ => false

/-- Whether all chunks of a list leave nothing in the output. -/
def allEmpty : List Chunk → Bool
  | [] => true
  | c :: cs => isEmpty c && allEmpty cs

end

mutual

/-- Whether a line break must follow a chunk, by its own break or by that of its last part. A block
that is not closed leaves its last item open. -/
def endsHard : Chunk → Bool
  | .token t _ => t.breakAfter = .mandatory
  | .comment t _ _ => t.breakAfter = .mandatory
  | .group t _ _ cs => t.breakAfter = .mandatory || lastEndsHard cs
  | .block t o c _ _ =>
    t.breakAfter = .mandatory || (o.isSome &&
      match c with
      | some c => endsHard c
      | none => true)

/-- Whether a line break must follow the last chunk of a list. -/
def lastEndsHard : List Chunk → Bool
  | [] => false
  | [c] => endsHard c
  | _ :: c :: cs => lastEndsHard (c :: cs)

end

mutual

/-- Whether a line break must precede a chunk, by its own mark or by that of its first part. -/
def startsHard : Chunk → Bool
  | .token t _ => t.breakBefore
  | .comment t _ _ => t.breakBefore
  | .group t _ _ cs => t.breakBefore || firstStartsHard cs
  | .block t o _ _ _ =>
    t.breakBefore ||
      match o with
      | some o => startsHard o
      | none => false

/-- Whether a line break must precede the first chunk of a list. -/
def firstStartsHard : List Chunk → Bool
  | [] => false
  | c :: _ => startsHard c

end

mutual

/-- Whether a space is before a chunk that does not start a line, by its own mark or by that of its
first part. -/
def isSpaced : Chunk → Bool
  | .token t _ => t.space
  | .comment t _ _ => t.space
  | .group t _ _ cs => t.space || firstSpaced cs
  | .block t o _ _ _ =>
    t.space ||
      match o with
      | some o => isSpaced o
      | none => false

/-- Whether a space is before the first chunk of a list. -/
def firstSpaced : List Chunk → Bool
  | [] => false
  | c :: _ => isSpaced c

end

mutual

/-- Whether the line behind a chunk keeps the indentation of the line the chunk starts on: its last
part decorates what follows, or is a body with lines of its own. -/
def settles : Chunk → Bool
  | .token t _ => t.lead
  | .comment t _ _ => t.lead
  | .group t _ _ cs => t.lead || lastSettles cs
  | .block t o _ _ _ => t.lead || o.isNone

/-- Whether the last chunk of a list settles the indentation of the next line. -/
def lastSettles : List Chunk → Bool
  | [] => false
  | [c] => settles c
  | _ :: c :: cs => lastSettles (c :: cs)

end

mutual

/-- The chunks of a tree in the order of the output, each before its parts. -/
def walk : Chunk → List Chunk
  | .token t s => [.token t s]
  | .comment t s c => [.comment t s c]
  | .group t x b cs => .group t x b cs :: walkList cs
  | .block t o c i cs =>
    .block t o c i cs ::
      ((match o with
        | some o => walk o
        | none => []) ++ walkList cs ++
        match c with
        | some c => walk c
        | none => [])

/-- The chunks of a list of trees. -/
def walkList : List Chunk → List Chunk
  | [] => []
  | c :: cs => walk c ++ walkList cs

end

/-- Whether a chunk is a token or a comment. -/
def isLeaf : Chunk → Bool
  | .token .. | .comment .. => true
  | _ => false

/-- The tokens and comments of a tree in order. -/
def leaves (c : Chunk) : List Chunk :=
  c.walk.filter isLeaf

/-- The marks in front of a chunk: whether it starts a line and whether a space is before it. -/
def marksBefore (newLine : Nat → Bool) (t : Traits) : Bytes :=
  (if newLine t.id then ascii "^" else []) ++ if t.space then ascii "_" else []

/-- The mark behind a chunk for its break. -/
def markAfter (t : Traits) : Bytes :=
  match t.breakAfter with
  | .never => []
  | .optional => ascii "?"
  | .mandatory => ascii "!"

mutual

/-- A tree on one line: tokens in quotes, comments behind a hash, groups in parentheses behind their
context, blocks in braces. A caret marks the chunks that start a line. -/
def render (newLine : Nat → Bool) : Chunk → Bytes
  | .token t s => marksBefore newLine t ++ quoted s ++ markAfter t
  | .comment t s _ => marksBefore newLine t ++ ascii "#" ++ quoted s ++ markAfter t
  | .group t context _ cs =>
    let isPlain := context = .plain
    let inner := renderList newLine isPlain cs
    marksBefore newLine t ++ ascii "(" ++
      (if isPlain then [] else context.name ++ ascii ":") ++ inner ++ ascii ")" ++ markAfter t
  | .block t o _ _ cs =>
    let inner := renderList newLine true cs
    marksBefore newLine t ++
      (if o.isNone then ascii "\x7b|" ++ inner ++ ascii "|\x7d"
       else ascii "\x7b" ++ inner ++ ascii "\x7d") ++ markAfter t

/-- The trees of a list with spaces between them; the first gets one only if it is not the first
thing in its brackets. -/
def renderList (newLine : Nat → Bool) (isFirst : Bool) : List Chunk → Bytes
  | [] => []
  | c :: cs =>
    (if isFirst then [] else ascii " ") ++ render newLine c ++ renderList newLine false cs

end

/-- The measure of elements in a row of which `width` columns are taken, if `isFirst` is false by
elements before them. -/
def measureRow (isFirst : Bool) (width : Int) : List Chunk → Option Measure
  | [] => some ⟨width, false⟩
  | c :: cs =>
    match c.traits.measure with
    | none => none
    | some m =>
      if !isFirst && c.startsHard then some ⟨width, true⟩
      else
        let gap : Int := if !isFirst && 0 < m.width && c.isSpaced then 1 else 0
        let width := width + gap + m.width
        if m.hard || (!cs.isEmpty && c.endsHard) then some ⟨width, true⟩
        else measureRow false width cs

/-- The measure of a block with the given braces. A block with items, or one that is not closed,
must contain a line break. -/
def measureBlock (opening closing : Option Chunk) (hasItems : Bool) : Option Measure :=
  match opening with
  | none => some ⟨0, true⟩
  | some o =>
    match o.traits.measure with
    | none => none
    | some m =>
      match closing with
      | none => some ⟨m.width, true⟩
      | some c =>
        if hasItems || o.endsHard then some ⟨m.width, true⟩
        else c.traits.measure.map fun n => ⟨m.width + n.width, false⟩

/-- The measure of a comment. A line comment takes no room, since it never moves code to another
line. -/
def measureComment (tabstop : Int) (text : Bytes) (c : Comment) : Measure where
  width := if c.style = .line then 0 else (Width.firstLine 0 tabstop text).1
  hard := c.isMultiline

mutual

/-- Numbers the chunks of a tree from `n` on in the order of the output and measures them. The
second result is the next free number. -/
def annotate (tabstop : Int) (n : Nat) : Chunk → Chunk × Nat
  | .token t s =>
    (.token { t with id := n, measure := some ⟨(Width.firstLine 0 tabstop s).1, false⟩ } s, n + 1)
  | .comment t s c =>
    (.comment { t with id := n, measure := c.map (measureComment tabstop s) } s c, n + 1)
  | .group t x b cs =>
    let (cs, m) := annotateList tabstop (n + 1) cs
    (.group { t with id := n, measure := measureRow true 0 cs } x b cs, m)
  | .block t o c i cs =>
    let (o, m) :=
      match o with
      | some o =>
        let (o, m) := annotate tabstop (n + 1) o
        (some o, m)
      | none => (none, n + 1)
    let (cs, m) := annotateList tabstop m cs
    let (c, m) :=
      match c with
      | some c =>
        let (c, m) := annotate tabstop m c
        (some c, m)
      | none => (none, m)
    (.block { t with id := n, measure := measureBlock o c (!cs.isEmpty) } o c i cs, m)

/-- Numbers and measures the chunks of a list. -/
def annotateList (tabstop : Int) (n : Nat) : List Chunk → List Chunk × Nat
  | [] => ([], n)
  | c :: cs =>
    let (c, m) := annotate tabstop n c
    let (cs, m) := annotateList tabstop m cs
    (c :: cs, m)

end

end Chunk

end CodeLayout
