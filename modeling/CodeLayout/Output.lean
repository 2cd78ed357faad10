import CodeLayout.Layout.Resolve
import CodeLayout.Verbatim

/-!
# Written text

Chunks that have their places are written one after the other. White space is held back until the
next piece of text arrives, so that no line ends in it. Regions that are left alone are copied from
the input in place of the chunks they cover. Along the way, offsets of the input and the output
that correspond are noted.
-/

namespace CodeLayout

/-- An offset of the input and the offset of the output that corresponds to it. -/
structure Anchor where
  input : Int
  output : Nat
  deriving DecidableEq, Repr, Inhabited

/-- A written text with its anchors in the order in which they were noted. -/
structure Output where
  text : Bytes
  anchors : List Anchor := []
  deriving DecidableEq, Repr, Inhabited

/-- White space that is held back. -/
structure Gap where
  space : Bool := false
  newLine : Bool := false
  /-- The number of blank lines. -/
  blank : Int := 0
  /-- The indentation of the line, if one starts. -/
  indent : Indent := {}
  deriving DecidableEq, Repr, Inhabited

/-- What is written so far. -/
structure Writer where
  /-- The pieces of text, the latest first. -/
  pieces : List Bytes := []
  /-- The number of bytes of all pieces. -/
  size : Nat := 0
  /-- The anchors, the latest first. -/
  anchors : List Anchor := []
  gap : Gap := {}
  /-- The indentation of the current line. -/
  line : Indent := {}
  started : Bool := false
  /-- Whether a line comment came last, so that a line break must follow. -/
  behindLineComment : Bool := false
  /-- Whether the last thing was a line break copied from the input. -/
  behindCopiedBreak : Bool := false
  /-- The end of the last token or comment in the input. -/
  last : Int := -1
  /-- Where the last region that was copied ends in the input. -/
  copied : Int := 0
  deriving Repr, Inhabited

namespace Writer

/-- What writing depends on. -/
structure Context where
  style : Style
  input : Bytes
  regions : Regions
  placements : Array Placement

variable (x : Context)

/-- What lines end in. -/
def separator : Bytes :=
  if x.style.separator.isEmpty then [newline] else x.style.separator

/-- Writes a piece of text. -/
def put (w : Writer) (s : Bytes) : Writer :=
  { w with pieces := s :: w.pieces, size := w.size + s.length }

/-- Notes that an offset of the input corresponds to the end of what is written. -/
def anchor (w : Writer) (input : Int) : Writer :=
  { w with anchors := ⟨input, w.size⟩ :: w.anchors }

/-- The text of an indentation. -/
def indentText (i : Indent) : Bytes :=
  x.style.indentation i.level i.align

/-- Holds back the white space that a chunk asks for. -/
def request (w : Writer) (t : Traits) (p : Placement) : Writer :=
  if p.newLine then
    let blank := max w.gap.blank t.blank
    { w with gap := { w.gap with newLine := true, indent := p.indent, blank } }
  else if t.space then { w with gap := { w.gap with space := true } }
  else w

/-- Whether the white space held back holds a line break. -/
def breaksLine (w : Writer) : Bool :=
  w.gap.newLine || w.behindLineComment

/-- The indentation of the line on which the next piece goes. -/
def nextLine (w : Writer) : Indent :=
  if w.gap.newLine then w.gap.indent else w.line

/-- The white space before the next piece. -/
def gapText (w : Writer) : Bytes :=
  if !w.started then []
  else if w.breaksLine then
    (if w.behindCopiedBreak then [] else separator x) ++
      (List.replicate w.gap.blank.toNat (separator x)).flatten ++ indentText x w.nextLine
  else if w.gap.space && !w.behindCopiedBreak then [32]
  else []

/-- Writes the white space that is held back. -/
def flush (w : Writer) : Writer :=
  { w.put (gapText x w) with
    line := w.nextLine
    gap := { indent := w.nextLine }
    started := true
    behindCopiedBreak := false }

/-- Drops the white space that is held back: only a line break that was copied remains. -/
def settle (w : Writer) : Writer :=
  { w with gap := { newLine := w.behindCopiedBreak, indent := w.line } }

/-- Copies a region of the input. -/
def copy (w : Writer) (s : VerbatimSpan) : Writer :=
  let text := x.input.slice s.start s.stop
  let w := ((w.anchor s.start).put text).anchor s.stop
  { w with
    started := true
    copied := s.stop
    behindLineComment := s.lineComment
    behindCopiedBreak := text.endsLine }.settle

/-- The lines of a comment. One that was never laid out keeps the lines of its text. -/
def commentLines (text : Bytes) (p : Placement) : List Bytes × Bool :=
  match p.rendered with
  | some r => if r.lines.isEmpty then (text.pieces newline, r.aligned) else (r.lines, r.aligned)
  | none => (text.pieces newline, false)

/-- One line of a comment behind its first, with the line break before it. -/
def commentLine (hanging : Bytes) (line : Bytes) : Bytes :=
  separator x ++ if line.isEmpty then [] else hanging ++ line

/-- The text of a comment. -/
def commentText (text : Bytes) (p : Placement) : Bytes :=
  let (lines, aligned) := commentLines text p
  let hanging := if aligned then indentText x p.hanging else []
  match lines with
  | [] => []
  | first :: rest => first ++ rest.flatMap (commentLine x hanging)

/-- Writes a token behind the white space held back. -/
def token (w : Writer) (t : Traits) (text : Bytes) : Writer :=
  if text.isEmpty then w
  else
    let w := w.flush x
    let w :=
      if 0 ≤ t.start then ((w.anchor t.start).put text).anchor t.stop else w.put text
    { w with behindLineComment := false }

/-- Writes a comment behind the white space held back. -/
def comment (w : Writer) (text : Bytes) (contents : Option Comment) (p : Placement) : Writer :=
  { (w.flush x).put (commentText x text p) with
    behindLineComment := (contents.map fun c => decide (c.style = .line)).getD false }

/-- Writes a token or a comment unless a region covers it. The chunks must be in the order of the
input. -/
def leaf (w : Writer) (t : Traits) (write : Writer → Writer) : Except Fault Writer :=
  if t.start < 0 then .ok (write w)
  else if t.start < w.last then .error (.disorder t.start w.last)
  else
    let w := { w with last := t.stop }
    if t.start < w.copied then .ok w.settle
    else
      match x.regions.at? (Int64.ofInt t.start) with
      | some s => .ok (w.copy x s)
      | none => .ok (write w)

/-- Writes one chunk of a tree; of a group or a block, only the white space before it is of
account. -/
def write (w : Writer) (c : Chunk) : Except Fault Writer :=
  let p := x.placements.getD c.traits.id {}
  let w := w.request c.traits p
  match c with
  | .token t text => w.leaf x t fun w => w.token x t text
  | .comment t text contents => w.leaf x t fun w => w.comment x text contents p
  | .group .. | .block .. => .ok w

/-- Ends the last line if the input does so. -/
def finish (w : Writer) : Output :=
  let w :=
    if w.started && !w.behindCopiedBreak && x.input.endsLine then w.put (separator x) else w
  let w := w.anchor x.input.length
  ⟨w.pieces.reverse.flatten, w.anchors.reverse⟩

end Writer

/-- Writes a tree that is laid out. -/
def Output.ofLayout (l : Layout) (file : SourceFile) (style : Style) (regions : Regions) :
    Except Fault Output :=
  let x : Writer.Context := ⟨style, file.text, regions, l.placements⟩
  (l.chunk.walk.foldlM (Writer.write x) (Writer.anchor {} 0)).map (Writer.finish x)

end CodeLayout
