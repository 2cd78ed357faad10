import CodeLayout.Comment.Basic
import CodeLayout.Text.LowerCase
import CodeLayout.Text.Width

/-!
# Paragraphs of a block comment

The body of a block comment is read line by line into paragraphs, the units that are reflowed. In
doc comments, list markup nests paragraphs, block tags such as `@param` start new ones, and
preformatted sections are kept line by line.
-/

namespace CodeLayout

/-- A unit of text inside a block comment. -/
structure Paragraph where
  words : List Bytes := []
  /-- Columns of indentation for every line. -/
  indent : Nat := 0
  /-- Further columns for the lines after the first. -/
  hang : Nat := 0
  /-- Whether an empty line comes first. -/
  blank : Bool := false
  /-- Lines that are copied as they are. -/
  pre : List Bytes := []
  deriving DecidableEq, Repr, Inhabited

namespace Paragraph

/-- The difference between the opening and the closing braces of a word. -/
def braceDepth (w : Bytes) : Int :=
  (w.count 123 : Int) - w.count 125

/-- Whether a word starts an inline tag. -/
def opensInline (w : Bytes) : Bool :=
  Bytes.has (ascii "\x7b@") w

/-- Joins the words of each inline tag into one. The tag that is still open, if any, comes with the
number of its open braces. -/
def joinInline : Option (Bytes × Int) → List Bytes → List Bytes
  | none, [] => []
  | some (w, _), [] => [w]
  | none, f :: fs =>
    if opensInline f && 0 < braceDepth f then joinInline (some (f, braceDepth f)) fs
    else f :: joinInline none fs
  | some (w, depth), f :: fs =>
    let w := w ++ ascii " " ++ f
    let depth := depth + braceDepth f
    if 0 < depth then joinInline (some (w, depth)) fs else w :: joinInline none fs

/-- The words of a line, with each inline tag as one word. -/
def atoms (line : Bytes) : List Bytes :=
  joinInline none line.words

/-- Whether a text starts with a tag, in any case. -/
def hasTag (s : Bytes) (tag : String) : Bool :=
  tag.length ≤ s.length && Bytes.lower (s.take tag.length) == ascii tag

/-- The length of the list tag that a text starts with. -/
def listTag? (s : Bytes) : Option Nat :=
  (["<ul>", "<ol>", "</ul>", "</ol>"].find? (hasTag s)).map String.length

/-- A piece that was read in reverse, unless it is empty. -/
def piece (cur : Bytes) : List Bytes :=
  if cur.isEmpty then [] else [cur.reverse]

/-- Splits a word around list tags and before tags of items and paragraphs. `cur` holds, in
reverse, the piece read so far, and `left` how many bytes of a list tag are still to come. -/
def splitMarkupFrom : Nat → Bytes → Bytes → List Bytes
  | _, cur, [] => piece cur
  | left + 1, cur, b :: rest =>
    if left = 0 then piece (b :: cur) ++ splitMarkupFrom 0 [] rest
    else splitMarkupFrom left (b :: cur) rest
  | 0, cur, b :: rest =>
    if b = 60 then
      match listTag? (b :: rest) with
      | some n => piece cur ++ splitMarkupFrom (n - 1) [b] rest
      | none =>
        if hasTag (b :: rest) "<li>" || hasTag (b :: rest) "<p>" then
          piece cur ++ splitMarkupFrom 0 [b] rest
        else splitMarkupFrom 0 (b :: cur) rest
    else splitMarkupFrom 0 (b :: cur) rest

/-- The pieces of a word between which a line is broken anyway. Inline tags stay whole. -/
def splitMarkup (w : Bytes) : List Bytes :=
  if opensInline w || !w.contains 60 then [w] else splitMarkupFrom 0 [] w

/-- How a body is read. -/
structure Mode where
  join : Bool
  hangTags : Bool
  doc : Bool

/-- What has been read of a body: finished paragraphs, the latest first, and the one at hand. -/
structure Reading where
  done : List Paragraph := []
  current : Option Paragraph := none
  /-- How deep lists are nested. -/
  depth : Nat := 0
  /-- Whether an empty line came last. -/
  blank : Bool := false
  /-- Whether a preformatted section is open. -/
  inPre : Bool := false

namespace Reading

/-- Finishes the paragraph at hand. -/
def flush (r : Reading) : Reading :=
  match r.current with
  | some p => { r with done := p :: r.done, current := none }
  | none => r

/-- A new paragraph at the depth of the lists around it. -/
def fresh (r : Reading) : Paragraph :=
  { indent := 2 * r.depth, blank := r.blank }

/-- Starts a paragraph. -/
def start (r : Reading) (p : Paragraph) : Reading :=
  { r with current := some p, blank := false }

/-- Adds a word to the paragraph at hand, or to a new one. Lines after a tag hang under its
description. -/
def word (m : Mode) (r : Reading) (w : Bytes) : Reading :=
  match r.current with
  | some p => { r with current := some { p with words := p.words ++ [w] } }
  | none =>
    let hang := if m.doc && m.hangTags && w.head? = some 64 then Width.text w + 1 else 0
    r.start { r.fresh with words := [w], hang }

/-- A list tag is a paragraph of its own. -/
def tagLine (r : Reading) (tag : Bytes) : Reading :=
  (r.start { r.fresh with words := [tag] }).flush

/-- Adds one piece of markup. A list nests what comes behind its tag; surplus closing tags are of
no account. -/
def markup (m : Mode) (r : Reading) (w : Bytes) : Reading :=
  let tag := w.lower
  if tag == ascii "<ul>" || tag == ascii "<ol>" then
    let r := r.flush.tagLine w
    { r with depth := r.depth + 1 }
  else if tag == ascii "</ul>" || tag == ascii "</ol>" then
    let r := r.flush
    { r with depth := r.depth - 1 }.tagLine w
  else if hasTag w "<li>" || hasTag w "<p>" then r.flush.word m w
  else r.word m w

/-- Adds the words of a line. -/
def words (m : Mode) (r : Reading) (line : Bytes) : Reading :=
  if m.doc && m.join then ((atoms line).flatMap splitMarkup).foldl (markup m) r
  else (atoms line).foldl (word m) r

/-- Adds a line to a preformatted section. -/
def preLine (r : Reading) (line : Bytes) : Reading :=
  let r := { r with current := r.current.map fun p => { p with pre := p.pre ++ [line] } }
  if Bytes.has (ascii "</pre>") line.trim then { r with inPre := false }.flush else r

/-- Opens a preformatted section. -/
def openPre (r : Reading) (line : Bytes) : Reading :=
  let r := r.flush
  let r := r.start { r.fresh with pre := [line] }
  if Bytes.has (ascii "</pre>") line.trim then r.flush else { r with inPre := true }

/-- Adds a line as a paragraph of its own that keeps its indentation. -/
def keptLine (m : Mode) (r : Reading) (line : Bytes) : Reading :=
  let r := r.flush
  let indent := (line.takeWhile (· = 32)).length
  ((r.start { r.fresh with indent }).words m line.trim).flush

/-- Reads one line. -/
def line (m : Mode) (r : Reading) (l : Bytes) : Reading :=
  let text := l.trim
  if r.inPre then r.preLine l
  else if text.isEmpty then
    let r := r.flush
    { r with blank := !r.done.isEmpty }
  else if m.doc && (ascii "<pre>").isPrefixOf text.lower then r.openPre l
  else if !m.join then r.keptLine m l
  else if m.doc && text.head? = some 64 then r.flush.words m text
  else r.words m text

end Reading

/-- A line of a body without its lead: a star with the white space before it and one space behind
it. On the first line only one space. -/
def bareLine (isFirst : Bool) (l : Bytes) : Bytes :=
  let l := Comment.trimLine l
  if isFirst then Bytes.dropLead [32] l
  else
    match l.trimLeft (fun b => b = 32 || b = 9) with
    | 42 :: rest => Bytes.dropLead [32] rest
    | l => l

/-- The lines of a body without their leads. -/
def bareLines (body : Bytes) : List Bytes :=
  match body.pieces newline with
  | [] => []
  | first :: rest => bareLine true first :: rest.map (bareLine false)

/-- The paragraphs of the body of a comment. -/
def ofBody (m : Mode) (body : Bytes) : List Paragraph :=
  ((bareLines body).foldl (Reading.line m) {}).flush.done.reverse

end Paragraph

end CodeLayout
