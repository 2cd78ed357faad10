import CodeLayout.Text.Grapheme.Class

/-!
# Display width

How many columns a text takes once it is written out. A text is split into grapheme clusters, and
each cluster has a width; tabs go on to the next tab stop.

A column is kept in a word of 64 bits, and one that does not fit wraps around. With the tab sizes of
a normalized style, and with a text that fits in memory, it always fits. So columns are also
computed as they are, and agree with those in words as long as they fit.
-/

namespace CodeLayout

namespace Grapheme

/-- What has been read of the current cluster, as far as it decides where the cluster ends. -/
inductive State where
  | start
  | cr
  | control
  | prepend
  | hangulL
  | hangulV
  | hangulT
  | pictograph
  | pictographJoined
  | regionalOdd
  | regionalEven
  deriving DecidableEq, Repr, Inhabited

/-- The state after a character of the given class begins a cluster. -/
def Class.opens : Class → State
  | .cr => .cr
  | .lf | .control => .control
  | .prepend => .prepend
  | .hangulL => .hangulL
  | .hangulV | .hangulLV => .hangulV
  | .hangulT | .hangulLVT => .hangulT
  | .pictograph => .pictograph
  | .regional => .regionalOdd
  | .extend | .joiner | .spacingMark | .other => .start

/-- Whether a character of the given class begins a cluster behind a state in which no pair of
neighbours is kept together. -/
def State.breaksBefore : State → Class → Bool
  | .cr, _ | .control, _ => true
  | _, .extend | _, .joiner | _, .spacingMark => false
  | .prepend, _ => false
  | _, _ => true

/-- Reads one character: the new state, and whether a cluster ends before the character. -/
def State.step : State → Class → State × Bool
  | .cr, .lf => (.control, false)
  | _, .cr => (.cr, true)
  | _, .lf | _, .control => (.control, true)
  | .hangulL, .hangulL => (.hangulL, false)
  | .hangulL, .hangulV | .hangulL, .hangulLV => (.hangulV, false)
  | .hangulL, .hangulLVT => (.hangulT, false)
  | .hangulV, .hangulV => (.hangulV, false)
  | .hangulV, .hangulT | .hangulT, .hangulT => (.hangulT, false)
  | .pictograph, .extend => (.pictograph, false)
  | .pictograph, .joiner => (.pictographJoined, false)
  | .pictographJoined, .pictograph => (.pictograph, false)
  | .regionalOdd, .regional => (.regionalEven, false)
  | .regionalEven, .regional => (.regionalOdd, true)
  | s, c => (c.opens, s.breaksBefore c)

/-- The columns that a single character takes. -/
def charWidth (code : Nat) : Class → Nat
  | .control | .cr | .lf | .extend | .joiner => 0
  | .regional => 2
  | .pictograph => if inRanges emojiRanges code then 2 else 1
  | _ =>
    if code < 0x80 then 1
    else if code = 0x2E3A then 3
    else if code = 0x2E3B then 4
    else if inRanges wideRanges code then 2
    else 1

/-- The width of a cluster that begins with a character of class `lead` and has the width `w` so
far, after one more character. A variation selector decides how a pictograph is shown. -/
def grow (lead : Class) (w code : Nat) (c : Class) : Nat :=
  match lead with
  | .pictograph => if code = 0xFE0E then 1 else if code = 0xFE0F then 2 else w
  | .regional | .hangulL => w
  | _ => w + charWidth code c

/-- The width of a text whose current cluster begins with a character of class `lead` and has the
width `w` so far. -/
def widthFrom (s : State) (lead : Class) (w : Nat) : List Character → Nat
  | [] => w
  | r :: rest =>
    let c := classOf r.code
    let (s', breaks) := s.step c
    if breaks then w + widthFrom s' c (charWidth r.code c) rest
    else widthFrom s' lead (grow lead w r.code c) rest

end Grapheme

namespace Width

/-- The width of a text in which no tab or line break has a meaning. -/
def text (s : Bytes) : Nat :=
  match s.characters with
  | [] => 0
  | r :: rest =>
    let c := Grapheme.classOf r.code
    Grapheme.widthFrom c.opens c (Grapheme.charWidth r.code c) rest

/-- The distance between tab stops: a tab always moves by at least one column. -/
def tabstop (size : Int) : Int :=
  max size 1

/-- A number as a word of 64 bits holds it, in two's complement. -/
def word (n : Int) : Int :=
  (Int64.ofInt n).toInt

/-- The first tab stop behind a column. -/
def nextStop (stop column : Int) : Int :=
  column + (stop - Int.tmod column stop)

section Advance

-- How a column is kept: as it is, or in a word.
variable (keep : Int → Int)

/-- The column behind the pieces of a line, with a tab between each piece and the next. A carriage
return at the end of the line takes no room. -/
def advancePieces (stop column : Int) : List Bytes → Int
  | [] => column
  | [last] => keep (column + text (Bytes.dropEnding [13] last))
  | piece :: rest =>
    advancePieces stop (keep (nextStop stop (keep (column + text piece)))) rest

/-- The column reached by writing a text from a column on. A line break in the text starts again
at zero. -/
def advanceBy (column size : Int) (s : Bytes) : Int :=
  let column := if s.contains newline then 0 else column
  advancePieces keep (tabstop size) column (s.lastLine.pieces 9)

/-- The width of the first line of a text written at a column, and whether it has more lines. -/
def firstLineBy (column size : Int) (s : Bytes) : Int × Bool :=
  match s.cut? newline with
  | some (line, _) => (keep (advanceBy keep column size line - column), true)
  | none => (keep (advanceBy keep column size s - column), false)

end Advance

/-- The column reached by writing a text from a column on. -/
def advance (column size : Int) (s : Bytes) : Int :=
  advanceBy id column size s

/-- The column reached by writing a text from a column on, in words. -/
def advanceWord (column size : Int) (s : Bytes) : Int :=
  advanceBy word column size s

/-- The width of the first line of a text written at a column, and whether it has more lines. -/
def firstLine (column size : Int) (s : Bytes) : Int × Bool :=
  firstLineBy id column size s

end Width

end CodeLayout
