import CodeLayout.Text.Decimal
import CodeLayout.Text.Width

/-!
# Source files, locations and spans

A file is a named text. An offset into it is shown as a line and a column, both counted from one,
which are found through the index of line starts.
-/

namespace CodeLayout

/-- A named text. -/
structure SourceFile where
  path : Bytes
  text : Bytes
  deriving DecidableEq, Repr, Inhabited

/-- A place in a file: an offset with its line and its column in bytes, both from one. -/
structure Location where
  offset : Nat
  line : Nat
  column : Nat
  deriving DecidableEq, Repr, Inhabited

namespace SourceFile

/-- The offsets behind the line breaks of a text that itself begins at `offset`. -/
def startsFrom (offset : Nat) : Bytes → List Nat
  | [] => []
  | b :: rest =>
    if b = newline then (offset + 1) :: startsFrom (offset + 1) rest
    else startsFrom (offset + 1) rest

/-- The offsets at which the lines of a file start, in increasing order. -/
def lineStarts (f : SourceFile) : List Nat :=
  0 :: startsFrom 0 f.text

/-- An offset moved to the nearest one that lies in the file. -/
def clamp (f : SourceFile) (offset : Int) : Nat :=
  min offset.toNat f.text.length

/-- Where a number is or would be among increasing numbers, and whether it is one of them. -/
def search (ns : List Nat) (n : Nat) : Nat × Bool :=
  let place := (ns.takeWhile (· < n)).length
  (place, ns[place]? = some n)

/-- The line of an offset, counted from zero: the one that starts there, or the one before the line
that starts next. -/
def lineIndex (f : SourceFile) (offset : Nat) : Nat :=
  let (line, exact) := search f.lineStarts offset
  if exact then line else line - 1

/-- Where the line of an offset starts. -/
def lineStart (f : SourceFile) (offset : Nat) : Nat :=
  f.lineStarts.getD (f.lineIndex offset) 0

/-- The place of an offset, moved into the file. -/
def location (f : SourceFile) (offset : Int) : Location :=
  let o := f.clamp offset
  ⟨o, f.lineIndex o + 1, o - f.lineStart o + 1⟩

/-- The display column of an offset, counted from zero, with the given distance of tab stops. -/
def displayColumn (f : SourceFile) (offset tabSize : Int) : Int :=
  let o := f.clamp offset
  Width.advanceWord 0 tabSize (f.text.slice (f.lineStart o) o)

/-- The bytes between two offsets, if they lie in the file in this order. -/
def slice? (f : SourceFile) (start stop : Int) : Option Bytes :=
  if 0 ≤ start ∧ start ≤ stop ∧ stop ≤ f.text.length then
    some (f.text.slice start.toNat stop.toNat)
  else none

/-- The number of line breaks between two offsets; none if they are not in this order. -/
def newlinesBetween? (f : SourceFile) (start stop : Int) : Option Nat :=
  if stop ≤ start then some 0 else (f.slice? start stop).map Bytes.newlines

end SourceFile

/-- The place shown where there is no file. -/
def Location.origin : Location := ⟨0, 1, 1⟩

/-- The bytes from `start` up to `stop` of a file, or of no file at all. -/
structure Span where
  file : Option SourceFile := none
  start : Int := 0
  stop : Int := 0
  deriving DecidableEq, Repr, Inhabited

namespace Span

/-- Whether the span belongs to no file. -/
def isNone (s : Span) : Bool :=
  s.file.isNone

/-- The text of a span; a span of no file has the empty text. -/
def text? (s : Span) : Option Bytes :=
  match s.file with
  | none => some []
  | some f => f.slice? s.start s.stop

/-- The length of a span in bytes. -/
def length (s : Span) : Int :=
  s.stop - s.start

/-- The line breaks of a span. -/
def newlines? (s : Span) : Option Nat :=
  match s.file with
  | none => some 0
  | some f => f.newlinesBetween? s.start s.stop

/-- The start of a span as shown in messages: path, line and column. -/
def render (s : Span) : Bytes :=
  match s.file with
  | none => ascii "<none>"
  | some f =>
    let l := f.location s.start
    f.path ++ ascii ":" ++ natDigits l.line ++ ascii ":" ++ natDigits l.column

end Span

end CodeLayout
