import CodeLayout.Output

/-!
# Edits

A formatted text as a list of small changes to the input. Only the gaps between tokens are
compared; each gap that differs is one edit, without what its two sides share at their ends.
Offsets and lengths are words of 64 bits.
-/

namespace CodeLayout

/-- The replacement of `length` bytes at an offset by a text. -/
structure Edit where
  offset : Int64
  length : Int64
  text : Bytes
  deriving DecidableEq, Repr, Inhabited

namespace Edit

/-- The offset behind the bytes that are replaced. -/
def stop (e : Edit) : Int64 :=
  e.offset + e.length

/-- Whether an edit touches the region of `length` bytes from an offset on; a negative length is
none. -/
def touches (offset length : Int64) (e : Edit) : Bool :=
  e.offset ≤ offset + max length 0 && offset ≤ e.stop

/-- The number of bytes that two texts share at their start. -/
def shared : Bytes → Bytes → Nat
  | a :: as, b :: bs => if a = b then shared as bs + 1 else 0
  | _, _ => 0

/-- The edit at an offset that turns one text into another, if they differ. -/
def between? (offset : Nat) (old new : Bytes) : Option Edit :=
  if old = new then none
  else
    let front := shared old new
    let old := old.drop front
    let new := new.drop front
    let back := shared old.reverse new.reverse
    some {
      offset := Int64.ofNat (offset + front)
      length := Int64.ofNat (old.length - back)
      text := new.take (new.length - back) }

/-- Adds an edit to a list that is sorted by offsets, the last one first. Edits at one offset keep
their order. -/
def insertSorted (e : Edit) : List Edit → List Edit
  | [] => [e]
  | d :: ds => if e.offset - d.offset < 0 then d :: insertSorted e ds else e :: d :: ds

/-- Edits in the order of their offsets. -/
def sort (es : List Edit) : List Edit :=
  (es.foldl (fun sorted e => insertSorted e sorted) []).reverse

/-- The bytes of a text between two offsets, if they lie in the text in this order. -/
def slice? (text : Bytes) (start stop : Int64) : Except Fault Bytes :=
  if 0 ≤ start && start ≤ stop && stop ≤ Int64.ofNat text.length then
    .ok (text.slice start.toInt.toNat stop.toInt.toNat)
  else .error .missing

/-- Applies sorted edits to the part of a text behind the offset `done`. Edits that reach back
before it or run past the end of the text are left out. -/
def applySorted (text : Bytes) (done : Int64) : List Edit → Except Fault Bytes
  | [] => slice? text done (Int64.ofNat text.length)
  | e :: es =>
    if e.offset < done || Int64.ofNat text.length < e.stop then applySorted text done es
    else do
      let kept ← slice? text done e.offset
      return kept ++ e.text ++ (← applySorted text e.stop es)

/-- Applies edits to a text in the order of their offsets. -/
def apply (text : Bytes) (es : List Edit) : Except Fault Bytes :=
  applySorted text 0 (sort es)

end Edit

namespace Output

/-- The edit between two anchors, if there is one. Anchors that are out of order are skipped. -/
def editBetween? (o : Output) (input : Bytes) (a b : Anchor) : Option Edit :=
  if b.input < a.input || b.output < a.output then none
  else
    Edit.between? a.input.toNat (input.slice a.input.toNat b.input.toNat)
      (o.text.slice a.output b.output)

/-- The edits that turn the input into the written text. -/
def edits (o : Output) (input : Bytes) : List Edit :=
  (o.anchors.zip o.anchors.tail).filterMap fun (a, b) => o.editBetween? input a b

end Output

end CodeLayout
