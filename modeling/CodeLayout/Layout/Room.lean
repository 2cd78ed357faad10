import CodeLayout.Layout.Basic

/-!
# Room on a line

Whether a chunk fits on the rest of a line. What must follow the chunk on the same line takes part
in this.
-/

namespace CodeLayout.Placing

variable (x : LayoutContext)

/-- Keeps the measure of a chunk as far as it got. -/
def keepMeasure (c : Chunk) (m : Measure) : Placing Unit :=
  modify fun s => { s with interrupted := (c.traits.id, m) :: s.interrupted }

mutual

/-- The measure of a chunk with a comment without contents in the way. It is a fault the first time;
from then on it is as far as it got. -/
def measureInterrupted : Chunk → Placing Measure
  | .token t s => return (Chunk.token t s).traits.measure.getD {}
  | .comment t s contents => do
    match contents, (← get).interrupted.lookup t.id with
    | none, none =>
      keepMeasure (.comment t s contents) {}
      throw .missing
    | _, m => return m.getD {}
  | .group t context breakFirst cs => do
    match (← get).interrupted.lookup t.id with
    | some m => return m
    | none =>
      let c : Chunk := .group t context breakFirst cs
      keepMeasure c {}
      measureElements c true 0 cs
  | .block t opening closing indented items => do
    match (← get).interrupted.lookup t.id with
    | some m => return m
    | none =>
      let c : Chunk := .block t opening closing indented items
      keepMeasure c {}
      match opening with
      | none => return ⟨0, true⟩
      | some o =>
        let m ← measureInterrupted o
        let hard := !items.isEmpty || closing.isNone || o.endsHard
        keepMeasure c ⟨m.width, hard⟩
        match closing with
        | none => return ⟨m.width, hard⟩
        | some close =>
          if hard then return ⟨m.width, hard⟩
          else
            let n ← measureInterrupted close
            let whole : Measure := ⟨m.width + n.width, false⟩
            keepMeasure c whole
            return whole

/-- Measures the elements of a group of which `width` columns are taken. -/
def measureElements (c : Chunk) (isFirst : Bool) (width : Int) : List Chunk → Placing Measure
  | [] => return ⟨width, false⟩
  | e :: es => do
    let m ←
      match e.traits.measure with
      | some m => pure m
      | none => measureInterrupted e
    if !isFirst && e.startsHard then
      keepMeasure c ⟨width, true⟩
      return ⟨width, true⟩
    else
      let gap : Int := if !isFirst && 0 < m.width && e.isSpaced then 1 else 0
      let width := width + gap + m.width
      let hard := m.hard || (!es.isEmpty && e.endsHard)
      keepMeasure c ⟨width, hard⟩
      if hard then return ⟨width, true⟩ else measureElements c false width es

end

/-- The measure of a chunk. -/
def measure (c : Chunk) : Placing Measure :=
  match c.traits.measure with
  | some m => return m
  | none => measureInterrupted c

mutual

/-- The width of the part of a chunk that must stay on the line where the chunk starts, without the
space before it, and whether a break may follow that part. -/
def lead : Chunk → Placing (Int × Bool)
  | .token t s => do
    let (width, more) := Width.firstLine 0 x.style.tabSize s
    return (width, more || (Chunk.token t s).endsHard)
  | .comment .. => return (0, true)
  | .block _ opening _ _ _ =>
    match opening with
    | none => return (0, true)
    | some o => return ((← measure o).width, true)
  | .group t context breakFirst cs => do
    let (width, stops) ← leadElements context true 0 cs
    return (width, stops || (Chunk.group t context breakFirst cs).endsHard)

/-- The leading part of the elements of a group of which `width` columns are taken. -/
def leadElements (context : WrapContext) (isFirst : Bool) (width : Int) :
    List Chunk → Placing (Int × Bool)
  | [] => return (width, false)
  | e :: es => do
    if !isFirst && e.startsHard then return (width, true)
    else
      let width := if !isFirst && e.isSpaced then width + 1 else width
      let (own, stops) ← lead e
      let width := width + own
      if stops || e.endsHard then return (width, true)
      else if isFirst && (← policy x context) != .none then return (width, true)
      else leadElements context false width es

end

/-- The width that must follow on the same line, given the chunks that come next in a sequence and
the width that must follow the sequence. -/
def tail (parent width : Int) : List Chunk → Placing Int
  | [] => return width + parent
  | c :: cs => do
    if c.startsHard then return width
    else
      let (own, stops) ← lead x c
      let width := width + own + if 0 < own && c.isSpaced then 1 else 0
      if stops then return width else tail parent width cs

/-- Whether a chunk fits at a position, with `tail` columns behind it. Of a chunk that must contain
a line break only the first line counts. -/
def fits (c : Chunk) (p : Position) (tail : Int) : Placing Bool := do
  let m ← measure c
  let column := if !p.fresh && 0 < m.width && c.isSpaced then p.column + 1 else p.column
  return column + m.width + (if m.hard then 0 else tail) ≤ x.style.width

end CodeLayout.Placing
