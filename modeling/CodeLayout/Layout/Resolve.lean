import CodeLayout.Layout.Room

/-!
# The layout of a tree

A group that fits on the rest of its line stays whole; otherwise its policy chooses which of its
elements start new lines, and at what indentation. Each item of a block is laid out by itself: a
fault in one of them leaves the others alone.
-/

namespace CodeLayout

namespace Placing

variable (x : LayoutContext)

/-- Starts a line before the brace that closes a block if the block has items, or if a line break
must follow its opening. -/
def closingStartsLine (opening : Option Chunk) (items : List Chunk) : Bool :=
  !items.isEmpty ||
    match opening with
    | none => true
    | some o => o.endsHard

/-- The indentation of the items of a block. -/
def itemIndent (indented : Bool) (base : Indent) : Indent :=
  if indented then { base with level := base.level + 1 } else base

mutual

/-- Lays out what is below a chunk that starts a line, with line breaks only where a chunk demands
them. Nothing is measured. -/
def flatten (indent : Indent) : Chunk → Placing Unit
  | .token .. | .comment .. => return
  | .group _ _ _ cs => flattenElements indent none cs
  | .block _ opening closing indented items => do
    match opening with
    | none => pure ()
    | some o =>
      continueLine o
      flatten indent o
    flattenItems (itemIndent indented indent) items
    match closing with
    | none => return
    | some c =>
      setPlacement c fun q => { q with newLine := closingStartsLine opening items, indent }
      flatten indent c

/-- Lays out the elements of a group behind `previous`. -/
def flattenElements (indent : Indent) (previous : Option Chunk) : List Chunk → Placing Unit
  | [] => return
  | c :: cs => do
    let demanded := previous.filter fun b => b.endsHard || c.startsHard
    setPlacement c fun q =>
      match demanded with
      | some b => { q with newLine := true, indent := continuation x b indent }
      | none => { q with newLine := false, indent := {} }
    flatten indent c
    flattenElements indent (some c) cs

/-- Lays out the items of a block. -/
def flattenItems (indent : Indent) : List Chunk → Placing Unit
  | [] => return
  | c :: cs => do
    setPlacement c fun q => { q with newLine := true, indent }
    flatten indent c
    flattenItems indent cs

end

/-- The range of the first token or comment of a chunk that comes from the input. -/
def spanOf (c : Chunk) : Span :=
  match c.walk.find? fun d => 0 ≤ d.traits.start with
  | some d => ⟨some x.file, d.traits.start, d.traits.stop⟩
  | none => {}

/-- Places an item of a block. If that is a fault, it is recorded, and the item is laid out again
without wrapping. -/
def guarded (c : Chunk) (p : Position) (place : Placing Position) : Placing Position := do
  let depth := (← get).trials.length
  try place
  catch fault =>
    modify fun s => { s with trials := s.trials.drop (s.trials.length - depth) }
    remark (.recovered (ascii "wrapping lines") fault) (spanOf x c)
    flatten x p.line c
    return { p with fresh := false }

/-- Places an element on the current line on trial. There is no result if the first line gets too
long. -/
def attempt (c : Chunk) (p : Position) (place : Position → Placing Position) :
    Placing (Option Position) := do
  modify fun s => { s with trials := {} :: s.trials }
  let q ← stay c p
  let q ← place { q with base := q.line }
  let trial := (← get).trials.headD {}
  modify fun s => { s with trials := s.trials.tail }
  if trial.overflow then return none
  else
    modifyTrial fun t => { t with broke := t.broke || trial.broke }
    return some { q with base := p.base }

/-- How a group is split. -/
structure SplitPlan where
  policy : Policy
  /-- The indentation of wrapped lines. -/
  indent : Indent
  /-- Whether even the first element may be moved to a new line. -/
  breakFirst : Bool

/-- What becomes of an element of a group that is split. -/
inductive Choice where
  /-- A line break with an indentation. -/
  | wrap (indent : Indent)
  | keep
  /-- Kept if the first line does not get too long, else wrapped. -/
  | attempt
  deriving DecidableEq, Repr

/-- The indentation of the line that an element starts unless it is kept. -/
def Choice.indent? (plan : SplitPlan) : Choice → Option Indent
  | .wrap indent => some indent
  | .keep => none
  | .attempt => some plan.indent

/-- What becomes of the `i`-th element of a group. `broke` says that an element before it starts a
line. -/
def choose (plan : SplitPlan) (broke : Bool) (i : Nat) (previous : Option Chunk) (c : Chunk)
    (p : Position) (tail : Int) : Placing Choice := do
  if (previous.map fun b => b.endsHard || c.startsHard).getD false then return .wrap plan.indent
  else
    match plan.policy.split?, i with
    | some .onePerLine, _ => return .wrap plan.indent
    | some .nextLineShifted, _ =>
      return .wrap { plan.indent with level := plan.indent.level + i }
    | some .nextLinePerLine, 0 => return .keep
    | some .nextLinePerLine, _ => return .wrap plan.indent
    | some .compactFirstBreak, 0 => return .wrap plan.indent
    | _, _ =>
      if i = 0 && !plan.breakFirst then return .keep
      else if plan.policy.isForced && !broke then return .wrap plan.indent
      else if ← fits x c p tail then return .keep
      else if p.column ≤ columnOf x plan.indent then return .keep
      else if x.style.wrapOuter then return .wrap plan.indent
      else return .attempt

/-- Counts a step. -/
def step : Placing Unit :=
  modify fun s => { s with steps := s.steps + 1 }

mutual

/-- Places a chunk at a position behind the space before it. `tail` columns must follow the chunk on
its last line. The result is the position behind it. -/
def place (c : Chunk) (p : Position) (tail : Int) : Placing Position :=
  match c with
  | .token _ text => do
    step
    token x text p
  | .comment t text contents => do
    step
    comment x (.comment t text contents) contents p
  | .block _ opening closing indented items => do
    step
    let q ← placeOpening opening p
    let q ← placeItems items (itemIndent indented p.base) q
    placeClosing closing (closingStartsLine opening items) { q with base := p.base }
  | .group t context breakFirst children => do
    step
    let policy ← policy x context
    if policy = .none then placeSequence children p.line none p tail
    else
      let m ← measure (.group t context breakFirst children)
      if !policy.isForced && !m.hard && p.column + m.width + tail ≤ x.style.width then
        placeSequence children p.line none p tail
      else
        let plan : SplitPlan := ⟨policy, wrapIndent x context policy p, breakFirst⟩
        let q ← placeSplit children plan false 0 none p tail
        return { q with base := p.base }
termination_by structural c

/-- Places the brace that opens a block. -/
def placeOpening (opening : Option Chunk) (p : Position) : Placing Position :=
  match opening with
  | none => return p
  | some c => do
    continueLine c
    place c p 0
termination_by structural opening

/-- Places the brace that closes a block. -/
def placeClosing (closing : Option Chunk) (startsLine : Bool) (p : Position) :
    Placing Position :=
  match closing with
  | none => return p
  | some c => do
    if startsLine then
      let q ← breakTo x c p.base p
      place c q 0
    else
      continueLine c
      place c p 0
termination_by structural closing

/-- Places the items of a block, each on a line of its own. -/
def placeItems (items : List Chunk) (indent : Indent) (p : Position) : Placing Position :=
  match items with
  | [] => return p
  | c :: cs => do
    let q ← breakTo x c indent p
    let q := { q with base := indent }
    let q ← guarded x c q (place c q 0)
    placeItems cs indent q
termination_by structural items

/-- Places chunks of a sequence that started on a line indented by `start`. Lines break where a
chunk demands it, and where a chunk allows it and the next one does not fit. -/
def placeSequence (children : List Chunk) (start : Indent) (previous : Option Chunk)
    (p : Position) (tail : Int) : Placing Position :=
  match children with
  | [] => return p
  | c :: cs => do
    let p := { p with head := start }
    let behind ← Placing.tail x tail 0 cs
    let q ←
      match previous with
      | none => do
        continueLine c
        pure p
      | some b => do
        if b.endsHard || c.startsHard then breakTo x c (continuation x b start) p
        else if b.traits.breakAfter = .optional then
          if ← fits x c p behind then stay c p else breakTo x c (continuation x b start) p
        else stay c p
    let q ← place c q behind
    placeSequence cs start (some c) q tail
termination_by structural children

/-- Places the elements of a group that is split, from the `i`-th on. -/
def placeSplit (children : List Chunk) (plan : SplitPlan) (broke : Bool) (i : Nat)
    (previous : Option Chunk) (p : Position) (tail : Int) : Placing Position :=
  match children with
  | [] => return p
  | c :: cs => do
    let behind := if cs.isEmpty then tail else 0
    let choice ← choose x plan broke i previous c p behind
    let tried ←
      match choice with
      | .attempt => attempt c p fun q => place c q behind
      | _ => pure none
    match tried with
    | some q => placeSplit cs plan broke (i + 1) (some c) q tail
    | none =>
      let wrapped := (Choice.indent? plan choice).filter fun _ => !(i = 0 && p.fresh)
      let q ←
        match wrapped with
        | some indent => breakTo x c indent p
        | none => stay c p
      let q ← place c { q with base := q.line } behind
      placeSplit cs plan (broke || wrapped.isSome) (i + 1) (some c) q tail
termination_by structural children

end

/-- Places a block. Its items go one level deeper than the base, and the closing brace goes back to
the base. -/
def placeBlock (opening closing : Option Chunk) (indented : Bool) (items : List Chunk)
    (p : Position) : Placing Position := do
  let q ← placeOpening x opening p
  let q ← placeItems x items (itemIndent indented p.base) q
  placeClosing x closing (closingStartsLine opening items) { q with base := p.base }

/-- Lays out a whole tree as the items of a block. -/
def root (c : Chunk) : Placing Position := do
  continueLine c
  let start : Position := { fresh := true }
  match c with
  | .block _ opening closing indented items => placeBlock x opening closing indented items start
  | .group _ _ _ children => placeBlock x none none false children start
  | .token .. | .comment .. => return start

end Placing

/-- A tree with a place for each of its chunks. -/
structure Layout where
  chunk : Chunk
  placements : Array Placement
  deriving Repr, Inhabited

namespace Layout

/-- Where a chunk goes. -/
def placement (l : Layout) (c : Chunk) : Placement :=
  l.placements.getD c.traits.id {}

/-- The tree on one line, with the chunks marked that start a line. -/
def render (l : Layout) : Bytes :=
  l.chunk.render fun id => (l.placements.getD id {}).newLine

/-- The steps that may be spent on each chunk. -/
def stepsPerChunk : Nat := 32

/-- The steps that may be spent on a tree with a number of chunks. -/
def budget (chunks : Nat) : Nat :=
  stepsPerChunk * chunks + 1024

end Layout

/-- What laying out comes to: the layout, the position behind it, or a fault outside of all items,
and what was recorded. -/
structure LaidOut where
  layout : Layout
  position : Except Fault Position
  steps : Nat
  report : Report

/-- Lays out a tree. -/
def Layout.ofChunk (c : Chunk) (file : SourceFile) (style : Style) : LaidOut :=
  let (c, count) := c.annotate style.tabSize 0
  let x : LayoutContext := { style, file, budget := budget count }
  let (position, s) := (Placing.root x c).run { placements := Array.replicate count {} }
  { layout := ⟨c, s.placements⟩, position, steps := s.steps, report := s.recorded.reverse }

end CodeLayout
