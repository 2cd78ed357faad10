import CodeLayout.Chunk.Basic
import CodeLayout.Comment.Reflow
import CodeLayout.Report
import CodeLayout.Style.Basic

/-!
# Placing chunks

Laying out goes over the chunks once, from left to right, and keeps track of the column. It records
for each chunk whether it starts a line and how that line is indented. Elements may be placed on
trial; a number of steps bounds the work.
-/

namespace CodeLayout

/-- Where a chunk goes. -/
structure Placement where
  /-- Whether the chunk starts a line. -/
  newLine : Bool := false
  /-- The indentation of the line that the chunk starts. -/
  indent : Indent := {}
  /-- The lines of a comment. -/
  rendered : Option Rendered := none
  /-- The indentation of the lines of a comment behind its first. -/
  hanging : Indent := {}
  deriving DecidableEq, Repr, Inhabited

/-- What is known of the output at some point. -/
structure Position where
  column : Int := 0
  /-- The indentation of the current line. -/
  line : Indent := {}
  /-- The indentation that bodies are nested under. -/
  base : Indent := {}
  /-- The indentation of the line that the innermost sequence started on. -/
  head : Indent := {}
  /-- Whether nothing is on the current line yet. -/
  fresh : Bool := false
  deriving DecidableEq, Repr, Inhabited

/-- What happens to the first line of a placement on trial. -/
structure Trial where
  /-- Whether the line has ended. -/
  broke : Bool := false
  /-- Whether it got too long before. -/
  overflow : Bool := false
  deriving DecidableEq, Repr, Inhabited

/-- What laying out depends on. -/
structure LayoutContext where
  style : Style
  file : SourceFile
  /-- The number of steps behind which no optional break is taken any more. -/
  budget : Nat

/-- What laying out has come to. -/
structure LayoutState where
  /-- The placements of all chunks by their numbers. -/
  placements : Array Placement
  /-- The number of chunks placed so far, each time counted that they were placed. -/
  steps : Nat := 0
  /-- Whether the end of the budget has been recorded. -/
  exhausted : Bool := false
  /-- The trials under way, the innermost first. -/
  trials : List Trial := []
  /-- The measures that a comment without contents cut short, as far as they got. -/
  interrupted : List (Nat × Measure) := []
  /-- What was recorded, the latest first. -/
  recorded : List Diagnostic := []
  deriving Inhabited

/-- A step of laying out. What was recorded before a fault is kept. -/
abbrev Placing := ExceptT Fault (StateM LayoutState)

namespace Placing

variable (x : LayoutContext)

/-- Changes the placement of a chunk. -/
def setPlacement (c : Chunk) (f : Placement → Placement) : Placing Unit :=
  modify fun s => { s with placements := s.placements.modify c.traits.id f }

/-- Changes the innermost trial. -/
def modifyTrial (f : Trial → Trial) : Placing Unit :=
  modify fun s =>
    match s.trials with
    | t :: ts => { s with trials := f t :: ts }
    | [] => s

/-- Records a remark. -/
def remark (problem : Problem) (span : Span) : Placing Unit :=
  modify fun s => { s with recorded := { level := .remark, problem, span } :: s.recorded }

/-- The column at which a line with an indentation starts. -/
def columnOf (indent : Indent) : Int :=
  x.style.levelColumns indent.level + indent.align

/-- The indentation that puts a line at the column of a position. -/
def alignedAt (p : Position) : Indent :=
  ⟨p.line.level, max (p.column - x.style.levelColumns p.line.level) 0⟩

/-- The policy for a context. Once the budget is spent, which is recorded the first time, no group
takes optional breaks any more. -/
def policy (context : WrapContext) : Placing Policy := do
  let s ← get
  if x.budget < s.steps then
    if !s.exhausted then
      set { s with exhausted := true }
      remark (.gaveUp s.steps) {}
    return .none
  else return x.style.policy context

/-- Starts a line before a chunk. -/
def breakTo (c : Chunk) (indent : Indent) (p : Position) : Placing Position := do
  modifyTrial fun t => { t with broke := true }
  setPlacement c fun q => { q with newLine := true, indent }
  return { p with column := columnOf x indent, line := indent, fresh := true }

/-- Marks a chunk as not starting a line. -/
def continueLine (c : Chunk) : Placing Unit :=
  setPlacement c fun q => { q with newLine := false }

/-- Keeps a chunk on the current line, behind its space. -/
def stay (c : Chunk) (p : Position) : Placing Position := do
  setPlacement c fun q => { q with newLine := false, indent := {} }
  return if !p.fresh && c.isSpaced then { p with column := p.column + 1 } else p

/-- The indentation of a line that starts behind `previous` in a sequence on a line indented by
`start`. -/
def continuation (previous : Chunk) (start : Indent) : Indent :=
  if previous.settles then start
  else { start with level := start.level + x.style.continuation }

/-- The indentation of the lines that the elements of a group at a position are wrapped onto. The
clauses of a declaration go by the line on which the declaration starts. -/
def wrapIndent (context : WrapContext) (policy : Policy) (p : Position) : Indent :=
  let start :=
    match context with
    | .superclass | .superinterfaces | .throwsClause => p.head
    | _ => p.line
  match policy.indent with
  | .onColumn => alignedAt x p
  | .byOne => { start with level := start.level + 1 }
  | .continuation => { start with level := start.level + x.style.continuation }

/-- Places a token. -/
def token (text : Bytes) (p : Position) : Placing Position := do
  if text.isEmpty then return p
  else
    let width := (Width.firstLine p.column x.style.tabSize text).1
    modifyTrial fun t =>
      if !t.broke && x.style.width < p.column + width then { t with overflow := true } else t
    return { p with column := Width.advance p.column x.style.tabSize text, fresh := false }

/-- The column behind the lines of a comment that is placed at a column. -/
def columnBehind (column : Int) (r : Rendered) : Option Int :=
  match r.lines with
  | [] => none
  | [line] => some (Width.advance column x.style.tabSize line)
  | lines =>
    some (Width.advance (if r.aligned then column else 0) x.style.tabSize (lines.getLastD []))

/-- Lays out a comment. -/
def comment (c : Chunk) (contents : Option Comment) (p : Position) : Placing Position := do
  match contents with
  | none => throw .missing
  | some comment =>
    let r := comment.render p.column x.style.commentWidth
    setPlacement c fun q => { q with rendered := some r, hanging := alignedAt x p }
    match columnBehind x p.column r with
    | none => return p
    | some column => return { p with column, fresh := false }

end Placing

end CodeLayout
