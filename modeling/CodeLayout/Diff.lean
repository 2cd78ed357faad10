import CodeLayout.Text.Decimal

/-!
# Line differences

Two texts compared line by line. The longest run of lines that both have in common is kept, and what
comes before and behind it is compared in the same way. Lines that are very frequent in a long text
start no run. The differences are shown with a few lines around them.
-/

namespace CodeLayout.Diff

/-- A run of lines that two texts have in common: where it starts in each, and its length. -/
structure Match where
  old : Nat
  new : Nat
  size : Nat
  deriving DecidableEq, Repr, Inhabited

/-- Two texts by their lines, and where each line of the old one may start a run in the new one. -/
structure Pair where
  old : Array Bytes
  new : Array Bytes
  positions : Array (List Nat)

/-- A range of lines of both texts. -/
structure Region where
  oldStart : Nat
  oldStop : Nat
  newStart : Nat
  newStop : Nat
  deriving DecidableEq, Repr, Inhabited

/-- The number of lines from which on frequent lines are passed over. -/
def longText : Nat := 200

/-- Whether a line that occurs `count` times is frequent in a text of `total` lines. -/
def isFrequent (total count : Nat) : Bool :=
  longText ≤ total && total / 100 + 1 < count

/-- Two texts to be compared. -/
def Pair.ofLines (old new : List Bytes) : Pair where
  old := old.toArray
  new := new.toArray
  positions := (old.map fun line =>
    let at_ := (new.zipIdx.filter fun (other, _) => other == line).map (·.2)
    if isFrequent new.length at_.length then [] else at_).toArray

namespace Pair

variable (t : Pair)

/-- Whether a line of the old text is a line of the new text. -/
def agree (i j : Nat) : Bool :=
  match t.old[i]?, t.new[j]? with
  | some a, some b => a == b
  | _, _ => false

/-- The lengths of the runs that end with a line of the old text, by their ends in the new text,
given those that end with the line before. -/
def runsAt (r : Region) (before : List (Nat × Nat)) (i : Nat) : List (Nat × Nat) :=
  let inside := (t.positions.getD i []).filter fun j => r.newStart ≤ j && j < r.newStop
  inside.map fun j =>
    (j, (if j = 0 then 0 else (before.lookup (j - 1)).getD 0) + 1)

/-- The better one of the best run so far and one that ends at the given lines. -/
def better (i : Nat) (best : Match) (run : Nat × Nat) : Match :=
  if best.size < run.2 then ⟨i + 1 - run.2, run.1 + 1 - run.2, run.2⟩ else best

/-- The first one of the longest runs of a region, without frequent lines. -/
def longestRun (r : Region) : Match :=
  ((List.range' r.oldStart (r.oldStop - r.oldStart)).foldl (fun (best, before) i =>
    let runs := t.runsAt r before i
    (runs.foldl (better i) best, runs)) (⟨r.oldStart, r.newStart, 0⟩, [])).1

/-- The run that ends before line `i` of the old text and line `j` of the new one, lengthened to the
front as far as the lines agree. -/
def growFront (r : Region) : Nat → Nat → Nat → Match
  | i + 1, j + 1, size =>
    if r.oldStart ≤ i && r.newStart ≤ j && t.agree i j then growFront r i j (size + 1)
    else ⟨i + 1, j + 1, size⟩
  | i, j, size => ⟨i, j, size⟩

/-- The number of lines that agree from the given ones on, at most `n`. -/
def agreeing (i j : Nat) : Nat → Nat
  | 0 => 0
  | n + 1 => if t.agree i j then agreeing (i + 1) (j + 1) n + 1 else 0

/-- The longest run of a region, lengthened at both ends. -/
def longest (r : Region) : Match :=
  let m := t.longestRun r
  let m := t.growFront r m.old m.new m.size
  let room := min (r.oldStop - (m.old + m.size)) (r.newStop - (m.new + m.size))
  { m with size := m.size + t.agreeing (m.old + m.size) (m.new + m.size) room }

/-- The runs of a region in order, with at most `depth` of them nested. -/
def runs : Nat → Region → List Match
  | 0, _ => []
  | depth + 1, r =>
    let m := t.longest r
    if m.size = 0 then []
    else
      let before : Region := { r with oldStop := m.old, newStop := m.new }
      let behind : Region := { r with oldStart := m.old + m.size, newStart := m.new + m.size }
      (if r.oldStart < m.old && r.newStart < m.new then runs depth before else []) ++ [m] ++
        if behind.oldStart < r.oldStop && behind.newStart < r.newStop then runs depth behind else []

end Pair

/-- The runs of a list with neighbours that touch in both texts joined, behind the run `m`. -/
def joinRuns (m : Match) : List Match → List Match
  | [] => if m.size = 0 then [] else [m]
  | n :: rest =>
    if m.old + m.size = n.old && m.new + m.size = n.new then
      joinRuns { m with size := m.size + n.size } rest
    else if m.size = 0 then joinRuns n rest
    else m :: joinRuns n rest

/-- A region that is the same in both texts, or a change. -/
structure Step where
  same : Bool
  region : Region
  deriving DecidableEq, Repr, Inhabited

/-- The regions between the runs and the runs themselves, from the given lines on. -/
def stepsFrom (i j : Nat) : List Match → List Step
  | [] => []
  | m :: rest =>
    (if i < m.old || j < m.new then [⟨false, ⟨i, m.old, j, m.new⟩⟩] else []) ++
      (if 0 < m.size then [⟨true, ⟨m.old, m.old + m.size, m.new, m.new + m.size⟩⟩] else []) ++
      stepsFrom (m.old + m.size) (m.new + m.size) rest

/-- All regions of two texts. -/
def steps (t : Pair) : List Step :=
  let whole : Region := ⟨0, t.old.size, 0, t.new.size⟩
  let runs := joinRuns ⟨0, 0, 0⟩ (t.runs (t.old.size + 1) whole)
  stepsFrom 0 0 (runs ++ [⟨t.old.size, t.new.size, 0⟩])

/-- The number of lines shown around a change. -/
def context : Nat := 3

/-- The last lines of a region that are shown before a change. -/
def lead (r : Region) : Region :=
  { r with
    oldStart := max r.oldStart (r.oldStop - context)
    newStart := max r.newStart (r.newStop - context) }

/-- The first lines of a region that are shown behind a change. -/
def trail (r : Region) : Region :=
  { r with
    oldStop := min r.oldStop (r.oldStart + context)
    newStop := min r.newStop (r.newStart + context) }

/-- Cuts the region that is the same at the start of the texts. -/
def trimFirst : List Step → List Step
  | s :: rest => (if s.same then { s with region := lead s.region } else s) :: rest
  | [] => []

/-- Cuts the region that is the same at the end of the texts. -/
def trimLast : List Step → List Step
  | [] => []
  | [s] => [if s.same then { s with region := trail s.region } else s]
  | s :: t :: rest => s :: trimLast (t :: rest)

/-- Groups of regions, split where many lines are the same. `group` holds the group at hand in
reverse. -/
def groupsFrom (group : List Step) : List Step → List (List Step)
  | [] => if group.all (·.same) && group.length ≤ 1 then [] else [group.reverse]
  | s :: rest =>
    if s.same && 2 * context < s.region.oldStop - s.region.oldStart then
      ({ s with region := trail s.region } :: group).reverse ::
        groupsFrom [{ s with region := lead s.region }] rest
    else groupsFrom (s :: group) rest

/-- A range of lines as shown: the first line, counted from one, and the number of lines. -/
def rangeText (start stop : Nat) : Bytes :=
  if stop - start = 1 then natDigits (start + 1)
  else
    natDigits (if stop - start = 0 then start else start + 1) ++ ascii "," ++
      natDigits (stop - start)

/-- Lines behind a mark. -/
def marked (mark : String) (lines : Array Bytes) (start stop : Nat) : List Bytes :=
  (lines.extract start stop).toList.map fun l => ascii mark ++ l

/-- The lines of a region as shown. -/
def stepLines (t : Pair) (s : Step) : List Bytes :=
  let r := s.region
  if s.same then marked " " t.old r.oldStart r.oldStop
  else marked "-" t.old r.oldStart r.oldStop ++ marked "+" t.new r.newStart r.newStop

/-- The lines of a group as shown, behind its heading. -/
def groupLines (t : Pair) (group : List Step) : List Bytes :=
  let first := (group.headD default).region
  let last := (group.getLastD default).region
  (ascii "@@ -" ++ rangeText first.oldStart last.oldStop ++ ascii " +" ++
      rangeText first.newStart last.newStop ++ ascii " @@\n") ::
    group.flatMap (stepLines t)

/-- The lines of a text, each with a line break at its end, also the last one. -/
def linesOf (text : Bytes) : List Bytes :=
  (text.pieces newline).map (· ++ [newline])

/-- The difference of two texts under the given names, as lines. -/
def unified (oldName newName old new : Bytes) : List Bytes :=
  let t := Pair.ofLines (linesOf old) (linesOf new)
  match groupsFrom [] (trimLast (trimFirst (steps t))) with
  | [] => []
  | groups =>
    [ascii "--- " ++ oldName ++ [newline], ascii "+++ " ++ newName ++ [newline]] ++
      groups.flatMap (groupLines t)

end CodeLayout.Diff
