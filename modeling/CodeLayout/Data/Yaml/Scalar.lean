import CodeLayout.Data.Yaml.Cell

/-!
# Scalars of a YAML text

Reading plain, quoted and block scalars. A line break inside of a plain or a quoted scalar is
folded: a single one is a space, and of several all but the first are kept.
-/

namespace CodeLayout.Yaml

/-- White space since the last character of a scalar. -/
structure Fold where
  /-- Spaces and tabs before the first line break, the last one first. -/
  blanks : List Nat := []
  /-- Whether a line has ended. -/
  broken : Bool := false
  /-- The first line break; an escaped one leaves nothing. -/
  first : Option Nat := none
  /-- Further line breaks, the last one first. -/
  more : List Nat := []
  deriving Repr, Inhabited

namespace Fold

/-- Adds a space or a tab; behind a line break it is indentation. -/
def blank (g : Fold) (c : Nat) : Fold :=
  if g.broken then g else { g with blanks := c :: g.blanks }

/-- Adds a line break. -/
def lineBreak (g : Fold) (c : Nat) : Fold :=
  if g.broken then { g with more := c :: g.more } else { broken := true, first := some c }

/-- What is left of the white space, the last character first. -/
def codes (g : Fold) : List Nat :=
  if !g.broken then g.blanks
  else if g.first = some 10 then (if g.more.isEmpty then [32] else g.more)
  else g.more ++ g.first.toList

end Fold

/-- A scalar that was read: its codes, and the characters behind it. -/
structure Scanned where
  codes : List Nat
  rest : Cells
  /-- Whether the scalar was followed by a line break. -/
  broken : Bool := false
  deriving Repr, Inhabited

/-- Whether a character ends a plain scalar. -/
def endsPlain (flow : Bool) (c next : Nat) : Bool :=
  (c = code ':' && isGap next) ||
    (flow && [code ',', code '?', code '[', code ']', code '\x7b', code '\x7d'].contains c)

/-- Reads the rest of a plain scalar. `done` holds what is read, the last code first. In a block its
lines must be indented by `indent` columns at least. -/
def plainFrom (indent : Int) (flow : Bool) (done : List Nat) (g : Fold) (behindGap : Bool) :
    Cells → Option Scanned
  | [] => some ⟨done.reverse, [], g.broken⟩
  | c :: cs =>
    let stop : Option Scanned := some ⟨done.reverse, c :: cs, g.broken⟩
    if isBlank c.code then
      if g.broken && (c.column : Int) < indent && c.code = 9 then none
      else plainFrom indent flow done (g.blank c.code) true cs
    else if isBreak c.code then plainFrom indent flow done (g.lineBreak c.code) true cs
    else if c.code = 0 then stop
    else if behindGap &&
        ((!flow && (c.column : Int) < indent) || Cells.isMarker (c :: cs) '-' ||
          Cells.isMarker (c :: cs) '.' || c.code = code '#') then stop
    else if endsPlain flow c.code (Cells.codeAt cs 0) then stop
    else plainFrom indent flow (c.code :: (g.codes ++ done)) {} false cs

/-- What a letter behind a backslash stands for. -/
def escaped? (c : Nat) : Option Nat :=
  ([(code '0', 0), (code 'a', 7), (code 'b', 8), (code 't', 9), (9, 9), (code 'n', 10),
    (code 'v', 11), (code 'f', 12), (code 'r', 13), (code 'e', 27), (32, 32),
    (code '"', code '"'), (39, 39), (code '/', code '/'), (code '\\', code '\\'),
    (code 'N', 0x85), (code '_', 0xA0), (code 'L', 0x2028), (code 'P', 0x2029)] :
    List (Nat × Nat)).lookup c

/-- The number of hexadecimal digits behind a letter that is behind a backslash. -/
def escapeSize? (c : Nat) : Option Nat :=
  ([(code 'x', 2), (code 'u', 4), (code 'U', 8)] : List (Nat × Nat)).lookup c

/-- The value of a hexadecimal digit. -/
def hexValue? (c : Nat) : Option Nat :=
  if 48 ≤ c && c ≤ 57 then some (c - 48)
  else if 97 ≤ c && c ≤ 102 then some (c - 87)
  else if 65 ≤ c && c ≤ 70 then some (c - 55)
  else none

/-- The character that hexadecimal digits stand for. -/
def hexCode? (digits : List Nat) : Option Nat :=
  let value := digits.foldlM (fun n d => (hexValue? d).map (16 * n + ·)) 0
  value.filter fun v => !(0xD800 ≤ v && v ≤ 0xDFFF) && v ≤ 0x10FFFF

/-- Reads the rest of a quoted scalar, in at most `n` steps. `inGap` says that white space is being
read. -/
def quotedFrom (single : Bool) : Nat → List Nat → Fold → Bool → Cells → Option Scanned
  | 0, _, _, _, _ => none
  | _ + 1, _, _, _, [] => none
  | n + 1, done, g, inGap, c :: cs =>
    let next := Cells.codeAt cs 0
    if isBlank c.code then quotedFrom single n done (g.blank c.code) true cs
    else if isBreak c.code then quotedFrom single n done (g.lineBreak c.code) true cs
    else if c.code = 0 then none
    else if inGap && (Cells.isMarker (c :: cs) '-' || Cells.isMarker (c :: cs) '.') then none
    else
      let done := g.codes ++ done
      if single && c.code = 39 then
        if next = 39 then quotedFrom single n (39 :: done) {} false (cs.drop 1)
        else some ⟨done.reverse, cs, false⟩
      else if !single && c.code = code '"' then some ⟨done.reverse, cs, false⟩
      else if !single && c.code = code '\\' then
        if isBreak next then quotedFrom single n done { broken := true } true (cs.drop 1)
        else
          match escaped? next, escapeSize? next with
          | some d, _ => quotedFrom single n (d :: done) {} false (cs.drop 1)
          | none, some size =>
            match hexCode? (((cs.drop 1).take size).map Cell.code) with
            | some d => quotedFrom single n (d :: done) {} false (cs.drop (1 + size))
            | none => none
          | none, none => none
      else quotedFrom single n (c.code :: done) {} false cs

/-- Reads a quoted scalar behind its opening quote. -/
def quotedScalar (single : Bool) (cs : Cells) : Option Scanned :=
  quotedFrom single (cs.length + 1) [] {} true cs

/-- What becomes of the line breaks at the end of a block scalar. -/
inductive Chomp where
  | strip
  | clip
  | keep
  deriving DecidableEq, Repr

/-- The marks behind the indicator of a block scalar: what becomes of the line breaks at its end,
and by how much it is indented. -/
def blockMarks (cs : Cells) : Option (Chomp × Nat × Cells) :=
  let chomp? (c : Nat) : Option Chomp :=
    if c = code '+' then some .keep else if c = code '-' then some .strip else none
  let digit? (c : Nat) : Option Nat := if 48 ≤ c && c ≤ 57 then some (c - 48) else none
  let a := Cells.codeAt cs 0
  let b := Cells.codeAt cs 1
  let found : Chomp × Nat × Bool × Nat :=
    match chomp? a, digit? a with
    | some k, _ =>
      match digit? b with
      | some d => (k, d, true, 2)
      | none => (k, 0, false, 1)
    | none, some d =>
      match chomp? b with
      | some k => (k, d, true, 2)
      | none => (.clip, d, true, 1)
    | none, none => (.clip, 0, false, 0)
  let (chomp, indent, given, used) := found
  if given && indent = 0 then none else some (chomp, indent, cs.drop used)

/-- The characters behind the line of the indicator of a block scalar, which may only hold a comment
besides. -/
def blockHeaderEnd (cs : Cells) : Option Cells :=
  let cs := cs.dropWhile fun c => isBlank c.code
  let cs :=
    if Cells.codeAt cs 0 = code '#' then cs.dropWhile (fun c => !isBreakOrEnd c.code) else cs
  if isBreak (Cells.codeAt cs 0) then some (cs.drop 1)
  else if Cells.codeAt cs 0 = 0 then some cs
  else none

/-- Empty lines of a block scalar: its indentation, the line breaks, the last one first, and what
comes behind them. An indentation of zero is not known yet; `widest` is the greatest column so far,
and `least` the least indentation. -/
def blockBreaks (indent least widest : Nat) (breaks : List Nat) :
    Cells → Option (Nat × List Nat × Cells)
  | [] => some (indent, breaks, [])
  | c :: cs =>
    let isInside := indent = 0 || c.column < indent
    if isInside && c.code = 32 then blockBreaks indent least widest breaks cs
    else if isInside && c.code = 9 then none
    else
      let widest := max widest c.column
      if isBreak c.code then blockBreaks indent least widest (c.code :: breaks) cs
      else some (if indent = 0 then max widest least else indent, breaks, c :: cs)

/-- Reads the lines of a block scalar, at most `n` of them. `pending` is the line break of the line
before, and `breaks` those of empty lines behind it, the last one first. -/
def blockLines (literal : Bool) (indent : Nat) :
    Nat → List Nat → Option Nat → List Nat → Bool → Cells →
      Option (List Nat × Option Nat × List Nat × Cells)
  | 0, _, _, _, _, _ => none
  | n + 1, done, pending, breaks, behindBlank, cs =>
    let c := cs.head
    if c.column != indent || c.code = 0 then some (done, pending, breaks, cs)
    else
      let startsBlank := isBlank c.code
      let joined :=
        if !literal && !behindBlank && !startsBlank && pending = some 10 then
          (if breaks.isEmpty then [32] else [])
        else pending.toList
      let line := (cs.takeWhile fun d => !isBreakOrEnd d.code).map Cell.code
      let behind := cs.drop line.length
      let done := line.reverse ++ breaks ++ joined ++ done
      let (pending, behind) :=
        if isBreak (Cells.codeAt behind 0) then (some (Cells.codeAt behind 0), behind.drop 1)
        else (none, behind)
      match blockBreaks indent 1 0 [] behind with
      | none => none
      | some (_, breaks, behind) =>
        blockLines literal indent n done pending breaks startsBlank behind

/-- Reads a block scalar behind its indicator, in a block indented by `outer` columns. -/
def blockScalar (literal : Bool) (outer : Int) (cs : Cells) : Option Scanned := do
  let (chomp, step, cs) ← blockMarks cs
  let cs ← blockHeaderEnd cs
  let indent := if step = 0 then 0 else (max outer 0).toNat + step
  let (indent, breaks, cs) ← blockBreaks indent (max (outer + 1) 1).toNat 0 [] cs
  let (done, pending, breaks, cs) ←
    blockLines literal indent (cs.length + 1) [] none breaks false cs
  let done := if chomp = .strip then done else pending.toList ++ done
  let done := if chomp = .keep then breaks ++ done else done
  return ⟨done.reverse, cs, false⟩

end CodeLayout.Yaml
