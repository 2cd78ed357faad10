import CodeLayout.Text.Utf8

/-!
# Path patterns

Patterns for slash-separated paths. A star stands for any characters of one segment, two stars that
fill a segment stand for any number of segments, a question mark for one character, a class in
brackets for one of its characters, and alternatives in braces for one of them. A backslash makes
the next character stand for itself.
-/

namespace CodeLayout.Glob

/-- A pattern or a path by its code points. -/
abbrev Codes := Array Nat

/-- The code points of a text. -/
def codes (s : Bytes) : Codes :=
  (s.characters.map Character.code).toArray

/-- The code of an ASCII character. -/
def code (c : Char) : Nat := c.toNat

/-- The character between the segments of a path. -/
def separator : Nat := code '/'

/-- Whether the class that a list starts inside of is closed, and what is behind it. -/
def closeClass? : List Nat → Option (List Nat)
  | [] => none
  | [c] => if c = code ']' then some [] else none
  | c :: d :: rest =>
    if c = code '\\' then closeClass? rest
    else if c = code ']' then some (d :: rest)
    else closeClass? (d :: rest)

/-- Whether a pattern is well formed with `depth` braces open, read with at most `n` steps. -/
def isValidFrom : Nat → Nat → List Nat → Bool
  | 0, _, _ => false
  | _ + 1, depth, [] => depth = 0
  | n + 1, depth, c :: rest =>
    if c = code '\\' then
      match rest with
      | [] => false
      | _ :: rest => isValidFrom n depth rest
    else if c = code '[' then
      let inner :=
        match rest with
        | d :: more => if d = code '^' || d = code '!' then more else rest
        | [] => []
      if inner.head? = some (code ']') then false
      else
        match closeClass? inner with
        | some more => isValidFrom n depth more
        | none => false
    else if c = code '\x7b' then isValidFrom n (depth + 1) rest
    else if c = code '\x7d' then depth != 0 && isValidFrom n (depth - 1) rest
    else isValidFrom n depth rest

/-- Whether a pattern is well formed: classes and alternatives are closed, and no class is empty. -/
def isValid (pattern : Bytes) : Bool :=
  let p := (codes pattern).toList
  isValidFrom (p.length + 1) 0 p

/-- The pieces that the commas of the innermost open alternatives divide a list into, and what is
behind the closing brace. `depth` counts the braces that are open besides. -/
def alternativesFrom (depth : Nat) (piece : List Nat) :
    List Nat → Option (List (List Nat) × List Nat)
  | [] => none
  | [c] => if c = code '\x7d' && depth = 0 then some ([piece.reverse], []) else none
  | c :: d :: rest =>
    if c = code '\\' then alternativesFrom depth (d :: c :: piece) rest
    else if c = code '\x7b' then alternativesFrom (depth + 1) (c :: piece) (d :: rest)
    else if c = code '\x7d' then
      if depth = 0 then some ([piece.reverse], d :: rest)
      else alternativesFrom (depth - 1) (c :: piece) (d :: rest)
    else if c = code ',' && depth = 0 then
      (alternativesFrom 0 [] (d :: rest)).map fun (more, behind) => (piece.reverse :: more, behind)
    else alternativesFrom depth (c :: piece) (d :: rest)

/-- The alternatives behind an opening brace, and what is behind the closing one. -/
def alternatives? (s : List Nat) : Option (List (List Nat) × List Nat) :=
  alternativesFrom 0 [] s

/-- Whether what is left of a pattern matches nothing at all. The segments that two stars stand for
may be missing together with the slash next to them. -/
def matchesEmpty : Nat → List Nat → Bool
  | 0, _ => false
  | n + 1, p =>
    let stars := [code '*', code '*']
    if p = [] || p = [code '*'] || p = stars || p = separator :: stars ||
        p = stars ++ [separator] || p = separator :: stars ++ [separator] then true
    else
      match p with
      | c :: rest =>
        if c = code '\x7b' then
          match alternatives? rest with
          | some (pieces, behind) => pieces.any fun piece => matchesEmpty n (piece ++ behind)
          | none => false
        else false
      | [] => true

/-- Whether a class holds a character, and what is behind the part of the class that was read.
`last` is the character that a range may start with. -/
def classHolds (c : Nat) : Nat → Option Nat → List Nat → Bool × List Nat
  | 0, _, p => (false, p)
  | _ + 1, _, [] => (false, [])
  | n + 1, last, d :: rest =>
    if d = code ']' then (false, d :: rest)
    else
      match last, d == code '-', rest with
      | some lo, true, e :: more =>
        if e = code ']' then
          if d = c then (true, rest) else classHolds c n (some d) rest
        else
          let (hi, behind) :=
            if e = code '\\' then (more.headD 0, more.drop 1) else (e, more)
          if lo ≤ c && c ≤ hi then (true, behind) else classHolds c n none behind
      | _, _, _ =>
        let (d, rest) := if d = code '\\' then (rest.headD 0, rest.drop 1) else (d, rest)
        if d = c then (true, rest) else classHolds c n (some d) rest

/-- What is behind a class whose opening bracket is passed, if the class takes a character. -/
def behindClass? (c : Nat) (p : List Nat) : Option (List Nat) :=
  let (negated, inner) :=
    match p with
    | d :: rest => if d = code '^' || d = code '!' then (true, rest) else (false, p)
    | [] => (false, [])
  let (holds, rest) := classHolds c (inner.length + 1) none inner
  if inner.isEmpty || inner.head? = some (code ']') || holds == negated then none
  else closeClass? rest

/-- Where matching goes on when it gets stuck behind a star: in the pattern and in the path. -/
structure Resume where
  pattern : Nat
  name : Nat
  deriving DecidableEq, Repr

/-- A state of matching: offsets into the pattern and the path, whether a segment of the pattern
starts here, and where to go on after the last star and the last two stars. -/
structure State where
  pattern : Nat := 0
  name : Nat := 0
  atStart : Bool := true
  star : Option Resume := none
  stars : Option Resume := none
  deriving DecidableEq, Repr

/-- One step of matching: it has come to an end, it goes on, or it goes on with one of several
patterns. -/
inductive Outcome where
  | done (matched : Bool)
  | next (s : State)
  | choice (patterns : List Codes) (s : State)

/-- The offset behind the next slash of a path. -/
def behindSlash? (name : Codes) (i : Nat) : Option Nat :=
  ((name.toList.drop i).findIdx? (· = separator)).map fun k => i + k + 1

/-- Goes back to the last star, or else to the last two stars. -/
def backtrack (name : Codes) (s : State) : Outcome :=
  let viaStars : Outcome :=
    match s.stars with
    | some r =>
      match behindSlash? name r.name with
      | some i =>
        .next { s with
          pattern := r.pattern, name := i, atStart := true, stars := some { r with name := i } }
      | none => .done false
    | none => .done false
  match s.star with
  | some r =>
    if name.getD r.name separator != separator then
      .next { s with
        pattern := r.pattern, name := r.name + 1, atStart := false,
        star := some { r with name := r.name + 1 } }
    else viaStars
  | none => viaStars

/-- Takes a star as one that stays within its segment. -/
def takeStar (s : State) (behind : Nat) : Outcome :=
  .next { s with pattern := behind, atStart := false, star := some ⟨behind, s.name⟩ }

/-- Takes one character of the path if it is the given one. -/
def takeLiteral (name : Codes) (s : State) (want : Option Nat) (behind : Nat) : Outcome :=
  match want, name[s.name]? with
  | some c, some d =>
    if c = d then
      .next { s with pattern := behind, name := s.name + 1, atStart := c = separator }
    else backtrack name s
  | _, _ => backtrack name s

/-- One step of matching while the path is not used up. -/
def step (pattern name : Codes) (s : State) : Outcome :=
  let i := s.pattern
  match pattern[i]? with
  | none => backtrack name s
  | some c =>
    if c = code '*' then
      if pattern[i + 1]? = some (code '*') then
        if s.atStart && i + 2 = pattern.size then .done true
        else if s.atStart && pattern[i + 2]? = some separator then
          .next { s with pattern := i + 3, star := none, stars := some ⟨i + 3, s.name⟩ }
        else takeStar s (i + 2)
      else takeStar s (i + 1)
    else if c = code '?' then
      let s := { s with atStart := false }
      if name.getD s.name separator = separator then backtrack name s
      else .next { s with pattern := i + 1, name := s.name + 1 }
    else if c = code '[' then
      let s := { s with atStart := false }
      match behindClass? (name.getD s.name 0) (pattern.toList.drop (i + 1)) with
      | some rest => .next { s with pattern := pattern.size - rest.length, name := s.name + 1 }
      | none => backtrack name s
    else if c = code '\x7b' then
      match alternatives? (pattern.toList.drop (i + 1)) with
      | some (pieces, behind) =>
        let front := pattern.toList.take i
        .choice (pieces.map fun piece => (front ++ piece ++ behind).toArray)
          { s with atStart := true }
      | none => .done false
    else if c = code '\\' then takeLiteral name s pattern[i + 1]? (i + 2)
    else takeLiteral name s (some c) (i + 1)

/-- Whether a pattern matches a path from a state on, within a number of steps. -/
def matchesFrom : Nat → Codes → Codes → State → Bool
  | 0, _, _, _ => false
  | n + 1, pattern, name, s =>
    if name.size ≤ s.name then matchesEmpty (pattern.size + 1) (pattern.toList.drop s.pattern)
    else
      match step pattern name s with
      | .done matched => matched
      | .next s => matchesFrom n pattern name s
      | .choice patterns s => patterns.any fun p => matchesFrom n p name s

/-- Whether a pattern matches a whole path. -/
def isMatch (pattern path : Bytes) : Bool :=
  let p := codes pattern
  let name := codes path
  let steps := (p.size + 2) * (name.size + 2) * (name.size + 2)
  matchesFrom steps p name {}

end CodeLayout.Glob
