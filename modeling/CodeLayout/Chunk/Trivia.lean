import CodeLayout.Verbatim

/-!
# Comments between tokens

Every comment of a text belongs to a token with structure: it trails the token before it, or it
leads the token after it. Comments behind the last token lead the end of the text. Line comments
that are stacked at one column are a single run.
-/

namespace CodeLayout

/-- A comment, or line comments stacked at one column, by their indices in the stream. -/
structure CommentRun where
  ids : List Nat
  /-- Whether the run starts its line. -/
  ownLine : Bool := false
  /-- The number of blank lines before the run. -/
  blank : Nat := 0
  /-- Whether a line break follows the run. -/
  newline : Bool := false
  deriving DecidableEq, Repr, Inhabited

/-- What stands around a token. -/
structure Trivia where
  /-- The runs before the token that do not trail another token. -/
  leading : List CommentRun := []
  /-- The run that ends the line of the token. -/
  trailing : Option CommentRun := none
  /-- The number of blank lines between the last leading run and the token. -/
  blank : Nat := 0
  /-- Whether a line break is anywhere between the token and the one before it. -/
  broken : Bool := false
  deriving DecidableEq, Repr, Inhabited

/-- What stands around all tokens, by their indices, and at the end of the text. -/
structure TriviaIndex where
  tokens : Array Trivia
  ending : Trivia := {}
  deriving Repr, Inhabited

namespace TriviaIndex

/-- What stands around a token, or at the end of the text. -/
def get (x : TriviaIndex) : Option Nat → Trivia
  | some id => x.tokens.getD id x.ending
  | none => x.ending

/-- Changes what stands around a token, or at the end of the text. -/
def modify (x : TriviaIndex) (id : Option Nat) (f : Trivia → Trivia) : TriviaIndex :=
  match id with
  | some id => { x with tokens := x.tokens.modify id f }
  | none => { x with ending := f x.ending }

end TriviaIndex

namespace Trivia

/-- What the comments of a text are told apart by. -/
structure Source where
  file : SourceFile
  style : Style
  regions : Regions

/-- A token with its index in the stream. -/
abbrev Entry := Nat × Token

/-- Whether an entry is white space. -/
def isSpace (e : Entry) : Bool :=
  e.2.kind = .space

/-- Whether an entry is a line comment. -/
def isLineComment (e : Entry) : Bool :=
  CommentStyle.ofText e.2.text = .line

/-- Whether a comment may be joined with others: it mentions no tag and is not left alone. -/
def mayStack (s : Source) (e : Entry) : Bool :=
  isLineComment e && !Verbatim.hasTag e.2.text s.style &&
    (s.regions.at? (Int64.ofNat e.2.start)).isNone

/-- Whether a line comment continues the one right above it. -/
def standsUnder (s : Source) (a b : Entry) : Bool :=
  mayStack s a && mayStack s b &&
    s.file.displayColumn a.2.start s.style.tabSize = s.file.displayColumn b.2.start s.style.tabSize

/-- The line comments stacked under a line comment, and what is left. -/
def stackedUnder (s : Source) (last : Entry) : List Entry → List Entry × List Entry
  | space :: comment :: rest =>
    if isSpace space && space.2.text.newlines = 1 && !isSpace comment &&
        standsUnder s last comment then
      let (more, left) := stackedUnder s comment rest
      (comment :: more, left)
    else ([], space :: comment :: rest)
  | rest => ([], rest)

/-- Whether the line ends behind a comment that the given entries follow. `atEnd` says that no
token comes after them. -/
def endsLine (atEnd : Bool) : List Entry → Bool
  | [] => atEnd
  | e :: _ => e.2.text.contains newline

/-- The run that trails a token, given what follows the token, and what is left. A line comment
always trails; a block comment does so only if its line ends behind it. -/
def splitTrailing (s : Source) (atEnd : Bool) (pending : List Entry) :
    Option CommentRun × List Entry :=
  let behindSpace :=
    match pending with
    | e :: rest =>
      if isSpace e then (if e.2.text.contains newline then [] else rest) else pending
    | [] => []
  match behindSpace with
  | [] => (none, pending)
  | first :: rest =>
    if isSpace first then (none, pending)
    else if isLineComment first then
      let (more, left) := stackedUnder s first rest
      (some { ids := first.1 :: more.map (·.1), newline := true }, left)
    else if endsLine atEnd rest then (some { ids := [first.1], newline := true }, rest)
    else (none, pending)

/-- The runs that are being collected: finished ones and the last one, each in reverse, with the
last comment of the last run, and the line breaks since. -/
structure Runs where
  done : List CommentRun := []
  last : Option (CommentRun × Entry) := none
  newlines : Nat := 0

namespace Runs

/-- Ends the last run. -/
def close (r : Runs) : List CommentRun :=
  match r.last with
  | some (run, _) => { run with newline := 0 < r.newlines } :: r.done
  | none => r.done

/-- Starts a run with a comment. -/
def start (r : Runs) (e : Entry) : Runs where
  done := r.close
  last := some ({ ids := [e.1], ownLine := 0 < r.newlines, blank := r.newlines - 1 }, e)
  newlines := 0

/-- Adds white space or a comment. -/
def add (s : Source) (r : Runs) (e : Entry) : Runs :=
  if isSpace e then { r with newlines := r.newlines + e.2.text.newlines }
  else
    match r.last with
    | some (run, prev) =>
      if r.newlines = 1 && standsUnder s prev e then
        { r with last := some ({ run with ids := run.ids ++ [e.1] }, e), newlines := 0 }
      else r.start e
    | none => r.start e

end Runs

/-- Distributes what stands between two tokens, or before the first or behind the last one. -/
def addGap (s : Source) (x : TriviaIndex) (prev : Option Entry) (pending : List Entry)
    (next : Option Entry) : TriviaIndex :=
  let (trailing, rest) :=
    match prev with
    | some _ => splitTrailing s next.isNone pending
    | none => (none, pending)
  let x :=
    match prev with
    | some p => x.modify (some p.1) fun t => { t with trailing }
    | none => x
  -- Comments at the top of a text start their lines.
  let runs := rest.foldl (Runs.add s) { newlines := if prev.isNone then 1 else 0 }
  let broken := prev.isSome && next.isSome && pending.any fun e => e.2.text.contains newline
  x.modify (next.map (·.1)) fun t =>
    { t with leading := runs.close.reverse, blank := runs.newlines - 1, broken }

/-- Distributes what stands between the tokens of a list. `pending` holds, in reverse, the white
space and comments since the token `prev`. -/
def addGaps (s : Source) (x : TriviaIndex) (prev : Option Entry) (pending : List Entry) :
    List Entry → TriviaIndex
  | [] => addGap s x prev pending.reverse none
  | e :: rest =>
    if e.2.kind.isSkippable then addGaps s x prev (e :: pending) rest
    else addGaps s (addGap s x prev pending.reverse (some e)) (some e) [] rest

end Trivia

/-- What stands around the tokens of a stream. -/
def TriviaIndex.ofStream (s : TokenStream) (style : Style) (regions : Regions) : TriviaIndex :=
  Trivia.addGaps ⟨s.file, style, regions⟩ ⟨Array.replicate s.tokens.size {}, {}⟩ none []
    (s.tokens.toList.zipIdx.map fun (t, i) => (i, t))

end CodeLayout
