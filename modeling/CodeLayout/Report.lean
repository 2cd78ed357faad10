import CodeLayout.Source
import CodeLayout.Text.Quoted

/-!
# Diagnostics

What the formatter has to say about its input and its style. Formatting never fails: problems are
recorded here while the formatter goes on, and a fault inside one of its steps is recorded as a
remark before the step falls back to something closer to the input.
-/

namespace CodeLayout

/-- How grave a diagnostic is. -/
inductive Level where
  | error
  | warning
  | remark
  deriving DecidableEq, Repr, Inhabited

namespace Level

/-- The number of a level. -/
def code : Level → Int
  | .error => 1
  | .warning => 2
  | .remark => 3

/-- The word for a level. -/
def name : Level → Bytes
  | .error => ascii "error"
  | .warning => ascii "warning"
  | .remark => ascii "remark"

/-- The level with a given number, if there is one. -/
def ofCode? (n : Int) : Option Level :=
  [error, warning, remark].find? fun l => l.code = n

/-- The word for the level with a given number; other numbers are shown as such. -/
def nameOfCode (n : Int) : Bytes :=
  match ofCode? n with
  | some l => l.name
  | none => ascii "Level(" ++ intDigits n ++ ascii ")"

end Level

/-- Why a step of the formatter cannot go on. -/
inductive Fault where
  /-- A loop of the grammar came round without reading a token. -/
  | noProgress
  /-- The layout tree lacks some of the tokens and comments, or has them out of order. -/
  | uncovered (placed total : Nat)
  /-- A piece of the layout tree stands before one already written. -/
  | disorder (start last : Int)
  /-- An interval starts behind its end. -/
  | reversed (start stop : Int64)
  /-- A comment without contents was to be laid out, or an offset outside of a text was used. -/
  | missing
  /-- A fault described by its text. -/
  | stated (text : Bytes)
  deriving DecidableEq, Repr, Inhabited

/-- The text of a fault. -/
def Fault.message : Fault → Bytes
  | .noProgress => ascii "parser failed to make progress"
  | .uncovered placed total =>
    ascii "chunk tree covers " ++ natDigits placed ++ ascii " of " ++ natDigits total ++
      ascii " tokens and comments"
  | .disorder start last =>
    ascii "scribe: chunk at offset " ++ intDigits start ++ ascii " written after offset " ++
      intDigits last
  | .reversed start stop =>
    ascii "interval: start (" ++ intDigits start.toInt ++ ascii ") > end (" ++
      intDigits stop.toInt ++ ascii ")"
  | .missing => ascii "runtime error"
  | .stated text => text

/-- What a diagnostic is about. -/
inductive Problem where
  | unrecognizedCharacter (text : Bytes)
  | unterminatedComment
  | unterminatedLiteral
  | unexpectedEnd (place want : Bytes)
  | unexpectedToken (text place want : Bytes)
  /-- A number of the style was moved to the nearest one that is allowed. -/
  | outOfRange (key : Bytes) (value used : Int)
  | unknownIndentChar (shown used : Bytes)
  | unsupportedSeparator (separator : Bytes)
  /-- Tags are switched on by one option while another leaves the tag empty. -/
  | emptyTag (switch tag : Bytes)
  | invalidPolicyCode (code : Nat) (context used : Bytes)
  | unknownOption (key : Bytes)
  | invalidValue (value key kept : Bytes)
  | invalidPolicy (value key reason : Bytes)
  /-- Laying out lines stopped after a number of steps. -/
  | gaveUp (steps : Nat)
  /-- A step met a fault and fell back. -/
  | recovered (step : Bytes) (fault : Fault)
  | stated (text : Bytes)
  deriving DecidableEq, Repr, Inhabited

/-- The text of a problem. -/
def Problem.message : Problem → Bytes
  | .unrecognizedCharacter text => ascii "unrecognized character " ++ quoted text
  | .unterminatedComment => ascii "unterminated block comment"
  | .unterminatedLiteral => ascii "unterminated literal"
  | .unexpectedEnd place want =>
    ascii "unexpected end of input in " ++ place ++ ascii ", expected " ++ want
  | .unexpectedToken text place want =>
    ascii "unexpected `" ++ text ++ ascii "` in " ++ place ++ ascii ", expected " ++ want
  | .outOfRange key value used =>
    key ++ ascii " " ++ intDigits value ++ ascii " is out of range, using " ++ intDigits used
  | .unknownIndentChar shown used =>
    ascii "unknown indentation character " ++ shown ++ ascii ", using " ++ used
  | .unsupportedSeparator separator =>
    ascii "unsupported line separator " ++ quoted separator ++ ascii ", using \"\\n\""
  | .emptyTag switch tag =>
    switch ++ ascii " is set but " ++ tag ++ ascii " is empty; no region will be disabled"
  | .invalidPolicyCode code context used =>
    ascii "invalid alignment policy " ++ natDigits code ++ ascii " for " ++ context ++
      ascii ", using " ++ used
  | .unknownOption key => ascii "unknown option " ++ key
  | .invalidValue value key kept =>
    ascii "invalid value " ++ quoted value ++ ascii " for " ++ key ++ ascii ", keeping " ++
      quoted kept
  | .invalidPolicy value key reason =>
    ascii "invalid value " ++ quoted value ++ ascii " for " ++ key ++ ascii ": " ++ reason
  | .gaveUp steps =>
    ascii "line wrapping gave up after " ++ natDigits steps ++
      ascii " steps; some lines may be too long"
  | .recovered step fault =>
    ascii "internal error while " ++ step ++ ascii ": " ++ fault.message
  | .stated text => text

/-- One message about the input or the style. -/
structure Diagnostic where
  level : Level
  problem : Problem
  span : Span := {}
  notes : List Bytes := []
  deriving DecidableEq, Repr, Inhabited

/-- A diagnostic as shown: place, level and message, then its notes on lines of their own. -/
def Diagnostic.render (d : Diagnostic) : Bytes :=
  (if d.span.isNone then [] else d.span.render ++ ascii ": ") ++
    d.level.name ++ ascii ": " ++ d.problem.message ++
    d.notes.flatMap fun note => ascii "\n  note: " ++ note

/-- Diagnostics in the order in which they were recorded. -/
abbrev Report := List Diagnostic

namespace Report

/-- Whether there is an error among the diagnostics. -/
def hasErrors (r : Report) : Bool :=
  r.any fun d => d.level = .error

/-- The number of diagnostics of a level. -/
def count (r : Report) (level : Level) : Nat :=
  r.countP fun d => d.level = level

/-- All diagnostics, with a line break between neighbours. -/
def render (r : Report) : Bytes :=
  Bytes.join (ascii "\n") (r.map Diagnostic.render)

/-- The report after a step that may meet a fault: the fault is recorded as a remark. -/
def recover {α : Type} (r : Report) (step : Bytes) (span : Span) : Except Fault α → Report
  | .ok _ => r
  | .error fault => r ++ [{ level := .remark, problem := .recovered step fault, span }]

end Report

end CodeLayout
