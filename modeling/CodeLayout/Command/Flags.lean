import CodeLayout.Number.Literal
import CodeLayout.Text.Quoted

/-!
# Arguments of the command

Flags and paths may be mixed. A flag is given by its name behind two dashes or by its letter behind
one; letters may be run together. Its value follows behind an equals sign, or as the next argument.
-/

namespace CodeLayout.Command

/-- What a flag takes. -/
inductive FlagKind where
  | switch
  | number
  | text
  deriving DecidableEq, Repr

/-- A flag. -/
inductive Flag where
  | verbose
  | config
  | option
  | write
  | diff
  | list
  | body
  | jobs
  | color
  | exclude
  | help
  deriving DecidableEq, Repr

namespace Flag

/-- The flags that every form of the command has. -/
def shared : List Flag :=
  [verbose, config, option, help]

/-- The flags for formatting. -/
def all : List Flag :=
  shared ++ [write, diff, list, body, jobs, color, exclude]

/-- The name of a flag. -/
def name : Flag → Bytes
  | .verbose => ascii "verbose"
  | .config => ascii "config"
  | .option => ascii "option"
  | .write => ascii "write"
  | .diff => ascii "diff"
  | .list => ascii "list"
  | .body => ascii "body"
  | .jobs => ascii "jobs"
  | .color => ascii "color"
  | .exclude => ascii "exclude"
  | .help => ascii "help"

/-- The letter of a flag. -/
def letter? : Flag → Option UInt8
  | .verbose => some 118
  | .option => some 111
  | .write => some 119
  | .diff => some 100
  | .list => some 108
  | .jobs => some 106
  | .help => some 104
  | .config | .body | .color | .exclude => none

/-- What a flag takes. -/
def kind : Flag → FlagKind
  | .verbose | .write | .diff | .list | .body | .help => .switch
  | .jobs => .number
  | .config | .option | .color | .exclude => .text

/-- Whether a flag may do without a value. -/
def isSwitch (f : Flag) : Bool :=
  f.kind = .switch

/-- A flag as shown in messages. -/
def shown (f : Flag) : Bytes :=
  (match f.letter? with
    | some l => [45, l] ++ ascii ", "
    | none => []) ++ ascii "--" ++ f.name

end Flag

/-- What is wrong with the value of a flag. -/
inductive ValueError where
  | number (text : Bytes) (cause : LiteralError)
  | truth (text : Bytes)
  deriving DecidableEq, Repr

/-- The text of an error. -/
def ValueError.message : ValueError → Bytes
  | .number text cause =>
    ascii "strconv.ParseInt: parsing " ++ quoted text ++ ascii ": " ++ cause.message
  | .truth text =>
    ascii "strconv.ParseBool: parsing " ++ quoted text ++ ascii ": " ++
      LiteralError.malformed.message

/-- What is wrong with the arguments. -/
inductive UsageError where
  | badFlag (argument : Bytes)
  | unknownFlag (name : Bytes)
  | unknownLetter (letter : UInt8) (letters : Bytes)
  | noValue (name : Bytes)
  | noValueForLetter (letter : UInt8) (letters : Bytes)
  | badValue (flag : Flag) (value : Bytes) (cause : ValueError)
  | unexpectedArgument (argument : Bytes)
  deriving DecidableEq, Repr

/-- A letter as shown in messages. -/
def letterText (l : UInt8) : Bytes :=
  let inner := (quoted (Utf8.encode l.toNat)).drop 1 |>.dropLast
  let inner := if l = 39 then ascii "\\'" else if l = 34 then [34] else inner
  [39] ++ inner ++ [39]

/-- The letter that a message shows for a byte that is no flag. A byte of a longer character is
shown as the first byte of its own encoding. -/
def shownLetter (l : UInt8) : UInt8 :=
  (Utf8.encode l.toNat).headD l

/-- The text of an error. -/
def UsageError.message : UsageError → Bytes
  | .badFlag argument => ascii "bad flag syntax: " ++ argument
  | .unknownFlag name => ascii "unknown flag: --" ++ name
  | .unknownLetter letter letters =>
    ascii "unknown shorthand flag: " ++ letterText (shownLetter letter) ++ ascii " in -" ++ letters
  | .noValue name => ascii "flag needs an argument: --" ++ name
  | .noValueForLetter letter letters =>
    ascii "flag needs an argument: " ++ letterText letter ++ ascii " in -" ++ letters
  | .badValue flag value cause =>
    ascii "invalid argument " ++ quoted value ++ ascii " for " ++ quoted flag.shown ++
      ascii " flag: " ++ cause.message
  | .unexpectedArgument argument =>
    ascii "unknown command " ++ quoted argument ++ ascii " for \"blockfmt options\""

/-- What the arguments ask for. -/
structure Settings where
  verbose : Bool := false
  /-- The path of a file of options; empty for none. -/
  config : Bytes := []
  /-- Options as they were given. -/
  options : List Bytes := []
  write : Bool := false
  diff : Bool := false
  list : Bool := false
  body : Bool := false
  jobs : Int := 0
  color : Bytes := ascii "auto"
  /-- Patterns of what is left out. -/
  excludes : List Bytes := []
  help : Bool := false
  /-- The arguments that are no flags. -/
  paths : List Bytes := []
  deriving DecidableEq, Repr, Inhabited

namespace Settings

/-- Reads a truth value. -/
def truth? (s : Bytes) : Option Bool :=
  if (["1", "t", "T", "TRUE", "true", "True"].map ascii).contains s then some true
  else if (["0", "f", "F", "FALSE", "false", "False"].map ascii).contains s then some false
  else none

/-- Sets a switch. -/
def setSwitch (s : Settings) (b : Bool) : Flag → Settings
  | .verbose => { s with verbose := b }
  | .write => { s with write := b }
  | .diff => { s with diff := b }
  | .list => { s with list := b }
  | .body => { s with body := b }
  | .help => { s with help := b }
  | _ => s

/-- Sets a flag that takes a text. -/
def setText (s : Settings) (v : Bytes) : Flag → Settings
  | .config => { s with config := v }
  | .option => { s with options := s.options ++ [v] }
  | .color => { s with color := v }
  | .exclude => { s with excludes := s.excludes ++ [v] }
  | _ => s

/-- Sets a flag to a value. -/
def set (s : Settings) (f : Flag) (v : Bytes) : Except UsageError Settings :=
  match f.kind with
  | .switch =>
    match truth? v with
    | some b => .ok (s.setSwitch b f)
    | none => .error (.badValue f v (.truth v))
  | .number =>
    match Literal.read v with
    | .ok n => .ok { s with jobs := n }
    | .error e => .error (.badValue f v (.number v e))
  | .text => .ok (s.setText v f)

end Settings

variable (known : List Flag)

/-- Reads a flag given by its name, and leaves the arguments behind it. -/
def longFlag (s : Settings) (argument : Bytes) (rest : List Bytes) :
    Except UsageError (Settings × List Bytes) := do
  let text := argument.drop 2
  if text.head? = some 45 || text.head? = some 61 then throw (.badFlag argument)
  let (name, value) :=
    match Bytes.cut? 61 text with
    | some (name, value) => (name, some value)
    | none => (text, none)
  match known.find? fun f => f.name == name with
  | none => throw (.unknownFlag name)
  | some f =>
    match value with
    | some v => return (← s.set f v, rest)
    | none =>
      if f.isSwitch then return (← s.set f (ascii "true"), rest)
      else
        match rest with
        | v :: rest => return (← s.set f v, rest)
        | [] => throw (.noValue name)

/-- Reads flags given by their letters, and leaves the arguments behind them. -/
def letterFlags (s : Settings) (letters : Bytes) (rest : List Bytes) :
    Except UsageError (Settings × List Bytes) :=
  match letters with
  | [] => .ok (s, rest)
  | l :: more => do
    match known.find? fun f => f.letter? == some l with
    | none => throw (.unknownLetter l letters)
    | some f =>
      match more with
      | 61 :: v :: vs => return (← s.set f (v :: vs), rest)
      | _ =>
        if f.isSwitch then letterFlags (← s.set f (ascii "true")) more rest
        else if !more.isEmpty then return (← s.set f more, rest)
        else
          match rest with
          | v :: rest => return (← s.set f v, rest)
          | [] => throw (.noValueForLetter l letters)

/-- Reads arguments one after the other, at most `n` of them. -/
def readArguments : Nat → Settings → List Bytes → Except UsageError Settings
  | 0, s, _ => .ok s
  | _ + 1, s, [] => .ok s
  | n + 1, s, argument :: rest =>
    match argument with
    | [45, 45] => .ok { s with paths := s.paths ++ rest }
    | 45 :: 45 :: _ => do
      let (s, rest) ← longFlag known s argument rest
      readArguments n s rest
    | 45 :: l :: ls => do
      let (s, rest) ← letterFlags known s (l :: ls) rest
      readArguments n s rest
    | _ => readArguments n { s with paths := s.paths ++ [argument] } rest

/-- Reads all arguments. -/
def Settings.ofArguments (arguments : List Bytes) : Except UsageError Settings :=
  readArguments known (arguments.length + 1) {} arguments

/-- Whether an argument is a flag whose value is the next argument. -/
def takesNext (argument : Bytes) : Bool :=
  match argument with
  | 45 :: 45 :: name =>
    !name.isEmpty && !argument.contains 61 &&
      !(Flag.all.any fun f => f.name == name && f.isSwitch)
  | [45, l] => l != 61 && !(Flag.all.any fun f => f.letter? == some l && f.isSwitch)
  | _ => false

/-- The arguments without the first one that is neither a flag nor the value of one, and that
argument. A flag in front of the last argument takes it. -/
def splitFirst : List Bytes → Option (Bytes × List Bytes)
  | [] => none
  | [a] => if a = ascii "--" || a.isEmpty || a.head? = some 45 then none else some (a, [])
  | a :: b :: rest =>
    if a = ascii "--" then none
    else if takesNext a then
      if rest.isEmpty then none
      else (splitFirst rest).map fun (first, others) => (first, a :: b :: others)
    else if a.isEmpty || a.head? = some 45 then
      (splitFirst (b :: rest)).map fun (first, others) => (first, a :: others)
    else some (a, b :: rest)

end CodeLayout.Command
