import CodeLayout.Command.Flags
import CodeLayout.Data.Yaml.Printer
import CodeLayout.Diff
import CodeLayout.FileTree
import CodeLayout.Formatter
import CodeLayout.Glob
import CodeLayout.OptionFile

/-!
# The command

The command formats files, or its input if no path is given, and shows or stores the results. It has
one other form, which shows the options in effect. A run sees a tree of files and may change the
texts of some of them; it ends with what it prints, or with the first error.
-/

namespace CodeLayout.Command

/-- Why a run of the command fails. -/
inductive CommandError where
  | usage (cause : UsageError)
  /-- A file of options cannot be read. -/
  | unreadable (path : Bytes) (cause : PathError)
  /-- A file of options does not hold options. -/
  | unusable (path : Bytes) (cause : OptionFileError)
  | badOption (text : Bytes)
  | badColor (text : Bytes)
  | writeToInput
  | badPattern (pattern : Bytes)
  /-- A path leads nowhere. -/
  | unreachable (path : Bytes) (cause : PathError)
  | batch (cause : Formatter.BatchError)
  deriving DecidableEq, Repr

namespace CommandError

/-- The text of an error. -/
def message : CommandError → Bytes
  | .usage cause => cause.message
  | .unreadable path cause =>
    let step := ascii (if cause = .isDirectory then "read " else "open ")
    ascii "failed to read config file " ++ path ++ ascii ": " ++ step ++ path ++ ascii ": " ++
      cause.message
  | .unusable path cause =>
    ascii "failed to parse config file " ++ path ++ ascii ": " ++ cause.message
  | .badOption text => ascii "invalid option " ++ quoted text ++ ascii ", want key=value"
  | .badColor text =>
    ascii "invalid --color value " ++ quoted text ++ ascii ", want auto, always or never"
  | .writeToInput => ascii "cannot use --write with standard input"
  | .badPattern pattern => ascii "invalid exclude pattern " ++ quoted pattern
  | .unreachable path cause =>
    ascii "cannot format " ++ path ++ ascii ": stat " ++ path ++ ascii ": " ++ cause.message
  | .batch cause => cause.message

/-- Whether a run fails because a file is missing. -/
def isMissingFile : CommandError → Bool
  | .unreadable _ cause | .unreachable _ cause => cause = .notExist
  | _ => false

end CommandError

/-- The name that the input goes by. -/
def inputName : Bytes :=
  ascii "<stdin>"

/-- The ending of the names of files that are taken from directories. -/
def sourceEnding : Bytes :=
  ascii ".java"

/-- The options of a file. -/
def fileOptions (tree : FileTree) (path : Bytes) : Except CommandError OptionMap :=
  match tree.resolve path with
  | .error e => .error (.unreadable path e)
  | .ok (_, .directory) => .error (.unreadable path .isDirectory)
  | .ok (_, .file text) => (readOptions (Path.ending path) text).mapError (.unusable path)

/-- The options given one by one. Of those for one key the last one counts. -/
def givenOptions (options : List Bytes) : Except CommandError OptionMap :=
  options.foldlM (fun map text =>
    match Bytes.cut? 61 text with
    | some (key, value) => .ok (map.set key.trim value)
    | none => .error (.badOption text)) []

/-- The style in effect: options given one by one count more than those of a file. -/
def styleOf (tree : FileTree) (s : Settings) : Except CommandError Style := do
  let style := Style.default
  let style ←
    if s.config.isEmpty then pure style
    else pure (style.apply (← fileOptions tree s.config)).1
  if s.options.isEmpty then return style
  else return (style.apply (← givenOptions s.options)).1

/-- Whether output is colored. -/
def isColored (mode : Bytes) : Except CommandError Bool :=
  if mode = ascii "always" then .ok true
  else if mode = ascii "never" || mode = ascii "auto" || mode.isEmpty then .ok false
  else .error (.badColor mode)

/-- Puts a path in front of the first one that is not before it, unless it is there. -/
def insertPath (p : Bytes) : List Bytes → List Bytes
  | [] => [p]
  | q :: rest =>
    if p = q then q :: rest else if p.before q then p :: q :: rest else q :: insertPath p rest

/-- The paths of the files to format, in order. Of a directory all files with the right ending are
taken, of files that are named all. -/
def collect (tree : FileTree) (excludes paths : List Bytes) : Except CommandError (List Bytes) := do
  match excludes.find? fun p => !Glob.isValid p with
  | some pattern => throw (.badPattern pattern)
  | none => pure ()
  let skip (path : Bytes) : Bool := excludes.any fun p => Glob.isMatch p (Path.clean path)
  let found ← paths.mapM fun root =>
    match tree.resolve root with
    | .error e => .error (.unreachable root e)
    | .ok (_, .file _) => .ok (if skip root then [] else [root])
    | .ok (own, .directory) =>
      .ok (tree.walk skip (fun p => Path.ending p = sourceEnding) (tree.depth + 1) root own)
  return found.flatten.foldr insertPath []

/-- The files at paths. -/
def load (tree : FileTree) (paths : List Bytes) : List SourceFile :=
  paths.filterMap fun path =>
    match tree.resolve path with
    | .ok (_, .file text) => some ⟨path, text⟩
    | _ => none

/-- A line of a diff between the codes of a color; the line break stays outside. -/
def colorLine (line : Bytes) : Bytes :=
  let wrap (first last : String) : Bytes :=
    let own := if line.getLast? = some newline then line.dropLast else line
    [27] ++ ascii first ++ own ++ [27] ++ ascii last ++ line.drop own.length
  let starts (lead : String) : Bool := (ascii lead).isPrefixOf line
  if starts "+++" || starts "---" then wrap "[1m" "[22m"
  else if starts "@@" then wrap "[36m" "[0m"
  else if starts "+" then wrap "[32m" "[0m"
  else if starts "-" then wrap "[31m" "[0m"
  else line

/-- The difference that formatting a file makes. -/
def diffText (colored : Bool) (path old new : Bytes) : Bytes :=
  let lines := Diff.unified (path ++ ascii ".orig") path old new
  (if colored then lines.map colorLine else lines).flatten

/-- What is printed about a file. -/
def resultText (s : Settings) (colored : Bool) (old : Bytes) (r : Formatter.Result) : Bytes :=
  (if s.list && r.changed then r.path ++ [newline] else []) ++
    (if s.diff && r.changed then diffText colored r.path old r.text else []) ++
    (if s.list || s.diff || s.write then [] else r.text)

/-- Stores the text of a file. -/
def storeResult (tree : FileTree) (r : Formatter.Result) : FileTree :=
  match tree.resolve r.path with
  | .ok (own, .file _) => tree.store own r.text
  | _ => tree

/-- What a run is asked to do. -/
inductive Request where
  /-- Format files or the input. -/
  | format (s : Settings)
  /-- Show the options in effect. -/
  | showOptions (s : Settings)
  /-- Explain the command. -/
  | help
  deriving DecidableEq, Repr

namespace Request

/-- What arguments ask for that are about formatting. -/
def ofFormatting (arguments : List Bytes) : Except UsageError Request := do
  let s ← Settings.ofArguments Flag.all arguments
  return if s.help then .help else .format s

/-- What arguments ask for that are about options. -/
def ofShowing (arguments : List Bytes) : Except UsageError Request := do
  let s ← Settings.ofArguments Flag.shared arguments
  if s.help then return .help
  match s.paths with
  | path :: _ => throw (.unexpectedArgument path)
  | [] => return .showOptions s

/-- What arguments ask for. -/
def ofArguments (arguments : List Bytes) : Except UsageError Request :=
  match splitFirst arguments with
  | some (first, others) =>
    if first = ascii "options" then ofShowing others else ofFormatting arguments
  | none => ofFormatting arguments

/-- The settings of a request. -/
def settings : Request → Settings
  | .format s | .showOptions s => s
  | .help => {}

/-- Formats files or the input. -/
def runFormat (tree : FileTree) (input : Bytes) (s : Settings) :
    Except CommandError (Bytes × FileTree) := do
  let style ← styleOf tree s
  let colored ← isColored s.color
  let files ←
    if s.paths.isEmpty then
      if s.write then throw .writeToInput else pure [⟨inputName, input⟩]
    else pure (load tree (← collect tree s.excludes s.paths))
  let formatter : Formatter := { style, kind := if s.body then .body else .unit }
  let results ← (formatter.formatAll false files).mapError .batch
  let output := (files.zip results).flatMap fun (file, r) => resultText s colored file.text r
  let changed := if s.write then results.filter (·.changed) else []
  return (output, changed.foldl storeResult tree)

/-- What a request prints, and the files it leaves behind. -/
def run (tree : FileTree) (input : Bytes) : Request → Except CommandError (Bytes × FileTree)
  | .format s => runFormat tree input s
  | .showOptions s => do return (Yaml.render (← styleOf tree s).toOptions, tree)
  | .help => .ok ([], tree)

end Request

/-- Runs the command: what it prints, and the files it leaves behind. -/
def run (tree : FileTree) (input : Bytes) (arguments : List Bytes) :
    Except CommandError (Bytes × FileTree) := do
  let request ← (Request.ofArguments arguments).mapError .usage
  request.run tree input

end CodeLayout.Command
