import CodeLayout.Data.Toml.Table
import CodeLayout.Data.Yaml.Resolve
import CodeLayout.Text.Quoted

/-!
# Files of options

The ending of a file's name tells its format. Nested tables stand for dotted keys.
-/

namespace CodeLayout

/-- Why a file of options cannot be used. -/
inductive OptionFileError where
  | invalidYaml
  | invalidToml
  | unsupported (ending : Bytes)
  deriving DecidableEq, Repr

/-- The text of an error. -/
def OptionFileError.message : OptionFileError → Bytes
  | .invalidYaml => ascii "invalid YAML"
  | .invalidToml => ascii "invalid TOML"
  | .unsupported ending => ascii "unsupported config file extension " ++ quoted ending

/-- The options in a file, given the ending of its name and its text. -/
def readOptions (ending text : Bytes) : Except OptionFileError OptionMap :=
  let read (table : Option (List (Bytes × Value))) (error : OptionFileError) :
      Except OptionFileError OptionMap :=
    match table with
    | some entries => .ok (Value.toOptions entries)
    | none => .error error
  let format := ending.lower
  if format = ascii ".yaml" || format = ascii ".yml" then read (Yaml.table text) .invalidYaml
  else if format = ascii ".toml" then read (Toml.table text) .invalidToml
  else .error (.unsupported ending)

end CodeLayout
