import CodeLayout.Text.Bytes

/-!
# Words with a meaning of their own

Modifiers, words that introduce a type or a statement, and the other reserved words. Some words
act as keywords in certain places only and are names everywhere else.
-/

namespace CodeLayout.Word

/-- The words that modify a declaration. -/
def modifiers : List Bytes :=
  ["public", "protected", "private", "static", "final", "abstract", "native", "synchronized",
    "transient", "volatile", "strictfp", "default", "sealed"].map ascii

/-- The words that are keywords in certain places only. -/
def contextual : List Bytes :=
  ["record", "yield", "sealed", "permits", "var"].map ascii

/-- The words that introduce the declaration of a type. -/
def typeWords : List Bytes :=
  ["class", "interface", "enum", "record"].map ascii

/-- The words that a keyword statement starts with. -/
def statementWords : List Bytes :=
  ["if", "for", "while", "do", "try", "switch", "return", "throw", "break", "continue", "assert",
    "yield"].map ascii

/-- The other words that are never names. -/
def reserved : List Bytes :=
  ["new", "instanceof", "this", "super", "else", "case", "catch", "finally", "extends",
    "implements", "throws", "import", "package", "true", "false", "null", "void"].map ascii

/-- Whether a word modifies a declaration. -/
def isModifier (w : Bytes) : Bool :=
  modifiers.contains w

/-- Whether a word introduces the declaration of a type. -/
def isTypeWord (w : Bytes) : Bool :=
  typeWords.contains w

/-- Whether a keyword statement starts with a word. -/
def isStatementWord (w : Bytes) : Bool :=
  statementWords.contains w

/-- Whether a word can never be a name. -/
def isKeyword (w : Bytes) : Bool :=
  !contextual.contains w &&
    (modifiers.contains w || typeWords.contains w || statementWords.contains w ||
      reserved.contains w)

end CodeLayout.Word
