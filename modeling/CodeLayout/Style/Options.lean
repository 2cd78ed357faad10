import CodeLayout.Style.Basic

/-!
# Options

A style as a flat map from keys to texts. A key is bound to one field of a style or to the policy
of one context. Keys that are not known and texts that cannot be read are reported and change
nothing.
-/

namespace CodeLayout

/-- Texts under keys. -/
abbrev OptionMap := List (Bytes × Bytes)

namespace OptionMap

/-- Puts an entry in front of the first one with a greater key. -/
def insertByKey (e : Bytes × Bytes) : OptionMap → OptionMap
  | [] => [e]
  | f :: rest => if e.1.before f.1 then e :: f :: rest else f :: insertByKey e rest

/-- The entries in the order of their keys. -/
def sorted (m : OptionMap) : OptionMap :=
  m.foldr insertByKey []

/-- The map with the text of one key replaced or added. -/
def set (m : OptionMap) (key value : Bytes) : OptionMap :=
  m.filter (fun e => e.1 != key) ++ [(key, value)]

end OptionMap

namespace Style

/-- The texts for true in options, in lower case. -/
def trueWords : List Bytes :=
  ["insert", "yes", "on"].map ascii

/-- The texts for false in options, in lower case. -/
def falseWords : List Bytes :=
  ["do not insert", "no", "off"].map ascii

/-- Reads a truth value. -/
def readBool? (s : Bytes) : Option Bool :=
  let word := s.trim
  if trueWords.contains word.lower then some true
  else if falseWords.contains word.lower then some false
  else if (["1", "t", "T", "TRUE", "true", "True"].map ascii).contains word then some true
  else if (["0", "f", "F", "FALSE", "false", "False"].map ascii).contains word then some false
  else none

/-- The text of a truth value. -/
def boolText (b : Bool) : Bytes :=
  if b then ascii "true" else ascii "false"

/-- Reads what indentation is written with. -/
def readIndentChar? (s : Bytes) : Option IndentChar :=
  [IndentChar.tab, .space, .mixed].find? fun c => c.name == s.trim.lower

/-- Reads a line separator, as it is, by its escapes, or by its name. -/
def readSeparator? (s : Bytes) : Option Bytes :=
  let word := s.lower
  if word == [10] || word == ascii "\\n" || word == ascii "lf" then some [10]
  else if word == [13, 10] || word == ascii "\\r\\n" || word == ascii "crlf" then some [13, 10]
  else if word == [13] || word == ascii "\\r" || word == ascii "cr" then some [13]
  else none

/-- A field of a style under a key: how it is shown, and how it is set from a text. -/
structure Setting where
  key : Bytes
  get : Style → Bytes
  set? : Style → Bytes → Option Style

namespace Setting

/-- A setting for a truth value. -/
def bool (key : String) (get : Style → Bool) (set : Style → Bool → Style) : Setting where
  key := ascii key
  get s := boolText (get s)
  set? s v := (readBool? v).map (set s)

/-- A setting for a number. -/
def int (key : String) (get : Style → Int) (set : Style → Int → Style) : Setting where
  key := ascii key
  get s := intDigits (get s)
  set? s v := (readInt? v.trim).map (set s)

/-- A setting for a text. -/
def text (key : String) (get : Style → Bytes) (set : Style → Bytes → Style) : Setting where
  key := ascii key
  get := get
  set? s v := some (set s v)

end Setting

/-- What indentation is written with. -/
def indentCharSetting : Setting where
  key := ascii "tabulation.char"
  get s := s.indentChar.name
  set? s v := (readIndentChar? v).map fun c => { s with indentChar := c }

/-- The separator of lines. -/
def separatorSetting : Setting where
  key := ascii "line_separator"
  get s := s.separator
  set? s v := (readSeparator? v).map fun sep => { s with separator := sep }

/-- The settings of numbers. -/
def tabSizeSetting : Setting :=
  .int "tabulation.size" (·.tabSize) fun s n => { s with tabSize := n }

/-- The size of a level. -/
def indentSizeSetting : Setting :=
  .int "indentation.size" (·.indentSize) fun s n => { s with indentSize := n }

/-- The levels by which wrapped lines are indented. -/
def continuationSetting : Setting :=
  .int "continuation_indentation" (·.continuation) fun s n => { s with continuation := n }

/-- The page width. -/
def pageWidthSetting : Setting :=
  .int "page_width" (·.pageWidth) fun s n => { s with pageWidth := n }

/-- The number of blank lines that are kept. -/
def blankLinesSetting : Setting :=
  .int "number_of_empty_lines_to_preserve" (·.blankLines) fun s n => { s with blankLines := n }

/-- The width of comment lines. -/
def lineLengthSetting : Setting :=
  .int "comment.line_length" (·.comments.lineLength) fun s n =>
    { s with comments := { s.comments with lineLength := n } }

/-- The switch of the tags. -/
def useTagsSetting : Setting :=
  .bool "use_on_off_tags" (·.useTags) fun s b => { s with useTags := b }

/-- The tag that switches formatting off. -/
def disablingTagSetting : Setting :=
  .text "disabling_tag" (·.disablingTag) fun s t => { s with disablingTag := t }

/-- All settings of fields. -/
def settings : List Setting :=
  [indentCharSetting, separatorSetting, tabSizeSetting, indentSizeSetting, continuationSetting,
    pageWidthSetting, blankLinesSetting, lineLengthSetting,
    .bool "join_wrapped_lines" (·.joinWrapped) fun s b => { s with joinWrapped := b },
    .bool "wrap_outer_expressions_when_nested" (·.wrapOuter) fun s b => { s with wrapOuter := b },
    useTagsSetting,
    .bool "insert_new_line_after_annotation" (·.breakAfterAnnotations) fun s b =>
      { s with breakAfterAnnotations := b },
    .bool "comment.format_line_comments" (·.comments.lineComments) fun s b =>
      { s with comments := { s.comments with lineComments := b } },
    .bool "comment.format_block_comments" (·.comments.blockComments) fun s b =>
      { s with comments := { s.comments with blockComments := b } },
    .bool "comment.format_javadoc_comments" (·.comments.docComments) fun s b =>
      { s with comments := { s.comments with docComments := b } },
    .bool "comment.format_header" (·.comments.header) fun s b =>
      { s with comments := { s.comments with header := b } },
    .bool "comment.join_lines_in_comments" (·.comments.joinLines) fun s b =>
      { s with comments := { s.comments with joinLines := b } },
    .bool "comment.indent_root_tags" (·.comments.indentRootTags) fun s b =>
      { s with comments := { s.comments with indentRootTags := b } },
    disablingTagSetting,
    .text "enabling_tag" (·.enablingTag) fun s t => { s with enablingTag := t }]

/-- The setting under a key. -/
def setting? (key : Bytes) : Option Setting :=
  settings.find? fun o => o.key == key

/-- A warning. -/
def warn (problem : Problem) : Report :=
  [{ level := .warning, problem }]

/-- The warnings about a separator that lines cannot end in, and the separator used. -/
def normalSeparator (sep : Bytes) : Bytes × Report :=
  if separators.contains sep then (sep, []) else ([newline], warn (.unsupportedSeparator sep))

/-- What indentation is written with once it is one of the known choices. -/
def normalIndentChar (c : IndentChar) : IndentChar × Report :=
  match c with
  | .unknown _ => (.tab, warn (.unknownIndentChar c.name IndentChar.tab.name))
  | _ => (c, [])

/-- The policy of a context once its bits name a way to split. -/
def normalPolicy (c : WrapContext) (p : Policy) : Policy × Report :=
  if p.split?.isSome then (p, [])
  else
    (.ofSplit .compact,
      warn (.invalidPolicyCode p.bits.toNat c.name (Policy.ofSplit .compact).render))

/-- Moves every field of a style into its range, with a warning for each change. -/
def normalize (s : Style) : Style × Report :=
  let (tabSize, r1) := clamp tabSizeSetting.key 0 maxIndent s.tabSize
  let (indentSize, r2) := clamp indentSizeSetting.key 0 maxIndent s.indentSize
  let (continuation, r3) := clamp continuationSetting.key 0 maxIndent s.continuation
  let (blankLines, r4) := clamp blankLinesSetting.key 0 maxBlank s.blankLines
  let (lineLength, r5) := clamp lineLengthSetting.key 0 maxWidth s.comments.lineLength
  let (pageWidth, r6) := clamp pageWidthSetting.key 0 maxWidth (max s.pageWidth 0)
  let (indentChar, r7) := normalIndentChar s.indentChar
  let (separator, r8) := normalSeparator s.separator
  let disablingTag := s.disablingTag.trim
  let r9 :=
    if s.useTags && disablingTag.isEmpty then
      warn (.emptyTag useTagsSetting.key disablingTagSetting.key)
    else []
  let r10 := WrapContext.configurable.flatMap fun c => (normalPolicy c (s.policies c)).2
  ({ s with
      tabSize, indentSize, continuation, blankLines, pageWidth, indentChar, separator,
      disablingTag, enablingTag := s.enablingTag.trim
      comments := { s.comments with lineLength }
      policies := fun c => (normalPolicy c (s.policies c)).1 },
    r1 ++ r2 ++ r3 ++ r4 ++ r5 ++ r6 ++ r7 ++ r8 ++ r9 ++ r10)

/-- Sets one option, with a warning if that is not possible. -/
def applyOption (s : Style) (key value : Bytes) : Style × Report :=
  match setting? key with
  | some o =>
    match o.set? s value with
    | some t => (t, [])
    | none => (s, warn (.invalidValue value key (o.get s)))
  | none =>
    match WrapContext.ofKey? key with
    | some c =>
      match Policy.parse value with
      | .ok p => (s.withPolicy c p, [])
      | .error e => (s, warn (.invalidPolicy value key e.message))
    | none => (s, warn (.unknownOption key))

/-- Sets the options of a list one after the other. -/
def applyEach (s : Style) : OptionMap → Style × Report
  | [] => (s, [])
  | (key, value) :: rest =>
    let (t, r) := s.applyOption key value
    let (u, r') := t.applyEach rest
    (u, r ++ r')

/-- Sets the options of a map in the order of their keys, and normalizes the style. -/
def apply (s : Style) (options : OptionMap) : Style × Report :=
  let (t, r) := s.applyEach options.sorted
  let (u, r') := t.normalize
  (u, r ++ r')

/-- The style of a map of options on top of the default one. -/
def ofOptions (options : OptionMap) : Style × Report :=
  default.apply options

/-- The map of options that stands for a style. -/
def toOptions (s : Style) : OptionMap :=
  (settings.map fun o => (o.key, o.get s)) ++
    WrapContext.configurable.map fun c => (c.key, (s.policy c).render)

/-- All keys that are known, in order. -/
def keys : List Bytes :=
  (OptionMap.sorted bare.toOptions).map (·.1)

end Style

end CodeLayout
