import CodeLayout.Report
import CodeLayout.Style.Context
import CodeLayout.Style.Policy
import CodeLayout.Text.Width

/-!
# Styles

A style settles everything the formatter may choose: indentation, page width, what happens to
comments, and one policy for each wrap context. A style that was put together by hand may hold
numbers that make no sense; normalizing moves them into range and says so.

The columns of an indentation are kept in words, like all columns. Those of a normalized style fit
in a word for any levels that a tree can have, and are then also computed as they are.
-/

namespace CodeLayout

/-- What indentation is written with. -/
inductive IndentChar where
  /-- One tab for each level. -/
  | tab
  /-- A number of spaces for each level. -/
  | space
  /-- As many columns for each level, written as tabs as far as tabs go. -/
  | mixed
  /-- A number that stands for none of these. -/
  | unknown (code : Nat)
  deriving DecidableEq, Repr, Inhabited

namespace IndentChar

/-- The choice with a given number. -/
def ofCode : Nat → IndentChar
  | 0 => .tab
  | 1 => .space
  | 2 => .mixed
  | n => .unknown n

/-- The word for a choice. -/
def name : IndentChar → Bytes
  | .tab => ascii "tab"
  | .space => ascii "space"
  | .mixed => ascii "mixed"
  | .unknown code => ascii "IndentChar(" ++ natDigits code ++ ascii ")"

end IndentChar

/-- What happens to comments. -/
structure CommentRules where
  lineComments : Bool := false
  blockComments : Bool := false
  docComments : Bool := false
  /-- Whether the first comment of a file, before any code, is reflowed too. -/
  header : Bool := false
  /-- Whether the line breaks of the author are given up. -/
  joinLines : Bool := false
  /-- Whether lines behind a tag are indented under its description. -/
  indentRootTags : Bool := false
  /-- The width of comment lines; zero stands for the page width. -/
  lineLength : Int := 0
  deriving DecidableEq, Repr, Inhabited

/-- Everything the formatter may choose. -/
structure Style where
  indentChar : IndentChar := .tab
  tabSize : Int := 0
  indentSize : Int := 0
  /-- The levels by which a wrapped line is indented. -/
  continuation : Int := 0
  /-- The width of lines; zero stands for no limit. -/
  pageWidth : Int := 0
  separator : Bytes := []
  /-- Whether breaks of the input between wrappable elements are given up. -/
  joinWrapped : Bool := false
  /-- Whether an outer group is split before the groups in it. -/
  wrapOuter : Bool := false
  useTags : Bool := false
  disablingTag : Bytes := []
  enablingTag : Bytes := []
  /-- The number of blank lines in a row that are kept. -/
  blankLines : Int := 0
  breakAfterAnnotations : Bool := false
  comments : CommentRules := {}
  /-- The policy of each context that has one. -/
  policies : WrapContext → Policy := fun _ => .none
  deriving Inhabited

namespace Style

/-- The greatest tab size, indentation size and continuation. -/
def maxIndent : Int := 64

/-- The greatest page width. -/
def maxWidth : Int := 9999

/-- The greatest number of blank lines in a row. -/
def maxBlank : Int := 99

/-- The width that stands for no limit. -/
def unlimited : Int := 2147483647

/-- The style with nothing set. -/
def bare : Style := {}

/-- The style that is used unless another is given. -/
def default : Style where
  indentChar := .tab
  tabSize := 4
  indentSize := 4
  continuation := 2
  pageWidth := 120
  separator := [newline]
  joinWrapped := true
  wrapOuter := true
  disablingTag := ascii "@formatter:off"
  enablingTag := ascii "@formatter:on"
  blankLines := 1
  breakAfterAnnotations := true
  comments :=
    { lineComments := true, blockComments := true, docComments := true, joinLines := true,
      indentRootTags := true }
  policies := fun c =>
    match c with
    | .plain | .unknown _ | .annotationArguments | .assignment => .none
    | _ => .ofSplit .compact

/-- The policy of a context; a context without a policy takes no optional breaks. -/
def policy (s : Style) (c : WrapContext) : Policy :=
  if c.isConfigurable then s.policies c else .none

/-- The style with another policy for a context. -/
def withPolicy (s : Style) (c : WrapContext) (p : Policy) : Style :=
  if c.isConfigurable then { s with policies := fun d => if d = c then p else s.policies d } else s

/-- Whether two styles agree in all they settle. -/
def agrees (s t : Style) : Bool :=
  s.indentChar = t.indentChar && s.tabSize = t.tabSize && s.indentSize = t.indentSize &&
    s.continuation = t.continuation && s.pageWidth = t.pageWidth && s.separator = t.separator &&
    s.joinWrapped = t.joinWrapped && s.wrapOuter = t.wrapOuter && s.useTags = t.useTags &&
    s.disablingTag = t.disablingTag && s.enablingTag = t.enablingTag &&
    s.blankLines = t.blankLines && s.breakAfterAnnotations = t.breakAfterAnnotations &&
    s.comments = t.comments &&
    WrapContext.configurable.all fun c => s.policies c = t.policies c

/-- The width that lines must keep to. -/
def width (s : Style) : Int :=
  if s.pageWidth ≤ 0 then unlimited else s.pageWidth

/-- The width that comment lines must keep to. -/
def commentWidth (s : Style) : Int :=
  if 0 < s.comments.lineLength then min s.comments.lineLength s.width else s.width

/-- Whether levels of indentation take any room. -/
def indents (s : Style) (levels : Int) : Bool :=
  0 < s.tabSize && 0 < s.indentSize && 0 < levels

section Indentation

-- How a number of columns is kept: as it is, or in a word.
variable (keep : Int → Int)

/-- The columns that a number of levels takes. -/
def columnsBy (s : Style) (levels : Int) : Int :=
  if s.indents levels then
    match s.indentChar with
    | .tab => keep (levels * s.tabSize)
    | _ => keep (levels * s.indentSize)
  else 0

/-- The text of a number of levels, with further columns of spaces behind it. -/
def textBy (s : Style) (levels align : Int) : Bytes :=
  let spaces (n : Int) : Bytes := List.replicate n.toNat 32
  let tabs (n : Int) : Bytes := List.replicate n.toNat 9
  let columns := keep (levels * s.indentSize)
  let level :=
    if s.indents levels then
      match s.indentChar with
      | .tab => tabs levels
      | .space => spaces columns
      | .mixed => tabs (columns / s.tabSize) ++ spaces (columns % s.tabSize)
      | .unknown _ => []
    else []
  level ++ spaces align

end Indentation

/-- The columns that a number of levels takes. -/
def levelColumns (s : Style) (levels : Int) : Int :=
  s.columnsBy id levels

/-- The text of a number of levels, with further columns of spaces behind it. -/
def indentation (s : Style) (levels align : Int) : Bytes :=
  s.textBy id levels align

/-- The columns that a number of levels takes, in words. -/
def indentColumns (s : Style) (levels : Int) : Int :=
  s.columnsBy Width.word levels

/-- The text of a number of levels, with further columns of spaces behind it, in words. There is
none if spaces are to be written and their number has become negative. -/
def indentation? (s : Style) (levels align : Int) : Option Bytes :=
  if (s.indentChar = .space || s.indentChar = .mixed) && s.indentColumns levels < 0 then none
  else some (s.textBy Width.word levels align)

/-- A number moved into a range, with the warning that is due if it was outside. -/
def clamp (key : Bytes) (lo hi value : Int) : Int × Report :=
  let warn (used : Int) : Int × Report :=
    (used, [{ level := .warning, problem := .outOfRange key value used }])
  if value < lo then warn lo
  else if hi < value then warn hi
  else (value, [])

/-- The separators that lines may end in. -/
def separators : List Bytes :=
  [[10], [13, 10], [13]]

end Style

end CodeLayout
