import CodeLayout.Text.Blank
import CodeLayout.Token

/-!
# Comments

A comment as it appeared in the input, or a run of line comments that continue one another. A
comment is laid out for a column as a list of lines, of which the first is written at that column.
-/

namespace CodeLayout

/-- What may be done to a comment. -/
structure CommentOptions where
  /-- Whether it may be reflowed at all. -/
  reflow : Bool := false
  /-- Whether it is the header of its file and may be put on one line. -/
  header : Bool := false
  /-- Whether the line breaks of the author are given up. -/
  join : Bool := false
  /-- Whether lines behind a tag hang under it. -/
  rootTags : Bool := false
  /-- The distance of tab stops for measuring. -/
  tabstop : Int := 0
  deriving DecidableEq, Repr, Inhabited

/-- A comment, or a run of line comments. Only a run has more than one text. -/
structure Comment where
  style : CommentStyle
  raw : List Bytes
  options : CommentOptions
  deriving DecidableEq, Repr, Inhabited

/-- A comment that is laid out. -/
structure Rendered where
  lines : List Bytes := []
  /-- Whether the lines after the first are aligned with it. Otherwise they are written from the
  start of the line, as they are. -/
  aligned : Bool := false
  deriving DecidableEq, Repr, Inhabited

namespace Comment

/-- A comment with the given texts. Its form is that of its first text. -/
def ofRaw (raw : List Bytes) (options : CommentOptions) : Comment where
  style :=
    match raw with
    | [] => .line
    | text :: _ => .ofText text
  raw := raw
  options := options

/-- The first text of a comment. -/
def text (c : Comment) : Bytes :=
  c.raw.headD []

/-- Whether a comment takes more than one line in the input. -/
def isMultiline (c : Comment) : Bool :=
  1 < c.raw.length || c.text.contains newline

/-- Whether a byte at the end of a comment line is of no account. -/
def isTrailing (b : UInt8) : Bool :=
  b = 32 || b = 9 || b = 13

/-- A comment line without what is of no account at its end. -/
def trimLine (s : Bytes) : Bytes :=
  s.trimRight isTrailing

/-- The lines of a text, without what is of no account at their ends. -/
def textLines (s : Bytes) : List Bytes :=
  (s.pieces newline).map trimLine

/-- Whether a line starts with a star. -/
def isStarred (line : Bytes) : Bool :=
  line.trim.head? = some 42

/-- The comment without reflowing. If every line after the first starts with a star, the stars are
put under that of the first line; otherwise the lines stay as they are. -/
def asWritten (c : Comment) : Rendered :=
  if c.style = .line then ⟨c.raw.map trimLine, true⟩
  else
    match textLines c.text with
    | [] => ⟨[], false⟩
    | first :: rest =>
      if rest.all isStarred then ⟨first :: rest.map fun l => 32 :: l.trim, true⟩
      else ⟨first :: rest, false⟩

end Comment

end CodeLayout
