import CodeLayout.IntervalMap
import CodeLayout.Style.Basic
import CodeLayout.Token

/-!
# Regions that are left alone

A region opens behind a comment that starts with the disabling tag, and closes behind the next
comment that starts with the enabling tag, or at the end of the text. Its bytes are copied to the
output as they are.
-/

namespace CodeLayout

/-- A range of the input that is copied as it is. -/
structure VerbatimSpan where
  start : Nat
  stop : Nat
  /-- Whether it ends in a line comment, so that what follows must start a line. -/
  lineComment : Bool := false
  deriving DecidableEq, Repr, Inhabited

/-- The regions of a file. -/
abbrev Regions := IntervalMap VerbatimSpan

namespace Verbatim

/-- One line of a block comment without white space around it and stars in front. -/
def bareLine (line : Bytes) : Bytes :=
  line.trim.trimLeft (· = 42)

/-- A comment without its delimiters; of a block comment also without the stars of its lines. -/
def body (comment : Bytes) : Bytes :=
  if (ascii "//").isPrefixOf comment then comment.drop 2
  else if (ascii "/*").isPrefixOf comment then
    let inner := Bytes.dropEnding (ascii "*/") (comment.drop 2)
    Bytes.join [newline] ((inner.pieces newline).map bareLine)
  else comment

/-- Whether a comment mentions one of the tags of a style. -/
def hasTag (comment : Bytes) (style : Style) : Bool :=
  style.useTags &&
    [style.disablingTag, style.enablingTag].any fun tag =>
      let tag := tag.squeeze
      !tag.isEmpty && Bytes.has tag (body comment).squeeze

/-- Whether a comment starts with a tag. The empty tag is in no comment. -/
def startsWith (tag comment : Bytes) : Bool :=
  !tag.isEmpty && tag.isPrefixOf (body comment).squeeze

/-- The spans of a list of tokens. If a span is open, `opened` is where it starts. -/
def spansFrom (off on : Bytes) (length : Nat) : Option Nat → List Token → List VerbatimSpan
  | none, [] => []
  | some start, [] => if start < length then [⟨start, length, false⟩] else []
  | opened, t :: ts =>
    if t.kind = .comment then
      match opened with
      | none => spansFrom off on length (if startsWith off t.text then some t.stop else none) ts
      | some start =>
        if startsWith on t.text then
          ⟨start, t.stop, CommentStyle.ofText t.text = .line⟩ :: spansFrom off on length none ts
        else spansFrom off on length (some start) ts
    else spansFrom off on length opened ts

/-- Adds a span to the regions unless it overlaps one of them. -/
def addSpan (r : Regions) (s : VerbatimSpan) : Regions :=
  match r.insert ⟨Int64.ofNat s.start, Int64.ofNat s.stop, s⟩ with
  | .done r => r
  | _ => r

end Verbatim

namespace Regions

/-- The regions that a style leaves alone. -/
def ofStream (s : TokenStream) (style : Style) : Regions :=
  let off := style.disablingTag.squeeze
  let on := style.enablingTag.squeeze
  if style.useTags && !off.isEmpty then
    (Verbatim.spansFrom off on s.file.text.length none s.tokens.toList).foldl Verbatim.addSpan
      .empty
  else .empty

/-- The span that an offset lies in. -/
def at? (r : Regions) (offset : Int64) : Option VerbatimSpan :=
  (r.get? offset).map (·.value)

/-- All spans in order. -/
def spans (r : Regions) : List VerbatimSpan :=
  r.entries.map (·.value)

end Regions

end CodeLayout
