import CodeLayout.Comment.Paragraph

/-!
# Reflowing comments

Comments are laid out within a width by packing their words into lines. Words are never split, so
a word that is wider than the room for it stands alone on a line that is too wide.

A comment may be laid out from any column on and within any limit. Columns and the room between
them are kept in words, so that room that does not fit in one wraps around.
-/

namespace CodeLayout

namespace Comment

/-- Packs words into lines, each as full as possible. `line` holds the words of the line at hand in
reverse and `used` its width. -/
def packFrom (avail : Int) (line : List Bytes) (used : Int) : List Bytes → List (List Bytes)
  | [] => if line.isEmpty then [] else [line.reverse]
  | w :: ws =>
    let width : Int := Width.text w
    if line.isEmpty then packFrom avail [w] width ws
    else if avail < used + 1 + width then line.reverse :: packFrom avail [w] width ws
    else packFrom avail (w :: line) (used + 1 + width) ws

/-- Packs words into lines that are no wider than `avail`. Every line has at least one word. -/
def pack (words : List Bytes) (avail : Int) : List (List Bytes) :=
  packFrom avail [] 0 words

/-- The words of a line with one space between neighbours. -/
def joinWords (words : List Bytes) : Bytes :=
  Bytes.join [32] words

/-- The room for words behind a lead that starts at a column. -/
def room (column limit lead : Int) : Int :=
  Width.word (limit - column - lead)

/-- Lays out one line comment. One that is too wide is wrapped, and each of its lines gets the
slashes of the comment and the space behind them. -/
def reflowLine (tabstop column limit : Int) (raw : Bytes) : List Bytes :=
  let raw := trimLine raw
  if Width.advanceWord column tabstop raw ≤ limit then [raw]
  else
    let marker := raw.takeWhile (· = 47)
    let body : Bytes := raw.dropWhile (· = 47)
    let words := body.words
    if words.length < 2 then [raw]
    else
      let spaced := body.head? = some 32 || body.head? = some 9
      let lead := marker ++ if spaced then [32] else []
      (pack words (room column limit (Width.text lead))).map fun ws => lead ++ joinWords ws

/-- The lines of a paragraph in a block, where lines have room for `avail` columns behind their
star. -/
def paragraphLines (avail : Int) (isFirst : Bool) (p : Paragraph) : List Bytes :=
  let star := ascii " * "
  let blank := if p.blank && !isFirst then [ascii " *"] else []
  let kept := p.pre.map fun l => (star ++ l).trimRight (· = 32)
  let pad := star ++ List.replicate p.indent 32
  let flowed :=
    match pack p.words (Width.word (avail - p.indent)) with
    | [] => []
    | first :: _ =>
      let hang := List.replicate p.hang 32
      let rest := pack (p.words.drop first.length) (Width.word (avail - p.indent - p.hang))
      (pad ++ joinWords first) :: rest.map fun ws => pad ++ hang ++ joinWords ws
  blank ++ kept ++ flowed

/-- The lines of all paragraphs of a block. -/
def blockLines (avail : Int) : List Paragraph → List Bytes
  | [] => []
  | p :: ps => paragraphLines avail true p ++ ps.flatMap (paragraphLines avail false)

/-- The comment on one line, if it may be on one line and fits there. -/
def oneLine? (c : Comment) (opening : Bytes) (column limit : Int) :
    List Paragraph → Option Bytes
  | [p] =>
    let single := !c.text.contains newline || (c.options.header && c.style = .block)
    let line := opening ++ ascii " " ++ joinWords p.words ++ ascii " */"
    if single && p.pre.isEmpty && p.indent = 0 &&
        Width.advanceWord column c.options.tabstop line ≤ limit then some line
    else none
  | _ => none

/-- Lays out a block comment or a doc comment. -/
def reflowBlock (c : Comment) (column limit : Int) : Rendered :=
  let isDoc := c.style = .doc
  let opening := if isDoc then ascii "/**" else ascii "/*"
  let body := Bytes.dropEnding (ascii "*/") (c.text.drop opening.length)
  let mode : Paragraph.Mode := ⟨c.options.join, c.options.rootTags, isDoc⟩
  match Paragraph.ofBody mode body with
  | [] => c.asWritten
  | ps =>
    match c.oneLine? opening column limit ps with
    | some line => ⟨[line], true⟩
    | none => ⟨[opening] ++ blockLines (room column limit 3) ps ++ [ascii " */"], true⟩

/-- Whether a block comment is never reflowed: it is not closed, or its opening marks it as laid
out by hand. -/
def isByHand (raw : Bytes) : Bool :=
  !(ascii "*/").isSuffixOf raw || raw.length < 4 || (ascii "/*-").isPrefixOf raw ||
    (ascii "/***").isPrefixOf raw

/-- Lays out a comment from a column on, with lines within a limit where that is possible. -/
def render (c : Comment) (column limit : Int) : Rendered :=
  if !c.options.reflow then c.asWritten
  else
    match c.style with
    | .line => ⟨c.raw.flatMap (reflowLine c.options.tabstop column limit), true⟩
    | .block | .doc => if isByHand c.text then c.asWritten else c.reflowBlock column limit
    | .none => c.asWritten

end Comment

end CodeLayout
