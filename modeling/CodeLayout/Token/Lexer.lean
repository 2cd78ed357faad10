import CodeLayout.Report
import CodeLayout.Text.Letter
import CodeLayout.Token

/-!
# From text to tokens

Each rule says how many bytes at the start of a text it recognizes. The rules are tried in order
and the first that recognizes anything makes the next token, so a rule whose texts can start like
those of another stands before it. What no rule recognizes becomes a token of one character, so
every text has tokens, and their texts in order are the text.

Closing angle brackets are always tokens of their own; the grammar joins neighbours into shift
operators where it needs them.
-/

namespace CodeLayout

namespace Lexer

/-- Whether a byte is white space between tokens. -/
def isSpace (b : UInt8) : Bool :=
  b = 32 || b = 9 || b = 13 || b = 10 || b = 12

/-- Whether a byte ends a line. -/
def isEol (b : UInt8) : Bool :=
  b = 13 || b = 10

/-- The length of the shortest start of a text that ends in `p`. -/
def lengthThrough? (p : Bytes) : Bytes → Option Nat
  | [] => if p.isEmpty then some 0 else none
  | b :: rest =>
    if p.isPrefixOf (b :: rest) then some p.length
    else (lengthThrough? p rest).map (· + 1)

/-- A run of white space. -/
def space (s : Bytes) : Nat :=
  (s.takeWhile isSpace).length

/-- A comment that goes on to the end of its line. -/
def lineComment : Bytes → Nat
  | 47 :: 47 :: rest => 2 + (rest.takeWhile fun b => !isEol b).length
  | _ => 0

/-- A comment between its delimiters. -/
def blockComment : Bytes → Nat
  | 47 :: 42 :: rest =>
    match lengthThrough? (ascii "*/") rest with
    | some n => 2 + n
    | none => 0
  | _ => 0

/-- A comment that is never closed takes all that is left. -/
def openComment : Bytes → Nat
  | 47 :: 42 :: rest => 2 + rest.length
  | _ => 0

/-- A literal between triple quotes. -/
def textBlock : Bytes → Nat
  | 34 :: 34 :: 34 :: rest =>
    match lengthThrough? (ascii "\"\"\"") rest with
    | some n => 3 + n
    | none => 0
  | _ => 0

/-- The rest of a literal behind its opening quote: up to the closing quote, or up to the end of
the line, or to a backslash that ends it. A backslash takes the byte behind it along. -/
def literalRest (quote : UInt8) : Bytes → Nat
  | [] => 0
  | [b] => if isEol b || b = 92 then 0 else 1
  | b :: c :: rest =>
    if b = quote then 1
    else if isEol b then 0
    else if b = 92 then (if c = 10 then 0 else 2 + literalRest quote rest)
    else 1 + literalRest quote (c :: rest)

/-- A literal between single characters `quote`. -/
def literal (quote : UInt8) : Bytes → Nat
  | [] => 0
  | b :: rest => if b = quote then 1 + literalRest quote rest else 0

/-- Whether a byte is a digit or the mark between digits. -/
def isDigitOrMark (b : UInt8) : Bool :=
  isDigit b || b = 95

/-- Whether a byte is a hexadecimal digit or the mark between digits. -/
def isHexOrMark (b : UInt8) : Bool :=
  isDigitOrMark b || (97 ≤ b && b ≤ 102) || (65 ≤ b && b ≤ 70)

/-- Whether a byte is a binary digit or the mark between digits. -/
def isBinaryOrMark (b : UInt8) : Bool :=
  b = 48 || b = 49 || b = 95

/-- The length of a run of bytes with a property. -/
def runLength (f : UInt8 → Bool) (s : Bytes) : Nat :=
  (s.takeWhile f).length

/-- A number with a base mark: zero, one of two letters, and at least one digit. -/
def basedNumber (lower upper : UInt8) (f : UInt8 → Bool) : Bytes → Nat
  | 48 :: x :: rest =>
    if x = lower || x = upper then
      let n := runLength f rest
      if n = 0 then 0 else 2 + n
    else 0
  | _ => 0

/-- The digits of a decimal number, with or without a point. -/
def decimalDigits : Bytes → Nat
  | [] => 0
  | b :: rest =>
    if isDigit b then
      let n := runLength isDigitOrMark rest
      match rest.drop n with
      | 46 :: more => 1 + n + 1 + runLength isDigitOrMark more
      | _ => 1 + n
    else if b = 46 then
      match rest with
      | c :: more => if isDigit c then 2 + runLength isDigitOrMark more else 0
      | [] => 0
    else 0

/-- An exponent: its letter, an optional sign, and at least one digit. -/
def exponent : Bytes → Nat
  | [] => 0
  | b :: rest =>
    if b = 101 || b = 69 then
      match rest with
      | [] => 0
      | c :: more =>
        if c = 43 || c = 45 then
          let n := runLength isDigit more
          if n = 0 then 0 else 2 + n
        else
          let n := runLength isDigit rest
          if n = 0 then 0 else 1 + n
    else 0

/-- The letter that gives a number its type. -/
def numberLetter : Bytes → Nat
  | [] => 0
  | b :: _ => if (ascii "lLfFdD").contains b then 1 else 0

/-- The part of a number in front of its type letter. -/
def numberBody (s : Bytes) : Nat :=
  let hex := basedNumber 120 88 isHexOrMark s
  if hex ≠ 0 then hex
  else
    let binary := basedNumber 98 66 isBinaryOrMark s
    if binary ≠ 0 then binary
    else
      let digits := decimalDigits s
      if digits = 0 then 0 else digits + exponent (s.drop digits)

/-- A number. -/
def number (s : Bytes) : Nat :=
  let n := numberBody s
  if n = 0 then 0 else n + numberLetter (s.drop n)

/-- Whether a name can start with a code point. -/
def startsName (c : Nat) : Bool :=
  isLetter c || c = 95 || c = 36

/-- Whether a name can go on with a code point. -/
def continuesName (c : Nat) : Bool :=
  isLetter c || isNumeral c || c = 95 || c = 36

/-- The rest of a name, of at most `n` characters. -/
def nameRest : Nat → Bytes → Nat
  | 0, _ => 0
  | _ + 1, [] => 0
  | n + 1, a :: rest =>
    let r := Utf8.first a rest
    if continuesName r.code then
      r.bytes.length + nameRest n ((a :: rest).drop r.bytes.length)
    else 0

/-- A name or a keyword. -/
def name (s : Bytes) : Nat :=
  match s with
  | [] => 0
  | a :: rest =>
    let r := Utf8.first a rest
    if startsName r.code then
      r.bytes.length + nameRest s.length ((a :: rest).drop r.bytes.length)
    else 0

/-- The operators and delimiters of more than one byte; of two that start alike the longer one
comes first. -/
def longPuncts : List Bytes :=
  ["...", "->", "::", "++", "--", "&&", "||", "<<=", "<<", "-=", "+=", "*=", "/=", "%=", "&=", "|=",
    "^=", "!=", "==", "<="].map ascii

/-- The operators and delimiters of one byte. -/
def shortPuncts : Bytes :=
  ascii "()\x7b\x7d[];,.@=<>!~?:+-*/&|^%"

/-- An operator or a delimiter. -/
def punct (s : Bytes) : Nat :=
  match longPuncts.find? fun p => p.isPrefixOf s with
  | some p => p.length
  | none =>
    match s with
    | b :: _ => if shortPuncts.contains b then 1 else 0
    | [] => 0

/-- Any single character. -/
def anyCharacter : Bytes → Nat
  | [] => 0
  | a :: rest => (Utf8.first a rest).bytes.length

/-- The rules in the order in which they are tried. -/
def rules : List (TokenKind × (Bytes → Nat)) :=
  [(.space, space), (.comment, lineComment), (.comment, blockComment), (.comment, openComment),
    (.string, textBlock), (.string, literal 34), (.string, literal 39), (.number, number),
    (.ident, name), (.punct, punct), (.unrecognized, anyCharacter)]

/-- The kind and the length of the first token of a text, by the first of the given rules that
recognizes anything. -/
def firstToken (s : Bytes) : List (TokenKind × (Bytes → Nat)) → TokenKind × Nat
  | [] => (.unrecognized, 1)
  | (kind, rule) :: rest =>
    let n := rule s
    if n = 0 then firstToken s rest else (kind, n)

/-- The tokens of a text that starts at an offset, at most `n` of them. -/
def tokensFrom : Nat → Nat → Bytes → List Token
  | 0, _, _ => []
  | _ + 1, _, [] => []
  | n + 1, offset, b :: rest =>
    let (kind, length) := firstToken (b :: rest) rules
    ⟨kind, offset, (b :: rest).take length⟩ ::
      tokensFrom n (offset + length) ((b :: rest).drop length)

/-- Whether a delimited token of at least `least` bytes more than its closing delimiter ends with
that delimiter. -/
def isClosed (s closing : Bytes) (least : Nat) : Bool :=
  least + closing.length ≤ s.length && closing.isSuffixOf s

/-- What is wrong with a token, if anything. -/
def problem? (t : Token) : Option Problem :=
  match t.kind with
  | .unrecognized => some (.unrecognizedCharacter t.text)
  | .comment =>
    if CommentStyle.ofText t.text != .line && !isClosed t.text (ascii "*/") 2 then
      some .unterminatedComment
    else none
  | .string => if isClosed t.text (t.text.take 1) 1 then none else some .unterminatedLiteral
  | _ => none

/-- The error that a token of a file is reported with, if any. -/
def diagnose? (file : SourceFile) (t : Token) : Option Diagnostic :=
  (problem? t).map fun problem =>
    { level := .error, problem, span := ⟨some file, t.start, t.stop⟩ }

end Lexer

open Lexer in
/-- The tokens of a text in order. -/
def Token.ofText (s : Bytes) : List Token :=
  tokensFrom s.length 0 s

/-- The tokens of a file. -/
def TokenStream.ofFile (file : SourceFile) : TokenStream :=
  ⟨file, (Token.ofText file.text).toArray⟩

/-- The errors of the tokens of a file, in the order of the tokens. -/
def TokenStream.report (s : TokenStream) : Report :=
  s.tokens.toList.filterMap (Lexer.diagnose? s.file)

end CodeLayout
