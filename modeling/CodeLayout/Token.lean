import CodeLayout.Source

/-!
# Tokens

The lexical elements of a program. A stream holds every token of a file, white space and comments
included, so that the texts of its tokens in order are the file.
-/

namespace CodeLayout

/-- What a token is. -/
inductive TokenKind where
  | unrecognized
  | space
  | comment
  | ident
  | string
  | number
  | punct
  deriving DecidableEq, Repr, Inhabited

namespace TokenKind

/-- All kinds in the order of their numbers. -/
def all : List TokenKind :=
  [unrecognized, space, comment, ident, string, number, punct]

/-- White space and comments carry no structure. -/
def isSkippable : TokenKind → Bool
  | .space | .comment => true
  | _ => false

/-- The name of a kind. -/
def name : TokenKind → Bytes
  | .unrecognized => ascii "Unrecognized"
  | .space => ascii "Space"
  | .comment => ascii "Comment"
  | .ident => ascii "Ident"
  | .string => ascii "String"
  | .number => ascii "Number"
  | .punct => ascii "Punct"

/-- The name of the kind with a given number; other numbers are shown as such. -/
def nameOfCode (n : Nat) : Bytes :=
  match all[n]? with
  | some k => k.name
  | none => ascii "Kind(" ++ natDigits n ++ ascii ")"

/-- Whether the kind with a given number is skippable. -/
def isSkippableCode (n : Nat) : Bool :=
  match all[n]? with
  | some k => k.isSkippable
  | none => false

end TokenKind

/-- A token: its kind, where it starts, and its text. -/
structure Token where
  kind : TokenKind
  start : Nat
  text : Bytes
  deriving DecidableEq, Repr, Inhabited

/-- The offset behind a token. -/
def Token.stop (t : Token) : Nat :=
  t.start + t.text.length

/-- The form of a comment. -/
inductive CommentStyle where
  | none
  | line
  | block
  | doc
  deriving DecidableEq, Repr, Inhabited

namespace CommentStyle

/-- The number of a form. -/
def code : CommentStyle → Nat
  | .none => 0
  | .line => 1
  | .block => 2
  | .doc => 3

/-- The form that a text has as a comment. A doc comment starts with two stars and has room for
a body between its delimiters. -/
def ofText (s : Bytes) : CommentStyle :=
  if (ascii "//").isPrefixOf s then .line
  else if (ascii "/**").isPrefixOf s && s != ascii "/**/" then .doc
  else if (ascii "/*").isPrefixOf s then .block
  else .none

end CommentStyle

/-- All tokens of a file in order. -/
structure TokenStream where
  file : SourceFile
  tokens : Array Token
  deriving Repr, Inhabited

namespace TokenStream

/-- Whether the token at an index is one with structure and has the given text. -/
def isAt (s : TokenStream) (id : Int) (text : Bytes) : Bool :=
  if id < 0 then false
  else match s.tokens[id.toNat]? with
    | some t => !t.kind.isSkippable && t.text == text
    | none => false

end TokenStream

end CodeLayout
