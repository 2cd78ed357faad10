import CodeLayout.Syntax.Node
import CodeLayout.Token.Word

/-!
# Looking ahead

What the grammar sees of a token stream: the tokens with structure and a cursor between them. The
functions here look at tokens around the cursor and consume nothing. Positions are relative to the
cursor; a position outside of the stream has the empty text.
-/

namespace CodeLayout

/-- A token with its index in the stream. -/
structure Lexeme where
  id : Nat
  token : Token
  deriving Repr, Inhabited

/-- The tokens with structure, and how many of them have been consumed. -/
structure Cursor where
  lexemes : Array Lexeme
  pos : Nat := 0
  deriving Repr, Inhabited

namespace Cursor

/-- The tokens of a stream that carry structure. -/
def ofStream (s : TokenStream) : Cursor where
  lexemes :=
    ((s.tokens.toList.zipIdx.filter fun (t, _) => !t.kind.isSkippable).map fun (t, i) =>
      ⟨i, t⟩).toArray

/-- Whether all tokens are consumed. -/
def isDone (c : Cursor) : Bool :=
  c.lexemes.size ≤ c.pos

/-- The token at a position. -/
def get? (c : Cursor) (k : Int) : Option Lexeme :=
  let i := c.pos + k
  if i < 0 then none else c.lexemes[i.toNat]?

/-- The text of the token at a position. -/
def text (c : Cursor) (k : Int) : Bytes :=
  match c.get? k with
  | some l => l.token.text
  | none => []

/-- The kind of the token at a position. -/
def kind (c : Cursor) (k : Int) : TokenKind :=
  match c.get? k with
  | some l => l.token.kind
  | none => .unrecognized

/-- Whether the token at a position has a text. -/
@[inline] def isAt (c : Cursor) (k : Int) (s : String) : Bool :=
  c.text k == ascii s

/-- Whether the tokens at a position and the next have nothing between them. -/
def touches (c : Cursor) (k : Int) : Bool :=
  match c.get? k, c.get? (k + 1) with
  | some a, some b => b.id = a.id + 1
  | _, _ => false

/-- Whether the token at a position is an identifier or a keyword. -/
def isWord (c : Cursor) (k : Int) : Bool :=
  c.kind k = .ident

/-- Whether the token at a position can be a name. -/
def isName (c : Cursor) (k : Int) : Bool :=
  c.isWord k && !Word.isKeyword (c.text k)

/-- Whether a type can start with the token at a position. -/
def isTypeName (c : Cursor) (k : Int) : Bool :=
  c.isName k || c.isAt k "void"

/-- A bound on the steps of a search. -/
def bound (c : Cursor) : Nat :=
  c.lexemes.size + 2

/-- Searches from a position at which `depth` brackets are open for the position behind the
bracket that closes the last of them. -/
def closeFrom (c : Cursor) : Nat → Nat → Int → Option Int
  | 0, _, _ => none
  | fuel + 1, depth, k =>
    match c.get? k with
    | none => none
    | some l =>
      let t := l.token.text
      if t == ascii "(" || t == ascii "[" || t == ascii "\x7b" then
        c.closeFrom fuel (depth + 1) (k + 1)
      else if t == ascii ")" || t == ascii "]" || t == ascii "\x7d" then
        if depth = 0 then none
        else if depth = 1 then some (k + 1)
        else c.closeFrom fuel (depth - 1) (k + 1)
      else c.closeFrom fuel depth (k + 1)

/-- The position behind the bracket that closes the one at a position. -/
def skipBalanced (c : Cursor) (k : Int) : Option Int :=
  c.closeFrom c.bound 0 k

/-- Searches from a position at which `depth` angle brackets are open for the position behind the
one that closes the last of them. Only tokens that occur in type arguments may be passed. -/
def typeArgsFrom (c : Cursor) : Nat → Int → Int → Option Int
  | 0, _, _ => none
  | fuel + 1, depth, k =>
    match c.get? k with
    | none => none
    | some l =>
      let t := l.token.text
      if t == ascii "<" then c.typeArgsFrom fuel (depth + 1) (k + 1)
      else if t == ascii ">" then
        if depth = 1 then some (k + 1) else c.typeArgsFrom fuel (depth - 1) (k + 1)
      else if l.token.kind = .ident ||
          ([".", ",", "?", "&", "[", "]", "@"].map ascii).contains t then
        c.typeArgsFrom fuel depth (k + 1)
      else none

/-- The position behind the type arguments that open at a position. -/
def skipTypeArgs (c : Cursor) (k : Int) : Option Int :=
  c.typeArgsFrom c.bound 0 k

/-- The position behind words with dots between them. -/
def skipWords (c : Cursor) : Nat → Int → Int
  | 0, k => k
  | fuel + 1, k =>
    if c.isWord k then
      if c.isAt (k + 1) "." then c.skipWords fuel (k + 2) else k + 1
    else k

/-- Whether an annotation starts at a position. -/
def isAnnot (c : Cursor) (k : Int) : Bool :=
  c.isAt k "@" && !c.isAt (k + 1) "interface"

/-- The position behind the annotations at a position, unless the arguments of one of them are
never closed. -/
def annotsFrom (c : Cursor) : Nat → Int → Option Int
  | 0, k => some k
  | fuel + 1, k =>
    if c.isAnnot k then
      let k := c.skipWords c.bound (k + 1)
      if c.isAt k "(" then
        match c.skipBalanced k with
        | some k => c.annotsFrom fuel k
        | none => none
      else c.annotsFrom fuel k
    else some k

/-- The position behind the annotations at a position; the position before the cursor if the
arguments of one of them are never closed. -/
def skipAnnots (c : Cursor) (k : Int) : Int :=
  (c.annotsFrom c.bound k).getD (-1)

/-- The position behind the rest of a type name: type arguments and further names. -/
def typeNameFrom (c : Cursor) : Nat → Int → Option Int
  | 0, k => some k
  | fuel + 1, k =>
    match (if c.isAt k "<" then c.skipTypeArgs k else some k) with
    | none => none
    | some k => if c.isAt k "." && c.isName (k + 1) then c.typeNameFrom fuel (k + 2) else some k

/-- The position behind pairs of empty brackets. -/
def skipDims (c : Cursor) : Nat → Int → Int
  | 0, k => k
  | fuel + 1, k => if c.isAt k "[" && c.isAt (k + 1) "]" then c.skipDims fuel (k + 2) else k

/-- The position behind the type at a position, if there is a type. -/
def skipType (c : Cursor) (k : Int) : Option Int :=
  let k := c.skipAnnots k
  if c.isTypeName k then (c.typeNameFrom c.bound (k + 1)).map (c.skipDims c.bound) else none

/-- Whether a type followed by a name starts at the cursor. -/
def isTyped (c : Cursor) : Bool :=
  match c.skipType 0 with
  | some k => c.isName k
  | none => false

/-- Whether the declaration of a type starts at the cursor, behind its modifiers. -/
def isTypeDecl (c : Cursor) : Bool :=
  c.isAt 0 "class" || c.isAt 0 "interface" || c.isAt 0 "enum" ||
    (c.isAt 0 "record" && c.isName 1 && (c.isAt 2 "(" || c.isAt 2 "<")) ||
    (c.isAt 0 "@" && c.isAt 1 "interface")

/-- Whether a label `default` of a switch stands at the cursor. -/
def isDefaultLabel (c : Cursor) : Bool :=
  c.isAt 0 "default" && (c.isAt 1 ":" || c.isAt 1 "->")

/-- How many closing angle brackets touch at the cursor, at most three. -/
def angleRun (c : Cursor) : Nat :=
  if c.isAt 1 ">" && c.touches 0 then (if c.isAt 2 ">" && c.touches 1 then 3 else 2) else 1

/-- The operator at the cursor and the number of its tokens. Closing angle brackets that touch,
and an equals sign that touches them, are one operator. -/
def operator (c : Cursor) : Bytes × Nat :=
  if c.isAt 0 ">" then
    let n := c.angleRun
    let op := List.replicate n 62
    if c.isAt n "=" && c.touches (n - 1) then (op ++ [61], n + 1) else (op, n)
  else if c.kind 0 = .punct || c.isAt 0 "instanceof" then (c.text 0, 1)
  else ([], 0)

end Cursor

end CodeLayout
