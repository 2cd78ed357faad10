/-!
# Texts as byte sequences

Source text is any sequence of bytes: it need not be well-formed UTF-8, and every offset counts
bytes. This module holds the operations on such texts that look at single bytes only.
-/

namespace CodeLayout

/-- A text: its bytes in order. -/
abbrev Bytes := List UInt8

/-- The bytes of a literal made of ASCII characters. -/
def ascii (s : String) : Bytes :=
  s.toList.map fun c => c.toNat.toUInt8

/-- The line break byte. -/
def newline : UInt8 := 10

namespace Bytes

/-- The bytes from offset `i` up to, and not including, offset `j`. -/
def slice (s : Bytes) (i j : Nat) : Bytes :=
  (s.drop i).take (j - i)

/-- The maximal pieces of a text between separators: one more than there are separators. -/
def pieces (sep : UInt8) : Bytes → List Bytes
  | [] => [[]]
  | b :: rest =>
    if b = sep then [] :: pieces sep rest
    else match pieces sep rest with
      | [] => [[b]]
      | p :: ps => (b :: p) :: ps

/-- The pieces of a text joined by a separator text. -/
def join (sep : Bytes) : List Bytes → Bytes
  | [] => []
  | [p] => p
  | p :: q :: ps => p ++ sep ++ join sep (q :: ps)

/-- The text in front of the first separator and the text behind it, if there is a separator. -/
def cut? (sep : UInt8) : Bytes → Option (Bytes × Bytes)
  | [] => none
  | b :: rest =>
    if b = sep then some ([], rest)
    else (cut? sep rest).map fun (l, r) => (b :: l, r)

/-- The number of line breaks in a text. -/
def newlines (s : Bytes) : Nat :=
  s.count newline

/-- The part of a text behind its last line break. -/
def lastLine (s : Bytes) : Bytes :=
  (s.reverse.takeWhile (· ≠ newline)).reverse

/-- Whether `p` occurs somewhere in `s`. -/
def has (p : Bytes) : Bytes → Bool
  | [] => p.isEmpty
  | b :: rest => p.isPrefixOf (b :: rest) || has p rest

/-- The text without the bytes at its start that satisfy `f`. -/
def trimLeft (f : UInt8 → Bool) (s : Bytes) : Bytes :=
  s.dropWhile f

/-- The text without the bytes at its end that satisfy `f`. -/
def trimRight (f : UInt8 → Bool) (s : Bytes) : Bytes :=
  (s.reverse.dropWhile f).reverse

/-- The text without `p` at its end; the text itself if it does not end in `p`. -/
def dropEnding (p s : Bytes) : Bytes :=
  if p.isSuffixOf s then s.take (s.length - p.length) else s

/-- The text without `p` at its start; the text itself if it does not start with `p`. -/
def dropLead (p s : Bytes) : Bytes :=
  if p.isPrefixOf s then s.drop p.length else s

/-- Whether one text stands before another in byte order. -/
def before : Bytes → Bytes → Bool
  | _, [] => false
  | [], _ :: _ => true
  | a :: s, b :: t => a < b || (a == b && before s t)

/-- Whether a text ends in a line feed or a carriage return. -/
def endsLine (s : Bytes) : Bool :=
  match s.getLast? with
  | some b => b = 10 || b = 13
  | none => false

@[simp] theorem pieces_ne_nil (sep : UInt8) (s : Bytes) : pieces sep s ≠ [] := by
  cases s with
  | nil => simp [pieces]
  | cons b rest => rw [pieces]; split <;> (try split) <;> simp

end Bytes

end CodeLayout
