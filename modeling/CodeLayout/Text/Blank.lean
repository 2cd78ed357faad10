import CodeLayout.Text.Utf8

/-!
# Blank characters

White space in the sense of the Unicode property, and the two operations that read it: trimming a
text and splitting it into words.
-/

namespace CodeLayout

/-- Whether a code point is white space. -/
def isBlank (c : Nat) : Bool :=
  (9 ≤ c && c ≤ 13) || c = 32 || c = 0x85 || c = 0xA0 || c = 0x1680 ||
    (0x2000 ≤ c && c ≤ 0x200A) || c = 0x2028 || c = 0x2029 || c = 0x202F || c = 0x205F ||
    c = 0x3000

/-- Whether a character is white space. -/
def Character.isBlank (r : Character) : Bool :=
  CodeLayout.isBlank r.code

/-- The words of a list of characters, where `word` holds, in reverse, what was read of the word
the list continues. -/
def wordsFrom (word : List Character) : List Character → List Bytes
  | [] => if word.isEmpty then [] else [Bytes.ofCharacters word.reverse]
  | r :: rest =>
    if r.isBlank then
      if word.isEmpty then wordsFrom [] rest
      else Bytes.ofCharacters word.reverse :: wordsFrom [] rest
    else wordsFrom (r :: word) rest

namespace Bytes

/-- The text without white space at its start. -/
def trimStart (s : Bytes) : Bytes :=
  ofCharacters (s.characters.dropWhile Character.isBlank)

/-- The text without white space at its end. -/
def trimEnd (s : Bytes) : Bytes :=
  ofCharacters (s.characters.reverse.dropWhile Character.isBlank).reverse

/-- The text without white space at either end. -/
def trim (s : Bytes) : Bytes :=
  let behind := s.characters.dropWhile Character.isBlank
  ofCharacters (behind.reverse.dropWhile Character.isBlank).reverse

/-- The maximal runs of characters that are not white space. -/
def words (s : Bytes) : List Bytes :=
  wordsFrom [] s.characters

/-- The words of a text with one space between neighbours. -/
def squeeze (s : Bytes) : Bytes :=
  join [32] s.words

end Bytes

end CodeLayout
