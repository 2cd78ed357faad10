import CodeLayout.Data.Yaml.Resolve
import CodeLayout.Text.Quoted

/-!
# Writing YAML

Texts under keys, one key a line. A text is written as it is where it would be read as the same
text, else in quotes; a text of several lines is written as a block.
-/

namespace CodeLayout.Yaml

/-- Words that are truth values to some readers. -/
def truthWords : List Bytes :=
  ["y", "Y", "yes", "Yes", "YES", "on", "On", "ON", "n", "N", "no", "No", "NO", "off", "Off",
    "OFF"].map ascii

/-- Whether a text is a number below sixty, the first digit of two being below six. -/
def isSixtieth (s : Bytes) : Bool :=
  match s with
  | [d] => isDigit d
  | [d, e] => 48 ≤ d && d ≤ 53 && isDigit e
  | _ => false

/-- Whether a text is a number in base sixty, as some readers know it. -/
def isSexagesimal (s : Bytes) : Bool :=
  let s := if s.head? = some 45 || s.head? = some 43 then s.drop 1 else s
  let (whole, places) := (Bytes.cut? 46 s).getD (s, [])
  let isOwn (b : UInt8) : Bool := isDigit b || b = 95
  match Bytes.pieces 58 whole with
  | first :: second :: rest =>
    (first.head?.map isDigit).getD false && first.all isOwn && places.all isOwn &&
      (second :: rest).all isSixtieth
  | _ => false

/-- Whether a text without quotes is read as a text, also by other readers. -/
def isReadAsText (s : Bytes) : Bool :=
  (match plainValue true s with
    | .text _ => true
    | _ => false) && !truthWords.contains s && !isSexagesimal s

/-- Whether a code ends a line. -/
def isLineEnd (c : Nat) : Bool :=
  c = 10 || c = 13 || c = 0x85 || c = 0x2028 || c = 0x2029

/-- Whether a code may be written without an escape. -/
def isShown (c : Nat) : Bool :=
  c = 10 || (0x20 ≤ c && c ≤ 0x7E) || (0xA0 ≤ c && c ≤ 0xFFFD && c != 0xFEFF)

/-- Whether two neighbours satisfy `f`. -/
def anyNeighbours (f : Nat → Nat → Bool) : List Nat → Bool
  | a :: b :: rest => f a b || anyNeighbours f (b :: rest)
  | _ => false

/-- Whether the codes of a text would be taken for marks of the format, given the code before. -/
def hasMarkFrom (before : Option Nat) : List Nat → Bool
  | [] => false
  | c :: rest =>
    let behindGap := (before.map fun b => isBlank b || isLineEnd b || b = 0).getD true
    let beforeGap := (rest.head?.map isBlank).getD true
    let isMark :=
      if before.isNone then
        ("#,[]\x7b\x7d&*!|>'\"%@`".toList.map code).contains c ||
          (([code '?', code ':', code '-'] : List Nat).contains c && beforeGap)
      else (c = code ':' && beforeGap) || (c = code '#' && behindGap)
    isMark || hasMarkFrom (some c) rest

/-- Whether the codes of a text would be taken for marks of the format. -/
def hasMark (codes : List Nat) : Bool :=
  codes.take 3 = [45, 45, 45] || codes.take 3 = [46, 46, 46] || hasMarkFrom none codes

/-- How a text is written. -/
inductive Manner where
  | plain
  | single
  | double
  | literal
  deriving DecidableEq, Repr

/-- How the codes of a text are written; `bare` says that it may go without quotes. -/
def mannerOf (bare : Bool) (codes : List Nat) : Manner :=
  let isEdge (f : Nat → Bool) : Bool :=
    (codes.head?.map f).getD false || (codes.getLast?.map f).getD false
  let hasSpecial := codes.any fun c => c != 9 && !isShown c
  let spaceBreak := anyNeighbours (fun a b => a = 32 && isLineEnd b) codes
  let breakSpace := anyNeighbours (fun a b => isLineEnd a && b = 32) codes
  let allowsSingle := !breakSpace && !spaceBreak && !codes.contains 9 && !hasSpecial
  let allowsPlain := allowsSingle && !isEdge (· = 32) && !codes.any isLineEnd && !hasMark codes
  let allowsBlock := codes.getLast? != some 32 && !spaceBreak && !hasSpecial
  if codes.contains 10 then (if allowsBlock then .literal else .double)
  else if !bare then .double
  else if allowsPlain then .plain
  else if allowsSingle then .single
  else .double

/-- The digits of a number in base sixteen. -/
def upperHex (width n : Nat) : Bytes :=
  (Quoted.hexDigits width n).map fun b => if 97 ≤ b then b - 32 else b

/-- A code between double quotes. -/
def doubleCode (r : Character) : Bytes :=
  let c := r.code
  if isShown c && !isLineEnd c && c != code '"' && c != code '\\' then r.bytes
  else
    let known : List (Nat × Char) :=
      [(0, '0'), (7, 'a'), (8, 'b'), (9, 't'), (10, 'n'), (11, 'v'), (12, 'f'), (13, 'r'),
        (27, 'e'), (code '"', '"'), (code '\\', '\\'), (0x85, 'N'), (0x2028, 'L'), (0x2029, 'P')]
    match known.lookup c with
    | some l => [92, l.toNat.toUInt8]
    | none =>
      if c ≤ 0xFF then ascii "\\x" ++ upperHex 2 c
      else if c ≤ 0xFFFF then ascii "\\u" ++ upperHex 4 c
      else ascii "\\U" ++ upperHex 8 c

/-- The columns by which the lines of a value are indented. -/
def indentStep : Nat := 4

/-- Characters with every line indented that is not empty. -/
def indentLines (write : Character → Bytes) (atStart : Bool) : List Character → Bytes
  | [] => []
  | r :: rest =>
    if isLineEnd r.code then r.bytes ++ indentLines write true rest
    else
      (if atStart then List.replicate indentStep 32 else []) ++ write r ++
        indentLines write false rest

/-- What the header of a block says about the line breaks at its end. -/
def chompText (codes : List Nat) : Bytes :=
  match codes.reverse with
  | [] => ascii "-"
  | [c] => if isLineEnd c then ascii "+" else ascii "-"
  | c :: d :: _ => if !isLineEnd c then ascii "-" else if isLineEnd d then ascii "+" else []

/-- A text as a block. The line of its header ends with the first line break of the text, if that is
where the text starts. -/
def literalText (rs : List Character) : Bytes :=
  let codes := rs.map Character.code
  let startsBlank := (codes.head?.map fun c => c = 32 || isLineEnd c).getD false
  let startsBreak := (codes.head?.map isLineEnd).getD false
  let endsBreak := (codes.getLast?.map isLineEnd).getD false
  ascii "|" ++ (if startsBlank then natDigits indentStep else []) ++ chompText codes ++
    (if startsBreak then [] else [10]) ++ indentLines Character.bytes true rs ++
    (if endsBreak then [] else [10])

/-- A text with the end of its line; `bare` says that it may go without quotes. -/
def scalarText (bare : Bool) (s : Bytes) : Bytes :=
  let rs := s.characters
  match mannerOf bare (rs.map Character.code) with
  | .plain => s ++ [10]
  | .single =>
    let write (r : Character) : Bytes := if r.code = 39 then [39, 39] else r.bytes
    [39] ++ indentLines write false rs ++ [39, 10]
  | .double => [34] ++ rs.flatMap doubleCode ++ [34, 10]
  | .literal => literalText rs

/-- A digit in base 64. -/
def base64Digit (n : Nat) : UInt8 :=
  (if n < 26 then n + 65 else if n < 52 then n + 71 else if n < 62 then n - 4
    else if n = 62 then 43 else 47).toUInt8

/-- A text in base 64. -/
def base64 : Bytes → Bytes
  | a :: b :: c :: rest =>
    let n := (a.toNat * 256 + b.toNat) * 256 + c.toNat
    base64Digit (n / 262144) :: base64Digit (n / 4096 % 64) :: base64Digit (n / 64 % 64) ::
      base64Digit (n % 64) :: base64 rest
  | [a, b] =>
    let n := (a.toNat * 256 + b.toNat) * 4
    [base64Digit (n / 4096), base64Digit (n / 64 % 64), base64Digit (n % 64), 61]
  | [a] => [base64Digit (a.toNat / 4), base64Digit (a.toNat % 4 * 16), 61, 61]
  | [] => []

/-- A text cut into lines of `width` bytes, at most `n` of them. -/
def cutLines (width : Nat) : Nat → Bytes → Bytes
  | 0, _ => []
  | n + 1, s => if s.isEmpty then [] else s.take width ++ [10] ++ cutLines width n (s.drop width)

/-- Bytes that are no text: in base 64, on several lines if they are long. -/
def binaryText (s : Bytes) : Bytes :=
  let digits := base64 s
  let digits := if digits.length < 70 then digits else cutLines 70 digits.length digits
  ascii "!!binary " ++ scalarText true digits

/-- A text under a key. -/
def entryText (key value : Bytes) : Bytes :=
  key ++ ascii ": " ++
    (if value.characters.any Character.isMalformed then binaryText value
      else scalarText (isReadAsText value) value)

/-- Texts under keys in the order of the keys. -/
def render (options : OptionMap) : Bytes :=
  options.sorted.flatMap fun (key, value) => entryText key value

end CodeLayout.Yaml
