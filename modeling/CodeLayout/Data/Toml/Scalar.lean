import CodeLayout.Data.Value
import CodeLayout.Number.Literal
import CodeLayout.Text.Utf8

/-!
# Scalars of a TOML text

Texts in quotes, numbers, truth values and dates. A reader takes a scalar from the front of a text
and leaves what is behind it.
-/

namespace CodeLayout.Toml

/-- Whether a character may stand in a text. -/
def isAllowed (r : Character) : Bool :=
  !r.isMalformed && (r.code = 9 || r.code = 10 || r.code = 13 || (32 ≤ r.code && r.code != 127))

/-- Whether every carriage return is followed by a line feed. -/
def returnsPaired : Bytes → Bool
  | 13 :: 10 :: rest => returnsPaired rest
  | 13 :: _ => false
  | _ :: rest => returnsPaired rest
  | [] => true

/-- The text behind a mark of the byte order. -/
def dropMark (s : Bytes) : Bytes :=
  match s with
  | 0xFF :: 0xFE :: rest => rest
  | 0xFE :: 0xFF :: rest => rest
  | 0xEF :: 0xBB :: 0xBF :: rest => rest
  | _ => s

/-- Whether a byte is a space or a tab. -/
def isBlank (b : UInt8) : Bool :=
  b = 32 || b = 9

/-- Whether a byte is white space or ends a line. -/
def isSpace (b : UInt8) : Bool :=
  isBlank b || b = 10 || b = 13

/-- The text without spaces and tabs at its start. -/
def skipBlanks (s : Bytes) : Bytes :=
  s.dropWhile isBlank

/-- The character that hexadecimal digits stand for. -/
def hexCode? (digits : Bytes) : Option Nat :=
  (Literal.valueFrom? 16 0 digits).filter fun c =>
    !(0xD800 ≤ c && c ≤ 0xDFFF) && c ≤ 0x10FFFF

/-- Reads what is behind a backslash: the bytes it stands for. -/
def escape? (s : Bytes) : Option (Bytes × Bytes) :=
  match s with
  | [] => none
  | b :: rest =>
    let known : List (UInt8 × UInt8) :=
      [(98, 8), (116, 9), (110, 10), (102, 12), (114, 13), (34, 34), (92, 92)]
    match known.lookup b with
    | some c => some ([c], rest)
    | none =>
      let size := if b = 117 then 4 else if b = 85 then 8 else 0
      if size = 0 || rest.length < size then none
      else (hexCode? (rest.take size)).map fun c => (Utf8.encode c, rest.drop size)

/-- Reads the rest of a text in double quotes on one line, in at most `n` steps. `done` holds what
is read, the last byte first. -/
def basicFrom : Nat → Bytes → Bytes → Option (Bytes × Bytes)
  | 0, _, _ => none
  | _ + 1, _, [] => none
  | n + 1, done, b :: rest =>
    if b = 34 then some (done.reverse, rest)
    else if b = 10 || b = 13 then none
    else if b = 92 then do
      let (bytes, rest) ← escape? rest
      basicFrom n (bytes.reverse ++ done) rest
    else basicFrom n (b :: done) rest

/-- Reads the rest of a text in single quotes on one line. -/
def literal? (s : Bytes) : Option (Bytes × Bytes) :=
  let own := s.takeWhile fun b => b != 39 && b != 10 && b != 13
  match s.drop own.length with
  | 39 :: rest => some (own, rest)
  | _ => none

/-- Whether a text on several lines has too many quotes at its end; `seen` holds what was read, the
last byte first. Five of them may stand together: two of the text and three that end it. A backslash
in front of the five is taken for an escape of the first. -/
def tooManyQuotes (quote : UInt8) (seen : Bytes) : Bool :=
  let five := List.replicate 5 quote
  five.isPrefixOf seen && !(quote = 34 && (five ++ [92]).isPrefixOf seen)

/-- Reads the rest of a text on several lines, in at most `n` steps. A text in double quotes has
escapes, and a backslash at the end of a line removes the white space up to the next character.
`done` holds what is read and `seen` what it is read from, the last byte first. -/
def longFrom (quote : UInt8) : Nat → Bytes → Bytes → Bytes → Option (Bytes × Bytes)
  | 0, _, _, _ => none
  | _ + 1, _, _, [] => none
  | n + 1, done, seen, b :: rest =>
    if b = quote && [quote, quote].isPrefixOf rest then
      let behind := rest.drop 2
      if behind.head? != some quote then some (done.reverse, behind)
      else if tooManyQuotes quote (quote :: quote :: quote :: seen) then none
      else longFrom quote n (b :: done) (b :: seen) rest
    else if quote = 34 && b = 92 then
      let gap := rest.takeWhile isSpace
      if gap.contains 10 then
        longFrom quote n done (gap.reverse ++ b :: seen) (rest.drop gap.length)
      else do
        let (bytes, behind) ← escape? rest
        let used := rest.take (rest.length - behind.length)
        longFrom quote n (bytes.reverse ++ done) (used.reverse ++ b :: seen) behind
    else longFrom quote n (b :: done) (b :: seen) rest

/-- The text without a line break at its start. -/
def dropFirstBreak (s : Bytes) : Bytes :=
  match s with
  | 10 :: rest => rest
  | 13 :: 10 :: rest => rest
  | _ => s

/-- Reads a text in quotes on one line. -/
def shortText? (s : Bytes) : Option (Bytes × Bytes) :=
  match s with
  | 34 :: rest => basicFrom (rest.length + 1) [] rest
  | 39 :: rest => literal? rest
  | _ => none

/-- Reads a text in quotes. -/
def text? (s : Bytes) : Option (Bytes × Bytes) :=
  match s with
  | 34 :: 34 :: 34 :: rest => longFrom 34 (rest.length + 1) [] [] (dropFirstBreak rest)
  | 39 :: 39 :: 39 :: rest => longFrom 39 (rest.length + 1) [] [] (dropFirstBreak rest)
  | _ => shortText? s

/-- Whether a byte is a hexadecimal digit. -/
def isHexDigit (b : UInt8) : Bool :=
  isDigit b || (97 ≤ b && b ≤ 102) || (65 ≤ b && b ≤ 70)

/-- Whether every underscore is behind a digit, and the last byte is a digit. -/
def underscoresFollow (behindDigit : Bool) : Bytes → Bool
  | [] => behindDigit
  | b :: rest => (b != 95 || behindDigit) && underscoresFollow (isHexDigit b) rest

/-- Whether a number has a zero in front of other digits. -/
def hasLeadingZero (s : Bytes) : Bool :=
  match s with
  | 48 :: m :: _ => !(m = 98 || m = 111 || m = 120)
  | sign :: 48 :: _ :: _ => sign = 43 || sign = 45
  | _ => false

/-- An integer. -/
def int? (s : Bytes) : Option Int :=
  if !underscoresFollow false s || hasLeadingZero s then none
  else
    match Literal.read s with
    | .ok n => some n
    | .error _ => none

/-- The parts of a number between its point and its exponent. -/
def floatParts (s : Bytes) : List Bytes :=
  (Bytes.pieces 46 (s.map fun b => if b = 101 || b = 69 then 46 else b)).filter (!·.isEmpty)

/-- Whether every point is followed by a digit. -/
def pointsFollowed (behindPoint : Bool) : Bytes → Bool
  | [] => !behindPoint
  | b :: rest => (!behindPoint || isDigit b) && pointsFollowed (b = 46) rest

/-- A number with a point or an exponent. -/
def float? (s : Bytes) : Option Binary64 :=
  let parts := floatParts s
  if !parts.all (underscoresFollow false) || hasLeadingZero (parts.headD []) ||
      !pointsFollowed false s then none
  else Binary64.read? (s.filter (· != 95))

/-- A date, a time of day, or both. -/
def instant? (s : Bytes) : Option Instant :=
  let two := Instant.digits 2
  match Instant.readDate two s with
  | some (date, []) => Instant.whole (some ({ date with zone := .untold (ascii "date-local") }, []))
  | some (date, mark :: rest) => do
    if !([84, 116, 32] : Bytes).contains mark then none
    let (t, rest) ← Instant.readTime two date rest
    match rest with
    | [] => Instant.whole (some ({ t with zone := .untold (ascii "datetime-local") }, []))
    | z :: more =>
      let (zone, rest) ← Instant.readZone ((if z = 122 then 90 else z) :: more)
      Instant.whole (some ({ t with zone }, rest))
  | none =>
    Instant.whole (Instant.readTime two { zone := .untold (ascii "time-local") } s)

/-- Whether a byte may stand in a date. -/
def inInstant (b : UInt8) : Bool :=
  isDigit b || (ascii "-:Tt .Zz+").contains b

/-- Whether a byte may stand behind the point or the exponent of a number. -/
def inFloat (b : UInt8) : Bool :=
  isDigit b || (ascii "_.-+eE").contains b

/-- Reads an integer in a base other than ten behind its mark. -/
def basedInt? (mark : UInt8) (isOwn : UInt8 → Bool) (s : Bytes) : Option (Value × Bytes) := do
  let own := s.takeWhile fun b => isOwn b || b = 95
  if !(s.head?.map isOwn).getD false then none
  return (.int (← int? (48 :: mark :: own)), s.drop own.length)

/-- Reads a number or a date; `sign` is in front of it. -/
def numeral? (sign s : Bytes) : Option (Value × Bytes) :=
  let own := s.takeWhile fun b => isDigit b || b = 95
  let rest := s.drop own.length
  match rest with
  | b :: _ =>
    if (b = 45 || b = 58) && sign.isEmpty && !own.contains 95 then do
      let all := s.takeWhile inInstant
      return (.instant (← instant? (Bytes.trimRight isBlank all)), s.drop all.length)
    else if b = 46 || b = 101 || b = 69 then do
      let more := rest.takeWhile inFloat
      return (.float (← float? (sign ++ own ++ more)), rest.drop more.length)
    else (int? (sign ++ own)).map fun n => (.int n, rest)
  | [] => (int? (sign ++ own)).map fun n => (.int n, rest)

/-- Reads one of the words for numbers that are not finite; `negative` tells the sign in front. -/
def specialFloat? (negative : Bool) (s : Bytes) : Option (Value × Bytes) :=
  if (ascii "inf").isPrefixOf s then some (.float (.infinite negative), s.drop 3)
  else if (ascii "nan").isPrefixOf s then some (.float .nan, s.drop 3)
  else none

/-- Reads a scalar. -/
def scalar? (s : Bytes) : Option (Value × Bytes) :=
  match s with
  | [] => none
  | b :: rest =>
    if b = 34 || b = 39 then (text? s).map fun (t, rest) => (.text t, rest)
    else if (ascii "true").isPrefixOf s then some (.bool true, s.drop 4)
    else if (ascii "false").isPrefixOf s then some (.bool false, s.drop 5)
    else if b = 43 || b = 45 then
      match specialFloat? (b = 45) rest with
      | some found => some found
      | none =>
        if !(rest.head?.map isDigit).getD false then none
        else numeral? [b] rest
    else
      match s with
      | 48 :: 98 :: digits => basedInt? 98 (fun d => d = 48 || d = 49) digits
      | 48 :: 111 :: digits => basedInt? 111 (fun d => 48 ≤ d && d ≤ 55) digits
      | 48 :: 120 :: digits => basedInt? 120 isHexDigit digits
      | _ => if isDigit b then numeral? [] s else specialFloat? false s

end CodeLayout.Toml
