import CodeLayout.Text.Blank
import CodeLayout.Text.LowerCase
import CodeLayout.Text.Quoted

/-!
# Alignment policies

How a group of wrappable elements may be distributed over lines. A policy is a set of bits: three
of them name a way to split, one forces the split, and two choose how wrapped lines are indented.
Options may give the bits as a number or spell them out in words.
-/

namespace CodeLayout

/-- A way to split a group. -/
inductive Split where
  /-- No optional breaks. -/
  | noAlignment
  /-- A break before each element that does not fit. -/
  | compact
  /-- A break before the first element, then as for `compact`. -/
  | compactFirstBreak
  /-- A break before every element. -/
  | onePerLine
  /-- A break before every element, each one level deeper than the one before. -/
  | nextLineShifted
  /-- A break before every element but the first. -/
  | nextLinePerLine
  deriving DecidableEq, Repr, Inhabited

namespace Split

/-- All ways to split in the order of their bits. -/
def all : List Split :=
  [noAlignment, compact, compactFirstBreak, onePerLine, nextLineShifted, nextLinePerLine]

/-- The bits of a way to split. -/
def bits : Split → UInt8
  | .noAlignment => 0
  | .compact => 16
  | .compactFirstBreak => 32
  | .onePerLine => 48
  | .nextLineShifted => 64
  | .nextLinePerLine => 80

/-- The word for a way to split. -/
def name : Split → Bytes
  | .noAlignment => ascii "no_alignment"
  | .compact => ascii "compact"
  | .compactFirstBreak => ascii "compact_first_break"
  | .onePerLine => ascii "one_per_line"
  | .nextLineShifted => ascii "next_line_shifted"
  | .nextLinePerLine => ascii "next_line_per_line"

end Split

/-- How wrapped lines are indented. -/
inductive WrapIndent where
  /-- By the continuation indentation. -/
  | continuation
  /-- To the column at which the group starts. -/
  | onColumn
  /-- By one level. -/
  | byOne
  deriving DecidableEq, Repr, Inhabited

/-- The bits of a way to indent wrapped lines. -/
def WrapIndent.bits : WrapIndent → UInt8
  | .continuation => 0
  | .onColumn => 2
  | .byOne => 4

/-- A policy as a set of bits. -/
structure Policy where
  bits : UInt8
  deriving DecidableEq, Repr, Inhabited

namespace Policy

/-- The bits that name a way to split. -/
def splitMask : UInt8 := 0x70

/-- The bit that forces a split. -/
def forceBit : UInt8 := 1

/-- The bits that choose an indentation. -/
def indentMask : UInt8 := 6

/-- The policy that takes no optional breaks and has no modifier. -/
def none : Policy := ⟨0⟩

/-- The policy of a way to split without modifiers. -/
def ofSplit (s : Split) : Policy := ⟨s.bits⟩

/-- The bits of the way to split. -/
def splitBits (p : Policy) : UInt8 :=
  p.bits &&& splitMask

/-- The way to split, if the bits name one. -/
def split? (p : Policy) : Option Split :=
  Split.all.find? fun s => s.bits = p.splitBits

/-- Whether the policy has the bit that forces a split. -/
def hasForce (p : Policy) : Bool :=
  p.bits &&& forceBit != 0

/-- Whether the policy splits a group that would fit. -/
def isForced (p : Policy) : Bool :=
  p.hasForce && p.splitBits != 0

/-- The indentation of wrapped lines; of the two bits the one for the column wins. -/
def indent (p : Policy) : WrapIndent :=
  if p.bits &&& 2 != 0 then .onColumn
  else if p.bits &&& 4 != 0 then .byOne
  else .continuation

/-- The words for a policy. -/
def render (p : Policy) : Bytes :=
  let split :=
    match p.split? with
    | some s => s.name
    | Option.none => ascii "split(" ++ natDigits p.splitBits.toNat ++ ascii ")"
  let force := if p.hasForce then ascii ",force" else []
  let indent :=
    match p.indent with
    | .onColumn => ascii ",indent_on_column"
    | .byOne => ascii ",indent_by_one"
    | .continuation => []
  split ++ force ++ indent

/-- Why a text is no policy. -/
inductive ParseError where
  /-- A number with bits that no policy has. -/
  | invalidCode (n : Nat)
  | unknownSplit (word : Bytes)
  | unknownModifier (word : Bytes)
  deriving DecidableEq, Repr

/-- The text of an error. -/
def ParseError.message : ParseError → Bytes
  | .invalidCode n => ascii "invalid alignment policy encoding " ++ natDigits n
  | .unknownSplit word => ascii "unknown alignment policy " ++ quoted word
  | .unknownModifier word => ascii "unknown alignment modifier " ++ quoted word

/-- The policy with a number for its bits. -/
def ofCode (n : Nat) : Except ParseError Policy :=
  let p : Policy := ⟨n.toUInt8⟩
  if p.bits &&& 0x88 != 0 || p.split?.isNone then .error (.invalidCode n) else .ok p

/-- The policy after one more modifier. -/
def modify (p : Policy) (word : Bytes) : Except ParseError Policy :=
  let plain := p.bits &&& ~~~indentMask
  if word == ascii "force" then .ok ⟨p.bits ||| forceBit⟩
  else if word == ascii "indent_on_column" then .ok ⟨plain ||| WrapIndent.onColumn.bits⟩
  else if word == ascii "indent_by_one" then .ok ⟨plain ||| WrapIndent.byOne.bits⟩
  else if word == ascii "indent_default" then .ok ⟨plain⟩
  else .error (.unknownModifier word)

/-- Reads a policy: a number below 256, or a way to split with modifiers behind commas. Case and
white space around the words do not matter. -/
def parse (s : Bytes) : Except ParseError Policy :=
  let s := s.trim
  match (readNat? s).filter (· < 256) with
  | some n => ofCode n
  | Option.none =>
    match (s.pieces 44).map fun w => w.trim.lower with
    | [] => .error (.unknownSplit [])
    | word :: modifiers =>
      match Split.all.find? fun split => split.name == word with
      | Option.none => .error (.unknownSplit word)
      | some split => modifiers.foldlM modify (ofSplit split)

end Policy

end CodeLayout
