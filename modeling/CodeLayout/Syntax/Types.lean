import CodeLayout.Syntax.Parser

/-!
# Types, annotations and modifiers
-/

namespace CodeLayout.Grammar

open CodeLayout.Parser

variable (g : Grammar)

/-- The name of an annotation: words with dots between them. -/
def annotName : Parser (List (Option Node)) :=
  collect (return (← cursor).isWord 0) do
    let word ← next
    match ← accept "." with
    | some dot => return ([word, some dot], true)
    | none => return ([word], false)

/-- One argument of an annotation, with or without a name. -/
def annotArg : Parser (Option Node) := do
  let c ← cursor
  if c.isName 0 && c.isAt 1 "=" then
    let name ← next
    let eq ← next
    node .pair [name, eq, ← g .annotValue]
  else g .annotValue

/-- The arguments of an annotation in parentheses. -/
def annotArgs : Parser (Option Node) := do
  let opening ← next
  let args ← separated (before ")") (annotArg g) ","
  node .annotArgs ([opening] ++ args ++ [← expect ")" "annotation"])

/-- An annotation. -/
def annot : Parser (Option Node) := do
  let sign ← next
  let name ← annotName
  if ← isAt "(" then node .annot ([sign] ++ name ++ [← annotArgs g])
  else node .annot ([sign] ++ name)

/-- A value in the arguments of an annotation. -/
def annotValue : Parser (Option Node) := do
  if ← isAt "\x7b" then g (.arrayInit .annotValue)
  else if ← isAt "@" then annot g
  else g .ternary

/-- A type, as a flat run of tokens and annotations. -/
def type : Parser (Option Node) := do
  let c ← cursor
  match c.skipType 0 with
  | none =>
    unexpected (ascii "a type") (ascii "type")
    return none
  | some k =>
    let stop := c.pos + k
    let parts ← many (return (← cursor).pos < stop) do
      if ← isAt "@" then annot g else next
    node .type parts

/-- Type parameters or type arguments between angle brackets; nothing if they are never closed. -/
def typeParams : Parser (Option Node) := do
  let c ← cursor
  match c.skipTypeArgs 0 with
  | none => return none
  | some k => node .type (← tokens k.toNat)

/-- A list of types with commas. -/
def typeList (place : Bytes) : Parser (Option Node) := do
  let types ← separated (return true)
    (do
      if (← cursor).skipType 0 |>.isNone then
        unexpected (ascii "a type") place
        return none
      else type g)
    ","
  node .typeList types

/-- Whether the word at the cursor modifies the declaration of a member. -/
def isMemberModifier (c : Cursor) : Bool :=
  c.isWord 0 && Word.isModifier (c.text 0) && !c.isDefaultLabel &&
    !(c.isAt 0 "synchronized" && c.isAt 1 "(") && !(c.isAt 0 "sealed" && !c.isWord 1)

/-- One annotation or modifier, if there is one. Apart from members, only annotations and `final`
count. -/
def modifier (member : Bool) : Parser (Option Node) := do
  let c ← cursor
  if c.isAnnot 0 then annot g
  else if c.isAt 0 "final" then next
  else if !member then return none
  else if c.isAt 0 "non" && c.isAt 1 "-" && c.isAt 2 "sealed" then node .type (← tokens 3)
  else if isMemberModifier c then next
  else return none

/-- Annotations and modifiers; nothing if there are none. -/
def modifiers (member : Bool) : Parser (Option Node) := do
  let parts ← collect (return true) do
    match ← modifier g member with
    | some m => return ([some m], true)
    | none => return ([], false)
  if parts.isEmpty then return none else node .modifiers parts

end CodeLayout.Grammar
