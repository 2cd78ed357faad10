import CodeLayout.Proofs.Alike.Node
import CodeLayout.Syntax.Tree

/-!
# Cursors that show the same

Two cursors are alike if they stand at the same place of the same tokens, whatever is between the
tokens: only behind a closing angle bracket it counts whether anything is there at all. Everything
that looks ahead finds the same at both, and the tokens found meet.
-/

namespace CodeLayout

/-- What the grammar sees of a token. -/
def Token.sign (t : Token) : TokenKind × Bytes :=
  (t.kind, t.text)

namespace Cursor

/-- The cursors show the same tokens at all positions. -/
structure Alike [SideBySide] (c d : Cursor) : Prop where
  pos : d.pos = c.pos
  size : d.lexemes.size = c.lexemes.size
  sign : ∀ k, (d.get? k).map (·.token.sign) = (c.get? k).map (·.token.sign)
  touches : ∀ k, c.isAt k ">" = true → d.touches k = c.touches k
  meets : ∀ k l m, c.get? k = some l → d.get? k = some m → SideBySide.Meets l.id m.id

theorem get?_advance (c : Cursor) (k : Int) :
    ({ c with pos := c.pos + 1 } : Cursor).get? k = c.get? (k + 1) := by
  have hpos : ((c.pos + 1 : Nat) : Int) + k = c.pos + (k + 1) := by omega
  simp only [get?, hpos]

theorem touches_advance (c : Cursor) (k : Int) :
    ({ c with pos := c.pos + 1 } : Cursor).touches k = c.touches (k + 1) := by
  simp only [Cursor.touches, get?_advance]

/-- The last bracket of a run is one. -/
theorem isAt_angleRun {c : Cursor} (hat : c.isAt 0 ">" = true) :
    c.isAt (c.angleRun - 1) ">" = true := by
  simp only [Cursor.angleRun]
  split
  · rename_i h₁
    split
    · rename_i h₂
      simp only [Bool.and_eq_true] at h₂
      exact h₂.1
    · simp only [Bool.and_eq_true] at h₁
      exact h₁.1
  · exact hat

namespace Alike

variable [SideBySide] {c d : Cursor}

theorem get?_cases (h : c.Alike d) (k : Int) :
    (c.get? k = none ∧ d.get? k = none) ∨
      ∃ l m, c.get? k = some l ∧ d.get? k = some m ∧ m.token.kind = l.token.kind ∧
        m.token.text = l.token.text := by
  have hsign := h.sign k
  cases hc : c.get? k with
  | none =>
      rw [hc, Option.map_none, Option.map_eq_none_iff] at hsign
      exact Or.inl ⟨rfl, hsign⟩
  | some l =>
      rw [hc, Option.map_some, Option.map_eq_some_iff] at hsign
      obtain ⟨m, hm, heq⟩ := hsign
      obtain ⟨hkind, htext⟩ := Prod.mk.inj heq
      exact Or.inr ⟨l, m, rfl, hm, hkind, htext⟩

/-- Both cursors move on by one token. -/
theorem advance (h : c.Alike d) :
    ({ c with pos := c.pos + 1 } : Cursor).Alike { d with pos := d.pos + 1 } where
  pos := congrArg (· + 1) h.pos
  size := h.size
  sign k := by
    rw [get?_advance, get?_advance]
    exact h.sign (k + 1)
  touches k hat := by
    rw [touches_advance, touches_advance]
    apply h.touches (k + 1)
    simpa only [Cursor.isAt, Cursor.text, get?_advance] using hat
  meets k l m hl hm := by
    rw [get?_advance] at hl hm
    exact h.meets (k + 1) l m hl hm

theorem text (h : c.Alike d) : d.text = c.text := by
  funext k
  rcases h.get?_cases k with ⟨hc, hd⟩ | ⟨l, m, hc, hd, -, htext⟩
  · simp only [Cursor.text, hc, hd]
  · simp only [Cursor.text, hc, hd, htext]

theorem kind (h : c.Alike d) : d.kind = c.kind := by
  funext k
  rcases h.get?_cases k with ⟨hc, hd⟩ | ⟨l, m, hc, hd, hkind, -⟩
  · simp only [Cursor.kind, hc, hd]
  · simp only [Cursor.kind, hc, hd, hkind]

theorem isAt (h : c.Alike d) : d.isAt = c.isAt := by
  funext k s
  simp only [Cursor.isAt, h.text]

theorem isDone (h : c.Alike d) : d.isDone = c.isDone := by
  simp only [Cursor.isDone, h.size, h.pos]

theorem bound (h : c.Alike d) : d.bound = c.bound := by
  simp only [Cursor.bound, h.size]

theorem isWord (h : c.Alike d) : d.isWord = c.isWord := by
  funext k
  simp only [Cursor.isWord, h.kind]

theorem isName (h : c.Alike d) : d.isName = c.isName := by
  funext k
  simp only [Cursor.isName, h.isWord, h.text]

theorem isTypeName (h : c.Alike d) : d.isTypeName = c.isTypeName := by
  funext k
  simp only [Cursor.isTypeName, h.isName, h.isAt]

section Searches

theorem closeFrom (h : c.Alike d) : d.closeFrom = c.closeFrom := by
  funext fuel
  induction fuel with
  | zero => rfl
  | succ fuel ih =>
      funext depth k
      rcases h.get?_cases k with ⟨hc, hd⟩ | ⟨l, m, hc, hd, -, htext⟩
      · simp only [Cursor.closeFrom, hc, hd]
      · simp only [Cursor.closeFrom, hc, hd, htext, ih]

theorem skipBalanced (h : c.Alike d) : d.skipBalanced = c.skipBalanced := by
  funext k
  simp only [Cursor.skipBalanced, h.closeFrom, h.bound]

theorem typeArgsFrom (h : c.Alike d) : d.typeArgsFrom = c.typeArgsFrom := by
  funext fuel
  induction fuel with
  | zero => rfl
  | succ fuel ih =>
      funext depth k
      rcases h.get?_cases k with ⟨hc, hd⟩ | ⟨l, m, hc, hd, hkind, htext⟩
      · simp only [Cursor.typeArgsFrom, hc, hd]
      · simp only [Cursor.typeArgsFrom, hc, hd, hkind, htext, ih]

theorem skipTypeArgs (h : c.Alike d) : d.skipTypeArgs = c.skipTypeArgs := by
  funext k
  simp only [Cursor.skipTypeArgs, h.typeArgsFrom, h.bound]

theorem skipWords (h : c.Alike d) : d.skipWords = c.skipWords := by
  funext fuel
  induction fuel with
  | zero => rfl
  | succ fuel ih =>
      funext k
      simp only [Cursor.skipWords, h.isWord, h.isAt, ih]

theorem isAnnot (h : c.Alike d) : d.isAnnot = c.isAnnot := by
  funext k
  simp only [Cursor.isAnnot, h.isAt]

theorem annotsFrom (h : c.Alike d) : d.annotsFrom = c.annotsFrom := by
  funext fuel
  induction fuel with
  | zero => rfl
  | succ fuel ih =>
      funext k
      unfold Cursor.annotsFrom
      rw [h.isAnnot, h.skipWords, h.bound, h.isAt, h.skipBalanced, ih]

theorem skipAnnots (h : c.Alike d) : d.skipAnnots = c.skipAnnots := by
  funext k
  simp only [Cursor.skipAnnots, h.annotsFrom, h.bound]

theorem typeNameFrom (h : c.Alike d) : d.typeNameFrom = c.typeNameFrom := by
  funext fuel
  induction fuel with
  | zero => rfl
  | succ fuel ih =>
      funext k
      simp only [Cursor.typeNameFrom, h.isAt, h.skipTypeArgs, h.isName, ih]

theorem skipDims (h : c.Alike d) : d.skipDims = c.skipDims := by
  funext fuel
  induction fuel with
  | zero => rfl
  | succ fuel ih =>
      funext k
      simp only [Cursor.skipDims, h.isAt, ih]

theorem skipType (h : c.Alike d) : d.skipType = c.skipType := by
  funext k
  simp only [Cursor.skipType, h.skipAnnots, h.isTypeName, h.typeNameFrom, h.bound, h.skipDims]

end Searches

theorem isTyped (h : c.Alike d) : d.isTyped = c.isTyped := by
  unfold Cursor.isTyped
  rw [h.skipType, h.isName]

theorem isTypeDecl (h : c.Alike d) : d.isTypeDecl = c.isTypeDecl := by
  simp only [Cursor.isTypeDecl, h.isAt, h.isName]

theorem isDefaultLabel (h : c.Alike d) : d.isDefaultLabel = c.isDefaultLabel := by
  simp only [Cursor.isDefaultLabel, h.isAt]

theorem angleRun (h : c.Alike d) (hat : c.isAt 0 ">" = true) : d.angleRun = c.angleRun := by
  simp only [Cursor.angleRun, h.isAt, h.touches 0 hat]
  cases h₁ : c.isAt 1 ">" with
  | false => rfl
  | true => rw [h.touches 1 h₁]

theorem operator (h : c.Alike d) : d.operator = c.operator := by
  simp only [Cursor.operator, h.isAt, h.kind, h.text]
  split
  · rename_i hat
    rw [h.angleRun hat, h.touches _ (isAt_angleRun hat)]
  · rfl

section Grammar

theorem isMemberModifier (h : c.Alike d) :
    Grammar.isMemberModifier d = Grammar.isMemberModifier c := by
  simp only [Grammar.isMemberModifier, h.isWord, h.text, h.isDefaultLabel, h.isAt]

theorem endsRawParam (h : c.Alike d) : Grammar.endsRawParam d = Grammar.endsRawParam c := by
  simp only [Grammar.endsRawParam, h.isAt]

theorem endsExpr (h : c.Alike d) : Grammar.endsExpr d = Grammar.endsExpr c := by
  simp only [Grammar.endsExpr, h.isDone, h.text]

theorem isOperandWord (h : c.Alike d) : Grammar.isOperandWord d = Grammar.isOperandWord c := by
  simp only [Grammar.isOperandWord, h.isName, h.text]

theorem isCast (h : c.Alike d) : Grammar.isCast d = Grammar.isCast c := by
  unfold Grammar.isCast
  rw [h.skipType, h.isAt, h.text, h.isWord, h.kind]

theorem yieldIsName (h : c.Alike d) : Grammar.yieldIsName d = Grammar.yieldIsName c := by
  simp only [Grammar.yieldIsName, h.text]

theorem isClause (h : c.Alike d) : Grammar.isClause d = Grammar.isClause c := by
  simp only [Grammar.isClause, h.isAt]

theorem isConstructor (h : c.Alike d) : Grammar.isConstructor d = Grammar.isConstructor c := by
  simp only [Grammar.isConstructor, h.skipBalanced, h.isAt]

theorem isMethod (h : c.Alike d) : Grammar.isMethod d = Grammar.isMethod c := by
  unfold Grammar.isMethod
  rw [h.skipType, h.isName, h.isAt]

theorem isMemberItem (h : c.Alike d) : Grammar.isMemberItem d = Grammar.isMemberItem c := by
  simp only [Grammar.isMemberItem, h.isAt, h.isTypeDecl, h.isWord, h.text, h.isName,
    h.isConstructor, h.isMethod]

end Grammar

end Alike

end Cursor

end CodeLayout
