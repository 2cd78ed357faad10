import CodeLayout.Proofs.Syntax.Covers
import CodeLayout.Syntax.Expression

/-!
# Chains of operands

The children of a node for a chain are operands with operators of one precedence between them. An
operand that is a chain itself binds more tightly, or else it ends in a test of a type: what follows
the type of a test may be an operator of any precedence.
-/

namespace CodeLayout.Node

open CodeLayout.Grammar

/-- The texts of the tokens of a node, one behind the other. -/
def joined (n : Node) : Bytes :=
  n.leaves.flatMap fun l => l.2.text

/-- The operators in a list of nodes. -/
def operators (cs : List Node) : List Node :=
  cs.filter (isKind .operator)

/-- The precedence of the first operator in a list of nodes; zero if there is none. -/
def chainPrecedence (cs : List Node) : Nat :=
  ((operators cs).head?.map fun o => precedence o.joined).getD 0

/-- Whether the last operator in a list of nodes is the test of a type. -/
def endsInTest (cs : List Node) : Bool :=
  (operators cs).getLast?.any fun o => o.joined == ascii "instanceof"

/-- Whether nodes are a chain: operands and binary operators of one precedence in turns, with an
operand first, where operands that are chains bind more tightly or end in a test. -/
structure IsChain (cs : List Node) : Prop where
  pos : 0 < chainPrecedence cs
  same : ∀ o ∈ operators cs, precedence o.joined = chainPrecedence cs
  alternates : ∀ i c, cs[i]? = some c → (c.isKind .operator = true ↔ i % 2 = 1)
  binds : ∀ c ∈ cs, c.isKind .binary = true →
    chainPrecedence cs < chainPrecedence c.children ∨ endsInTest c.children = true

/-- Whether nodes are operators of a precedence, each with an operand behind it that binds more
tightly, where the last operand may be missing. -/
inductive Links (prec : Nat) : List Node → Prop
  | nil : Links prec []
  | last {o : Node} (hkind : o.isKind .operator = true) (hprec : precedence o.joined = prec) :
      Links prec [o]
  | cons {o r : Node} {rest : List Node} (hkind : o.isKind .operator = true)
      (hprec : precedence o.joined = prec) (hoperand : r.isKind .operator = false)
      (hbinds : r.isKind .binary = true → prec < chainPrecedence r.children)
      (hrest : Links prec rest) : Links prec (o :: r :: rest)

variable {prec : Nat} {n lhs o r : Node} {cs rest : List Node}

theorem operators_cons_of_operator (h : o.isKind .operator = true) :
    operators (o :: cs) = o :: operators cs :=
  List.filter_cons_of_pos h

theorem operators_cons_of_operand (h : r.isKind .operator = false) :
    operators (r :: cs) = operators cs :=
  List.filter_cons_of_neg (by simp [h])

theorem isKind_of_isKind {kind kind' : NodeKind} (h : n.isKind kind = true) (hne : kind ≠ kind') :
    n.isKind kind' = false := by
  simp only [isKind, decide_eq_true_eq] at h
  simp [isKind, h, hne]

namespace Links

theorem same (h : Links prec cs) : ∀ o ∈ operators cs, precedence o.joined = prec := by
  induction h with
  | nil => exact fun o ho => absurd ho List.not_mem_nil
  | last hkind hprec =>
      rw [operators_cons_of_operator hkind]
      exact List.forall_mem_cons.mpr ⟨hprec, fun o ho => absurd ho List.not_mem_nil⟩
  | cons hkind hprec hoperand _ _ ih =>
      rw [operators_cons_of_operator hkind, operators_cons_of_operand hoperand]
      exact List.forall_mem_cons.mpr ⟨hprec, ih⟩

theorem operators_ne_nil (h : Links prec cs) (hne : cs ≠ []) : operators cs ≠ [] := by
  cases h with
  | nil => exact absurd rfl hne
  | last hkind => simp [operators_cons_of_operator hkind]
  | cons hkind => simp [operators_cons_of_operator hkind]

theorem chainPrecedence_eq (h : Links prec cs) (hne : cs ≠ []) : chainPrecedence cs = prec := by
  obtain ⟨o, os, hos⟩ := List.exists_cons_of_ne_nil (h.operators_ne_nil hne)
  rw [chainPrecedence, hos]
  exact h.same o (hos ▸ List.mem_cons_self)

theorem alternates (h : Links prec cs) :
    ∀ i c, cs[i]? = some c → (c.isKind .operator = true ↔ i % 2 = 0) := by
  induction h with
  | nil => exact fun i c hi => by simp at hi
  | last hkind =>
      rintro (_ | i) c hi
      · simp_all
      · simp at hi
  | cons hkind hprec hoperand hbinds hrest ih =>
      rintro (_ | _ | i) c hi
      · simp_all
      · simp_all
      · rw [ih i c hi]
        omega

theorem binds (h : Links prec cs) :
    ∀ c ∈ cs, c.isKind .binary = true → prec < chainPrecedence c.children := by
  have hoperator : ∀ {o : Node}, o.isKind .operator = true → o.isKind .binary = true →
      prec < chainPrecedence o.children := fun hkind hbinary => by
    rw [isKind_of_isKind hkind (by decide)] at hbinary
    cases hbinary
  induction h with
  | nil => exact fun c hc => absurd hc List.not_mem_nil
  | last hkind =>
      exact List.forall_mem_cons.mpr ⟨hoperator hkind, fun c hc => absurd hc List.not_mem_nil⟩
  | cons hkind _ _ hbinds _ ih =>
      exact List.forall_mem_cons.mpr ⟨hoperator hkind, List.forall_mem_cons.mpr ⟨hbinds, ih⟩⟩

/-- The last operator is that of the last link. -/
theorem endsInTest_cons (h : Links prec rest) (hne : rest ≠ []) (hkind : o.isKind .operator = true)
    (hoperand : r.isKind .operator = false) : endsInTest (o :: r :: rest) = endsInTest rest := by
  rw [endsInTest, operators_cons_of_operator hkind, operators_cons_of_operand hoperand, endsInTest,
    List.getLast?_cons, List.getLast?_eq_some_getLast (h.operators_ne_nil hne)]
  rfl

/-- An operand in front of links is a chain of their precedence with their last operator. -/
theorem isChain (h : Links prec cs) (hne : cs ≠ []) (hpos : 0 < prec)
    (hoperand : lhs.isKind .operator = false) (hbinds : lhs.isKind .binary = true →
      prec < chainPrecedence lhs.children ∨ endsInTest lhs.children = true) :
    IsChain (lhs :: cs) ∧ chainPrecedence (lhs :: cs) = prec ∧
      endsInTest (lhs :: cs) = endsInTest cs := by
  have hoperators : operators (lhs :: cs) = operators cs := operators_cons_of_operand hoperand
  have hprec : chainPrecedence (lhs :: cs) = prec := by
    rw [chainPrecedence, hoperators]
    exact h.chainPrecedence_eq hne
  refine ⟨⟨hprec ▸ hpos, ?_, ?_, ?_⟩, hprec, by rw [endsInTest, hoperators, endsInTest]⟩
  · rw [hoperators, hprec]
    exact h.same
  · rintro (_ | i) c hi
    · simp_all
    · rw [h.alternates i c hi]
      omega
  · rw [hprec]
    exact List.forall_mem_cons.mpr ⟨hbinds, fun c hc hbinary => Or.inl (h.binds c hc hbinary)⟩

end Links

end CodeLayout.Node
