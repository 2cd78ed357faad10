import CodeLayout.Proofs.Formed.Expression
import CodeLayout.Proofs.Syntax.Expression

/-!
# Operators make chains

An operator is read as the tokens that spell it. The operators of one precedence behind an operand
make one chain with their operands, and the chain is the first operand of the next one if operators
of another precedence follow. Behind an operand that was read for a precedence no operator of that
precedence or a greater one stands, so what follows a chain binds less tightly. Only what follows
the type of a test is not looked at.
-/

namespace CodeLayout

namespace Cursor

/-- The texts of a number of tokens at the cursor, one behind the other. -/
def texts (c : Cursor) (k : Nat) : Bytes :=
  (List.range k).flatMap fun i : Nat => c.text i

variable {c : Cursor} {k : Nat}

theorem texts_succ (c : Cursor) (k : Nat) : c.texts (k + 1) = c.texts k ++ c.text k := by
  simp [texts, List.range_succ]

theorem texts_cons {l : Lexeme} (h : c.get? 0 = some l) (k : Nat) :
    c.texts (k + 1) = l.token.text ++ texts { c with pos := c.pos + 1 } k := by
  have hnext : ∀ i : Nat, c.text ((i + 1 : Nat) : Int) =
      ({ c with pos := c.pos + 1 } : Cursor).text i := fun i => by
    have hpos : (c.pos : Int) + ((i + 1 : Nat) : Int) = ((c.pos + 1 : Nat) : Int) + (i : Int) := by
      omega
    simp only [text, get?, hpos]
  have hfirst : c.text ((0 : Nat) : Int) = l.token.text := by
    change c.text 0 = _
    rw [text, h]
  simp only [texts, List.range_succ_eq_map, List.flatMap_cons, List.flatMap_map,
    Nat.succ_eq_add_one, hnext, hfirst]

/-- Behind the last token there are no texts. -/
theorem texts_of_done (h : c.get? 0 = none) (k : Nat) : c.texts k = [] := by
  have hsize : c.lexemes.size ≤ c.pos := by
    rwa [get?_zero, Array.getElem?_eq_none_iff] at h
  have hnone : ∀ i : Nat, c.text i = [] := fun i => by
    have hget : c.get? i = none := by
      rw [get?, if_neg (by omega), Array.getElem?_eq_none_iff]
      omega
    rw [text, hget]
  simp only [texts, hnone, List.flatMap_eq_nil_iff, implies_true]

theorem texts_angleRun (h : c.isAt 0 ">" = true) :
    c.texts c.angleRun = List.replicate c.angleRun 62 := by
  have htext : ∀ {i : Nat}, c.isAt i ">" = true → c.text i = [62] := fun hat => by
    rw [beq_iff_eq.mp hat]
    decide
  have hone : c.texts 1 = [62] := by
    rw [texts_succ, htext h]
    rfl
  unfold angleRun
  split_ifs with hsecond hthird
  · rw [Bool.and_eq_true] at hsecond hthird
    rw [texts_succ, texts_succ, hone, htext hsecond.1, htext hthird.1]
    rfl
  · rw [Bool.and_eq_true] at hsecond
    rw [texts_succ, hone, htext hsecond.1]
    rfl
  · exact hone

/-- The operator at the cursor is spelled by its tokens. -/
theorem texts_operator {op : Bytes} (h : c.operator = (op, k)) : c.texts k = op := by
  simp only [operator] at h
  split_ifs at h with hat heq hword <;> obtain ⟨rfl, rfl⟩ := Prod.mk.inj h
  · rw [Bool.and_eq_true] at heq
    rw [texts_succ, texts_angleRun hat, beq_iff_eq.mp heq.1]
    rfl
  · exact texts_angleRun hat
  · simp [texts]
  · rfl

end Cursor

namespace Grammar

open CodeLayout.Node CodeLayout.Parser CodeLayout.Cursor

variable {g : Grammar} {s : ParserState}

/-- The tokens that are taken have the texts at the cursor. -/
theorem ensures_tokens_texts (k : Nat) : Ensures (tokens k) s fun ns =>
    (leavesList ns.reduceOption).flatMap (fun l => l.2.text) = s.cursor.texts k := by
  induction k generalizing s with
  | zero => exact Ensures.pure rfl
  | succ k ih =>
      refine Ensures.bind_run fun n s₁ hrun => ih.bind fun ns s₂ h₂ => Ensures.pure ?_
      cases hl : s.cursor.get? 0 with
      | some l =>
          rw [next_run hl] at hrun
          obtain ⟨⟨rfl⟩, rfl⟩ := Prod.mk.inj hrun
          rw [List.reduceOption_cons_of_some, leavesList, List.flatMap_append, h₂, texts_cons hl]
          simp [leaves]
      | none =>
          rw [next_run_none hl] at hrun
          obtain ⟨⟨rfl⟩, rfl⟩ := Prod.mk.inj hrun
          rw [List.reduceOption_cons_of_none, h₂, texts_of_done hl, texts_of_done hl]

/-- The operator at the cursor is read as a node with its text. -/
theorem ensures_operator {op : Bytes} {k : Nat} (h : s.cursor.operator = (op, k)) :
    Ensures (operator k) s fun o => ∃ n, o = some n ∧ n.Built ∧ n.isKind .operator = true ∧
      n.joined = op := by
  refine Ensures.bind_run fun ns s₁ hrun => Ensures.pure ?_
  refine ⟨_, rfl, built_make trivial (Ensures.tokens k ns s₁ hrun), rfl, ?_⟩
  rw [joined, leaves_make, ensures_tokens_texts k ns s₁ hrun, texts_operator h]

/-- Where an expression ends, there is no operator of any precedence. -/
theorem nextPrecedence_of_endsExpr {c : Cursor} (h : endsExpr c = true) :
    nextPrecedence c = 0 := by
  have hplain : ∀ t ∈ [] :: [";", ")", "]", "\x7d", ",", ":"].map ascii,
      t ≠ ascii ">" ∧ precedence t = 0 := by
    decide
  have hmem : c.text 0 ∈ [] :: [";", ")", "]", "\x7d", ",", ":"].map ascii := by
    simp only [endsExpr, Bool.or_eq_true, List.contains_iff_mem] at h
    rcases h with hdone | hmem
    · have hnot : ¬0 < c.left := by simp [← isDone_eq_false_iff, hdone]
      have hnil : c.text 0 = [] := by
        by_contra hne
        exact hnot (left_pos_of_text hne)
      rw [hnil]
      exact List.mem_cons_self
    · exact List.mem_cons_of_mem _ hmem
  obtain ⟨hangle, hprec⟩ := hplain _ hmem
  have hat : ¬c.isAt 0 ">" = true := by
    rw [Cursor.isAt, beq_iff_eq]
    exact hangle
  rw [nextPrecedence, Cursor.operator, if_neg hat]
  split_ifs
  · exact hprec
  · rfl

theorem isEmpty_of_joined {n : Node} (h : n.joined ≠ []) : n.isEmpty = false := by
  cases hempty : n.isEmpty with
  | false => rfl
  | true =>
      rw [joined, leaves_of_isEmpty hempty] at h
      exact absurd rfl h

theorem children_make_some (kind : NodeKind) {cs : List Node} (h : ∀ n ∈ cs, n.isEmpty = false) :
    (make kind (cs.map some)).children = cs := by
  have hsome : (cs.map some).reduceOption = cs := by
    simp [List.reduceOption, List.filterMap_map]
  rw [children_make, hsome, List.filter_eq_self]
  exact fun n hn => by simp [h n hn]

/-- What is read behind an operand from one state to another: operators of a precedence with their
operands. What follows them binds less tightly, unless the last of them is a test. -/
structure ReadsLinks (prec : Nat) (s : ParserState) (cs : List Node) (s' : ParserState) :
    Prop where
  links : Links prec cs
  built : ∀ n ∈ cs, n.Built ∧ n.isEmpty = false
  stays : cs = [] → s' = s ∧ nextPrecedence s.cursor ≠ prec
  next : cs ≠ [] → endsInTest cs = true ∨ nextPrecedence s'.cursor < prec

/-- An operand that the operators at the cursor may be joined to. -/
structure IsLeading (least : Nat) (n : Node) (c : Cursor) : Prop extends IsBound least n where
  next : n.isKind .binary = true →
    endsInTest n.children = true ∨ nextPrecedence c < chainPrecedence n.children

section Rules

variable (hg : Formal g)
include hg

/-- The operand of a test is no chain. -/
theorem leads_test {op : Bytes} {prec : Nat} (h : op = ascii "instanceof") :
    Leads (pattern g) s fun o s' => (∀ n, o = some n → IsBound (prec + 1) n) ∧
      (op = ascii "instanceof" ∨
        nextPrecedence s'.cursor ≤ prec ∧ (o = none → nextPrecedence s'.cursor = 0)) :=
  Leads.of_ensures (ensures_pattern hg) fun _ _ ho =>
    ⟨fun n hn => .of_isOperand (ho n hn) _, Or.inl h⟩

/-- Any other operand binds more tightly than its operator, and what follows it does not. -/
theorem leads_bound (op : Bytes) (prec : Nat) :
    Leads (g (.binary (prec + 1))) s fun o s' => (∀ n, o = some n → IsBound (prec + 1) n) ∧
      (op = ascii "instanceof" ∨
        nextPrecedence s'.cursor ≤ prec ∧ (o = none → nextPrecedence s'.cursor = 0)) :=
  (hg.joined (prec + 1) s).mono fun _ _ h => ⟨h.1, Or.inr ⟨by omega, h.2.1⟩⟩

theorem leads_chainFrom {prec fuel : Nat} (hprec : 0 < prec) : Leads (chainFrom g prec fuel) s
    fun ns s' => ∃ cs, ns = cs.map some ∧ ReadsLinks prec s cs s' := by
  induction fuel generalizing s with
  | zero => exact Leads.throw _
  | succ fuel ih =>
      refine Leads.peekOperator fun op k hop => ?_
      have hnext : nextPrecedence s.cursor = precedence op := by rw [nextPrecedence, hop]
      refine Leads.ite (fun hother => Leads.pure
        ⟨[], rfl, .nil, by simp, fun _ => ?_, fun hne => absurd rfl hne⟩) fun hsame => ?_
      · exact ⟨rfl, hnext ▸ hother⟩
      rw [ne_eq, Decidable.not_not] at hsame
      refine (Leads.of_ensures (ensures_operator hop) fun _ _ h => h).bind ?_
      rintro _ s₁ ⟨o, rfl, hbuilt, hkind, hjoined⟩
      have hlink : precedence o.joined = prec := by rw [hjoined, hsame]
      have hfull : o.isEmpty = false := isEmpty_of_joined (by
        rw [hjoined]
        exact ne_nil_of_precedence (by omega))
      refine Leads.bind_ite (fun htest => leads_test hg (by simpa using htest))
        (fun _ => leads_bound hg op prec) ?_
      rintro (_ | r) s₂ ⟨hbound, hend⟩
      · refine Leads.unexpected fun s₃ hs₃ => Leads.pure
          ⟨[o], rfl, .last hkind hlink, by simp [hbuilt, hfull],
            fun hnil => absurd hnil (List.cons_ne_nil o []), fun _ => ?_⟩
        rcases hend with htest | hend
        · exact Or.inl (by simp [endsInTest, operators, hkind, hjoined, htest])
        · exact Or.inr (by rw [hs₃, hend.2 rfl]; exact hprec)
      have hr := hbound r rfl
      refine ih.bind ?_
      rintro _ s₃ ⟨rest, rfl, hrest⟩
      refine Leads.pure ⟨o :: r :: rest, rfl,
        .cons hkind hlink hr.notOperator hr.binds hrest.links, ?_,
        fun hnil => absurd hnil (List.cons_ne_nil o _), fun _ => ?_⟩
      · exact List.forall_mem_cons.mpr ⟨⟨hbuilt, hfull⟩,
          List.forall_mem_cons.mpr ⟨⟨hr.built, hr.full⟩, hrest.built⟩⟩
      by_cases hnil : rest = []
      · obtain ⟨rfl, hne⟩ := hrest.stays hnil
        subst hnil
        rcases hend with htest | hend
        · exact Or.inl (by
            simp [endsInTest, operators, hkind, hr.notOperator, hjoined, htest])
        · exact Or.inr (by omega)
      · rw [hrest.links.endsInTest_cons hnil hkind hr.notOperator]
        exact hrest.next hnil

/-- Chains are put around an operand as long as operators of a precedence follow. -/
theorem leads_chainsFrom {least fuel : Nat} {lhs : Node} (hlhs : IsLeading least lhs s.cursor) :
    Leads (chainsFrom g least fuel lhs) s fun n s' => IsBound least n ∧
      (nextPrecedence s'.cursor = 0 ∨ nextPrecedence s'.cursor < least) := by
  induction fuel generalizing s lhs with
  | zero => exact Leads.throw _
  | succ fuel ih =>
      refine Leads.peekOperator fun op k hop => ?_
      have hnext : nextPrecedence s.cursor = precedence op := by rw [nextPrecedence, hop]
      refine Leads.ite (fun hend => Leads.pure ⟨hlhs.toIsBound, ?_⟩) fun hgo => ?_
      · simpa [hnext] using hend
      simp only [Bool.or_eq_true, decide_eq_true_eq, not_or, Nat.not_lt] at hgo
      have hpos : 0 < precedence op := Nat.pos_of_ne_zero hgo.1
      refine Leads.bound ((leads_chainFrom hg hpos).bind ?_)
      rintro _ s₁ ⟨cs, rfl, hcs⟩
      have hne : cs ≠ [] := fun hnil => (hcs.stays hnil).2 hnext
      have hall : ∀ n ∈ lhs :: cs, n.Built ∧ n.isEmpty = false :=
        List.forall_mem_cons.mpr ⟨⟨hlhs.built, hlhs.full⟩, hcs.built⟩
      obtain ⟨hchain, hsame, hends⟩ := hcs.links.isChain hne hpos hlhs.notOperator fun hbinary =>
        hnext ▸ (hlhs.next hbinary).symm
      have hchildren : (make .binary ((lhs :: cs).map some)).children = lhs :: cs :=
        children_make_some .binary fun n hn => (hall n hn).2
      have hbuilt : (make .binary ((lhs :: cs).map some)).Built := by
        refine built_make (show IsChain _ by rwa [hchildren]) fun o ho => ?_
        obtain ⟨n, hn, rfl⟩ := List.mem_map.mp ho
        exact optBuilt_some.mpr (hall n hn).1
      refine ih ⟨⟨hbuilt, isEmpty_make List.mem_cons_self hlhs.full, rfl, fun _ => ?_⟩, fun _ => ?_⟩
      · change least ≤ chainPrecedence (make .binary ((lhs :: cs).map some)).children
        rw [hchildren, hsame]
        exact hgo.2
      · change endsInTest (make .binary ((lhs :: cs).map some)).children = true ∨
          _ < chainPrecedence (make .binary ((lhs :: cs).map some)).children
        rw [hchildren, hsame, hends]
        exact hcs.next hne

/-- What follows operands that are joined by operators of at least a precedence is no such
operator. -/
theorem leads_binary (least : Nat) : Leads (binary g least) s fun o s' =>
    (∀ n, o = some n → IsBound least n) ∧ (o = none → nextPrecedence s'.cursor = 0) ∧
      (nextPrecedence s'.cursor = 0 ∨ nextPrecedence s'.cursor < least) := by
  refine (leads_unary hg).bind ?_
  rintro (_ | lhs) s₁ ⟨hoperand, hends⟩
  · have hnone := nextPrecedence_of_endsExpr (hends rfl)
    exact Leads.pure ⟨nofun, fun _ => hnone, Or.inl hnone⟩
  have hlhs := hoperand lhs rfl
  refine Leads.bound ((leads_chainsFrom hg ⟨.of_isOperand hlhs _, ?_⟩).bind ?_)
  · exact fun hbinary => by simp [hlhs.notBinary] at hbinary
  · rintro n s₂ ⟨hn, hnext⟩
    refine Leads.pure ⟨?_, nofun, hnext⟩
    rintro _ ⟨rfl⟩
    exact hn

theorem ensures_binary (least : Nat) : Ensures (binary g least) s OptBuilt :=
  (leads_binary hg least).ensures fun _ _ h n hn => (h.1 n hn).built

theorem ensures_conditionalBranch : Ensures (conditionalBranch g) s OptBuilt := by
  refine (ensures_lambda hg).bind fun l s₁ h₁ => ?_
  cases l with
  | none => exact hg.built _ s₁
  | some l => exact Ensures.pure h₁.built

theorem ensures_ternary : Ensures (ternary g) s OptBuilt := by
  refine (ensures_binary hg 1).bind fun cond s₁ h₁ => ?_
  cases cond with
  | none => exact Ensures.none
  | some cond =>
      refine Ensures.isAt (Ensures.ite (fun _ => ?_) fun _ => Ensures.pure h₁)
      refine Ensures.next.bind fun question s₂ h₂ => ?_
      refine (ensures_conditionalBranch hg).bind fun yes s₃ h₃ => ?_
      refine (Ensures.expect ":" "conditional expression").bind fun colon s₄ h₄ => ?_
      refine (ensures_conditionalBranch hg).bind fun no s₅ h₅ => ?_
      exact Ensures.node trivial (by simp [h₁ cond rfl, h₂, h₃, h₄, h₅])

theorem ensures_expr : Ensures (expr g) s OptBuilt := by
  refine (ensures_ternary hg).bind fun lhs s₁ h₁ => ?_
  cases lhs with
  | none => exact Ensures.none
  | some lhs =>
      refine Ensures.peekOperator fun op k hop => ?_
      refine Ensures.ite (fun _ => ?_) fun _ => Ensures.pure h₁
      refine (ensures_operator hop).bind ?_
      rintro _ s₂ ⟨o, rfl, h₂, -⟩
      refine Ensures.isAt (Ensures.bind_ite (fun _ => hg.built _ s₂) (fun _ => hg.built _ s₂)
        fun rhs s₃ h₃ => ?_)
      exact Ensures.node length_children_make (by simp [h₁ lhs rfl, h₂, h₃])

end Rules

end Grammar

end CodeLayout
