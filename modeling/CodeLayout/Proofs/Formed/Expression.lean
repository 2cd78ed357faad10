import CodeLayout.Proofs.Formed.Types

/-!
# Expressions are built

An operand is not empty, so that what is selected from it has a base, and so that it keeps its place
between operators. Where no operand is given, the token at the cursor ends an expression, so it is
no operator. The operators behind an operand make one chain as long as they have one precedence, and
what follows a chain binds less tightly unless the chain ends in a test.
-/

namespace CodeLayout.Grammar

open CodeLayout.Node CodeLayout.Parser CodeLayout.Cursor

variable {g : Grammar} {s : ParserState}

theorem ensures_next_operand : Ensures next s OptOperand := by
  cases hl : s.cursor.get? 0 with
  | none =>
      intro n s' hrun
      rw [next_run_none hl] at hrun
      rw [← Except.ok.inj (Prod.mk.inj hrun).1]
      exact optOperand_none
  | some l =>
      refine (Ensures.next_leaf hl).mono ?_
      rintro _ rfl _ ⟨rfl⟩
      exact isOperand_leaf l.id l.token

theorem ensures_next_some (h : 0 < s.cursor.left) : Ensures next s SomeOperand :=
  (Ensures.next_some h).mono fun _ ⟨id, t, ho⟩ => ⟨_, ho, isOperand_leaf id t⟩

/-- A token is taken if there is one. -/
theorem ensures_next_opening : Ensures next s fun n =>
    OptBuilt n ∧ (0 < s.cursor.left → ∃ id t, n = some (.leaf id t)) :=
  fun n s' hrun => ⟨(ensures_next_operand n s' hrun).built, fun hpos =>
    Ensures.next_some hpos n s' hrun⟩

/-- A branch that starts with a token if there is one. -/
theorem built_of_opening {kind : NodeKind} {opening : Option Node} {ns : List (Option Node)}
    {c : Prop} (hkind : kind ≠ .operator ∧ kind ≠ .binary)
    (hk : kind.Admits (make kind (opening :: ns)).children) (h : AllBuilt (opening :: ns))
    (hopening : c → ∃ id t, opening = some (.leaf id t)) :
    OptBuilt (some (make kind (opening :: ns))) ∧
      (c → SomeOperand (some (make kind (opening :: ns)))) := by
  refine ⟨optBuilt_some.mpr (built_make hk h), fun hc => ?_⟩
  obtain ⟨id, t, rfl⟩ := hopening hc
  exact ⟨_, rfl, isOperand_make_leaf hkind hk (allBuilt_cons.mp h).2⟩

/-- Whether an operand was read, or the token at the cursor ends an expression. -/
def ReadsOperand (o : Option Node) (s : ParserState) : Prop :=
  OptOperand o ∧ (o = none → endsExpr s.cursor = true)

theorem leads_of_some {p : Parser (Option Node)} (h : Ensures p s SomeOperand) :
    Leads p s ReadsOperand :=
  Leads.of_ensures h fun _ _ ho => ⟨ho.optOperand, fun hnone => by
    obtain ⟨n, rfl, -⟩ := ho
    cases hnone⟩

theorem left_pos_of_text_mem {c : Cursor} {texts : List Bytes} (h : [] ∉ texts)
    (hmem : c.text 0 ∈ texts) : 0 < c.left :=
  left_pos_of_text fun hnil => h (hnil ▸ hmem)

theorem left_pos_of_kind {c : Cursor} (h : c.kind 0 ≠ .unrecognized) : 0 < c.left := by
  cases hl : c.get? 0 with
  | none =>
      rw [Cursor.kind, hl] at h
      exact absurd rfl h
  | some l => exact left_pos_of_get? hl

section Rules

variable (hg : Formal g)
include hg

omit hg in
theorem ensures_paramTokens : Ensures paramTokens s AllBuilt := by
  refine (Ensures.accept "...").bind fun dots s₁ h₁ => ?_
  have hrest : ∀ (name : Option Node) s₂, OptBuilt name →
      Ensures (do return [dots, name] ++ (← dims)) s₂ AllBuilt := by
    intro name s₂ h₂
    refine Ensures.dims_built.bind fun ds s₃ h₃ => ?_
    exact Ensures.pure (by simp [h₁, h₂, h₃])
  refine Ensures.isName (Ensures.isAt ?_)
  exact Ensures.bind_ite (fun _ => Ensures.next) (fun _ => Ensures.none) hrest

theorem ensures_rawParamFrom {fuel : Nat} {depth : Int} :
    Ensures (rawParamFrom g fuel depth) s AllBuilt := by
  induction fuel generalizing s depth with
  | zero => exact Ensures.throw _
  | succ fuel ih =>
      refine Ensures.cursor (Ensures.ite (fun _ => Ensures.nil) fun _ => ?_)
      refine Ensures.ite (fun _ => ?_) fun _ => ?_
      · refine (hg.built .block s).bind fun b s₁ h₁ => ?_
        exact ih.bind fun bs s₂ h₂ => Ensures.pure (allBuilt_cons.mpr ⟨h₁, h₂⟩)
      · refine Ensures.next.bind fun t s₁ h₁ => ?_
        exact ih.bind fun ts s₂ h₂ => Ensures.pure (allBuilt_cons.mpr ⟨h₁, h₂⟩)

theorem ensures_param (lambda : Bool) : Ensures (param g lambda) s OptBuilt := by
  refine (ensures_modifiers hg false).bind fun mods s₁ h₁ => ?_
  refine Ensures.cursor (Ensures.ite (fun _ => ?_) fun _ => ?_)
  · exact Ensures.next.bind fun name s₂ h₂ => Ensures.node trivial (by simp [h₁, h₂])
  refine Ensures.ite (fun _ => ?_) fun _ => Ensures.unexpected fun s₂ => Ensures.bound ?_
  · refine (ensures_type_built hg).bind fun t s₂ h₂ => ?_
    refine ensures_paramTokens.bind fun ts s₃ h₃ => ?_
    exact Ensures.node trivial (by simp [h₁, h₂, h₃])
  · refine (ensures_rawParamFrom hg).bind fun ts s₃ h₃ => ?_
    exact Ensures.node trivial (allBuilt_cons.mpr ⟨h₁, h₃⟩)

theorem ensures_params (lambda : Bool) : Ensures (params g lambda) s fun n =>
    OptBuilt n ∧ (0 < s.cursor.left → SomeOperand n) := by
  refine ensures_next_opening.bind ?_
  rintro opening s₁ ⟨h₁, hopening⟩
  refine (Ensures.separated (fun c => !c.isAt 0 ")" && !c.isDone) (fun _ => rfl)
    fun _ _ => ensures_param hg lambda).bind fun ps s₂ h₂ => ?_
  refine (Ensures.expect ")" "parameter list").bind fun closing s₃ h₃ => ?_
  exact Ensures.pure (built_of_opening (by decide) trivial (by simp [h₁, h₂, h₃]) hopening)

theorem ensures_lambdaParams : Ensures (lambdaParams g) s OptOperand := by
  refine Ensures.cursor (Ensures.ite (fun _ => ensures_next_operand) fun _ => ?_)
  refine Ensures.ite (fun hat => ?_) fun _ => Ensures.pure optOperand_none
  cases s.cursor.skipBalanced 0 with
  | none => exact Ensures.pure optOperand_none
  | some k =>
      refine Ensures.ite (fun _ => ?_) fun _ => Ensures.pure optOperand_none
      exact (ensures_params hg true).mono fun _ h =>
        (h.2 (left_pos_of_isAt hat (by decide))).optOperand

theorem ensures_lambda : Ensures (lambda g) s OptOperand := by
  refine Ensures.get (Ensures.ite (fun _ => Ensures.pure optOperand_none) fun _ => ?_)
  refine (ensures_lambdaParams hg).bind fun ps s₁ h₁ => ?_
  cases ps with
  | none => exact Ensures.pure optOperand_none
  | some ps =>
      refine Ensures.next.bind fun arrow s₂ h₂ => ?_
      have hps := h₁ ps rfl
      refine Ensures.isAt (Ensures.bind_ite (fun _ => hg.built _ s₂) (fun _ => hg.built _ s₂)
        fun body s₃ h₃ => Ensures.pure ?_)
      rintro _ ⟨rfl⟩
      exact isOperand_make (by decide) trivial (by simp [hps.built, h₂, h₃]) List.mem_cons_self
        hps.full

theorem ensures_args : Ensures (args g) s OptBuilt := by
  refine Ensures.next.bind fun opening s₁ h₁ => Ensures.get (Ensures.change ?_)
  refine (Ensures.separated (fun c => !c.isAt 0 ")" && !c.isDone) (fun _ => rfl)
    fun s _ => hg.built _ s).bind fun es s₂ h₂ => ?_
  refine (Ensures.expect ")" "argument list").bind fun closing s₃ h₃ => Ensures.change ?_
  exact Ensures.node trivial (by simp [h₁, h₂, h₃])

theorem ensures_arrayInit (e : Element) : Ensures (arrayInit g e) s fun n =>
    OptBuilt n ∧ (0 < s.cursor.left → SomeOperand n) := by
  refine ensures_next_opening.bind ?_
  rintro opening s₁ ⟨h₁, hopening⟩
  refine (Ensures.separated (fun c => !c.isAt 0 "\x7d" && !c.isDone) (fun _ => rfl)
    fun s _ => Ensures.isAt (Ensures.ite (fun _ => hg.built _ s) fun _ => hg.built _ s)).bind
    fun es s₂ h₂ => ?_
  refine (Ensures.expect "\x7d" "array initializer").bind fun closing s₃ h₃ => ?_
  exact Ensures.pure (built_of_opening (by decide) trivial (by simp [h₁, h₂, h₃]) hopening)

theorem ensures_arrayLengths : Ensures (arrayLengths g) s AllBuilt := by
  refine Ensures.collect (fun c => c.isAt 0 "[") (fun _ => rfl) fun s₁ _ => ?_
  refine Ensures.next.bind fun opening s₂ h₂ => ?_
  refine Ensures.isAt (Ensures.bind_ite (fun _ => Ensures.none) (fun _ => hg.built _ s₂)
    fun length s₃ h₃ => ?_)
  refine (Ensures.expect "]" "array creation").bind fun closing s₄ h₄ => ?_
  exact Ensures.pure (by simp [h₂, h₃, h₄])

theorem ensures_creationRest : Ensures (creationRest g) s AllBuilt := by
  refine Ensures.isAt (Ensures.ite (fun _ => ?_) fun _ => ?_)
  · refine (ensures_args hg).bind fun as s₁ h₁ =>
      Ensures.isAt (Ensures.ite (fun _ => ?_) fun _ => ?_)
    · exact (hg.built _ s₁).bind fun body s₂ h₂ => Ensures.pure (by simp [h₁, h₂])
    · exact Ensures.pure (by simpa using h₁)
  refine Ensures.isAt (Ensures.isAt (Ensures.ite (fun _ => ?_) fun _ => ?_))
  · refine (ensures_arrayLengths hg).bind fun ls s₁ h₁ => ?_
    refine Ensures.isAt (Ensures.ite (fun _ => ?_) fun _ => Ensures.pure h₁)
    exact (hg.built _ s₁).bind fun init s₂ h₂ =>
      Ensures.pure (List.forall_mem_append.mpr ⟨h₁, by simpa using h₂⟩)
  · exact Ensures.unexpected fun _ => Ensures.nil

theorem ensures_creation (hpos : 0 < s.cursor.left) : Ensures (creation g) s SomeOperand := by
  refine (Ensures.next_some hpos).bind ?_
  rintro _ s₁ ⟨id, t, rfl⟩
  refine Ensures.isAt (Ensures.bind_ite (fun _ => ensures_typeParams) (fun _ => Ensures.none)
    fun ts s₂ h₂ => Ensures.cursor (Ensures.ite (fun _ => Ensures.unexpected fun s₃ => ?_)
      fun _ => ?_))
  · exact Ensures.pure ⟨_, rfl, isOperand_make_leaf (by decide) trivial (by simpa using h₂)⟩
  · refine (ensures_type_built hg).bind fun t s₃ h₃ => ?_
    refine (ensures_creationRest hg).bind fun rest s₄ h₄ => ?_
    exact Ensures.pure ⟨_, rfl, isOperand_make_leaf (by decide) trivial (by simp [h₂, h₃, h₄])⟩

theorem ensures_paren (place : String) : Ensures (paren g place) s OptBuilt := by
  refine (Ensures.expect "(" place).bind fun opening s₁ h₁ => ?_
  cases opening with
  | none => exact Ensures.none
  | some opening =>
      refine (hg.built _ s₁).bind fun inner s₂ h₂ => ?_
      refine (Ensures.expect ")" place).bind fun closing s₃ h₃ => ?_
      exact Ensures.node trivial (by simp [h₁, h₂, h₃])

theorem ensures_pattern : Ensures (pattern g) s OptOperand := by
  refine Ensures.bind_run fun mods s₁ hmods => ?_
  obtain ⟨h₁, hannot⟩ := leads_modifiers hg false mods s₁ hmods
  refine Ensures.cursor (Ensures.ite (fun _ => Ensures.pure h₁) fun htype => ?_)
  refine (ensures_type hg).bind ?_
  rintro t s₂ ⟨-, hsome⟩
  obtain ⟨n, rfl, hn⟩ := hsome (by simpa [Option.isSome_iff_ne_none] using htype) hannot
  have hfull : OptOperand (some n) := SomeOperand.optOperand ⟨n, rfl, hn⟩
  refine Ensures.isName (Ensures.ite (fun _ => Ensures.pure hfull) fun _ => ?_)
  refine Ensures.acceptName.bind fun name s₃ h₃ => Ensures.pure ?_
  rintro _ ⟨rfl⟩
  exact isOperand_make (by decide) trivial (by simp [h₁.built, hn.built, h₃])
    (List.mem_cons_of_mem _ List.mem_cons_self) hn.full

theorem ensures_caseLabel : Ensures (caseLabel g) s OptBuilt := by
  refine Ensures.cursor (Ensures.ite (fun _ => Ensures.next) fun _ => ?_)
  refine Ensures.ite (fun _ => ?_) fun _ => hg.built _ s
  exact (ensures_pattern hg).mono fun _ h => h.built

theorem ensures_caseLabels : Ensures (caseLabels g) s AllBuilt := by
  refine Ensures.get (Ensures.change ?_)
  refine (Ensures.separated (fun c => !c.isAt 0 ":" && !c.isAt 0 "->" && !c.isDone)
    (fun _ => rfl) fun s _ => ensures_caseLabel hg).bind fun labels s₁ h₁ => ?_
  exact Ensures.change (Ensures.pure h₁)

theorem ensures_switchCase : Ensures (switchCase g) s OptBuilt := by
  refine Ensures.isAt (Ensures.next.bind fun word s₁ h₁ => ?_)
  refine Ensures.bind_ite (fun _ => ensures_caseLabels hg) (fun _ => Ensures.nil)
    fun labels s₂ h₂ => ?_
  refine (Ensures.accept "->").bind fun arrow s₃ h₃ => ?_
  cases arrow with
  | some arrow =>
      refine Ensures.before (Ensures.ite (fun _ => ?_) fun _ => ?_)
      · refine (hg.built _ s₃).bind fun body s₄ h₄ => Ensures.node trivial ?_
        simp [h₁, h₂, optBuilt_some.mp h₃, h₄]
      · refine Ensures.node trivial ?_
        simp [h₁, h₂, optBuilt_some.mp h₃]
  | none =>
      refine (Ensures.expect ":" "switch label").bind fun colon s₄ h₄ => ?_
      refine (Ensures.many (fun c => (!c.isAt 0 "\x7d" && !c.isDone) && !c.isAt 0 "case" &&
        !c.isDefaultLabel) (fun _ => rfl) fun s _ => hg.built _ s).bind fun body s₅ h₅ => ?_
      exact Ensures.node trivial (by simp [h₁, h₂, h₄, h₅])

theorem ensures_switch (hpos : 0 < s.cursor.left) : Ensures (switch g) s SomeOperand := by
  refine (Ensures.next_some hpos).bind ?_
  rintro _ s₁ ⟨id, t, rfl⟩
  refine (ensures_paren hg "switch").bind fun subject s₂ h₂ => ?_
  refine Ensures.isAt (Ensures.ite (fun _ => ?_) fun _ => Ensures.unexpected fun s₃ => ?_)
  · refine Ensures.next.bind fun opening s₃ h₃ => ?_
    refine (Ensures.many (fun c => !c.isAt 0 "\x7d" && !c.isDone) (fun _ => rfl)
      fun s _ => Ensures.isAt (Ensures.cursor (Ensures.ite (fun _ => ensures_switchCase hg)
        fun _ => hg.built _ s))).bind fun cases s₄ h₄ => ?_
    refine (Ensures.expect "\x7d" "switch").bind fun closing s₅ h₅ => ?_
    have hbody : (make .switchBody ([opening] ++ cases ++ [closing])).Built :=
      built_make trivial (by simp [h₃, h₄, h₅])
    exact Ensures.pure ⟨_, rfl, isOperand_make_leaf (by decide) trivial
      (allBuilt_cons.mpr ⟨h₂, by simpa using hbody⟩)⟩
  · exact Ensures.pure ⟨_, rfl, isOperand_make_leaf (by decide) trivial (by simpa using h₂)⟩

omit hg in
/-- What is taken in place of an expression is a token. -/
theorem leads_missingExpr : Leads missingExpr s ReadsOperand := by
  refine Leads.unexpected fun s₁ _ => Leads.cursor (Leads.ite
    (fun hends => Leads.pure ⟨optOperand_none, fun _ => hends⟩) fun hends => leads_of_some ?_)
  simp only [endsExpr, Bool.or_eq_true, not_or, Bool.not_eq_true] at hends
  refine (Ensures.next_some (isDone_eq_false_iff.mp hends.1)).bind ?_
  rintro _ s₂ ⟨id, t, rfl⟩
  exact Ensures.pure ⟨_, rfl, isOperand_make_leaf (by decide) trivial (by simp)⟩

omit hg in
/-- Where no parameters of a lambda are, nothing is taken. -/
theorem lambdaParams_run_none {s' : ParserState}
    (h : (lambdaParams g).run s = (Except.ok none, s')) : s' = s := by
  obtain ⟨c, s₁, hcursor, hrest⟩ := exists_of_run_bind h
  obtain ⟨⟨rfl⟩, rfl⟩ := Prod.mk.inj hcursor
  split_ifs at hrest with hname hat
  · cases hl : s.cursor.get? 0 with
    | none =>
        rw [next_run_none hl] at hrest
        exact (Prod.mk.inj hrest).2.symm
    | some l =>
        rw [next_run hl] at hrest
        cases (Prod.mk.inj hrest).1
  · have hparams : ∀ {s₂}, (params g true).run s₂ ≠ (Except.ok none, s') := by
      intro s₂ hrun
      obtain ⟨opening, s₃, -, hrun⟩ := exists_of_run_bind hrun
      obtain ⟨ps, s₄, -, hrun⟩ := exists_of_run_bind hrun
      obtain ⟨closing, s₅, -, hrun⟩ := exists_of_run_bind hrun
      cases (Prod.mk.inj hrun).1
    split at hrest
    · split_ifs at hrest
      · exact absurd hrest hparams
      · exact (Prod.mk.inj hrest).2.symm
    · exact (Prod.mk.inj hrest).2.symm
  · exact (Prod.mk.inj hrest).2.symm

omit hg in
/-- Where no lambda is, nothing is taken. -/
theorem lambda_run_none {s' : ParserState} (h : (lambda g).run s = (Except.ok none, s')) :
    s' = s := by
  obtain ⟨s₀, s₁, hget, hrest⟩ := exists_of_run_bind h
  obtain ⟨⟨rfl⟩, rfl⟩ := Prod.mk.inj hget
  split_ifs at hrest
  · exact (Prod.mk.inj hrest).2.symm
  obtain ⟨ps, s₂, hparams, hrest⟩ := exists_of_run_bind hrest
  cases ps with
  | none =>
      rw [← lambdaParams_run_none hparams]
      exact (Prod.mk.inj hrest).2.symm
  | some ps =>
      obtain ⟨arrow, s₃, -, hrest⟩ := exists_of_run_bind hrest
      obtain ⟨isBlock, s₄, -, hrest⟩ := exists_of_run_bind hrest
      split_ifs at hrest
      all_goals
        obtain ⟨body, s₅, -, hrest⟩ := exists_of_run_bind hrest
        cases (Prod.mk.inj hrest).1

/-- A lambda, or what is read from the same cursor. -/
theorem leads_lambda_or {f : Parser (Option Node)} (hf : Leads f s ReadsOperand) :
    Leads (do
      match ← lambda g with
      | some l => return some l
      | none => f) s ReadsOperand := by
  have hself : Leads (lambda g) s fun n s₁ => (lambda g).run s = (Except.ok n, s₁) := fun _ _ h => h
  refine hself.bind fun n s₁ hrun => ?_
  cases n with
  | none =>
      rw [lambda_run_none hrun]
      exact hf
  | some l => exact Leads.pure ⟨ensures_lambda hg _ _ hrun, nofun⟩

theorem leads_wordExpr : Leads (wordExpr g) s ReadsOperand := by
  refine leads_lambda_or hg (Leads.cursor (Leads.ite (fun hcall => leads_of_some ?_) fun _ => ?_))
  · have hpos : 0 < s.cursor.left := by
      simp only [Bool.and_eq_true, Bool.or_eq_true] at hcall
      rcases hcall.2 with (hname | hthis) | hsuper
      · exact left_pos_of_isName hname
      · exact left_pos_of_isAt hthis (by decide)
      · exact left_pos_of_isAt hsuper (by decide)
    refine (Ensures.next_some hpos).bind ?_
    rintro _ s₁ ⟨id, t, rfl⟩
    refine (ensures_args hg).bind fun as s₂ h₂ => ?_
    exact Ensures.pure ⟨_, rfl, isOperand_make_leaf (by decide) trivial (by simp [h₂])⟩
  · refine Leads.ite (fun hword => leads_of_some (ensures_next_some ?_)) fun _ => leads_missingExpr
    simp only [isOperandWord, Bool.or_eq_true, List.contains_iff_mem] at hword
    rcases hword with hname | hmem
    · exact left_pos_of_isName hname
    · exact left_pos_of_text_mem (by decide) hmem

theorem leads_parenExpr (hat : s.cursor.isAt 0 "(" = true) :
    Leads (parenExpr g) s ReadsOperand := by
  refine leads_lambda_or hg (leads_of_some ?_)
  refine (Ensures.next_some (left_pos_of_isAt hat (by decide))).bind ?_
  rintro _ s₁ ⟨id, t, rfl⟩
  refine (hg.built _ s₁).bind fun inner s₂ h₂ => ?_
  refine (Ensures.expect ")" "parenthesized expression").bind fun closing s₃ h₃ => ?_
  exact Ensures.pure ⟨_, rfl, isOperand_make_leaf (by decide) trivial (by simp [h₂, h₃])⟩

/-- An operand is not empty, and it is missing only where an expression ends. -/
theorem leads_primary : Leads (primary g) s ReadsOperand := by
  refine Leads.cursor (Leads.ite (fun hkind => leads_of_some (ensures_next_some ?_)) fun _ => ?_)
  · simp only [Bool.or_eq_true, decide_eq_true_eq] at hkind
    refine left_pos_of_kind fun hnone => ?_
    rw [hnone] at hkind
    simp at hkind
  refine Leads.ite (fun hat => leads_of_some ?_) fun _ => ?_
  · exact ensures_creation hg (left_pos_of_isAt hat (by decide))
  refine Leads.ite (fun hat => leads_of_some ?_) fun _ => ?_
  · exact ensures_switch hg (left_pos_of_isAt hat (by decide))
  refine Leads.ite (fun hat => leads_of_some ?_) fun _ => ?_
  · exact hg.full .expr s (left_pos_of_isAt hat (by decide))
  refine Leads.ite (fun hat => leads_parenExpr hg hat) fun _ => ?_
  exact Leads.ite (fun _ => leads_wordExpr hg) fun _ => leads_missingExpr

theorem ensures_selector : Ensures (selector g) s OptBuilt := by
  refine Ensures.cursor
    (Ensures.ite (fun _ => ?_) fun _ => Ensures.unexpected fun _ => Ensures.none)
  refine Ensures.next.bind fun name s₁ h₁ => Ensures.isAt (Ensures.ite (fun _ => ?_) fun _ => ?_)
  · exact (ensures_args hg).bind fun as s₂ h₂ => Ensures.node trivial (by simp [h₁, h₂])
  · exact Ensures.pure h₁

theorem ensures_member : Ensures (member g) s OptBuilt := by
  refine Ensures.isAt (Ensures.ite (fun hat => ?_) fun _ => ?_)
  · exact (ensures_creation hg (left_pos_of_isAt hat (by decide))).mono fun _ h => h.built
  refine Ensures.isAt (Ensures.ite (fun _ => ?_) fun _ => ensures_selector hg)
  refine ensures_typeParams.bind fun ts s₁ h₁ => ?_
  exact (ensures_selector hg).bind fun m s₂ h₂ => Ensures.node trivial (by simp [h₁, h₂])

omit hg in
/-- A selection has a base and a dot. -/
theorem admits_select {n : Node} (hn : n.isEmpty = false) (id : Nat) (t : Token)
    (m : Option Node) :
    NodeKind.select.Admits (make .select [some n, some (.leaf id t), m]).children := by
  have hleaf : (leaf id t).isEmpty = false := rfl
  rw [children_make]
  cases m with
  | none => simp [NodeKind.Admits, NodeKind.Takes, hn, hleaf]
  | some m => cases hm : m.isEmpty <;> simp [NodeKind.Admits, NodeKind.Takes, hn, hleaf, hm]

/-- What is selected from an operand. -/
theorem ensures_selectorsFrom {fuel : Nat} {n : Node} (hn : n.IsOperand) :
    Ensures (selectorsFrom g fuel n) s IsOperand := by
  induction fuel generalizing s n with
  | zero => exact Ensures.throw _
  | succ fuel ih =>
      have hmake : ∀ {kind : NodeKind} {ns : List (Option Node)} {s : ParserState},
          kind ≠ .operator ∧ kind ≠ .binary → kind.Admits (make kind (some n :: ns)).children →
          AllBuilt ns → Ensures (selectorsFrom g fuel (make kind (some n :: ns))) s IsOperand :=
        fun hkind hk hns =>
          ih (isOperand_make hkind hk (by simp [hn.built, hns]) List.mem_cons_self hn.full)
      refine Ensures.isAt (Ensures.ite (fun hat => ?_) fun _ => ?_)
      · refine (Ensures.next_some (left_pos_of_isAt hat (by decide))).bind ?_
        rintro _ s₁ ⟨id, t, rfl⟩
        refine (ensures_member hg).bind fun m s₂ h₂ => ?_
        exact hmake (by decide) (admits_select hn.full id t m) (by simp [h₂])
      refine Ensures.isAt (Ensures.ite (fun _ => ?_) fun _ => ?_)
      · refine Ensures.next.bind fun mark s₁ h₁ => ?_
        have hname : ∀ {name : Option Node} {s : ParserState}, OptBuilt name →
            Ensures (selectorsFrom g fuel (make .methodRef [some n, mark, name])) s IsOperand :=
          fun h => hmake (by decide) trivial (by simp [h₁, h])
        refine Ensures.cursor (Ensures.ite (fun _ => ?_) fun _ => Ensures.unexpected fun _ => ?_)
        · exact Ensures.next.bind fun name s₂ h₂ => hname h₂
        · exact Ensures.none.bind fun name s₂ h₂ => hname h₂
      refine Ensures.isAt (Ensures.ite (fun _ => ?_) fun _ => ?_)
      · refine Ensures.next.bind fun opening s₁ h₁ => Ensures.isAt ?_
        refine Ensures.bind_ite (fun _ => Ensures.none) (fun _ => hg.built _ s₁) fun i s₂ h₂ => ?_
        refine (Ensures.expect "]" "index expression").bind fun closing s₃ h₃ => ?_
        exact hmake (by decide) trivial (by simp [h₁, h₂, h₃])
      refine Ensures.isAt (Ensures.isAt (Ensures.ite (fun _ => ?_) fun _ => ?_))
      · exact Ensures.next.bind fun op s₁ h₁ => hmake (by decide) trivial (by simp [h₁])
      · exact Ensures.pure hn

theorem leads_postfixExpr : Leads (postfixExpr g) s ReadsOperand := by
  refine (leads_primary hg).bind fun n s₁ h₁ => ?_
  cases n with
  | none => exact Leads.pure h₁
  | some n =>
      refine leads_of_some (Ensures.bound ?_)
      refine (ensures_selectorsFrom hg (h₁.1 n rfl)).bind fun m s₂ h₂ => ?_
      exact Ensures.pure ⟨m, rfl, h₂⟩

theorem leads_unary : Leads (unary g) s ReadsOperand := by
  refine Leads.cursor (Leads.ite (fun hsign => leads_of_some ?_) fun _ => ?_)
  · refine (Ensures.next_some (left_pos_of_text_mem (by decide)
      (List.contains_iff_mem.mp hsign))).bind ?_
    rintro _ s₁ ⟨id, t, rfl⟩
    refine (hg.built _ s₁).bind fun operand s₂ h₂ => Ensures.pure ⟨_, rfl, ?_⟩
    exact isOperand_make_leaf (by decide) length_children_make (by simp [h₂])
  refine Leads.ite (fun hcast => leads_of_some ?_) fun _ => leads_postfixExpr hg
  rw [Bool.and_eq_true] at hcast
  refine (Ensures.next_some (left_pos_of_isAt hcast.1 (by decide))).bind ?_
  rintro _ s₁ ⟨id, t, rfl⟩
  refine (ensures_type_built hg).bind fun t s₂ h₂ => ?_
  refine Ensures.next.bind fun closing s₃ h₃ => ?_
  refine (hg.built _ s₃).bind fun operand s₄ h₄ => ?_
  exact Ensures.pure ⟨_, rfl, isOperand_make_leaf (by decide) trivial (by simp [h₂, h₃, h₄])⟩

theorem ensures_unary : Ensures (unary g) s OptBuilt :=
  (leads_unary hg).ensures fun _ _ h => h.1.built

end Rules

end CodeLayout.Grammar
