import CodeLayout.Proofs.Formed.Operators
import CodeLayout.Proofs.Formed.Statement
import CodeLayout.Proofs.Syntax.Declaration

/-!
# The tree of a stream is built

Every production gives built nodes if all rules do, so the rules give built nodes however often they
are tied together. Only the root is not made from its children: it covers the whole text.
-/

namespace CodeLayout

namespace Grammar

open CodeLayout.Node CodeLayout.Parser CodeLayout.Cursor

variable {g : Grammar} {s : ParserState}

section Rules

variable (hg : Formal g)
include hg

theorem ensures_typeBody : Ensures (typeBody g) s OptBuilt := by
  refine Ensures.next.bind fun opening s₁ h₁ => ?_
  refine (Ensures.many (fun c => !c.isAt 0 "\x7d" && !c.isDone) (fun _ => rfl)
    fun s _ => hg.built _ s).bind fun members s₂ h₂ => ?_
  refine (Ensures.expect "\x7d" "type body").bind fun closing s₃ h₃ => ?_
  exact Ensures.node trivial (by simp [h₁, h₂, h₃])

theorem ensures_enumConstant : Ensures (enumConstant g) s fun r => AllBuilt r.1 := by
  refine (ensures_modifiers hg false).bind fun mods s₁ h₁ => ?_
  refine Ensures.isName (Ensures.ite (fun _ => ?_) fun _ => Ensures.pure (by simpa using h₁))
  refine Ensures.next.bind fun name s₂ h₂ => Ensures.isAt ?_
  refine Ensures.bind_ite (fun _ => ensures_args hg) (fun _ => Ensures.none) fun as s₃ h₃ => ?_
  refine Ensures.isAt (Ensures.bind_ite (fun _ => hg.built _ s₃) (fun _ => Ensures.none)
    fun inner s₄ h₄ => ?_)
  have hconstant : (make .enumConstant [mods, name, as, inner]).Built :=
    built_make trivial (by simp [h₁, h₂, h₃, h₄])
  refine (Ensures.accept ",").bind fun comma s₅ h₅ => ?_
  cases comma with
  | none => exact Ensures.pure (by simp [hconstant])
  | some comma => exact Ensures.pure (by simp [hconstant, h₅ comma rfl])

theorem ensures_enumBody : Ensures (enumBody g) s OptBuilt := by
  refine Ensures.next.bind fun opening s₁ h₁ => ?_
  refine (Ensures.collect (P := OptBuilt)
    (fun c => !c.isAt 0 ";" && (!c.isAt 0 "\x7d" && !c.isDone)) (fun _ => rfl)
    fun _ _ => ensures_enumConstant hg).bind fun constants s₂ h₂ => ?_
  have hconstants : (make .enumConstants constants).Built := built_make trivial h₂
  refine (Ensures.accept ";").bind fun semi s₃ h₃ => ?_
  refine (Ensures.many (fun c => !c.isAt 0 "\x7d" && !c.isDone) (fun _ => rfl)
    fun s _ => hg.built _ s).bind fun members s₄ h₄ => ?_
  refine (Ensures.expect "\x7d" "enum body").bind fun closing s₅ h₅ => ?_
  exact Ensures.node trivial (by simp [h₁, hconstants, h₃, h₄, h₅])

omit hg in
/-- A clause has its word, and a list of types behind it if there are types. -/
theorem admits_clause (id : Nat) (t : Token) (types : List (Option Node)) :
    NodeKind.clause.Admits
      (make .clause [some (.leaf id t), some (make .typeList types)]).children := by
  have hleaf : (leaf id t).isEmpty = false := rfl
  rw [children_make]
  refine ⟨.leaf id t, ([make .typeList types].filter fun n => !n.isEmpty), ?_, rfl, ?_⟩
  · simp [List.filter_cons, hleaf]
  · cases htypes : (make .typeList types).isEmpty with
    | true => exact Or.inl (by simp [htypes])
    | false => exact Or.inr ⟨make .typeList types, by simp [htypes], rfl⟩

theorem ensures_clause (hpos : 0 < s.cursor.left) : Ensures (clause g) s OptBuilt := by
  refine Ensures.cursor ((Ensures.next_some hpos).bind ?_)
  rintro _ s₁ ⟨id, t, rfl⟩
  refine (ensures_typeList hg _).bind ?_
  rintro _ s₂ ⟨h₂, types, rfl⟩
  exact Ensures.node (admits_clause id t types) (by simpa using h₂)

omit hg in
theorem ensures_declaredName : Ensures declaredName s OptBuilt := by
  refine Ensures.acceptName.bind fun name s₁ h₁ => ?_
  cases name with
  | none => exact Ensures.unexpected fun _ => Ensures.none
  | some name => exact Ensures.pure h₁

theorem ensures_typeDecl {mods : Option Node} (hmods : OptBuilt mods) :
    Ensures (typeDecl g mods) s OptBuilt := by
  refine (Ensures.accept "@").bind fun sign s₁ h₁ => Ensures.isAt ?_
  refine Ensures.next.bind fun word s₂ h₂ => ?_
  refine ensures_declaredName.bind fun name s₃ h₃ => Ensures.isAt ?_
  refine Ensures.bind_ite (fun _ => ensures_typeParams) (fun _ => Ensures.none)
    fun ts s₄ h₄ => Ensures.isAt ?_
  refine Ensures.bind_ite (fun _ => (ensures_params hg false).mono fun _ h => h.1)
    (fun _ => Ensures.none) fun ps s₅ h₅ => ?_
  refine (Ensures.many isClause (fun _ => rfl)
    fun s hclause => ensures_clause hg (left_pos_of_isClause hclause)).bind fun cs s₆ h₆ => ?_
  have hrest : ∀ {inner : Option Node} {s : ParserState}, OptBuilt inner →
      Ensures (node .typeDecl ([mods, sign, word, name, ts, ps] ++ cs ++ [inner])) s OptBuilt :=
    fun h => Ensures.node trivial (by simp [hmods, h₁, h₂, h₃, h₄, h₅, h₆, h])
  refine Ensures.isAt (Ensures.ite (fun _ => ?_) fun _ => Ensures.unexpected fun _ => ?_)
  · exact Ensures.bind_ite (fun _ => ensures_enumBody hg) (fun _ => hg.built _ s₆)
      fun inner s₇ h₇ => hrest h₇
  · exact Ensures.none.bind fun inner s₇ h₇ => hrest h₇

theorem ensures_method {mods ts result : Option Node} (hmods : OptBuilt mods)
    (hts : OptBuilt ts) (hresult : OptBuilt result) :
    Ensures (method g mods ts result) s OptBuilt := by
  refine Ensures.next.bind fun name s₁ h₁ => ?_
  refine (ensures_params hg false).bind ?_
  rintro ps s₂ ⟨h₂, -⟩
  refine Ensures.dims_built.bind fun ds s₃ h₃ => Ensures.isAt ?_
  refine Ensures.bind_ite (fun hat => ensures_clause hg (left_pos_of_isAt hat (by decide)))
    (fun _ => Ensures.none) fun throwing s₄ h₄ => Ensures.isAt ?_
  have hend : ∀ value (s : ParserState), AllBuilt value → Ensures (do
      let inner ← if ← isAt "\x7b" then g .block else expect ";" "method declaration"
      node .method ([mods, ts, result, name, ps] ++ ds ++ [throwing] ++ value ++ [inner])) s
      OptBuilt := by
    intro value s₅ h₅
    refine Ensures.isAt (Ensures.bind_ite (fun _ => hg.built _ s₅)
      (fun _ => Ensures.expect ";" _) fun inner s₆ h₆ => ?_)
    exact Ensures.node trivial (by simp [hmods, hts, hresult, h₁, h₂, h₃, h₄, h₅, h₆])
  refine Ensures.ite (fun _ => ?_) fun _ => Ensures.nil.bind hend
  refine Ensures.next.bind fun word s₅ h₅ => ?_
  refine (ensures_annotValue hg).bind fun v s₆ h₆ => ?_
  exact Ensures.look rfl (hend _ s₆ (by simp [h₅, h₆]))

theorem ensures_modifiedMember {mods : Option Node} (hmods : OptBuilt mods) :
    Ensures (modifiedMember g mods) s OptBuilt := by
  refine Ensures.cursor (Ensures.ite (fun _ => ensures_typeDecl hg hmods) fun _ => Ensures.isAt ?_)
  refine Ensures.bind_ite (fun _ => ensures_typeParams) (fun _ => Ensures.none) fun ts s₁ h₁ => ?_
  refine Ensures.cursor (Ensures.ite (fun _ => ?_) fun _ => ?_)
  · exact ensures_method hg hmods h₁ optBuilt_none
  refine Ensures.ite (fun _ => ?_) fun _ => Ensures.unexpected fun s₂ => ?_
  · refine (ensures_type_built hg).bind fun t s₂ h₂ => Ensures.cursor ?_
    refine Ensures.ite (fun _ => ensures_method hg hmods h₁ h₂) fun _ => ?_
    refine Ensures.ite (fun _ => ensures_varDecl hg hmods h₂ true) fun _ => ?_
    exact ensures_raw hg (by simp [hmods, h₁, h₂])
  · exact ensures_raw hg (by simp [hmods, h₁])

theorem ensures_typeMember : Ensures (typeMember g) s OptBuilt := by
  refine Ensures.cursor (Ensures.ite (fun _ => ?_) fun _ => ?_)
  · exact Ensures.next.bind fun semi s₁ h₁ => Ensures.node trivial (by simp [h₁])
  refine Ensures.ite (fun _ => ?_) fun _ => Ensures.ite (fun _ => ?_) fun _ => ?_
  · exact (hg.built _ s).bind fun b s₁ h₁ => Ensures.node trivial (by simp [h₁])
  · refine Ensures.next.bind fun word s₁ h₁ => ?_
    exact (hg.built _ s₁).bind fun b s₂ h₂ => Ensures.node trivial (by simp [h₁, h₂])
  · exact (ensures_modifiers hg true).bind fun mods s₁ h₁ => ensures_modifiedMember hg h₁

theorem ensures_plainStatement : Ensures (plainStatement g) s OptBuilt := by
  refine Ensures.cursor (Ensures.ite (fun _ => ensures_labeled hg) fun _ => ?_)
  refine (ensures_modifiers hg false).bind fun mods s₁ h₁ => Ensures.cursor ?_
  refine Ensures.ite (fun _ => ensures_typeDecl hg h₁) fun _ =>
    Ensures.ite (fun _ => ?_) fun _ => ?_
  · exact (ensures_type_built hg).bind fun t s₂ h₂ => ensures_varDecl hg h₁ h₂ true
  refine Ensures.ite (fun _ => Ensures.unexpected fun _ => ?_) fun _ => ensures_exprStmt hg
  exact ensures_raw hg (by simp [h₁])

theorem ensures_statement : Ensures (statement g) s OptBuilt := by
  refine Ensures.cursor (Ensures.ite (fun _ => hg.built _ s) fun _ => ?_)
  refine Ensures.ite (fun _ => ?_) fun _ => ?_
  · exact Ensures.next.bind fun semi s₁ h₁ => Ensures.node trivial (by simp [h₁])
  refine Ensures.ite (fun _ => ensures_ifStmt hg) fun _ => ?_
  refine Ensures.ite (fun _ => ensures_whileStmt hg) fun _ => ?_
  refine Ensures.ite (fun _ => ensures_doStmt hg) fun _ => ?_
  refine Ensures.ite (fun _ => ensures_forStmt hg) fun _ => ?_
  refine Ensures.ite (fun _ => ensures_tryStmt hg) fun _ => ?_
  refine Ensures.ite (fun hat => ?_) fun _ => ?_
  · exact (ensures_switch hg (left_pos_of_isAt hat (by decide))).mono fun _ h => h.built
  refine Ensures.ite (fun _ => ensures_returnStmt hg) fun _ => ?_
  refine Ensures.ite (fun _ => ensures_throwStmt hg) fun _ => ?_
  refine Ensures.ite (fun _ => ensures_jump) fun _ => ?_
  refine Ensures.ite (fun _ => ensures_assertStmt hg) fun _ => ?_
  refine Ensures.ite (fun _ => ensures_synchronizedStmt hg) fun _ => ?_
  exact Ensures.ite (fun _ => ensures_yieldStmt hg) fun _ => ensures_plainStatement hg

theorem formal_production : Formal (production g) where
  built r s := by
    cases r with
    | expr => exact ensures_expr hg
    | ternary => exact ensures_ternary hg
    | binary least => exact ensures_binary hg least
    | unary => exact ensures_unary hg
    | annotValue => exact ensures_annotValue hg
    | arrayInit e => exact (ensures_arrayInit hg e).mono fun _ h => h.1
    | block => exact ensures_block hg
    | statement => exact ensures_statement hg
    | member => exact ensures_typeMember hg
    | typeBody => exact ensures_typeBody hg
  full e _ hpos := (ensures_arrayInit hg e).mono fun _ h => h.2 hpos
  joined least _ := leads_binary hg least

omit hg in
theorem formal_within (n : Nat) : Formal (within n) := by
  induction n with
  | zero =>
      exact ⟨fun _ _ => Ensures.throw _, fun _ _ _ => Ensures.throw _, fun _ _ => Leads.throw _⟩
  | succ n ih => exact formal_production ih

omit hg in
theorem ensures_qualified {kind : NodeKind} (hk : kind = .packageDecl ∨ kind = .importDecl) :
    Ensures (qualified kind) s OptBuilt := by
  have hadmits : ∀ cs, kind.Admits cs := by
    rcases hk with rfl | rfl <;> exact fun _ => trivial
  refine Ensures.next.bind fun word s₁ h₁ => Ensures.isAt ?_
  refine Ensures.bind_ite (fun _ => Ensures.next) (fun _ => Ensures.none) fun static s₂ h₂ => ?_
  refine (Ensures.many (fun c => (!c.isAt 0 ";" && !c.isDone) && !c.isAt 0 "\x7d" &&
    (c.isWord 0 || c.isAt 0 "." || c.isAt 0 "*")) (fun _ => rfl)
    fun _ _ => Ensures.next).bind fun parts s₃ h₃ => ?_
  refine (Ensures.accept ";").bind fun semi s₄ h₄ => ?_
  have hall : AllBuilt ([word, static] ++ parts ++ [semi]) := by
    simp [h₁, h₂, h₃, h₄]
  refine Ensures.ite (fun _ => Ensures.unexpected fun _ => ?_) fun _ => ?_
  · exact Ensures.node (hadmits _) hall
  · exact Ensures.node (hadmits _) hall

theorem ensures_item (kind : SourceKind) : Ensures (item g kind) s OptBuilt := by
  refine Ensures.cursor (Ensures.ite (fun _ => Ensures.unexpected fun _ => ?_) fun _ => ?_)
  · exact ensures_raw hg allBuilt_nil
  cases kind with
  | body => exact Ensures.ite (fun _ => hg.built _ s) fun _ => hg.built _ s
  | unit =>
      refine Ensures.ite (fun _ => ensures_qualified (Or.inl rfl)) fun _ => ?_
      exact Ensures.ite (fun _ => ensures_qualified (Or.inr rfl)) fun _ => hg.built _ s

end Rules

end Grammar

open CodeLayout.Grammar CodeLayout.Parser in
/-- The root of the tree of a stream covers the whole text, and what is below it is built. -/
theorem Node.ofStream_built {s : TokenStream} {kind : SourceKind} {tree : Node}
    (h : (ofStream s kind).tree = .ok tree) :
    ∃ items, tree = .branch .unit 0 s.file.text.length items ∧
      ∀ n ∈ items, n.Built ∧ n.isEmpty = false := by
  have hitems : ∀ {g : Grammar} {state : ParserState}, Formal g →
      Ensures (items g kind) state AllBuilt := fun hg =>
    Ensures.many (fun c => !c.isDone) (fun _ => rfl) fun _ _ => ensures_item hg kind
  simp only [ofStream] at h
  split at h
  rename_i result state hrun
  cases result with
  | error fault => cases h
  | ok items =>
      obtain rfl := Except.ok.inj h
      refine ⟨_, rfl, fun n hn => ?_⟩
      obtain ⟨hmem, hfull⟩ := mem_children_make hn
      exact ⟨hitems (formal_within _) items state hrun _ hmem n rfl, hfull⟩

/-- The tree of a stream is formed, and its root is that of a text. -/
theorem Node.ofStream_formed {s : TokenStream} {kind : SourceKind} {tree : Node}
    (h : (ofStream s kind).tree = .ok tree) : tree.Formed ∧ tree.isKind .unit = true := by
  obtain ⟨items, rfl, hitems⟩ := ofStream_built h
  exact ⟨.branch trivial (fun n hn => (hitems n hn).2) fun n hn => (hitems n hn).1.formed, rfl⟩

end CodeLayout
