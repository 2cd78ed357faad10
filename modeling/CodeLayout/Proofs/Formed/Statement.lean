import CodeLayout.Proofs.Formed.Expression
import CodeLayout.Syntax.Tree

/-!
# Statements are built

Only the name of a declared variable is looked at: it and the brackets behind it are no equals
signs, so that the first such sign in a declarator is the one in front of its value.
-/

namespace CodeLayout.Grammar

open CodeLayout.Node CodeLayout.Parser CodeLayout.Cursor

variable {g : Grammar} {s : ParserState}

section Rules

variable (hg : Formal g)
include hg

theorem ensures_block : Ensures (block g) s OptBuilt := by
  refine Ensures.next.bind fun opening s₁ h₁ => ?_
  refine (Ensures.many (fun c => !c.isAt 0 "\x7d" && !c.isDone) (fun _ => rfl)
    fun s _ => hg.built _ s).bind fun items s₂ h₂ => ?_
  refine (Ensures.expect "\x7d" "block").bind fun closing s₃ h₃ => ?_
  exact Ensures.node trivial (by simp [h₁, h₂, h₃])

theorem ensures_optionalBlock : Ensures (optionalBlock g) s OptBuilt :=
  Ensures.isAt (Ensures.ite (fun _ => hg.built _ s) fun _ => Ensures.none)

theorem ensures_requiredBlock (place : String) : Ensures (requiredBlock g place) s OptBuilt :=
  Ensures.isAt (Ensures.ite (fun _ => hg.built _ s)
    fun _ => Ensures.unexpected fun _ => Ensures.none)

theorem ensures_rawFrom {fuel depth : Nat} {taken : Bool} :
    Ensures (rawFrom g fuel depth taken) s AllBuilt := by
  induction fuel generalizing s depth taken with
  | zero => exact Ensures.throw _
  | succ fuel ih =>
      have hlast : Ensures (do return [← next]) s AllBuilt :=
        Ensures.next.bind fun t s₁ h₁ => Ensures.pure (by simp [h₁])
      refine Ensures.cursor (Ensures.ite (fun _ => Ensures.nil) fun _ => ?_)
      refine Ensures.ite (fun _ => hlast) fun _ => ?_
      refine Ensures.ite (fun _ => Ensures.ite (fun _ => Ensures.nil) fun _ => hlast) fun _ => ?_
      refine Ensures.ite (fun _ => ?_) fun _ => ?_
      · refine (hg.built _ s).bind fun b s₁ h₁ => ?_
        refine Ensures.ite (fun _ => Ensures.pure (by simp [h₁])) fun _ => ?_
        exact ih.bind fun bs s₂ h₂ => Ensures.pure (allBuilt_cons.mpr ⟨h₁, h₂⟩)
      · refine Ensures.next.bind fun t s₁ h₁ => ?_
        exact ih.bind fun ts s₂ h₂ => Ensures.pure (allBuilt_cons.mpr ⟨h₁, h₂⟩)

theorem ensures_raw {lead : List (Option Node)} (hlead : AllBuilt lead) :
    Ensures (raw g lead) s OptBuilt :=
  Ensures.bound ((ensures_rawFrom hg).bind fun ts s₁ h₁ =>
    Ensures.node trivial (by simp [hlead, h₁]))

theorem ensures_body (place : String) : Ensures (body g place) s OptBuilt :=
  Ensures.before (Ensures.ite (fun _ => hg.built _ s)
    fun _ => Ensures.unexpected fun _ => Ensures.none)

theorem ensures_initialValue :
    Ensures (initialValue g) s fun ns => AllBuilt ns ∧ ns.length ≤ 2 := by
  refine (Ensures.accept "=").bind fun eq s₁ h₁ => ?_
  cases eq with
  | none => exact Ensures.pure (by simp)
  | some eq =>
      refine Ensures.isAt (Ensures.ite (fun _ => ?_) fun _ => ?_)
      · exact (hg.built _ s₁).bind fun v s₂ h₂ => Ensures.pure (by simp [h₁ eq rfl, h₂])
      · exact (hg.built _ s₁).bind fun v s₂ h₂ => Ensures.pure (by simp [h₁ eq rfl, h₂])

omit hg in
/-- A name with brackets behind it, and a value behind that. -/
theorem admits_declarator {names value : List (Option Node)}
    (hnames : ∀ o ∈ names, ∀ n, o = some n → n.IsNamePart) (hvalue : value.length ≤ 2) :
    NodeKind.declarator.Admits (make .declarator (names ++ value)).children := by
  refine ⟨(make .declarator names).children, (make .declarator value).children, ?_, ?_, ?_⟩
  · simp only [children_make, List.reduceOption_append, List.filter_append]
  · exact fun n hn => hnames _ (mem_children_make hn).1 n rfl
  · exact Nat.le_trans length_children_make hvalue

theorem ensures_declarator (hname : s.cursor.isName 0 = true) :
    Ensures (declarator g) s OptBuilt := by
  obtain ⟨l, hl⟩ := get?_zero_of_left_pos (left_pos_of_isName hname)
  have hident : l.token.kind = .ident := by
    simp only [Cursor.isName, Cursor.isWord, Cursor.kind, hl, Bool.and_eq_true,
      decide_eq_true_eq] at hname
    exact hname.1
  refine (Ensures.next_leaf hl).bind ?_
  rintro _ s₁ rfl
  refine Ensures.bind_run fun ds s₂ hds => ?_
  have hbrackets := Ensures.dims ds s₂ hds
  have hbuilt := Ensures.dims_built ds s₂ hds
  refine (ensures_initialValue hg).bind ?_
  rintro value s₃ ⟨h₃, hlength⟩
  refine Ensures.node (admits_declarator ?_ hlength) (by simp [hbuilt, h₃])
  rintro o ho n rfl
  rcases List.mem_cons.mp ho with ho | ho
  · rw [Option.some.inj ho]
    exact Or.inl hident
  · exact hbrackets _ ho n rfl

theorem ensures_varDecl {mods type : Option Node} (hmods : OptBuilt mods)
    (htype : OptBuilt type) (withEnd : Bool) :
    Ensures (varDecl g mods type withEnd) s OptBuilt := by
  refine (Ensures.separated (fun c => c.isName 0) (fun _ => rfl)
    fun s hname => ensures_declarator hg hname).bind fun ds s₁ h₁ => ?_
  have hds : (make .declarators ds).Built := built_make trivial h₁
  refine Ensures.bind_ite (fun _ => Ensures.expect ";" _) (fun _ => Ensures.none)
    fun ending s₂ h₂ => ?_
  exact Ensures.node trivial (by simp [hmods, htype, hds, h₂])

theorem ensures_whileStmt : Ensures (whileStmt g) s OptBuilt := by
  refine Ensures.next.bind fun word s₁ h₁ => ?_
  refine (ensures_paren hg _).bind fun cond s₂ h₂ => ?_
  exact (ensures_body hg _).bind fun inner s₃ h₃ => Ensures.node trivial (by simp [h₁, h₂, h₃])

theorem ensures_ifStmt : Ensures (ifStmt g) s OptBuilt := by
  refine Ensures.next.bind fun word s₁ h₁ => ?_
  refine (ensures_paren hg _).bind fun cond s₂ h₂ => ?_
  refine (ensures_body hg _).bind fun yes s₃ h₃ => ?_
  refine (Ensures.accept "else").bind fun otherwise s₄ h₄ => ?_
  cases otherwise with
  | none => exact Ensures.node trivial (by simp [h₁, h₂, h₃])
  | some otherwise =>
      refine (ensures_body hg _).bind fun no s₅ h₅ => ?_
      exact Ensures.node trivial (by simp [h₁, h₂, h₃, h₄ otherwise rfl, h₅])

theorem ensures_doStmt : Ensures (doStmt g) s OptBuilt := by
  refine Ensures.next.bind fun word s₁ h₁ => ?_
  refine (ensures_body hg _).bind fun inner s₂ h₂ => ?_
  refine (Ensures.expect "while" _).bind fun while_ s₃ h₃ => ?_
  refine Ensures.bind_ite (fun _ => ensures_paren hg _) (fun _ => Ensures.none) fun cond s₄ h₄ => ?_
  refine (Ensures.expect ";" _).bind fun ending s₅ h₅ => ?_
  exact Ensures.node trivial (by simp [h₁, h₂, h₃, h₄, h₅])

theorem ensures_exprList (stop : String) : Ensures (exprList g stop) s OptBuilt :=
  (Ensures.separated (fun c => !c.isAt 0 stop && !c.isDone) (fun _ => rfl)
    fun s _ => hg.built _ s).bind fun _ _ h => Ensures.node trivial h

theorem ensures_forEach {opening mods type : Option Node} (hopening : OptBuilt opening)
    (hmods : OptBuilt mods) (htype : OptBuilt type) :
    Ensures (forEach g opening mods type) s OptBuilt := by
  refine Ensures.next.bind fun name s₁ h₁ => ?_
  refine Ensures.next.bind fun colon s₂ h₂ => ?_
  refine (hg.built _ s₂).bind fun e s₃ h₃ => ?_
  refine (Ensures.expect ")" _).bind fun closing s₄ h₄ => ?_
  have hparam : (make .param [mods, type, name]).Built :=
    built_make trivial (by simp [hmods, htype, h₁])
  exact Ensures.node trivial (by simp [hopening, hparam, h₂, h₃, h₄])

theorem ensures_forParts {opening start : Option Node} (hopening : OptBuilt opening)
    (hstart : OptBuilt start) : Ensures (forParts g opening start) s OptBuilt := by
  refine (Ensures.expect ";" _).bind fun first s₁ h₁ => Ensures.isAt ?_
  refine Ensures.bind_ite (fun _ => Ensures.none) (fun _ => hg.built _ s₁) fun cond s₂ h₂ => ?_
  refine (Ensures.expect ";" _).bind fun second s₃ h₃ => Ensures.isAt ?_
  refine Ensures.bind_ite (fun _ => Ensures.none) (fun _ => ensures_exprList hg ")")
    fun update s₄ h₄ => ?_
  refine (Ensures.expect ")" _).bind fun closing s₅ h₅ => ?_
  exact Ensures.node trivial (by simp [hopening, hstart, h₁, h₂, h₃, h₄, h₅])

theorem ensures_forControl {opening : Option Node} (hopening : OptBuilt opening) :
    Ensures (forControl g opening) s OptBuilt := by
  refine (ensures_modifiers hg false).bind fun mods s₁ h₁ => ?_
  refine Ensures.cursor (Ensures.ite (fun _ => ?_) fun _ => ?_)
  · refine (ensures_type_built hg).bind fun t s₂ h₂ => ?_
    refine Ensures.cursor (Ensures.ite (fun _ => ensures_forEach hg hopening h₁ h₂) fun _ => ?_)
    exact (ensures_varDecl hg h₁ h₂ false).bind fun d s₃ h₃ => ensures_forParts hg hopening h₃
  refine Ensures.ite (fun _ => ensures_forParts hg hopening h₁) fun _ => ?_
  refine Ensures.isAt (Ensures.ite (fun _ => ?_) fun _ => ?_)
  · exact ensures_forParts hg hopening optBuilt_none
  · exact (ensures_exprList hg ";").bind fun es s₂ h₂ => ensures_forParts hg hopening h₂

theorem ensures_forStmt : Ensures (forStmt g) s OptBuilt := by
  refine Ensures.next.bind fun word s₁ h₁ => ?_
  refine (Ensures.expect "(" _).bind fun opening s₂ h₂ => ?_
  cases opening with
  | none =>
      exact (ensures_body hg _).bind fun inner s₃ h₃ => Ensures.node trivial (by simp [h₁, h₃])
  | some opening =>
      refine (ensures_forControl hg h₂).bind fun control s₃ h₃ => ?_
      exact (ensures_body hg _).bind fun inner s₄ h₄ =>
        Ensures.node trivial (by simp [h₁, h₃, h₄])

theorem ensures_caughtTypes : Ensures (caughtTypes g) s AllBuilt := by
  refine Ensures.collect (fun c => (c.skipType 0).isSome) (fun _ => rfl) fun s₁ _ => ?_
  refine (ensures_type_built hg).bind fun t s₂ h₂ => ?_
  refine (Ensures.accept "|").bind fun bar s₃ h₃ => ?_
  cases bar with
  | none => exact Ensures.pure (by simpa using h₂)
  | some bar => exact Ensures.pure (allBuilt_cons.mpr ⟨h₂, by simpa using h₃⟩)

theorem ensures_catchClause : Ensures (catchClause g) s OptBuilt := by
  refine Ensures.next.bind fun word s₁ h₁ => ?_
  refine (Ensures.expect "(" _).bind fun opening s₂ h₂ => ?_
  refine (ensures_modifiers hg false).bind fun mods s₃ h₃ => ?_
  refine (ensures_caughtTypes hg).bind fun types s₄ h₄ => ?_
  refine Ensures.acceptName.bind fun name s₅ h₅ => ?_
  refine (Ensures.expect ")" _).bind fun closing s₆ h₆ => ?_
  refine (ensures_optionalBlock hg).bind fun inner s₇ h₇ => ?_
  have hparam : (make .param ([mods] ++ types ++ [name])).Built :=
    built_make trivial (by simp [h₃, h₄, h₅])
  exact Ensures.node trivial
    (allBuilt_cons.mpr ⟨h₁, allBuilt_cons.mpr ⟨h₂, allBuilt_cons.mpr ⟨optBuilt_some.mpr hparam,
      by simp [h₆, h₇]⟩⟩⟩)

theorem ensures_resource : Ensures (resource g) s OptBuilt := by
  refine (ensures_modifiers hg false).bind fun mods s₁ h₁ => ?_
  refine Ensures.cursor (Ensures.ite (fun _ => ?_) fun _ => hg.built _ s₁)
  exact (ensures_type_built hg).bind fun t s₂ h₂ => ensures_varDecl hg h₁ h₂ false

theorem ensures_resources : Ensures (resources g) s OptBuilt := by
  refine Ensures.next.bind fun opening s₁ h₁ => ?_
  refine (Ensures.separated (fun c => !c.isAt 0 ")" && !c.isDone) (fun _ => rfl)
    fun _ _ => ensures_resource hg).bind fun rs s₂ h₂ => ?_
  refine (Ensures.expect ")" _).bind fun closing s₃ h₃ => ?_
  exact Ensures.node trivial (by simp [h₁, h₂, h₃])

theorem ensures_finallyClause : Ensures (finallyClause g) s OptBuilt := by
  refine Ensures.isAt (Ensures.ite (fun _ => ?_) fun _ => Ensures.none)
  refine Ensures.next.bind fun word s₁ h₁ => ?_
  exact (ensures_optionalBlock hg).bind fun inner s₂ h₂ => Ensures.node trivial (by simp [h₁, h₂])

theorem ensures_tryStmt : Ensures (tryStmt g) s OptBuilt := by
  refine Ensures.next.bind fun word s₁ h₁ => Ensures.isAt ?_
  refine Ensures.bind_ite (fun _ => ensures_resources hg) (fun _ => Ensures.none)
    fun rs s₂ h₂ => ?_
  refine (ensures_requiredBlock hg _).bind fun inner s₃ h₃ => ?_
  refine (Ensures.many (fun c => c.isAt 0 "catch") (fun _ => rfl)
    fun _ _ => ensures_catchClause hg).bind fun handlers s₄ h₄ => ?_
  refine (ensures_finallyClause hg).bind fun last s₅ h₅ => ?_
  exact Ensures.node trivial (by simp [h₁, h₂, h₃, h₄, h₅])

theorem ensures_returnStmt : Ensures (returnStmt g) s OptBuilt := by
  refine Ensures.next.bind fun word s₁ h₁ => Ensures.isAt ?_
  refine Ensures.bind_ite (fun _ => Ensures.none) (fun _ => hg.built _ s₁) fun value s₂ h₂ => ?_
  refine (Ensures.expect ";" _).bind fun ending s₃ h₃ => ?_
  exact Ensures.node trivial (by simp [h₁, h₂, h₃])

theorem ensures_throwStmt : Ensures (throwStmt g) s OptBuilt := by
  refine Ensures.next.bind fun word s₁ h₁ => ?_
  refine (hg.built _ s₁).bind fun value s₂ h₂ => ?_
  refine (Ensures.expect ";" _).bind fun ending s₃ h₃ => ?_
  exact Ensures.node trivial (by simp [h₁, h₂, h₃])

omit hg in
theorem ensures_jump : Ensures jump s OptBuilt := by
  refine Ensures.next.bind fun word s₁ h₁ => ?_
  refine Ensures.acceptName.bind fun label s₂ h₂ => ?_
  refine (Ensures.expect ";" _).bind fun ending s₃ h₃ => ?_
  exact Ensures.node trivial (by simp [h₁, h₂, h₃])

theorem ensures_assertStmt : Ensures (assertStmt g) s OptBuilt := by
  refine Ensures.next.bind fun word s₁ h₁ => ?_
  refine (hg.built _ s₁).bind fun cond s₂ h₂ => ?_
  refine (Ensures.accept ":").bind fun colon s₃ h₃ => ?_
  refine Ensures.bind_ite (fun _ => hg.built _ s₃) (fun _ => Ensures.none) fun detail s₄ h₄ => ?_
  refine (Ensures.expect ";" _).bind fun ending s₅ h₅ => ?_
  exact Ensures.node trivial (by simp [h₁, h₂, h₃, h₄, h₅])

theorem ensures_synchronizedStmt : Ensures (synchronizedStmt g) s OptBuilt := by
  refine Ensures.next.bind fun word s₁ h₁ => ?_
  refine (ensures_paren hg _).bind fun lock s₂ h₂ => ?_
  exact (ensures_requiredBlock hg _).bind fun inner s₃ h₃ =>
    Ensures.node trivial (by simp [h₁, h₂, h₃])

theorem ensures_yieldStmt : Ensures (yieldStmt g) s OptBuilt := by
  refine Ensures.next.bind fun word s₁ h₁ => ?_
  refine (hg.built _ s₁).bind fun value s₂ h₂ => ?_
  refine (Ensures.expect ";" _).bind fun ending s₃ h₃ => ?_
  exact Ensures.node trivial (by simp [h₁, h₂, h₃])

theorem ensures_labeled : Ensures (labeled g) s OptBuilt := by
  refine Ensures.next.bind fun label s₁ h₁ => ?_
  refine Ensures.next.bind fun colon s₂ h₂ => ?_
  exact (hg.built _ s₂).bind fun inner s₃ h₃ => Ensures.node trivial (by simp [h₁, h₂, h₃])

theorem ensures_exprStmt : Ensures (exprStmt g) s OptBuilt := by
  refine Ensures.cursor ((hg.built _ s).bind fun e s₁ h₁ => ?_)
  cases e with
  | none =>
      have hraw : ∀ {s : ParserState}, Ensures (raw g []) s OptBuilt :=
        ensures_raw hg allBuilt_nil
      exact Ensures.cursor (Ensures.ite (fun _ => Ensures.unexpected fun _ => hraw) fun _ => hraw)
  | some e =>
      have he := h₁ e rfl
      refine Ensures.isAt (Ensures.ite (fun _ => ?_) fun _ => Ensures.unexpected fun s₂ => ?_)
      · exact Ensures.next.bind fun semi s₂ h₂ => Ensures.node trivial (by simp [he, h₂])
      · refine Ensures.before (Ensures.ite (fun _ => ensures_raw hg (by simp [he])) fun _ => ?_)
        exact Ensures.node trivial (by simp [he])

end Rules

end CodeLayout.Grammar
