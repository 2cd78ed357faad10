import CodeLayout.Proofs.Alike.Syntax.Statement

/-!
# Reading alike trees

Declarations are read alike from alike cursors, so all rules are. The trees of two streams of alike
tokens are alike.
-/

namespace CodeLayout

namespace Grammar

open CodeLayout.Node CodeLayout.Parser

variable [SideBySide] {g : Grammar}

section Declarations

theorem uniform_typeBody (hg : g.Uniform) : Parser.Uniform OptAlike (typeBody g) := by
  apply uniform_next.bind
  intro opening opening' hopening
  apply (uniform_many (uniform_before "\x7d") (hg .member)).bind
  intro members members' hmembers
  apply (uniform_expect "\x7d" "type body").bind
  intro closing closing' hclosing
  exact Agree.node rfl (.cons hopening (Alikes.append hmembers (.cons hclosing .nil)))

theorem uniform_enumConstant (hg : g.Uniform) : Parser.Uniform StepAlike (enumConstant g) := by
  apply (uniform_modifiers hg false).bind
  intro mods mods' hmods
  apply uniform_isName.bind_eq
  intro b
  apply Agree.Fallible.ite _ (.pure ⟨.cons hmods .nil, rfl⟩)
  apply uniform_next.bind
  intro name name' hname
  apply Agree.bindIfAt "(" (uniform_args hg) uniform_none
  intro as as' has
  apply Agree.bindIfAt "\x7b" (hg .typeBody) uniform_none
  intro inner inner' hinner
  have hconstant : (Node.make .enumConstant [mods, name, as, inner]).Alike
      (.make .enumConstant [mods', name', as', inner']) :=
    .make rfl (.cons hmods (.cons hname (.cons has (.cons hinner .nil))))
  apply (uniform_accept ",").bind
  intro comma comma' hcomma
  cases hcomma with
  | none => exact .pure ⟨.cons (.some hconstant) .nil, rfl⟩
  | some hcomma => exact .pure ⟨.cons (.some hconstant) (.cons (.some hcomma) .nil), rfl⟩

/-- The body of an enumeration is read at its opening brace only. -/
theorem agreeAt_enumBody (hg : g.Uniform) :
    AgreeAt "\x7b" OptAlike (enumBody g) (enumBody g) := by
  apply (agreeAt_next (by decide)).bind
  rintro _ _ ⟨hopening⟩
  have hmore : Parser.Uniform Eq (do return !(← isAt ";") && (← before "\x7d")) :=
    uniform_look (fun c => !c.isAt 0 ";" && (!c.isAt 0 "\x7d" && !c.isDone)) (fun _ => rfl)
      fun _ _ h => by rw [h.isAt, h.isDone]
  apply (uniform_collect hmore (uniform_enumConstant hg)).bind
  intro constants constants' hconstants
  apply (uniform_accept ";").bind
  intro semi semi' hsemi
  apply (uniform_many (uniform_before "\x7d") (hg .member)).bind
  intro members members' hmembers
  apply (uniform_expect "\x7d" "enum body").bind
  intro closing closing' hclosing
  exact .pure (.some (.make_enumBody hopening hconstants
    (.cons hsemi (Alikes.append hmembers (.cons hclosing .nil)))))

theorem uniform_clause (hg : g.Uniform) : Parser.Uniform OptAlike (clause g) := by
  apply Agree.cursor
  intro c d h
  rw [h.text]
  apply uniform_next.bind
  intro word word' hword
  apply (uniform_typeList hg _).bind
  intro types types' htypes
  exact Agree.node rfl (.cons hword (.cons htypes .nil))

theorem uniform_declaredName : Parser.Uniform OptAlike declaredName := by
  apply uniform_acceptName.bind
  intro n m hnm
  cases hnm with
  | none => exact Agree.unexpected _ _ uniform_none
  | some hnm => exact .pure (.some hnm)

variable {mods mods' ts ts' result result' : Option Node}

theorem agree_typeDecl (hg : g.Uniform) (hmods : OptAlike mods mods') :
    Parser.Agree OptAlike (typeDecl g mods) (typeDecl g mods') := by
  apply (uniform_accept "@").bind
  intro sign sign' hsign
  apply (uniform_isAt "enum").bind_eq
  intro isEnum
  apply uniform_next.bind
  intro word word' hword
  apply uniform_declaredName.bind
  intro name name' hname
  apply Agree.bindIfAt "<" uniform_typeParams uniform_none
  intro ts ts' hts
  apply Agree.bindIfAt "(" (uniform_params hg false) uniform_none
  intro ps ps' hps
  have hclause : Parser.Uniform Eq (do return isClause (← cursor)) :=
    uniform_look isClause (fun _ => rfl) fun _ _ h => h.isClause
  apply (uniform_many hclause (uniform_clause hg)).bind
  intro clauses clauses' hclauses
  have hlast : ∀ inner inner', OptAlike inner inner' →
      Parser.Agree OptAlike
        (node .typeDecl ([mods, sign, word, name, ts, ps] ++ clauses ++ [inner]))
        (node .typeDecl ([mods', sign', word', name', ts', ps'] ++ clauses' ++ [inner'])) := by
    intro inner inner' hinner
    exact Agree.node rfl (.cons hmods (.cons hsign (.cons hword (.cons hname (.cons hts
      (.cons hps (Alikes.append hclauses (.cons hinner .nil))))))))
  cases isEnum with
  | true =>
      apply ((agreeAt_enumBody hg).bind hlast).ifAt
      exact Agree.unexpected _ _ (uniform_none.bind hlast)
  | false =>
      apply Agree.ifAt "\x7b" ((hg .typeBody).bind hlast)
      exact Agree.unexpected _ _ (uniform_none.bind hlast)

theorem agree_method (hg : g.Uniform) (hmods : OptAlike mods mods') (hts : OptAlike ts ts')
    (hresult : OptAlike result result') :
    Parser.Agree OptAlike (method g mods ts result) (method g mods' ts' result') := by
  apply uniform_next.bind
  intro name name' hname
  apply (uniform_params hg false).bind
  intro ps ps' hps
  apply uniform_dims.bind
  intro ds ds' hds
  apply Agree.bindIfAt "throws" (uniform_clause hg) uniform_none
  intro throwing throwing' hthrowing
  have hlast : ∀ value value', Alikes value value' → Parser.Agree OptAlike
      (do
        let inner ← if ← isAt "\x7b" then g .block else expect ";" "method declaration"
        node .method ([mods, ts, result, name, ps] ++ ds ++ [throwing] ++ value ++ [inner]))
      (do
        let inner ← if ← isAt "\x7b" then g .block else expect ";" "method declaration"
        node .method
          ([mods', ts', result', name', ps'] ++ ds' ++ [throwing'] ++ value' ++ [inner])) := by
    intro value value' hvalue
    apply Agree.bindIfAt "\x7b" (hg .block) (uniform_expect ";" "method declaration")
    intro inner inner' hinner
    exact Agree.node rfl (Alikes.append (Alikes.append (Alikes.append
      (.cons hmods (.cons hts (.cons hresult (.cons hname (.cons hps hds)))))
      (.cons hthrowing .nil)) hvalue) (.cons hinner .nil))
  apply Agree.ifAt
  · apply uniform_next.bind
    intro word word' hword
    apply (uniform_annotValue hg).bind
    intro value value' hvalue
    have hpair : Alikes [word, value] [word', value'] := .cons hword (.cons hvalue .nil)
    exact (Agree.Fallible.pure hpair).bind hlast
  · exact uniform_nil.bind hlast

theorem agree_modifiedMember (hg : g.Uniform) (hmods : OptAlike mods mods') :
    Parser.Agree OptAlike (modifiedMember g mods) (modifiedMember g mods') := by
  apply Agree.cursor
  intro c d h
  rw [h.isTypeDecl]
  apply Agree.Fallible.ite (agree_typeDecl hg hmods)
  apply Agree.bindIfAt "<" uniform_typeParams uniform_none
  intro ts ts' hts
  apply Agree.cursor
  intro c d h
  rw [h.isName, h.isAt, h.isTyped]
  apply Agree.Fallible.ite (agree_method hg hmods hts .none)
  apply Agree.Fallible.ite
  · apply (uniform_type hg).bind
    intro t t' ht
    apply Agree.cursor
    intro c d h
    rw [h.isAt]
    apply Agree.Fallible.ite (agree_method hg hmods hts ht)
    have hnone : ts.isNone = ts'.isNone := by cases hts <;> rfl
    rw [hnone]
    exact Agree.Fallible.ite (agree_varDecl hg hmods ht true)
      (agree_raw hg (.cons hmods (.cons hts (.cons ht .nil))))
  · exact Agree.unexpected _ _ (agree_raw hg (.cons hmods (.cons hts .nil)))

theorem uniform_typeMember (hg : g.Uniform) : Parser.Uniform OptAlike (typeMember g) := by
  apply Agree.cursor
  intro c d h
  rw [h.isAt]
  apply Agree.Fallible.ite
  · apply uniform_next.bind
    intro semi semi' hsemi
    exact Agree.node rfl (.cons hsemi .nil)
  apply Agree.Fallible.ite
  · apply (hg .block).bind
    intro inner inner' hinner
    exact Agree.node rfl (.cons hinner .nil)
  apply Agree.Fallible.ite
  · apply uniform_next.bind
    intro word word' hword
    apply (hg .block).bind
    intro inner inner' hinner
    exact Agree.node rfl (.cons hword (.cons hinner .nil))
  · apply (uniform_modifiers hg true).bind
    intro mods mods' hmods
    exact agree_modifiedMember hg hmods

end Declarations

section Statements

theorem uniform_plainStatement (hg : g.Uniform) : Parser.Uniform OptAlike (plainStatement g) := by
  apply Agree.cursor
  intro c d h
  rw [h.isName, h.isAt]
  apply Agree.Fallible.ite (uniform_labeled hg)
  apply (uniform_modifiers hg false).bind
  intro mods mods' hmods
  apply Agree.cursor
  intro c d h
  rw [h.isTypeDecl, h.isTyped]
  apply Agree.Fallible.ite (agree_typeDecl hg hmods)
  apply Agree.Fallible.ite
  · apply (uniform_type hg).bind
    intro t t' ht
    exact agree_varDecl hg hmods ht true
  have hsome : mods.isSome = mods'.isSome := by cases hmods <;> rfl
  rw [hsome]
  apply Agree.Fallible.ite _ (uniform_exprStmt hg)
  exact Agree.unexpected _ _ (agree_raw hg (.cons hmods .nil))

theorem uniform_statement (hg : g.Uniform) : Parser.Uniform OptAlike (statement g) := by
  apply Agree.cursor
  intro c d h
  rw [h.isAt, h.yieldIsName]
  apply Agree.Fallible.ite (hg .block)
  apply Agree.Fallible.ite
  · apply uniform_next.bind
    intro semi semi' hsemi
    exact Agree.node rfl (.cons hsemi .nil)
  apply Agree.Fallible.ite (uniform_ifStmt hg)
  apply Agree.Fallible.ite (uniform_whileStmt hg)
  apply Agree.Fallible.ite (uniform_doStmt hg)
  apply Agree.Fallible.ite (uniform_forStmt hg)
  apply Agree.Fallible.ite (uniform_tryStmt hg)
  apply Agree.Fallible.ite (uniform_switch hg)
  apply Agree.Fallible.ite (uniform_returnStmt hg)
  apply Agree.Fallible.ite (uniform_throwStmt hg)
  apply Agree.Fallible.ite uniform_jump
  apply Agree.Fallible.ite (uniform_assertStmt hg)
  apply Agree.Fallible.ite (uniform_synchronizedStmt hg)
  exact Agree.Fallible.ite (uniform_yieldStmt hg) (uniform_plainStatement hg)

end Statements

section Rules

theorem uniform_production (hg : g.Uniform) : (production g).Uniform := by
  intro rule
  cases rule with
  | expr => exact uniform_expr hg
  | ternary => exact uniform_ternary hg
  | binary least => exact uniform_binary hg least
  | unary => exact uniform_unary hg
  | annotValue => exact uniform_annotValue hg
  | arrayInit e => exact uniform_arrayInit hg e
  | block => exact uniform_block hg
  | statement => exact uniform_statement hg
  | member => exact uniform_typeMember hg
  | typeBody => exact uniform_typeBody hg

/-- Rules that are nested at most so deep are read alike from alike cursors. -/
theorem uniform_within (n : Nat) : (within n).Uniform := by
  induction n with
  | zero => exact fun _ => Agree.Fallible.throw _
  | succ n ih => exact uniform_production ih

theorem uniform_qualified (kind : NodeKind) (hk : kind.isInner = true) :
    Parser.Uniform OptAlike (qualified kind) := by
  have hpart : Parser.Uniform Eq (do
      return (← before ";") && !(← isAt "\x7d") &&
        ((← cursor).isWord 0 || (← isAt ".") || (← isAt "*"))) :=
    uniform_look (fun c => (!c.isAt 0 ";" && !c.isDone) && !c.isAt 0 "\x7d" &&
      (c.isWord 0 || c.isAt 0 "." || c.isAt 0 "*")) (fun _ => rfl)
      fun _ _ h => by rw [h.isAt, h.isDone, h.isWord]
  apply uniform_next.bind
  intro word word' hword
  apply (uniform_isAt "static").bind_eq
  intro isStatic
  apply Agree.Fallible.bind_ite uniform_next uniform_none
  intro static static' hstatic
  apply (uniform_many hpart uniform_next).bind
  intro parts parts' hparts
  apply (uniform_accept ";").bind
  intro semi semi' hsemi
  have hnode : Parser.Agree OptAlike (node kind ([word, static] ++ parts ++ [semi]))
      (node kind ([word', static'] ++ parts' ++ [semi'])) :=
    Agree.node hk (.cons hword (.cons hstatic (Alikes.append hparts (.cons hsemi .nil))))
  have hnone : semi.isNone = semi'.isNone := by cases hsemi <;> rfl
  rw [hnone]
  exact Agree.Fallible.ite (Agree.unexpected _ _ hnode) hnode

theorem uniform_item (hg : g.Uniform) (kind : SourceKind) :
    Parser.Uniform OptAlike (item g kind) := by
  apply Agree.cursor
  intro c d h
  rw [h.isAt, h.isMemberItem]
  apply Agree.Fallible.ite (Agree.unexpected _ _ (agree_raw hg .nil))
  cases kind with
  | body => exact Agree.Fallible.ite (hg .member) (hg .statement)
  | unit =>
      apply Agree.Fallible.ite (uniform_qualified .packageDecl rfl)
      exact Agree.Fallible.ite (uniform_qualified .importDecl rfl) (hg .member)

theorem uniform_items (hg : g.Uniform) (kind : SourceKind) :
    Parser.Uniform Alikes (items g kind) := by
  have hmore : Parser.Uniform Eq (do return !(← isDone)) :=
    uniform_look (fun c => !c.isDone) (fun _ => rfl) fun _ _ h => by rw [h.isDone]
  exact uniform_many hmore (uniform_item hg kind)

end Rules

end Grammar

end CodeLayout
