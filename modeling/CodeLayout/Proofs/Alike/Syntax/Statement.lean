import CodeLayout.Proofs.Alike.Syntax.Expression

/-!
# Reading alike statements

Statements are read alike from alike cursors, and so is what could not be parsed.
-/

namespace CodeLayout.Grammar

open CodeLayout.Node CodeLayout.Parser

variable [SideBySide] {g : Grammar}

section Blocks

theorem uniform_block (hg : g.Uniform) : Parser.Uniform OptAlike (block g) := by
  apply uniform_next.bind
  intro opening opening' hopening
  apply (uniform_many (uniform_before "\x7d") (hg .statement)).bind
  intro items items' hitems
  apply (uniform_expect "\x7d" "block").bind
  intro closing closing' hclosing
  exact Agree.node rfl (.cons hopening (Alikes.append hitems (.cons hclosing .nil)))

theorem uniform_optionalBlock (hg : g.Uniform) : Parser.Uniform OptAlike (optionalBlock g) :=
  Agree.ifAt "\x7b" (hg .block) uniform_none

theorem uniform_requiredBlock (hg : g.Uniform) (place : String) :
    Parser.Uniform OptAlike (requiredBlock g place) :=
  Agree.ifAt "\x7b" (hg .block) (Agree.unexpected _ _ uniform_none)

theorem uniform_rawFrom (hg : g.Uniform) (fuel depth : Nat) (taken : Bool) :
    Parser.Uniform Alikes (rawFrom g fuel depth taken) := by
  induction fuel generalizing depth taken with
  | zero => exact .throw _
  | succ fuel ih =>
      have hnext : Parser.Uniform Alikes (do return [← next]) := by
        apply uniform_next.bind
        intro t t' ht
        exact .pure (.cons ht .nil)
      apply Agree.cursor
      intro c d h
      rw [h.isDone, h.isAt]
      apply Agree.Fallible.ite uniform_nil
      apply Agree.Fallible.ite hnext
      apply Agree.Fallible.ite (Agree.Fallible.ite uniform_nil hnext)
      apply Agree.Fallible.ite
      · apply (hg .block).bind
        intro b b' hb
        apply Agree.Fallible.ite (.pure (.cons hb .nil))
        apply (ih depth true).bind
        intro rest rest' hrest
        exact .pure (.cons hb hrest)
      · apply uniform_next.bind
        intro t t' ht
        apply (ih _ true).bind
        intro rest rest' hrest
        exact .pure (.cons ht hrest)

theorem agree_raw (hg : g.Uniform) {lead lead' : List (Option Node)} (h : Alikes lead lead') :
    Parser.Agree OptAlike (raw g lead) (raw g lead') := by
  have hempty : lead.isEmpty = lead'.isEmpty := by cases h <;> rfl
  apply uniform_bound.bind_eq
  intro fuel
  rw [hempty]
  apply (uniform_rawFrom hg fuel 0 _).bind
  intro rest rest' hrest
  exact Agree.node rfl (Alikes.append h hrest)

theorem uniform_body (hg : g.Uniform) (place : String) :
    Parser.Uniform OptAlike (body g place) := by
  apply (uniform_before "\x7d").bind_eq
  intro b
  exact Agree.Fallible.ite (hg .statement) (Agree.unexpected _ _ uniform_none)

end Blocks

section Variables

theorem uniform_initialValue (hg : g.Uniform) : Parser.Uniform Alikes (initialValue g) := by
  apply (uniform_accept "=").bind
  intro eq eq' heq
  cases heq with
  | none => exact uniform_nil
  | some heq =>
      apply Agree.ifAt
      · apply (hg (.arrayInit .expr)).bind
        intro value value' hvalue
        exact .pure (.cons (.some heq) (.cons hvalue .nil))
      · apply (hg .expr).bind
        intro value value' hvalue
        exact .pure (.cons (.some heq) (.cons hvalue .nil))

theorem uniform_declarator (hg : g.Uniform) : Parser.Uniform OptAlike (declarator g) := by
  apply uniform_next.bind
  intro name name' hname
  apply uniform_dims.bind
  intro ds ds' hds
  apply (uniform_initialValue hg).bind
  intro value value' hvalue
  exact Agree.node rfl (Alikes.append (.cons hname hds) hvalue)

theorem agree_varDecl (hg : g.Uniform) {mods mods' type type' : Option Node}
    (hmods : OptAlike mods mods') (htype : OptAlike type type') (withEnd : Bool) :
    Parser.Agree OptAlike (varDecl g mods type withEnd) (varDecl g mods' type' withEnd) := by
  apply (uniform_separated uniform_isName (uniform_declarator hg) ",").bind
  intro ds ds' hds
  apply Agree.Fallible.bind_ite (uniform_expect ";" "variable declaration") uniform_none
  intro ending ending' hending
  have hdecls : (Node.make .declarators ds).Alike (.make .declarators ds') := .make rfl hds
  exact Agree.node rfl (.cons hmods (.cons htype (.cons (.some hdecls) (.cons hending .nil))))

end Variables

section Loops

theorem uniform_whileStmt (hg : g.Uniform) : Parser.Uniform OptAlike (whileStmt g) := by
  apply uniform_next.bind
  intro word word' hword
  apply (uniform_paren hg "while statement").bind
  intro cond cond' hcond
  apply (uniform_body hg "while statement").bind
  intro inner inner' hinner
  exact Agree.node rfl (.cons hword (.cons hcond (.cons hinner .nil)))

theorem uniform_ifStmt (hg : g.Uniform) : Parser.Uniform OptAlike (ifStmt g) := by
  apply uniform_next.bind
  intro word word' hword
  apply (uniform_paren hg "if statement").bind
  intro cond cond' hcond
  apply (uniform_body hg "if statement").bind
  intro yes yes' hyes
  apply (uniform_accept "else").bind
  intro otherwise otherwise' hotherwise
  cases hotherwise with
  | some hotherwise =>
      apply (uniform_body hg "else clause").bind
      intro no no' hno
      exact Agree.node rfl
        (.cons hword (.cons hcond (.cons hyes (.cons (.some hotherwise) (.cons hno .nil)))))
  | none => exact Agree.node rfl (.cons hword (.cons hcond (.cons hyes .nil)))

theorem uniform_doStmt (hg : g.Uniform) : Parser.Uniform OptAlike (doStmt g) := by
  apply uniform_next.bind
  intro word word' hword
  apply (uniform_body hg "do statement").bind
  intro inner inner' hinner
  apply (uniform_expect "while" "do statement").bind
  intro again again' hagain
  have hsome : again.isSome = again'.isSome := by cases hagain <;> rfl
  rw [hsome]
  apply Agree.Fallible.bind_ite (uniform_paren hg "do statement") uniform_none
  intro cond cond' hcond
  apply (uniform_expect ";" "do statement").bind
  intro ending ending' hending
  exact Agree.node rfl
    (.cons hword (.cons hinner (.cons hagain (.cons hcond (.cons hending .nil)))))

theorem uniform_exprList (hg : g.Uniform) (stop : String) :
    Parser.Uniform OptAlike (exprList g stop) := by
  apply (uniform_separated (uniform_before stop) (hg .expr) ",").bind
  intro es es' hes
  exact Agree.node rfl hes

variable {opening opening' mods mods' type type' start start' : Option Node}

theorem agree_forEach (hg : g.Uniform) (hopening : OptAlike opening opening')
    (hmods : OptAlike mods mods') (htype : OptAlike type type') :
    Parser.Agree OptAlike (forEach g opening mods type) (forEach g opening' mods' type') := by
  apply uniform_next.bind
  intro name name' hname
  apply uniform_next.bind
  intro colon colon' hcolon
  apply (hg .expr).bind
  intro e e' he
  apply (uniform_expect ")" "for statement").bind
  intro closing closing' hclosing
  have hparam : (Node.make .param [mods, type, name]).Alike (.make .param [mods', type', name']) :=
    .make rfl (.cons hmods (.cons htype (.cons hname .nil)))
  exact Agree.node rfl
    (.cons hopening (.cons (.some hparam) (.cons hcolon (.cons he (.cons hclosing .nil)))))

theorem agree_forParts (hg : g.Uniform) (hopening : OptAlike opening opening')
    (hstart : OptAlike start start') :
    Parser.Agree OptAlike (forParts g opening start) (forParts g opening' start') := by
  apply (uniform_expect ";" "for statement").bind
  intro first first' hfirst
  apply Agree.bindIfAt ";" uniform_none (hg .expr)
  intro cond cond' hcond
  apply (uniform_expect ";" "for statement").bind
  intro second second' hsecond
  apply Agree.bindIfAt ")" uniform_none (uniform_exprList hg ")")
  intro update update' hupdate
  apply (uniform_expect ")" "for statement").bind
  intro closing closing' hclosing
  exact Agree.node rfl (.cons hopening (.cons hstart (.cons hfirst (.cons hcond
    (.cons hsecond (.cons hupdate (.cons hclosing .nil)))))))

theorem agree_forControl (hg : g.Uniform) (hopening : OptAlike opening opening') :
    Parser.Agree OptAlike (forControl g opening) (forControl g opening') := by
  apply (uniform_modifiers hg false).bind
  intro mods mods' hmods
  apply Agree.cursor
  intro c d h
  rw [h.isTyped]
  apply Agree.Fallible.ite
  · apply (uniform_type hg).bind
    intro t t' ht
    apply Agree.cursor
    intro c d h
    rw [h.isAt]
    apply Agree.Fallible.ite (agree_forEach hg hopening hmods ht)
    apply (agree_varDecl hg hmods ht false).bind
    intro start start' hstart
    exact agree_forParts hg hopening hstart
  have hsome : mods.isSome = mods'.isSome := by cases hmods <;> rfl
  rw [hsome]
  apply Agree.Fallible.ite (agree_forParts hg hopening hmods)
  apply Agree.ifAt ";" (agree_forParts hg hopening .none)
  apply (uniform_exprList hg ";").bind
  intro start start' hstart
  exact agree_forParts hg hopening hstart

theorem uniform_forStmt (hg : g.Uniform) : Parser.Uniform OptAlike (forStmt g) := by
  apply uniform_next.bind
  intro word word' hword
  apply (uniform_expect "(" "for statement").bind
  intro opening opening' hopening
  cases hopening with
  | none =>
      apply (uniform_body hg "for statement").bind
      intro inner inner' hinner
      exact Agree.node rfl (.cons hword (.cons hinner .nil))
  | some hopening =>
      apply (agree_forControl hg (.some hopening)).bind
      intro control control' hcontrol
      apply (uniform_body hg "for statement").bind
      intro inner inner' hinner
      exact Agree.node rfl (.cons hword (.cons hcontrol (.cons hinner .nil)))

end Loops

section Handlers

theorem uniform_caughtTypes (hg : g.Uniform) : Parser.Uniform Alikes (caughtTypes g) := by
  apply uniform_collect
  · exact uniform_look (fun c => (c.skipType 0).isSome) (fun _ => rfl)
      fun _ _ h => by rw [h.skipType]
  · apply (uniform_type hg).bind
    intro t t' ht
    apply (uniform_accept "|").bind
    intro bar bar' hbar
    cases hbar with
    | none => exact .pure ⟨.cons ht .nil, rfl⟩
    | some hbar => exact .pure ⟨.cons ht (.cons (.some hbar) .nil), rfl⟩

theorem uniform_catchClause (hg : g.Uniform) : Parser.Uniform OptAlike (catchClause g) := by
  apply uniform_next.bind
  intro word word' hword
  apply (uniform_expect "(" "catch clause").bind
  intro opening opening' hopening
  apply (uniform_modifiers hg false).bind
  intro mods mods' hmods
  apply (uniform_caughtTypes hg).bind
  intro types types' htypes
  apply uniform_acceptName.bind
  intro name name' hname
  apply (uniform_expect ")" "catch clause").bind
  intro closing closing' hclosing
  apply (uniform_optionalBlock hg).bind
  intro inner inner' hinner
  have hparam : (Node.make .param ([mods] ++ types ++ [name])).Alike
      (.make .param ([mods'] ++ types' ++ [name'])) :=
    .make rfl (.cons hmods (Alikes.append htypes (.cons hname .nil)))
  exact Agree.node rfl
    (.cons hword (.cons hopening (.cons (.some hparam) (.cons hclosing (.cons hinner .nil)))))

theorem uniform_resource (hg : g.Uniform) : Parser.Uniform OptAlike (resource g) := by
  apply (uniform_modifiers hg false).bind
  intro mods mods' hmods
  apply Agree.cursor
  intro c d h
  rw [h.isTyped]
  apply Agree.Fallible.ite _ (hg .expr)
  apply (uniform_type hg).bind
  intro t t' ht
  exact agree_varDecl hg hmods ht false

theorem uniform_resources (hg : g.Uniform) : Parser.Uniform OptAlike (resources g) := by
  apply uniform_next.bind
  intro opening opening' hopening
  apply (uniform_separated (uniform_before ")") (uniform_resource hg) ";").bind
  intro rs rs' hrs
  apply (uniform_expect ")" "try resources").bind
  intro closing closing' hclosing
  exact Agree.node rfl (.cons hopening (Alikes.append hrs (.cons hclosing .nil)))

theorem uniform_finallyClause (hg : g.Uniform) : Parser.Uniform OptAlike (finallyClause g) := by
  apply Agree.ifAt "finally" _ uniform_none
  apply uniform_next.bind
  intro word word' hword
  apply (uniform_optionalBlock hg).bind
  intro inner inner' hinner
  exact Agree.node rfl (.cons hword (.cons hinner .nil))

theorem uniform_tryStmt (hg : g.Uniform) : Parser.Uniform OptAlike (tryStmt g) := by
  apply uniform_next.bind
  intro word word' hword
  apply Agree.bindIfAt "(" (uniform_resources hg) uniform_none
  intro rs rs' hrs
  apply (uniform_requiredBlock hg "try statement").bind
  intro inner inner' hinner
  apply (uniform_many (uniform_isAt "catch") (uniform_catchClause hg)).bind
  intro handlers handlers' hhandlers
  apply (uniform_finallyClause hg).bind
  intro last last' hlast
  exact Agree.node rfl (.cons hword (.cons hrs (.cons hinner
    (Alikes.append hhandlers (.cons hlast .nil)))))

end Handlers

section Simple

theorem uniform_returnStmt (hg : g.Uniform) : Parser.Uniform OptAlike (returnStmt g) := by
  apply uniform_next.bind
  intro word word' hword
  apply Agree.bindIfAt ";" uniform_none (hg .expr)
  intro value value' hvalue
  apply (uniform_expect ";" "return statement").bind
  intro ending ending' hending
  exact Agree.node rfl (.cons hword (.cons hvalue (.cons hending .nil)))

theorem uniform_throwStmt (hg : g.Uniform) : Parser.Uniform OptAlike (throwStmt g) := by
  apply uniform_next.bind
  intro word word' hword
  apply (hg .expr).bind
  intro value value' hvalue
  apply (uniform_expect ";" "throw statement").bind
  intro ending ending' hending
  exact Agree.node rfl (.cons hword (.cons hvalue (.cons hending .nil)))

theorem uniform_jump : Parser.Uniform OptAlike jump := by
  apply uniform_next.bind
  intro word word' hword
  apply uniform_acceptName.bind
  intro label label' hlabel
  apply (uniform_expect ";" "jump statement").bind
  intro ending ending' hending
  exact Agree.node rfl (.cons hword (.cons hlabel (.cons hending .nil)))

theorem uniform_assertStmt (hg : g.Uniform) : Parser.Uniform OptAlike (assertStmt g) := by
  apply uniform_next.bind
  intro word word' hword
  apply (hg .expr).bind
  intro cond cond' hcond
  apply (uniform_accept ":").bind
  intro colon colon' hcolon
  have hsome : colon.isSome = colon'.isSome := by cases hcolon <;> rfl
  rw [hsome]
  apply Agree.Fallible.bind_ite (hg .expr) uniform_none
  intro detail detail' hdetail
  apply (uniform_expect ";" "assert statement").bind
  intro ending ending' hending
  exact Agree.node rfl
    (.cons hword (.cons hcond (.cons hcolon (.cons hdetail (.cons hending .nil)))))

theorem uniform_synchronizedStmt (hg : g.Uniform) :
    Parser.Uniform OptAlike (synchronizedStmt g) := by
  apply uniform_next.bind
  intro word word' hword
  apply (uniform_paren hg "synchronized statement").bind
  intro lock lock' hlock
  apply (uniform_requiredBlock hg "synchronized statement").bind
  intro inner inner' hinner
  exact Agree.node rfl (.cons hword (.cons hlock (.cons hinner .nil)))

theorem uniform_yieldStmt (hg : g.Uniform) : Parser.Uniform OptAlike (yieldStmt g) := by
  apply uniform_next.bind
  intro word word' hword
  apply (hg .expr).bind
  intro value value' hvalue
  apply (uniform_expect ";" "yield statement").bind
  intro ending ending' hending
  exact Agree.node rfl (.cons hword (.cons hvalue (.cons hending .nil)))

theorem uniform_labeled (hg : g.Uniform) : Parser.Uniform OptAlike (labeled g) := by
  apply uniform_next.bind
  intro label label' hlabel
  apply uniform_next.bind
  intro colon colon' hcolon
  apply (hg .statement).bind
  intro inner inner' hinner
  exact Agree.node rfl (.cons hlabel (.cons hcolon (.cons hinner .nil)))

theorem uniform_exprStmt (hg : g.Uniform) : Parser.Uniform OptAlike (exprStmt g) := by
  apply Agree.cursor
  intro c d h
  rw [h.pos]
  apply (hg .expr).bind
  intro e e' he
  cases he with
  | none =>
      apply Agree.cursor
      intro c' d' h'
      rw [h'.pos]
      apply Agree.Fallible.ite
      · exact Agree.unexpected _ _ (agree_raw hg .nil)
      · exact agree_raw hg .nil
  | some he =>
      apply Agree.ifAt
      · apply uniform_next.bind
        intro ending ending' hending
        exact Agree.node rfl (.cons (.some he) (.cons hending .nil))
      apply Agree.unexpected
      apply (uniform_before "\x7d").bind_eq
      intro b
      apply Agree.Fallible.ite (agree_raw hg (.cons (.some he) .nil))
      exact Agree.node rfl (.cons (.some he) .nil)

end Simple

end CodeLayout.Grammar
