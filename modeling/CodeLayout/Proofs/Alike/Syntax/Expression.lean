import CodeLayout.Proofs.Alike.Syntax.Parser

/-!
# Reading alike expressions

Types, annotations and expressions are read alike from alike cursors, if all that they refer to is.
-/

namespace CodeLayout

variable [SideBySide]

/-- All rules are read alike from alike cursors. -/
def Grammar.Uniform (g : Grammar) : Prop :=
  ∀ rule, Parser.Uniform Node.OptAlike (g rule)

namespace Grammar

open CodeLayout.Node CodeLayout.Parser

variable {g : Grammar}

section Types

theorem uniform_annotName : Parser.Uniform Alikes annotName := by
  apply uniform_collect
  · exact uniform_look (fun c => c.isWord 0) (fun _ => rfl) fun _ _ h => by rw [h.isWord]
  · apply uniform_next.bind
    intro word word' hword
    apply (uniform_accept ".").bind
    intro dot dot' hdot
    cases hdot with
    | none => exact .pure ⟨.cons hword .nil, rfl⟩
    | some hdot => exact .pure ⟨.cons hword (.cons (.some hdot) .nil), rfl⟩

theorem uniform_annotArg (hg : g.Uniform) : Parser.Uniform OptAlike (annotArg g) := by
  apply Agree.cursor
  intro c d h
  rw [h.isName, h.isAt]
  apply Agree.Fallible.ite _ (hg .annotValue)
  apply uniform_next.bind
  intro name name' hname
  apply uniform_next.bind
  intro eq eq' heq
  apply (hg .annotValue).bind
  intro value value' hvalue
  exact Agree.node rfl (.cons hname (.cons heq (.cons hvalue .nil)))

theorem uniform_annotArgs (hg : g.Uniform) : Parser.Uniform OptAlike (annotArgs g) := by
  apply uniform_next.bind
  intro opening opening' hopening
  apply (uniform_separated (uniform_before ")") (uniform_annotArg hg) ",").bind
  intro args args' hargs
  apply (uniform_expect ")" "annotation").bind
  intro closing closing' hclosing
  exact Agree.node rfl (.cons hopening (Alikes.append hargs (.cons hclosing .nil)))

theorem uniform_annot (hg : g.Uniform) : Parser.Uniform OptAlike (annot g) := by
  apply uniform_next.bind
  intro sign sign' hsign
  apply uniform_annotName.bind
  intro name name' hname
  apply Agree.ifAt
  · apply (uniform_annotArgs hg).bind
    intro args args' hargs
    exact Agree.node rfl (.cons hsign (Alikes.append hname (.cons hargs .nil)))
  · exact Agree.node rfl (.cons hsign hname)

theorem uniform_annotValue (hg : g.Uniform) : Parser.Uniform OptAlike (annotValue g) := by
  apply Agree.ifAt
  · exact hg (.arrayInit .annotValue)
  · exact Agree.ifAt "@" (uniform_annot hg) (hg .ternary)

theorem uniform_type (hg : g.Uniform) : Parser.Uniform OptAlike (type g) := by
  apply Agree.cursor
  intro c d h
  rw [h.skipType, h.pos]
  generalize c.skipType 0 = k
  cases k with
  | none => exact Agree.unexpected _ _ uniform_none
  | some k =>
      have hmore : Parser.Uniform Eq (do return decide (((← cursor).pos : Int) < c.pos + k)) :=
        uniform_look (fun e => decide ((e.pos : Int) < c.pos + k)) (fun _ => rfl)
          fun _ _ h => by rw [h.pos]
      apply (uniform_many hmore (Agree.ifAt "@" (uniform_annot hg) uniform_next)).bind
      intro parts parts' hparts
      exact Agree.node rfl hparts

theorem uniform_typeParams : Parser.Uniform OptAlike typeParams := by
  apply Agree.cursor
  intro c d h
  rw [h.skipTypeArgs]
  generalize c.skipTypeArgs 0 = k
  cases k with
  | none => exact uniform_none
  | some k =>
      apply (uniform_tokens _).bind
      intro parts parts' hparts
      exact Agree.node rfl hparts

theorem uniform_typeList (hg : g.Uniform) (place : Bytes) :
    Parser.Uniform OptAlike (typeList g place) := by
  have helement : Parser.Uniform OptAlike (do
      if (← cursor).skipType 0 |>.isNone then
        unexpected (ascii "a type") place
        return none
      else type g) := by
    apply Agree.cursor
    intro c d h
    rw [h.skipType]
    exact Agree.Fallible.ite (Agree.unexpected _ _ uniform_none) (uniform_type hg)
  apply (uniform_separated (Agree.Fallible.pure rfl) helement ",").bind
  intro types types' htypes
  exact Agree.node rfl htypes

theorem uniform_modifier (hg : g.Uniform) (member : Bool) :
    Parser.Uniform OptAlike (modifier g member) := by
  apply Agree.cursor
  intro c d h
  rw [h.isAnnot, h.isAt, h.isMemberModifier]
  apply Agree.Fallible.ite (uniform_annot hg)
  apply Agree.Fallible.ite uniform_next
  apply Agree.Fallible.ite uniform_none
  apply Agree.Fallible.ite
  · apply (uniform_tokens 3).bind
    intro parts parts' hparts
    exact Agree.node rfl hparts
  · exact Agree.Fallible.ite uniform_next uniform_none

theorem uniform_modifiers (hg : g.Uniform) (member : Bool) :
    Parser.Uniform OptAlike (modifiers g member) := by
  refine (uniform_collect (Agree.Fallible.pure rfl) ?step).bind ?_
  case step =>
    apply (uniform_modifier hg member).bind
    intro m m' hm
    cases hm with
    | none => exact .pure ⟨.nil, rfl⟩
    | some hm => exact .pure ⟨.cons (.some hm) .nil, rfl⟩
  intro parts parts' hparts
  cases hparts with
  | nil => exact uniform_none
  | cons hm hms => exact Agree.node rfl (.cons hm hms)

end Types

section Parameters

theorem uniform_operator (n : Nat) : Parser.Uniform OptAlike (operator n) := by
  apply (uniform_tokens n).bind
  intro parts parts' hparts
  exact Agree.node rfl hparts

theorem uniform_paramTokens : Parser.Uniform Alikes paramTokens := by
  apply (uniform_accept "...").bind
  intro dots dots' hdots
  apply uniform_isName.bind_eq
  intro isName
  apply (uniform_isAt "this").bind_eq
  intro isThis
  apply Agree.Fallible.bind_ite uniform_next uniform_none
  intro name name' hname
  apply uniform_dims.bind
  intro ds ds' hds
  exact .pure (.cons hdots (.cons hname hds))

theorem uniform_rawParamFrom (hg : g.Uniform) (fuel : Nat) (depth : Int) :
    Parser.Uniform Alikes (rawParamFrom g fuel depth) := by
  induction fuel generalizing depth with
  | zero => exact .throw _
  | succ fuel ih =>
      apply Agree.cursor
      intro c d h
      rw [h.isDone, h.endsRawParam, h.isAt]
      apply Agree.Fallible.ite uniform_nil
      apply Agree.Fallible.ite
      · apply (hg .block).bind
        intro b b' hb
        apply (ih depth).bind
        intro rest rest' hrest
        exact .pure (.cons hb hrest)
      · apply uniform_next.bind
        intro t t' ht
        apply (ih _).bind
        intro rest rest' hrest
        exact .pure (.cons ht hrest)

theorem uniform_param (hg : g.Uniform) (lambda : Bool) :
    Parser.Uniform OptAlike (param g lambda) := by
  apply (uniform_modifiers hg false).bind
  intro mods mods' hmods
  apply Agree.cursor
  intro c d h
  rw [h.isName, h.isAt, h.skipType]
  apply Agree.Fallible.ite
  · apply uniform_next.bind
    intro name name' hname
    exact Agree.node rfl (.cons hmods (.cons hname .nil))
  apply Agree.Fallible.ite
  · apply (uniform_type hg).bind
    intro t t' ht
    apply uniform_paramTokens.bind
    intro rest rest' hrest
    exact Agree.node rfl (.cons hmods (.cons ht hrest))
  · apply Agree.unexpected
    apply uniform_bound.bind_eq
    intro fuel
    apply (uniform_rawParamFrom hg fuel 0).bind
    intro rest rest' hrest
    exact Agree.node rfl (.cons hmods hrest)

theorem uniform_params (hg : g.Uniform) (lambda : Bool) :
    Parser.Uniform OptAlike (params g lambda) := by
  apply uniform_next.bind
  intro opening opening' hopening
  apply (uniform_separated (uniform_before ")") (uniform_param hg lambda) ",").bind
  intro ps ps' hps
  apply (uniform_expect ")" "parameter list").bind
  intro closing closing' hclosing
  exact Agree.node rfl (.cons hopening (Alikes.append hps (.cons hclosing .nil)))

theorem uniform_lambdaParams (hg : g.Uniform) : Parser.Uniform OptAlike (lambdaParams g) := by
  apply Agree.cursor
  intro c d h
  rw [h.isName, h.isAt, h.skipBalanced]
  apply Agree.Fallible.ite uniform_next
  apply Agree.Fallible.ite _ uniform_none
  generalize c.skipBalanced 0 = k
  cases k with
  | none => exact uniform_none
  | some k => exact Agree.Fallible.ite (uniform_params hg true) uniform_none

theorem uniform_lambda (hg : g.Uniform) : Parser.Uniform OptAlike (lambda g) := by
  apply Agree.Fallible.get
  intro s t hs
  rw [hs.noLambda]
  apply Agree.Fallible.ite uniform_none
  apply (uniform_lambdaParams hg).bind
  intro ps ps' hps
  cases hps with
  | none => exact uniform_none
  | some hps =>
      apply uniform_next.bind
      intro arrow arrow' harrow
      apply Agree.bindIfAt "\x7b" (hg .block) (hg .expr)
      intro body body' hbody
      exact Agree.node rfl (.cons (.some hps) (.cons harrow (.cons hbody .nil)))

end Parameters

section Operands

theorem uniform_args (hg : g.Uniform) : Parser.Uniform OptAlike (args g) := by
  apply uniform_next.bind
  intro opening opening' hopening
  apply Agree.Fallible.get
  intro s t hs
  rw [hs.noLambda]
  apply (uniform_noLambda false).bind
  intro _ _ _
  apply (uniform_separated (uniform_before ")") (hg .expr) ",").bind
  intro es es' hes
  apply (uniform_expect ")" "argument list").bind
  intro closing closing' hclosing
  apply (uniform_noLambda s.noLambda).bind
  intro _ _ _
  exact Agree.node rfl (.cons hopening (Alikes.append hes (.cons hclosing .nil)))

theorem uniform_arrayInit (hg : g.Uniform) (e : Element) :
    Parser.Uniform OptAlike (arrayInit g e) := by
  apply uniform_next.bind
  intro opening opening' hopening
  apply (uniform_separated (uniform_before "\x7d")
    (Agree.ifAt "\x7b" (hg (.arrayInit e)) (hg (elementRule e))) ",").bind
  intro es es' hes
  apply (uniform_expect "\x7d" "array initializer").bind
  intro closing closing' hclosing
  exact Agree.node rfl (.cons hopening (Alikes.append hes (.cons hclosing .nil)))

theorem uniform_arrayLengths (hg : g.Uniform) : Parser.Uniform Alikes (arrayLengths g) := by
  apply uniform_collect (uniform_isAt "[")
  apply uniform_next.bind
  intro opening opening' hopening
  apply Agree.bindIfAt "]" uniform_none (hg .expr)
  intro length length' hlength
  apply (uniform_expect "]" "array creation").bind
  intro closing closing' hclosing
  exact .pure ⟨.cons hopening (.cons hlength (.cons hclosing .nil)), rfl⟩

theorem uniform_creationRest (hg : g.Uniform) : Parser.Uniform Alikes (creationRest g) := by
  apply Agree.ifAt
  · apply (uniform_args hg).bind
    intro as as' has
    apply Agree.ifAt
    · apply (hg .typeBody).bind
      intro body body' hbody
      exact .pure (.cons has (.cons hbody .nil))
    · exact .pure (.cons has .nil)
  apply (uniform_isAt "[").bind_eq
  intro isBracket
  apply (uniform_isAt "\x7b").bind_eq
  intro isBrace
  apply Agree.Fallible.ite _ (Agree.unexpected _ _ uniform_nil)
  apply (uniform_arrayLengths hg).bind
  intro lengths lengths' hlengths
  apply Agree.ifAt
  · apply (hg (.arrayInit .expr)).bind
    intro init init' hinit
    exact .pure (Alikes.append hlengths (.cons hinit .nil))
  · exact .pure hlengths

theorem uniform_creation (hg : g.Uniform) : Parser.Uniform OptAlike (creation g) := by
  apply uniform_next.bind
  intro word word' hword
  apply Agree.bindIfAt "<" uniform_typeParams uniform_none
  intro ts ts' hts
  apply Agree.cursor
  intro c d h
  rw [h.skipType]
  apply Agree.Fallible.ite
  · apply Agree.unexpected
    exact Agree.node rfl (.cons hword (.cons hts .nil))
  · apply (uniform_type hg).bind
    intro t t' ht
    apply (uniform_creationRest hg).bind
    intro rest rest' hrest
    exact Agree.node rfl (.cons hword (.cons hts (.cons ht hrest)))

theorem uniform_paren (hg : g.Uniform) (place : String) :
    Parser.Uniform OptAlike (paren g place) := by
  apply (uniform_expect "(" place).bind
  intro opening opening' hopening
  cases hopening with
  | none => exact uniform_none
  | some hopening =>
      apply (hg .expr).bind
      intro inner inner' hinner
      apply (uniform_expect ")" place).bind
      intro closing closing' hclosing
      exact Agree.node rfl (.cons (.some hopening) (.cons hinner (.cons hclosing .nil)))

end Operands

section Switches

theorem uniform_pattern (hg : g.Uniform) : Parser.Uniform OptAlike (pattern g) := by
  apply (uniform_modifiers hg false).bind
  intro mods mods' hmods
  apply Agree.cursor
  intro c d h
  rw [h.skipType]
  apply Agree.Fallible.ite (.pure hmods)
  apply (uniform_type hg).bind
  intro t t' ht
  apply uniform_isName.bind_eq
  intro isName
  have hnone : mods.isNone = mods'.isNone := by cases hmods <;> rfl
  rw [hnone]
  apply Agree.Fallible.ite (.pure ht)
  apply uniform_acceptName.bind
  intro name name' hname
  exact Agree.node rfl (.cons hmods (.cons ht (.cons hname .nil)))

theorem uniform_caseLabel (hg : g.Uniform) : Parser.Uniform OptAlike (caseLabel g) := by
  apply Agree.cursor
  intro c d h
  rw [h.isAt, h.isTyped]
  apply Agree.Fallible.ite uniform_next
  exact Agree.Fallible.ite (uniform_pattern hg) (hg .ternary)

theorem uniform_caseLabels (hg : g.Uniform) : Parser.Uniform Alikes (caseLabels g) := by
  apply Agree.Fallible.get
  intro s t hs
  rw [hs.noLambda]
  apply (uniform_noLambda true).bind
  intro _ _ _
  have hmore : Parser.Uniform Eq
      (do return !(← isAt ":") && !(← isAt "->") && !(← isDone)) :=
    uniform_look (fun c => !c.isAt 0 ":" && !c.isAt 0 "->" && !c.isDone) (fun _ => rfl)
      fun _ _ h => by rw [h.isAt, h.isDone]
  apply (uniform_separated hmore (uniform_caseLabel hg) ",").bind
  intro labels labels' hlabels
  apply (uniform_noLambda s.noLambda).bind
  intro _ _ _
  exact .pure hlabels

theorem uniform_switchCase (hg : g.Uniform) : Parser.Uniform OptAlike (switchCase g) := by
  apply (uniform_isAt "case").bind_eq
  intro isCase
  apply uniform_next.bind
  intro word word' hword
  apply Agree.Fallible.bind_ite (uniform_caseLabels hg) uniform_nil
  intro labels labels' hlabels
  apply (uniform_accept "->").bind
  intro arrow arrow' harrow
  cases harrow with
  | some harrow =>
      apply (uniform_before "\x7d").bind_eq
      intro b
      apply Agree.Fallible.ite
      · apply (hg .statement).bind
        intro body body' hbody
        exact Agree.node rfl (.cons hword
          (Alikes.append hlabels (.cons (.some harrow) (.cons hbody .nil))))
      · exact Agree.node rfl (.cons hword (Alikes.append hlabels (.cons (.some harrow) .nil)))
  | none =>
      apply (uniform_expect ":" "switch label").bind
      intro colon colon' hcolon
      have hmore : Parser.Uniform Eq
          (do return (← before "\x7d") && !(← isAt "case") && !(← cursor).isDefaultLabel) :=
        uniform_look
          (fun c => (!c.isAt 0 "\x7d" && !c.isDone) && !c.isAt 0 "case" && !c.isDefaultLabel)
          (fun _ => rfl) fun _ _ h => by rw [h.isAt, h.isDone, h.isDefaultLabel]
      apply (uniform_many hmore (hg .statement)).bind
      intro body body' hbody
      exact Agree.node rfl (Alikes.append
        (Alikes.append (.cons hword hlabels) (.cons hcolon .nil)) hbody)

theorem uniform_switch (hg : g.Uniform) : Parser.Uniform OptAlike (switch g) := by
  apply uniform_next.bind
  intro word word' hword
  apply (uniform_paren hg "switch").bind
  intro subject subject' hsubject
  apply Agree.ifAt
  · apply uniform_next.bind
    intro opening opening' hopening
    have hcase : Parser.Uniform OptAlike (do
        if (← isAt "case") || (← cursor).isDefaultLabel then switchCase g else g .statement) := by
      apply (uniform_isAt "case").bind_eq
      intro isCase
      apply Agree.cursor
      intro c d h
      rw [h.isDefaultLabel]
      exact Agree.Fallible.ite (uniform_switchCase hg) (hg .statement)
    apply (uniform_many (uniform_before "\x7d") hcase).bind
    intro cases cases' hcases
    apply (uniform_expect "\x7d" "switch").bind
    intro closing closing' hclosing
    have hbody : (Node.make .switchBody ([opening] ++ cases ++ [closing])).Alike
        (.make .switchBody ([opening'] ++ cases' ++ [closing'])) :=
      .make rfl (.cons hopening (Alikes.append hcases (.cons hclosing .nil)))
    exact Agree.node rfl (.cons hword (.cons hsubject (.cons (.some hbody) .nil)))
  · apply Agree.unexpected
    exact Agree.node rfl (.cons hword (.cons hsubject .nil))

end Switches

section Selectors

theorem uniform_missingExpr : Parser.Uniform OptAlike missingExpr := by
  apply Agree.unexpected
  apply Agree.cursor
  intro c d h
  rw [h.endsExpr]
  apply Agree.Fallible.ite uniform_none
  apply uniform_next.bind
  intro t t' ht
  exact Agree.node rfl (.cons ht .nil)

theorem uniform_wordExpr (hg : g.Uniform) : Parser.Uniform OptAlike (wordExpr g) := by
  apply (uniform_lambda hg).bind
  intro l l' hl
  cases hl with
  | some hl => exact .pure (.some hl)
  | none =>
      apply Agree.cursor
      intro c d h
      rw [h.isAt, h.isName, h.isOperandWord]
      apply Agree.Fallible.ite
      · apply uniform_next.bind
        intro name name' hname
        apply (uniform_args hg).bind
        intro as as' has
        exact Agree.node rfl (.cons hname (.cons has .nil))
      · exact Agree.Fallible.ite uniform_next uniform_missingExpr

theorem uniform_parenExpr (hg : g.Uniform) : Parser.Uniform OptAlike (parenExpr g) := by
  apply (uniform_lambda hg).bind
  intro l l' hl
  cases hl with
  | some hl => exact .pure (.some hl)
  | none =>
      apply uniform_next.bind
      intro opening opening' hopening
      apply (hg .expr).bind
      intro inner inner' hinner
      apply (uniform_expect ")" "parenthesized expression").bind
      intro closing closing' hclosing
      exact Agree.node rfl (.cons hopening (.cons hinner (.cons hclosing .nil)))

theorem uniform_primary (hg : g.Uniform) : Parser.Uniform OptAlike (primary g) := by
  apply Agree.cursor
  intro c d h
  rw [h.kind, h.isAt, h.isWord]
  apply Agree.Fallible.ite uniform_next
  apply Agree.Fallible.ite (uniform_creation hg)
  apply Agree.Fallible.ite (uniform_switch hg)
  apply Agree.Fallible.ite (hg (.arrayInit .expr))
  apply Agree.Fallible.ite (uniform_parenExpr hg)
  exact Agree.Fallible.ite (uniform_wordExpr hg) uniform_missingExpr

theorem uniform_selector (hg : g.Uniform) : Parser.Uniform OptAlike (selector g) := by
  apply Agree.cursor
  intro c d h
  rw [h.isWord]
  apply Agree.Fallible.ite _ (Agree.unexpected _ _ uniform_none)
  apply uniform_next.bind
  intro name name' hname
  apply Agree.ifAt
  · apply (uniform_args hg).bind
    intro as as' has
    exact Agree.node rfl (.cons hname (.cons has .nil))
  · exact .pure hname

theorem uniform_member (hg : g.Uniform) : Parser.Uniform OptAlike (member g) := by
  apply Agree.ifAt "new" (uniform_creation hg)
  apply Agree.ifAt "<" _ (uniform_selector hg)
  apply uniform_typeParams.bind
  intro ts ts' hts
  apply (uniform_selector hg).bind
  intro m m' hm
  exact Agree.node rfl (.cons hts (.cons hm .nil))

theorem agree_selectorsFrom (hg : g.Uniform) (fuel : Nat) {n m : Node} (hnm : n.Alike m) :
    Parser.Agree Node.Alike (selectorsFrom g fuel n) (selectorsFrom g fuel m) := by
  induction fuel generalizing n m with
  | zero => exact .throw _
  | succ fuel ih =>
      apply Agree.ifAt
      · apply uniform_next.bind
        intro dot dot' hdot
        apply (uniform_member hg).bind
        intro e e' he
        exact ih (.make rfl (.cons (.some hnm) (.cons hdot (.cons he .nil))))
      apply Agree.ifAt
      · apply uniform_next.bind
        intro mark mark' hmark
        apply Agree.cursor
        intro c d h
        rw [h.isWord]
        apply Agree.Fallible.bind_ite uniform_next (Agree.unexpected _ _ uniform_none)
        intro name name' hname
        exact ih (.make rfl (.cons (.some hnm) (.cons hmark (.cons hname .nil))))
      apply Agree.ifAt
      · apply uniform_next.bind
        intro opening opening' hopening
        apply Agree.bindIfAt "]" uniform_none (hg .expr)
        intro i i' hi
        apply (uniform_expect "]" "index expression").bind
        intro closing closing' hclosing
        exact ih (.make rfl
          (.cons (.some hnm) (.cons hopening (.cons hi (.cons hclosing .nil)))))
      apply (uniform_isAt "++").bind_eq
      intro isPlus
      apply (uniform_isAt "--").bind_eq
      intro isMinus
      apply Agree.Fallible.ite _ (.pure hnm)
      apply uniform_next.bind
      intro op op' hop
      exact ih (.make rfl (.cons (.some hnm) (.cons hop .nil)))

theorem uniform_postfixExpr (hg : g.Uniform) : Parser.Uniform OptAlike (postfixExpr g) := by
  apply (uniform_primary hg).bind
  intro n m hnm
  cases hnm with
  | none => exact uniform_none
  | some hnm =>
      apply uniform_bound.bind_eq
      intro fuel
      apply (agree_selectorsFrom hg fuel hnm).bind
      intro n' m' h
      exact .pure (.some h)

end Selectors

section Operators

theorem uniform_unary (hg : g.Uniform) : Parser.Uniform OptAlike (unary g) := by
  apply Agree.cursor
  intro c d h
  rw [h.text, h.isAt, h.isCast]
  apply Agree.Fallible.ite
  · apply uniform_next.bind
    intro op op' hop
    apply (hg .unary).bind
    intro e e' he
    exact Agree.node rfl (.cons hop (.cons he .nil))
  apply Agree.Fallible.ite _ (uniform_postfixExpr hg)
  apply uniform_next.bind
  intro opening opening' hopening
  apply (uniform_type hg).bind
  intro t t' ht
  apply uniform_next.bind
  intro closing closing' hclosing
  apply (hg .unary).bind
  intro e e' he
  exact Agree.node rfl (.cons hopening (.cons ht (.cons hclosing (.cons he .nil))))

theorem uniform_chainFrom (hg : g.Uniform) (prec fuel : Nat) :
    Parser.Uniform Alikes (chainFrom g prec fuel) := by
  induction fuel with
  | zero => exact .throw _
  | succ fuel ih =>
      apply uniform_peekOperator.bind_eq
      rintro ⟨op, n⟩
      apply Agree.Fallible.ite uniform_nil
      apply (uniform_operator n).bind
      intro o o' ho
      apply Agree.Fallible.bind_ite (uniform_pattern hg) (hg (.binary (prec + 1)))
      intro r r' hr
      cases hr with
      | none =>
          apply Agree.unexpected
          exact .pure (.cons ho .nil)
      | some hr =>
          apply ih.bind
          intro rest rest' hrest
          exact .pure (.cons ho (.cons (.some hr) hrest))

theorem agree_chainsFrom (hg : g.Uniform) (least fuel : Nat) {n m : Node} (hnm : n.Alike m) :
    Parser.Agree Node.Alike (chainsFrom g least fuel n) (chainsFrom g least fuel m) := by
  induction fuel generalizing n m with
  | zero => exact .throw _
  | succ fuel ih =>
      apply uniform_peekOperator.bind_eq
      rintro ⟨op, k⟩
      apply Agree.Fallible.ite (.pure hnm)
      apply uniform_bound.bind_eq
      intro bound
      apply (uniform_chainFrom hg _ bound).bind
      intro rest rest' hrest
      exact ih (.make rfl (.cons (.some hnm) hrest))

theorem uniform_binary (hg : g.Uniform) (least : Nat) :
    Parser.Uniform OptAlike (binary g least) := by
  apply (uniform_unary hg).bind
  intro n m hnm
  cases hnm with
  | none => exact uniform_none
  | some hnm =>
      apply uniform_bound.bind_eq
      intro fuel
      apply (agree_chainsFrom hg least fuel hnm).bind
      intro n' m' h
      exact .pure (.some h)

theorem uniform_conditionalBranch (hg : g.Uniform) :
    Parser.Uniform OptAlike (conditionalBranch g) := by
  apply (uniform_lambda hg).bind
  intro l l' hl
  cases hl with
  | some hl => exact .pure (.some hl)
  | none => exact hg .ternary

theorem uniform_ternary (hg : g.Uniform) : Parser.Uniform OptAlike (ternary g) := by
  apply (uniform_binary hg 1).bind
  intro n m hnm
  cases hnm with
  | none => exact uniform_none
  | some hnm =>
      apply Agree.ifAt "?" _ (.pure (.some hnm))
      apply uniform_next.bind
      intro question question' hquestion
      apply (uniform_conditionalBranch hg).bind
      intro yes yes' hyes
      apply (uniform_expect ":" "conditional expression").bind
      intro colon colon' hcolon
      apply (uniform_conditionalBranch hg).bind
      intro no no' hno
      exact Agree.node rfl
        (.cons (.some hnm) (.cons hquestion (.cons hyes (.cons hcolon (.cons hno .nil)))))

theorem uniform_expr (hg : g.Uniform) : Parser.Uniform OptAlike (expr g) := by
  apply (uniform_ternary hg).bind
  intro n m hnm
  cases hnm with
  | none => exact uniform_none
  | some hnm =>
      apply uniform_peekOperator.bind_eq
      rintro ⟨op, k⟩
      apply Agree.Fallible.ite _ (.pure (.some hnm))
      apply (uniform_operator k).bind
      intro o o' ho
      apply Agree.bindIfAt "\x7b" (hg (.arrayInit .expr)) (hg .expr)
      intro rhs rhs' hrhs
      exact Agree.node rfl (.cons (.some hnm) (.cons ho (.cons hrhs .nil)))

end Operators

end Grammar

end CodeLayout
