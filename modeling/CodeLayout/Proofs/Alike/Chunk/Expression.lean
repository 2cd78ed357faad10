import CodeLayout.Proofs.Alike.Chunk.Lists

/-!
# Alike chunks of expressions

The builders of expressions. A chain of selections is taken apart in the same way in both trees.
-/

namespace CodeLayout.Build

open Chunk

/-- Only a selection with something on both sides of its dot is taken apart. -/
theorem selections_branch {k : NodeKind} {a b : Nat} {cs : List Node}
    (h : k = .select → cs.length < 2) : selections (.branch k a b cs) = (.branch k a b cs, []) := by
  rw [selections]
  rintro a' b' base dot more heq
  simp only [Node.branch.injEq] at heq
  obtain ⟨hk, -, -, rfl⟩ := heq
  have hlength := h hk
  simp only [List.length_cons] at hlength
  omega

variable [SideBySide] {x y : BuildContext} {build build' : NodeBuilder} {n m : Node}

section Expressions

theorem agree_operands (h : x.Beside y) (hb : build.Agree build') {ns ms : List Node}
    (hns : List.Forall₂ Node.Kin ns ms) :
    Agree Alikes (operands x build ns) (operands y build' ms) := by
  match ns, ms, hns with
  | [], [], _ => exact .pure .nil
  | [op], [op'], .cons hop _ =>
      rw [operands, operands]
      apply (hb _ _ hop).bind
      intro c d hcd
      cases hcd with
      | none => exact .pure .nil
      | some hcd =>
          apply (agree_element h hop hcd.withSpace).bind
          intro e e' he
          exact .pure (.cons he .nil)
  | op :: operand :: rest, op' :: operand' :: rest', .cons hop (.cons hoperand hrest) =>
      rw [operands, operands]
      apply (hb _ _ hop).bind
      intro c d hcd
      apply (hb _ _ hoperand).bind
      intro e e' he
      have hpart := sequence_alike (spaced_alike (spaced_alike .nil hcd) he)
      dsimp only
      generalize sequence (spaced (spaced [] c) e) = o, sequence (spaced (spaced [] d) e') = p
        at hpart ⊢
      cases hpart with
      | none => exact agree_operands h hb hrest
      | some hpart =>
          exact Agree.cons (agree_element h hop hpart.withSpace) (agree_operands h hb hrest)

theorem agree_binary (h : x.Beside y) (hb : build.Agree build')
    (hns : List.Forall₂ Node.Kin n.children m.children) :
    Agree OptAlike (binary x build n) (binary y build' m) := by
  rw [binary, binary]
  generalize n.children = ns, m.children = ms at hns ⊢
  cases hns with
  | nil => exact .pure .none
  | cons hfirst hrest =>
      apply (hb _ _ hfirst).bind
      intro c d hcd
      apply (agree_operands h hb hrest).bind
      intro es fs hes
      exact .pure (.some (.ofElements _ (hcd.toList.append hes)))

theorem agree_assign (h : x.Beside y) (hb : build.Agree build')
    (hns : List.Forall₂ Node.Kin n.children m.children) :
    Agree OptAlike (assign x build n) (assign y build' m) := by
  rw [assign, assign]
  generalize n.children = ns, m.children = ms at hns ⊢
  match ns, ms, hns with
  | [], [], _ => exact .pure .none
  | [lhs], [lhs'], .cons hlhs _ =>
      apply (hb _ _ hlhs).bind
      intro c d hcd
      exact .pure (sequence_alike (glued_alike .nil hcd))
  | [lhs, op], [lhs', op'], .cons hlhs (.cons hop _) =>
      apply (hb _ _ hlhs).bind
      intro c d hcd
      apply (hb _ _ hop).bind
      intro e e' he
      exact .pure (sequence_alike (spaced_alike (glued_alike .nil hcd) he))
  | lhs :: op :: rhs :: _, lhs' :: op' :: rhs' :: _, .cons hlhs (.cons hop (.cons hrhs _)) =>
      apply (hb _ _ hlhs).bind
      intro c d hcd
      apply (hb _ _ hop).bind
      intro e e' he
      exact agree_assignment h hb
        (sequence_alike (spaced_alike (glued_alike .nil hcd) he)) hrhs

theorem agree_branches (h : x.Beside y) (hb : build.Agree build') {ns ms : List Node}
    (hns : List.Forall₂ Node.Kin ns ms) :
    Agree Alikes (branches x build ns) (branches y build' ms) := by
  match ns, ms, hns with
  | [], [], _ => exact .pure .nil
  | [op], [op'], .cons hop _ =>
      rw [branches, branches]
      apply (hb _ _ hop).bind
      intro c d hcd
      cases hcd with
      | none => exact .pure .nil
      | some hcd =>
          apply (agree_element h hop hcd.withSpace).bind
          intro e e' he
          exact .pure (.cons he .nil)
  | op :: branch :: rest, op' :: branch' :: rest', .cons hop (.cons hbranch hrest) =>
      rw [branches, branches]
      apply (hb _ _ hop).bind
      intro c d hcd
      rw [isText_alike hbranch]
      apply CodeLayout.Agree.ite
      · cases hcd with
        | none => exact agree_branches h hb (.cons hbranch hrest)
        | some hcd =>
            exact Agree.cons (agree_element h hop hcd.withSpace)
              (agree_branches h hb (.cons hbranch hrest))
      · apply (hb _ _ hbranch).bind
        intro e e' he
        have hpart := sequence_alike (spaced_alike (spaced_alike .nil hcd) he)
        generalize sequence (spaced (spaced [] c) e) = o, sequence (spaced (spaced [] d) e') = p
          at hpart ⊢
        cases hpart with
        | none => exact agree_branches h hb hrest
        | some hpart =>
            exact Agree.cons (agree_element h hop hpart.withSpace) (agree_branches h hb hrest)
termination_by ns.length

theorem agree_conditional (h : x.Beside y) (hb : build.Agree build')
    (hns : List.Forall₂ Node.Kin n.children m.children) :
    Agree OptAlike (conditional x build n) (conditional y build' m) := by
  rw [conditional, conditional]
  generalize n.children = ns, m.children = ms at hns ⊢
  cases hns with
  | nil => exact .pure .none
  | cons hfirst hrest =>
      apply (hb _ _ hfirst).bind
      intro c d hcd
      apply (agree_branches h hb hrest).bind
      intro es fs hes
      exact .pure (.some (.ofElements _ (hcd.toList.append hes)))

theorem fuses_alike {op op' operand operand' : Node} (hop : op.Kin op')
    (hoperand : operand.Kin operand') : fuses op' operand' = fuses op operand := by
  have hhead := hoperand.head?
  simp only [fuses, isText_alike hop, hop.text?]
  congr 1
  cases op.text? with
  | none => rfl
  | some sign =>
      cases hl : operand.leaves.head? with
      | none =>
          rw [hl, Option.map_none, Option.map_eq_none_iff] at hhead
          rw [hhead]
      | some l =>
          rw [hl, Option.map_some, Option.map_eq_some_iff] at hhead
          obtain ⟨l', hl', htext⟩ := hhead
          rw [hl']
          exact congrArg sign.isPrefixOf htext

theorem agree_unary (hb : build.Agree build')
    (hns : List.Forall₂ Node.Kin n.children m.children) :
    Agree OptAlike (unary build n) (unary build' m) := by
  rw [unary, unary]
  generalize n.children = ns, m.children = ms at hns ⊢
  match ns, ms, hns with
  | [], [], _ => exact .pure .none
  | [op], [op'], .cons hop _ => exact hb _ _ hop
  | op :: operand :: _, op' :: operand' :: _, .cons hop (.cons hoperand _) =>
      apply (hb _ _ hop).bind
      intro o o' ho
      apply (hb _ _ hoperand).bind
      intro c d hcd
      rw [fuses_alike hop hoperand]
      apply CodeLayout.Agree.pure
      have hspaced : OptAlike (if fuses op operand then c.map Chunk.withSpace else c)
          (if fuses op operand then d.map Chunk.withSpace else d) := by
        split
        · exact hcd.map fun _ _ h => h.withSpace
        · exact hcd
      exact .some (.seq (ho.toList.append hspaced.toList))

theorem agree_castParts (hb : build.Agree build') (behindParen : Bool) {cs ds : List Chunk}
    (hcs : Alikes cs ds) {ns ms : List Node} (hns : List.Forall₂ Node.Kin ns ms) :
    Agree Alikes (castParts build behindParen cs ns) (castParts build' behindParen ds ms) := by
  induction hns generalizing behindParen cs ds with
  | nil => exact .pure hcs
  | cons hnm _ ih =>
      rw [castParts, castParts]
      apply (hb _ _ hnm).bind
      intro c d hcd
      rw [isText_alike hnm]
      apply ih
      cases behindParen with
      | true => exact spaced_alike hcs hcd
      | false => exact glued_alike hcs hcd

theorem agree_cast (hb : build.Agree build')
    (hns : List.Forall₂ Node.Kin n.children m.children) :
    Agree OptAlike (cast build n) (cast build' m) := by
  apply (agree_castParts hb false .nil hns).bind
  intro cs ds hcs
  exact .pure (sequence_alike hcs)

theorem agree_call (h : x.Beside y) (hb : build.Agree build')
    (hns : List.Forall₂ Node.Kin n.children m.children) :
    Agree OptAlike (call x build n) (call y build' m) := by
  apply agree_foldlM _ hns
  intro cs ds c d hcs hcd
  apply agree_ifKind hcd
  · decide
  · intro hes
    exact agree_glued (agree_list h hb _ hes) hcs
  · exact agree_glued (hb c d hcd) hcs

end Expressions

section Selections

/-- Steps of a chain that differ in places only. -/
structure Selection.Kin (s t : Selection) : Prop where
  dot : s.dot.Kin t.dot
  member : Option.Rel Node.Kin s.member t.member

theorem Selection.Kin.isCall {s t : Selection} (h : s.Kin t) : t.isCall = s.isCall := by
  obtain ⟨dot, member⟩ := s
  obtain ⟨dot', member'⟩ := t
  obtain ⟨-, hmember⟩ := h
  cases hmember with
  | none => rfl
  | some hmember => simp only [Selection.isCall, hmember.isKind]

theorem selections_alike (h : n.Kin m) : (selections n).1.Kin (selections m).1 ∧
    List.Forall₂ Selection.Kin (selections n).2 (selections m).2 := by
  induction n using selections.induct generalizing m with
  | case1 a b base dot more root steps _ ih =>
      rcases h.cases_form with ⟨i, t, j, u, hleaf, -⟩ | ⟨k, _, _, _, a', b', ds, hbranch, rfl⟩
      · cases hleaf
      cases hbranch
      have hchildren : List.Forall₂ Node.Kin (base :: dot :: more) ds := h.children rfl
      match ds, hchildren with
      | base' :: dot' :: more', .cons hbase (.cons hdot hmore) =>
          obtain ⟨hroot, hsteps⟩ := ih hbase
          have hmember : Option.Rel Node.Kin more.head? more'.head? := by
            cases hmore with
            | nil => exact .none
            | cons hfirst _ => exact .some hfirst
          rw [selections, selections]
          exact ⟨hroot, .cons ⟨hdot, hmember⟩ hsteps⟩
  | case2 n hform =>
      rcases h.cases_form with ⟨i, t, j, u, rfl, rfl, -⟩ | ⟨k, a, b, cs, a', b', ds, rfl, rfl⟩
      · exact ⟨h, .nil⟩
      have hshort : k = .select → cs.length < 2 := by
        rintro rfl
        match cs, hform with
        | [], _ => exact Nat.zero_lt_two
        | [base], _ => exact Nat.one_lt_two
        | base :: dot :: more, hform => exact (hform a b base dot more rfl).elim
      have hshort' : k = .select → ds.length < 2 := by
        rintro rfl
        have hchildren : List.Forall₂ Node.Kin cs ds := h.children rfl
        rw [← hchildren.length_eq]
        exact hshort rfl
      rw [selections_branch hshort, selections_branch hshort']
      exact ⟨h, .nil⟩

theorem agree_selected (hb : build.Agree build') {s t : Selection} (h : s.Kin t)
    {cs ds : List Chunk} (hcs : Alikes cs ds) :
    Agree Alikes (selected build cs s) (selected build' ds t) := by
  apply (hb _ _ h.dot).bind
  intro c d hcd
  apply (agree_optional hb h.member).bind
  intro e e' he
  exact .pure (glued_alike (glued_alike hcs hcd) he)

theorem agree_chainElements (h : x.Beside y) (hb : build.Agree build') (hnm : n.Kin m)
    {cs ds : List Chunk} (hcs : Alikes cs ds) {ss ts : List Selection}
    (hss : List.Forall₂ Selection.Kin ss ts) :
    Agree Alikes (chainElements x build n cs ss) (chainElements y build' m ds ts) := by
  induction hss generalizing n m cs ds with
  | nil =>
      have hpart := sequence_alike hcs
      rw [chainElements, chainElements]
      generalize sequence cs = o, sequence ds = p at hpart ⊢
      cases hpart with
      | none => exact .pure .nil
      | some hpart =>
          apply (agree_element h hnm hpart).bind
          intro e e' he
          exact .pure (.cons he .nil)
  | @cons s t ss ts hst _ ih =>
      rw [chainElements, chainElements, hst.isCall]
      apply CodeLayout.Agree.ite
      · have hdone : Agree Alikes ((sequence cs).toList.mapM (element x n))
            ((sequence ds).toList.mapM (element y m)) := by
          have hpart := sequence_alike hcs
          generalize sequence cs = o, sequence ds = p at hpart ⊢
          cases hpart with
          | none => exact .pure .nil
          | some hpart =>
              simp only [Option.toList_some, List.mapM_cons, List.mapM_nil]
              apply (agree_element h hnm hpart).bind
              intro e e' he
              exact .pure (.cons he .nil)
        apply hdone.bind
        intro done done' hdone
        apply (agree_selected hb hst .nil).bind
        intro parts parts' hparts
        apply (ih hst.dot hparts).bind
        intro rest rest' hrest
        exact .pure (hdone.append hrest)
      · apply (agree_selected hb hst hcs).bind
        intro parts parts' hparts
        exact ih hnm hparts

theorem countP_isCall {ss ts : List Selection} (h : List.Forall₂ Selection.Kin ss ts) :
    ts.countP Selection.isCall = ss.countP Selection.isCall := by
  induction h with
  | nil => rfl
  | cons hst _ ih => rw [List.countP_cons, List.countP_cons, hst.isCall, ih]

theorem agree_selectChain (h : x.Beside y) (hb : build.Agree build') (hnm : n.Kin m) :
    Agree OptAlike (selectChain x build n) (selectChain y build' m) := by
  obtain ⟨hbase, hsteps⟩ := selections_alike hnm
  rw [selectChain, selectChain]
  generalize selections n = p, selections m = q at hbase hsteps ⊢
  obtain ⟨base, steps⟩ := p
  obtain ⟨base', steps'⟩ := q
  have hreverse : List.Forall₂ Selection.Kin steps.reverse steps'.reverse :=
    List.rel_reverse hsteps
  apply (hb _ _ hbase).bind
  intro c d hcd
  dsimp only
  rw [countP_isCall hreverse]
  apply CodeLayout.Agree.ite
  · have hfold : Agree Alikes (steps.reverse.foldlM (selected build) (glued [] c))
        (steps'.reverse.foldlM (selected build') (glued [] d)) := by
      apply CodeLayout.Agree.foldlM _ hreverse (glued_alike .nil hcd)
      intro cs ds s t hcs hst
      exact agree_selected hb hst hcs
    apply hfold.bind
    intro cs ds hcs
    exact .pure (sequence_alike hcs)
  · apply (agree_chainElements h hb hbase (glued_alike .nil hcd) hreverse).bind
    intro es fs hes
    exact .pure (.some (.ofElements _ hes))

end Selections

section Creations

theorem agree_creation (h : x.Beside y) (hb : build.Agree build')
    (hns : List.Forall₂ Node.Kin n.children m.children) :
    Agree OptAlike (creation x build n) (creation y build' m) := by
  apply agree_zipIdx _ hns
  intro cs ds c d i hcs hcd
  dsimp only
  rw [hcd.isKind, hcd.isKind, hcd.isKind]
  apply CodeLayout.Agree.ite (agree_spaced (hb c d hcd) hcs)
  apply agree_ifKind hcd
  · decide
  · intro hes
    exact agree_glued (agree_list h hb _ hes) hcs
  · exact agree_glued (hb c d hcd) hcs

theorem agree_arrayInit (h : x.Beside y) (hb : build.Agree build')
    (hns : List.Forall₂ Node.Kin n.children m.children) :
    Agree OptAlike (arrayInit x build n) (arrayInit y build' m) := by
  rw [arrayInit, arrayInit]
  generalize n.children = ns, m.children = ms at hns ⊢
  cases hns with
  | nil => exact .pure .none
  | @cons first first' rest rest' hfirst hrest =>
      obtain ⟨hinner, hlast⟩ := splitClosing_alike (fun _ _ h => isText_alike h "\x7d") hrest
      apply (hb _ _ hfirst).bind
      intro opening opening' hopening
      generalize splitClosing (isText "\x7d") rest = p, splitClosing (isText "\x7d") rest' = q
        at hinner hlast ⊢
      obtain ⟨inner, closing⟩ := p
      obtain ⟨inner', closing'⟩ := q
      apply (agree_elements h hb (ascii ",") true hinner).bind
      intro es fs hes
      apply (agree_optional hb hlast).bind
      intro c d hcd
      cases hes with
      | nil => exact .pure (.some (.seq (hopening.toList.append hcd.toList)))
      | cons hfirst hrest =>
          have hgroup := (Chunk.Alike.ofElements .arrayInitializer (.cons hfirst hrest)).withSpace
          have hclosing := (hcd.map fun _ _ h => h.withSpace).toList
          rw [Option.toList_map, Option.toList_map] at hclosing
          exact .pure (.some (.seq ((hopening.toList.append (.cons hgroup .nil)).append hclosing)))

theorem agree_lambda (h : x.Beside y) (hb : build.Agree build')
    (hns : List.Forall₂ Node.Kin n.children m.children) :
    Agree OptAlike (lambda x build n) (lambda y build' m) := by
  apply agree_foldlM _ hns
  intro cs ds c d hcs hcd
  apply agree_ifKind hcd
  · decide
  · intro hes
    exact agree_spaced (agree_list h hb _ hes) hcs
  · exact agree_spaced (hb c d hcd) hcs

end Creations

end CodeLayout.Build
