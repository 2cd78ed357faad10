import CodeLayout.Proofs.Alike.Chunk.Expression

/-!
# Alike chunks of statements

The builders of statements, with the bodies, headers and labels in them.
-/

namespace CodeLayout.Build

open Chunk

variable [SideBySide] {x y : BuildContext} {build build' : NodeBuilder} {n m : Node}

theorem agree_body (h : x.Beside y) (hb : build.Agree build') (hnm : n.Kin m) {cs ds : List Chunk}
    (hcs : Alikes cs ds) : Agree Alikes (body x build cs n) (body y build' ds m) := by
  rw [body, body, hnm.isKind]
  apply CodeLayout.Agree.ite (agree_glued (hb n m hnm) hcs)
  apply agree_ifKind hnm
  · decide
  · intro hes
    exact agree_spaced (agree_block h hb hes) hcs
  · apply (agree_items h (agree_item h hb) (.cons hnm .nil)).bind
    intro own own' hown
    exact .pure (spaced_alike hcs (.some (.ofItems .none .none hown)))

theorem agree_ifParts (h : x.Beside y) (hb : build.Agree build') {cs ds : List Chunk}
    (hcs : Alikes cs ds) {ns ms : List Node} (hns : List.Forall₂ Node.Kin ns ms) :
    Agree Alikes (ifParts x build cs ns) (ifParts y build' ds ms) := by
  match ns, ms, hns with
  | [], [], _ => exact .pure hcs
  | [n], [m], .cons hnm _ =>
      rw [ifParts, ifParts, hnm.isKind, isText_alike hnm]
      exact CodeLayout.Agree.ite (agree_spaced (hb n m hnm) hcs) (agree_body h hb hnm hcs)
  | n :: n' :: rest, m :: m' :: rest', .cons hnm (.cons hnext hrest) =>
      rw [ifParts, ifParts, hnm.isKind, isText_alike hnm, hnext.isKind]
      apply CodeLayout.Agree.ite
      · apply (hb n m hnm).bind
        intro c d hcd
        exact agree_ifParts h hb (spaced_alike hcs hcd) (.cons hnext hrest)
      apply CodeLayout.Agree.ite
      · apply (hb n m hnm).bind
        intro c d hcd
        apply CodeLayout.Agree.ite
        · apply (hb n' m' hnext).bind
          intro e e' he
          exact agree_ifParts h hb (spaced_alike (spaced_alike hcs hcd) he) hrest
        · exact agree_ifParts h hb (spaced_alike hcs hcd) (.cons hnext hrest)
      · apply (agree_body h hb hnm hcs).bind
        intro parts parts' hparts
        exact agree_ifParts h hb hparts (.cons hnext hrest)
termination_by ns.length

theorem agree_ifStmt (h : x.Beside y) (hb : build.Agree build')
    (hns : List.Forall₂ Node.Kin n.children m.children) :
    Agree OptAlike (ifStmt x build n) (ifStmt y build' m) := by
  apply agree_first hb _ hns
  intro cs ds ns ms hcs hns
  exact agree_ifParts h hb hcs hns

theorem agree_wordStmt (h : x.Beside y) (hb : build.Agree build')
    (hns : List.Forall₂ Node.Kin n.children m.children) :
    Agree OptAlike (wordStmt x build n) (wordStmt y build' m) := by
  apply agree_zipIdx _ hns
  intro cs ds c d i hcs hcd
  dsimp only
  rw [hcd.isKind, isText_alike hcd, isText_alike hcd]
  apply CodeLayout.Agree.ite (agree_spaced (hb c d hcd) hcs)
  apply CodeLayout.Agree.ite (agree_glued (hb c d hcd) hcs)
  apply agree_ifKind hcd
  · decide
  · intro hes
    exact agree_glued (agree_param h hb hes) hcs
  · exact agree_body h hb hcd hcs

theorem agree_doStmt (h : x.Beside y) (hb : build.Agree build')
    (hns : List.Forall₂ Node.Kin n.children m.children) :
    Agree OptAlike (doStmt x build n) (doStmt y build' m) := by
  apply agree_zipIdx _ hns
  intro cs ds c d i hcs hcd
  dsimp only
  rw [hcd.isKind, isText_alike hcd, isText_alike hcd]
  apply CodeLayout.Agree.ite (agree_spaced (hb c d hcd) hcs)
  exact CodeLayout.Agree.ite (agree_glued (hb c d hcd) hcs) (agree_body h hb hcd hcs)

theorem agree_forStmt (h : x.Beside y) (hb : build.Agree build')
    (hns : List.Forall₂ Node.Kin n.children m.children) :
    Agree OptAlike (forStmt x build n) (forStmt y build' m) := by
  apply agree_zipIdx _ hns
  intro cs ds c d i hcs hcd
  dsimp only
  rw [hcd.isKind]
  exact CodeLayout.Agree.ite (agree_spaced (hb c d hcd) hcs) (agree_body h hb hcd hcs)

theorem agree_forParts (h : x.Beside y) (hb : build.Agree build') (behindParen : Bool)
    {cs ds : List Chunk} (hcs : Alikes cs ds) {ns ms : List Node}
    (hns : List.Forall₂ Node.Kin ns ms) :
    Agree Alikes (forParts x build behindParen cs ns) (forParts y build' behindParen ds ms) := by
  induction hns generalizing behindParen cs ds with
  | nil => exact .pure hcs
  | @cons n m ns ms hnm _ ih =>
      have hempty : ds.isEmpty = cs.isEmpty := by cases hcs <;> rfl
      have hrest : ∀ c d : Option Chunk, OptAlike c d → Agree Alikes
          (forParts x build (isText "(" n)
            (if cs.isEmpty || behindParen || isText ";" n || isText ")" n then glued cs c
              else spaced cs c) ns)
          (forParts y build' (isText "(" m)
            (if ds.isEmpty || behindParen || isText ";" m || isText ")" m then glued ds d
              else spaced ds d) ms) := by
        intro c d hcd
        rw [hempty, isText_alike hnm, isText_alike hnm, isText_alike hnm]
        apply ih
        split
        · exact glued_alike hcs hcd
        · exact spaced_alike hcs hcd
      rw [forParts, forParts]
      apply agree_ifKind hnm
      · decide
      · intro hes
        exact (agree_varDecl h hb false hes).bind hrest
      apply agree_ifKind hnm
      · decide
      · intro hes
        exact (agree_param h hb hes).bind hrest
      · exact (hb n m hnm).bind hrest

theorem agree_forControl (h : x.Beside y) (hb : build.Agree build')
    (hns : List.Forall₂ Node.Kin n.children m.children) :
    Agree OptAlike (forControl x build n) (forControl y build' m) := by
  apply (agree_forParts h hb false .nil hns).bind
  intro cs ds hcs
  exact .pure (sequence_alike hcs)

theorem agree_resources (h : x.Beside y) (hb : build.Agree build')
    (hns : List.Forall₂ Node.Kin n.children m.children) :
    Agree OptAlike (resources x build n) (resources y build' m) := by
  rw [resources, resources]
  generalize n.children = ns, m.children = ms at hns ⊢
  cases hns with
  | nil => exact .pure .none
  | @cons first first' rest rest' hfirst hrest =>
      obtain ⟨hinner, hlast⟩ := splitClosing_alike (fun _ _ h => isText_alike h ")") hrest
      apply (hb _ _ hfirst).bind
      intro opening opening' hopening
      generalize splitClosing (isText ")") rest = p, splitClosing (isText ")") rest' = q
        at hinner hlast ⊢
      obtain ⟨inner, closing⟩ := p
      obtain ⟨inner', closing'⟩ := q
      apply (agree_elements h hb (ascii ";") true hinner).bind
      intro es fs hes
      apply (agree_optional hb hlast).bind
      intro c d hcd
      exact .pure (.some (bracketed_alike _ hopening hcd hes))

theorem agree_caseParts (h : x.Beside y) (hb : build.Agree build') {cs ds : List Chunk}
    (hcs : Alikes cs ds) {ns ms : List Node} (hns : List.Forall₂ Node.Kin ns ms) :
    Agree Alikes (caseParts x build cs ns) (caseParts y build' ds ms) := by
  induction hns generalizing cs ds with
  | nil => exact .pure hcs
  | @cons n m ns ms hnm hrest ih =>
      rw [caseParts, caseParts, isText_alike hnm, isText_alike hnm, isText_alike hnm]
      apply CodeLayout.Agree.ite
      · apply (hb n m hnm).bind
        intro c d hcd
        exact ih (glued_alike hcs hcd)
      apply CodeLayout.Agree.ite
      · apply (hb n m hnm).bind
        intro c d hcd
        have hparts := glued_alike hcs hcd
        have hempty : ms.isEmpty = ns.isEmpty := by cases hrest <;> rfl
        rw [hempty]
        apply CodeLayout.Agree.ite (.pure hparts)
        apply (agree_items h (agree_item h hb) hrest).bind
        intro own own' hown
        exact .pure (spaced_alike hparts (.some (.ofItems .none .none hown)))
      apply CodeLayout.Agree.ite
      · apply (hb n m hnm).bind
        intro c d hcd
        apply CodeLayout.Agree.foldlM _ hrest (spaced_alike hcs hcd)
        intro cs ds c d hcs hcd
        exact agree_spaced (agree_item h hb c d hcd) hcs
      apply agree_ifKind hnm
      · decide
      · intro hes
        apply (agree_param h hb hes).bind
        intro c d hcd
        exact ih (spaced_alike hcs hcd)
      · apply (hb n m hnm).bind
        intro c d hcd
        exact ih (spaced_alike hcs hcd)

theorem agree_switchCase (h : x.Beside y) (hb : build.Agree build')
    (hns : List.Forall₂ Node.Kin n.children m.children) :
    Agree OptAlike (switchCase x build n) (switchCase y build' m) := by
  apply agree_first hb _ hns
  intro cs ds ns ms hcs hns
  exact agree_caseParts h hb hcs hns

theorem agree_simpleStmt (hb : build.Agree build')
    (hns : List.Forall₂ Node.Kin n.children m.children) :
    Agree OptAlike (simpleStmt build n) (simpleStmt build' m) := by
  apply agree_foldlM _ hns
  intro cs ds c d hcs hcd
  rw [isText_alike hcd]
  exact CodeLayout.Agree.ite (agree_glued (hb c d hcd) hcs) (agree_spaced (hb c d hcd) hcs)

theorem agree_labeled (h : x.Beside y) (hb : build.Agree build')
    (hns : List.Forall₂ Node.Kin n.children m.children) :
    Agree OptAlike (labeled x build n) (labeled y build' m) := by
  apply agree_foldlM _ hns
  intro cs ds c d hcs hcd
  rw [isText_alike hcd]
  exact CodeLayout.Agree.ite (agree_glued (hb c d hcd) hcs)
    (agree_spaced (agree_item h hb c d hcd) hcs)

end CodeLayout.Build
