import CodeLayout.Proofs.Alike.Chunk

/-!
# Building alike chunks

Nodes that differ in places only are built into chunks that differ in places only, whatever kinds
they are of. What is shown here for lists, types and blocks is used for all of them.
-/

namespace CodeLayout.Build

open Chunk

/-- The last of two lists that correspond. -/
theorem forall₂_last {R : Node → Node → Prop} {ns ms : List Node} (h : List.Forall₂ R ns ms) :
    (ns = [] ∧ ms = []) ∨ ∃ ns' n ms' m, ns = ns' ++ [n] ∧ ms = ms' ++ [m] ∧
      List.Forall₂ R ns' ms' ∧ R n m := by
  induction h with
  | nil => exact Or.inl ⟨rfl, rfl⟩
  | @cons n m ns ms hnm _ ih =>
      right
      rcases ih with ⟨rfl, rfl⟩ | ⟨ns', n', ms', m', rfl, rfl, hrest, hlast⟩
      · exact ⟨[], n, [], m, rfl, rfl, .nil, hnm⟩
      · exact ⟨n :: ns', n', m :: ms', m', rfl, rfl, .cons hnm hrest, hlast⟩

theorem getLast_lead {cs ds : List Chunk} (h : Alikes cs ds) :
    (cs.getLast?.map fun c => c.traits.lead) = ds.getLast?.map fun c => c.traits.lead := by
  have hlast := congrArg (fun l => l.getLast?.map fun c => c.traits.lead) h.map_bare
  simpa only [List.getLast?_map, Option.map_map, Function.comp_def, traits_bare, Traits.bare]
    using hlast

variable [SideBySide] {x y : BuildContext} {build build' item item' : NodeBuilder} {n m : Node}
  {ns ms : List Node}

section Lists

/-- What is built behind the comments and blank lines before an item. -/
theorem agree_behindGap (h : x.Beside y) {i j : Nat} (hij : SideBySide.Meets i j) {α β : Type}
    {rel : α → β → Prop} {f : List Chunk → Int → Build α} {g : List Chunk → Int → Build β}
    (hfg : ∀ cs ds blank, Alikes cs ds → Agree rel (f cs blank) (g ds blank)) : Agree rel
      (do
        let comments ← detach x (some i) false
        let blank ← blankBefore x i
        f comments blank)
      (do
        let comments ← detach y (some j) false
        let blank ← blankBefore y j
        g comments blank) := by
  apply (agree_detach h (.some hij) false).bind
  intro cs ds hcs
  apply (agree_blankBefore h hij).bind
  rintro blank _ rfl
  exact hfg cs ds blank hcs

theorem agree_items (h : x.Beside y) (hitem : item.Agree item')
    (hns : List.Forall₂ Node.Kin ns ms) :
    Agree Alikes (items x item ns) (items y item' ms) := by
  induction hns with
  | nil => exact .pure .nil
  | @cons n m ns ms hnm _ ih =>
      rw [items, items]
      have hfirst := hnm.meet.firstId?
      generalize n.firstId? = i, m.firstId? = j at hfirst ⊢
      cases hfirst with
      | none => exact ih
      | some hij =>
          apply agree_behindGap h hij
          intro es fs blank hes
          apply (hitem n m hnm).bind
          intro c d hcd
          apply ih.bind
          intro cs ds hrest
          have hown := (hcd.map fun _ _ h =>
            h.modify (f := fun t => { t with blank }) fun _ => rfl).toList
          rw [Option.toList_map, Option.toList_map] at hown
          exact .pure ((hes.append hown).append hrest)

/-- Parts that are added for one node after the other. -/
theorem agree_foldlM {step step' : List Chunk → Node → Build (List Chunk)}
    (hstep : ∀ cs ds n m, Alikes cs ds → n.Kin m → Agree Alikes (step cs n) (step' ds m))
    (hns : List.Forall₂ Node.Kin ns ms) : Agree OptAlike
      (do return sequence (← ns.foldlM step [])) (do return sequence (← ms.foldlM step' [])) := by
  apply (CodeLayout.Agree.foldlM hstep hns .nil).bind
  intro cs ds h
  exact .pure (sequence_alike h)

/-- A part that is added behind a space or right behind the parts before it. -/
theorem agree_spaced {p q : Build (Option Chunk)} (h : Agree OptAlike p q) {cs ds : List Chunk}
    (hcs : Alikes cs ds) :
    Agree Alikes (do return spaced cs (← p)) (do return spaced ds (← q)) := by
  apply h.bind
  intro c d hcd
  exact .pure (spaced_alike hcs hcd)

theorem agree_glued {p q : Build (Option Chunk)} (h : Agree OptAlike p q) {cs ds : List Chunk}
    (hcs : Alikes cs ds) :
    Agree Alikes (do return glued cs (← p)) (do return glued ds (← q)) := by
  apply h.bind
  intro c d hcd
  exact .pure (glued_alike hcs hcd)

theorem agree_gluedNodes (hb : build.Agree build') (hns : List.Forall₂ Node.Kin ns ms) :
    Agree OptAlike (gluedNodes build ns) (gluedNodes build' ms) := by
  apply agree_foldlM _ hns
  intro cs ds n m hcs hnm
  exact agree_glued (hb n m hnm) hcs

theorem agree_spacedNodes (hb : build.Agree build') (hns : List.Forall₂ Node.Kin ns ms) :
    Agree OptAlike (spacedNodes build ns) (spacedNodes build' ms) := by
  apply agree_foldlM _ hns
  intro cs ds n m hcs hnm
  exact agree_spaced (hb n m hnm) hcs

theorem isText_alike (h : n.Kin m) (s : String) : isText s m = isText s n :=
  h.isToken (ascii s)

/-- An element of a list, which has a space before it unless it is the first. -/
theorem agree_elementUnless (h : x.Beside y) (hnm : n.Kin m) (isFirst : Bool) {c d : Chunk}
    (hcd : c.Alike d) :
    Agree Chunk.Alike (element x n (if isFirst then c else c.withSpace))
      (element y m (if isFirst then d else d.withSpace)) := by
  apply agree_element h hnm
  cases isFirst with
  | true => exact hcd
  | false => exact hcd.withSpace

/-- An element in front of others. -/
theorem Agree.cons {p q : Build Chunk} {r r' : Build (List Chunk)} (h : Agree Chunk.Alike p q)
    (hrest : Agree Alikes r r') :
    Agree Alikes (do let c ← p; return c :: (← r)) (do let d ← q; return d :: (← r')) := by
  apply h.bind
  intro c d hcd
  apply hrest.bind
  intro cs ds hcs
  exact .pure (.cons hcd hcs)

theorem agree_elements (h : x.Beside y) (hb : build.Agree build') (sep : Bytes) (isFirst : Bool)
    {ns ms : List Node} (hns : List.Forall₂ Node.Kin ns ms) :
    Agree Alikes (elements x build sep isFirst ns) (elements y build' sep isFirst ms) := by
  match ns, ms, hns with
  | [], [], _ => exact .pure .nil
  | [n], [m], .cons hnm _ =>
      rw [elements, elements]
      apply (hb n m hnm).bind
      intro c d hcd
      cases hcd with
      | none => exact .pure .nil
      | some hcd =>
          apply (agree_elementUnless h hnm isFirst hcd).bind
          intro e e' he
          exact .pure (.cons he .nil)
  | n :: s :: rest, m :: t :: rest', .cons hnm (.cons hst hrest) =>
      rw [elements, elements]
      apply (hb n m hnm).bind
      intro c d hcd
      rw [hst.isToken]
      apply CodeLayout.Agree.ite
      · apply (hb s t hst).bind
        intro mark mark' hmark
        have hpart := sequence_alike (glued_alike (glued_alike .nil hcd) hmark)
        generalize sequence (glued (glued [] c) mark) = o, sequence (glued (glued [] d) mark') = p
          at hpart ⊢
        cases hpart with
        | none => exact agree_elements h hb sep isFirst hrest
        | some he =>
            exact Agree.cons (agree_elementUnless h hnm isFirst he)
              (agree_elements h hb sep false hrest)
      · cases hcd with
        | none => exact agree_elements h hb sep isFirst (.cons hst hrest)
        | some hcd =>
            exact Agree.cons (agree_elementUnless h hnm isFirst hcd)
              (agree_elements h hb sep false (.cons hst hrest))
termination_by ns.length

theorem agree_optional (hb : build.Agree build') {o p : Option Node} (h : Option.Rel Node.Kin o p) :
    Agree OptAlike (optional build o) (optional build' p) := by
  cases h with
  | none => exact .pure .none
  | some h => exact hb _ _ h

theorem splitClosing_alike {isClosing : Node → Bool}
    (hclosing : ∀ n m, n.Kin m → isClosing m = isClosing n) (h : List.Forall₂ Node.Kin ns ms) :
    List.Forall₂ Node.Kin (splitClosing isClosing ns).1 (splitClosing isClosing ms).1 ∧
      Option.Rel Node.Kin (splitClosing isClosing ns).2 (splitClosing isClosing ms).2 := by
  rcases forall₂_last h with ⟨rfl, rfl⟩ | ⟨ns', n, ms', m, rfl, rfl, hrest, hlast⟩
  · exact ⟨.nil, .none⟩
  · simp only [splitClosing, List.getLast?_concat, List.dropLast_concat, hclosing n m hlast]
    split
    · exact ⟨hrest, .some hlast⟩
    · exact ⟨h, .none⟩

theorem agree_list (h : x.Beside y) (hb : build.Agree build') (context : WrapContext)
    (hns : List.Forall₂ Node.Kin ns ms) :
    Agree OptAlike (list x build context ns) (list y build' context ms) := by
  have hclosing : ∀ n m : Node, n.Kin m → closesList m = closesList n := by
    intro n m hnm
    simp only [closesList, isText_alike hnm]
  have hinside : ∀ {o p : Option Chunk} {ns ms : List Node}, OptAlike o p →
      List.Forall₂ Node.Kin ns ms → Agree OptAlike
        (do
          let es ← elements x build (ascii ",") true (splitClosing closesList ns).1
          return some (bracketed context o
            (← optional build (splitClosing closesList ns).2) es))
        (do
          let es ← elements y build' (ascii ",") true (splitClosing closesList ms).1
          return some (bracketed context p
            (← optional build' (splitClosing closesList ms).2) es)) := by
    intro o p ns ms hop hns
    obtain ⟨hinner, hlast⟩ := splitClosing_alike hclosing hns
    apply (agree_elements h hb (ascii ",") true hinner).bind
    intro es fs hes
    apply (agree_optional hb hlast).bind
    intro c d hcd
    exact .pure (.some (bracketed_alike context hop hcd hes))
  cases hns with
  | nil => exact hinside .none .nil
  | @cons n m ns ms hnm hrest =>
      have hopens : opensList m = opensList n := by
        simp only [opensList, isText_alike hnm]
      simp only [list, hopens]
      apply CodeLayout.Agree.ite
      · apply (hb n m hnm).bind
        intro c d hcd
        exact hinside hcd hrest
      · exact hinside .none (.cons hnm hrest)

/-- A first part with what is built behind it. -/
theorem agree_first (hb : build.Agree build') {f : List Chunk → List Node → Build (List Chunk)}
    {g : List Chunk → List Node → Build (List Chunk)}
    (hf : ∀ cs ds ns ms, Alikes cs ds → List.Forall₂ Node.Kin ns ms →
      Agree Alikes (f cs ns) (g ds ms))
    (hns : List.Forall₂ Node.Kin n.children m.children) : Agree OptAlike
      (match n.children with
        | [] => return none
        | first :: rest => do return sequence (← f (spaced [] (← build first)) rest))
      (match m.children with
        | [] => return none
        | first :: rest => do return sequence (← g (spaced [] (← build' first)) rest)) := by
  generalize n.children = ns, m.children = ms at hns ⊢
  cases hns with
  | nil => exact .pure .none
  | cons hfirst hrest =>
      apply (hb _ _ hfirst).bind
      intro c d hcd
      apply (hf _ _ _ _ (spaced_alike .nil hcd) hrest).bind
      intro parts parts' hparts
      exact .pure (sequence_alike hparts)

/-- Nodes with their positions. -/
def Indexed (p q : Node × Nat) : Prop :=
  p.1.Kin q.1 ∧ p.2 = q.2

theorem zipIdx_alike {ns ms : List Node} (h : List.Forall₂ Node.Kin ns ms) (i : Nat) :
    List.Forall₂ Indexed (ns.zipIdx i) (ms.zipIdx i) := by
  induction h generalizing i with
  | nil => exact .nil
  | cons hnm _ ih =>
      rw [List.zipIdx_cons, List.zipIdx_cons]
      exact .cons ⟨hnm, rfl⟩ (ih (i + 1))

/-- Parts that are added for one node after the other, by their positions. -/
theorem agree_zipIdx {step step' : List Chunk → Node × Nat → Build (List Chunk)}
    (hstep : ∀ cs ds c d i, Alikes cs ds → c.Kin d →
      Agree Alikes (step cs (c, i)) (step' ds (d, i)))
    {ns ms : List Node} (hns : List.Forall₂ Node.Kin ns ms) : Agree OptAlike
      (do return sequence (← ns.zipIdx.foldlM step []))
      (do return sequence (← ms.zipIdx.foldlM step' [])) := by
  have hfold : Agree Alikes (ns.zipIdx.foldlM step []) (ms.zipIdx.foldlM step' []) := by
    apply CodeLayout.Agree.foldlM _ (zipIdx_alike hns 0) .nil
    rintro cs ds ⟨c, i⟩ ⟨d, _⟩ hcs ⟨hcd, rfl⟩
    exact hstep cs ds c d i hcs hcd
  apply hfold.bind
  intro cs ds h
  exact .pure (sequence_alike h)

/-- A choice by the kind of a node, which tells something about its children. -/
theorem agree_ifKind {α β : Type} {rel : α → β → Prop} {p p' : Build α} {q q' : Build β}
    (hnm : n.Kin m) {k : NodeKind} (hk : k ≠ .enumBody)
    (h : List.Forall₂ Node.Kin n.children m.children → Agree rel p q) (h' : Agree rel p' q') :
    Agree rel (if n.isKind k then p else p') (if m.isKind k then q else q') := by
  rw [hnm.isKind]
  split
  · rename_i hkind
    exact h (hnm.children_of_isKind hkind hk)
  · exact h'

end Lists

section Types

theorem agree_annot (h : x.Beside y) (hb : build.Agree build')
    (hns : List.Forall₂ Node.Kin n.children m.children) :
    Agree OptAlike (annot x build n) (annot y build' m) := by
  apply agree_foldlM _ hns
  intro cs ds c d hcs hcd
  apply agree_ifKind hcd
  · decide
  · intro hes
    exact agree_glued (agree_list h hb _ hes) hcs
  · exact agree_glued (hb c d hcd) hcs

theorem agree_typePart (h : x.Beside y) (hb : build.Agree build') (hnm : n.Kin m)
    {cs ds : List Chunk} (hcs : Alikes cs ds) (before : Bytes) :
    Agree (fun a b => Alikes a.1 b.1 ∧ a.2 = b.2) (typePart x build (cs, before) n)
      (typePart y build' (ds, before) m) := by
  have hparts : ∀ (isSpaced : Bool) {c d : Option Chunk}, OptAlike c d →
      Alikes (if isSpaced then spaced cs c else glued cs c)
        (if isSpaced then spaced ds d else glued ds d) := by
    intro isSpaced c d hcd
    cases isSpaced with
    | true => exact spaced_alike hcs hcd
    | false => exact glued_alike hcs hcd
  rcases hnm.cases_form with ⟨i, t, j, u, rfl, rfl, htext⟩ | ⟨k, a, b, es, a', b', fs, rfl, rfl⟩
  · apply (hb _ _ hnm).bind
    intro c d hcd
    rw [htext]
    exact .pure ⟨hparts _ hcd, rfl⟩
  · simp only [typePart]
    apply agree_ifKind hnm
    · decide
    · intro hes
      apply (agree_annot h hb hes).bind
      intro c d hcd
      exact .pure ⟨hparts _ hcd, rfl⟩
    · apply (hb _ _ hnm).bind
      intro c d hcd
      exact .pure ⟨spaced_alike hcs hcd, rfl⟩

theorem agree_type (h : x.Beside y) (hb : build.Agree build')
    (hns : List.Forall₂ Node.Kin n.children m.children) :
    Agree OptAlike (type x build n) (type y build' m) := by
  have hfold : Agree (fun a b => Alikes a.1 b.1 ∧ a.2 = b.2)
      (n.children.foldlM (typePart x build) ([], []))
      (m.children.foldlM (typePart y build') ([], [])) := by
    apply CodeLayout.Agree.foldlM _ hns ⟨.nil, rfl⟩
    rintro ⟨cs, before⟩ ⟨ds, _⟩ c d ⟨hcs, rfl⟩ hcd
    exact agree_typePart h hb hcd hcs before
  apply hfold.bind
  rintro ⟨cs, before⟩ ⟨ds, _⟩ ⟨hcs, rfl⟩
  exact .pure (sequence_alike hcs)

theorem breaksBehind_alike (h : x.Beside y) (decl : Bool) (hnm : n.Kin m) :
    breaksBehind y decl m = breaksBehind x decl n := by
  rw [breaksBehind, breaksBehind, hnm.isKind, h.style]

theorem agree_modifiers (h : x.Beside y) (hb : build.Agree build') (decl : Bool)
    (hns : List.Forall₂ Node.Kin n.children m.children) :
    Agree OptAlike (modifiers x build decl n) (modifiers y build' decl m) := by
  have hfold : Agree Alikes
      (n.children.foldlM (fun parts m => do
        let c ← build m
        let c :=
          if breaksBehind x decl m then
            c.map fun c => c.modify fun t => { t with lead := true, breakAfter := .mandatory }
          else c
        return spaced parts c) [])
      (m.children.foldlM (fun parts m => do
        let c ← build' m
        let c :=
          if breaksBehind y decl m then
            c.map fun c => c.modify fun t => { t with lead := true, breakAfter := .mandatory }
          else c
        return spaced parts c) []) := by
    apply CodeLayout.Agree.foldlM _ hns .nil
    intro cs ds c d hcs hcd
    apply (hb c d hcd).bind
    intro e e' he
    rw [breaksBehind_alike h decl hcd]
    apply CodeLayout.Agree.pure
    split
    · exact spaced_alike hcs (he.map fun _ _ h => h.modify fun _ => rfl)
    · exact spaced_alike hcs he
  apply hfold.bind
  intro cs ds hcs
  rw [getLast_lead hcs]
  apply CodeLayout.Agree.pure
  apply (sequence_alike hcs).map
  intro c d hcd
  split
  · exact hcd.modify fun _ => rfl
  · exact hcd

end Types

section Items

/-- The end of a block, with the comments before the brace that closes it. -/
theorem agree_closing (h : x.Beside y) (hb : build.Agree build') {o p : Option Node}
    {opening opening' : Option Chunk} (hopening : OptAlike opening opening') {cs ds : List Chunk}
    (hcs : Alikes cs ds) : Option.Rel Node.Kin o p → Agree OptAlike
      (match o with
        | none => return some (Chunk.ofItems opening none cs)
        | some c => do
          let comments ← detach x c.firstId? true
          return some (Chunk.ofItems opening (← build c) (cs ++ comments)))
      (match p with
        | none => return some (Chunk.ofItems opening' none ds)
        | some c => do
          let comments ← detach y c.firstId? true
          return some (Chunk.ofItems opening' (← build' c) (ds ++ comments))) := by
  intro hclosing
  cases hclosing with
  | none => exact .pure (.some (.ofItems hopening .none hcs))
  | some hnm =>
      apply (agree_detach h hnm.meet.firstId? true).bind
      intro es fs hes
      apply (hb _ _ hnm).bind
      intro c d hcd
      exact .pure (.some (.ofItems hopening hcd (hcs.append hes)))

theorem agree_braces (h : x.Beside y) (hb : build.Agree build') (hitem : item.Agree item')
    (hns : List.Forall₂ Node.Kin n.children m.children) :
    Agree OptAlike (braces x build item n) (braces y build' item' m) := by
  rw [braces, braces]
  generalize n.children = ns, m.children = ms at hns ⊢
  cases hns with
  | nil => exact .pure .none
  | @cons first first' rest rest' hfirst hrest =>
      obtain ⟨hinner, hlast⟩ := splitClosing_alike (fun _ _ h => isText_alike h "\x7d") hrest
      apply (hb _ _ hfirst).bind
      intro opening opening' hopening
      generalize splitClosing (isText "\x7d") rest = p, splitClosing (isText "\x7d") rest' = q
        at hinner hlast ⊢
      obtain ⟨inner, closing⟩ := p
      obtain ⟨inner', closing'⟩ := q
      apply (agree_items h hitem hinner).bind
      intro own own' hown
      exact agree_closing h hb hopening hown hlast

theorem agree_assignment (h : x.Beside y) (hb : build.Agree build') {lhs lhs' : Option Chunk}
    (hlhs : OptAlike lhs lhs') (hnm : n.Kin m) :
    Agree OptAlike (assignment x build lhs n) (assignment y build' lhs' m) := by
  apply (hb n m hnm).bind
  intro r r' hr
  cases hr with
  | none => exact .pure hlhs
  | some hr =>
      apply (agree_element h hnm hr.withSpace).bind
      intro e e' he
      exact .pure (.some (.ofElements _ (hlhs.toList.append (.cons he .nil))))

theorem agree_param (h : x.Beside y) (hb : build.Agree build')
    (hns : List.Forall₂ Node.Kin n.children m.children) :
    Agree OptAlike (param x build n) (param y build' m) := by
  apply agree_foldlM _ hns
  intro cs ds c d hcs hcd
  rw [isText_alike hcd, isText_alike hcd, isText_alike hcd]
  apply agree_ifKind hcd
  · decide
  · intro hes
    exact agree_spaced (agree_modifiers h hb false hes) hcs
  · exact CodeLayout.Agree.ite (agree_glued (hb c d hcd) hcs) (agree_spaced (hb c d hcd) hcs)

theorem agree_varDecl (h : x.Beside y) (hb : build.Agree build') (decl : Bool)
    (hns : List.Forall₂ Node.Kin n.children m.children) :
    Agree OptAlike (varDecl x build decl n) (varDecl y build' decl m) := by
  apply agree_foldlM _ hns
  intro cs ds c d hcs hcd
  rw [isText_alike hcd]
  apply agree_ifKind hcd
  · decide
  · intro hes
    exact agree_spaced (agree_modifiers h hb decl hes) hcs
  · exact CodeLayout.Agree.ite (agree_glued (hb c d hcd) hcs) (agree_spaced (hb c d hcd) hcs)

theorem agree_item (h : x.Beside y) (hb : build.Agree build') :
    NodeBuilder.Agree (Build.item x build) (Build.item y build') := by
  intro n m hnm
  rw [Build.item, Build.item]
  apply agree_ifKind hnm
  · decide
  · intro hes
    exact agree_varDecl h hb true hes
  · exact hb n m hnm

theorem agree_block (h : x.Beside y) (hb : build.Agree build')
    (hns : List.Forall₂ Node.Kin n.children m.children) :
    Agree OptAlike (block x build n) (block y build' m) :=
  agree_braces h hb (agree_item h hb) hns

end Items

end CodeLayout.Build
