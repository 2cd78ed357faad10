import CodeLayout.Proofs.Alike.Chunk.Statement
import CodeLayout.Proofs.Chunk.OfNode
import CodeLayout.Proofs.Kept.Trivia

/-!
# Alike chunks of declarations and of whole trees

The builders of declarations. The constants of an enumeration stand behind the opening brace of its
body and nowhere else. So trees that differ in places only are built into chunks that differ in
places only.
-/

namespace CodeLayout.Build

open Chunk

theorem first?_isKind {k : NodeKind} {n c : Node} (h : n.first? k = some c) : c.isKind k = true :=
  List.find?_some h

variable [SideBySide] {x y : BuildContext} {build build' : NodeBuilder} {n m : Node}
  {ns ms : List Node}

section Clauses

theorem agree_qualifiedParts (hb : build.Agree build') (named : Bool) {cs ds : List Chunk}
    (hcs : Alikes cs ds) (hns : List.Forall₂ Node.Kin ns ms) :
    Agree Alikes (qualifiedParts build named cs ns) (qualifiedParts build' named ds ms) := by
  induction hns generalizing named cs ds with
  | nil => exact .pure hcs
  | cons hnm _ ih =>
      rw [qualifiedParts, qualifiedParts, isText_alike hnm, isText_alike hnm]
      apply (hb _ _ hnm).bind
      intro c d hcd
      apply CodeLayout.Agree.ite (ih named (spaced_alike hcs hcd))
      exact CodeLayout.Agree.ite (ih named (glued_alike hcs hcd)) (ih true (spaced_alike hcs hcd))

theorem agree_qualified (hb : build.Agree build')
    (hns : List.Forall₂ Node.Kin n.children m.children) :
    Agree OptAlike (qualified build n) (qualified build' m) := by
  apply agree_first hb _ hns
  intro cs ds ns ms hcs hns
  exact agree_qualifiedParts hb false hcs hns

theorem first?_alike (k : NodeKind) (hns : List.Forall₂ Node.Kin n.children m.children) :
    Option.Rel Node.Kin (n.first? k) (m.first? k) := by
  rw [Node.first?, Node.first?]
  generalize n.children = ns, m.children = ms at hns ⊢
  induction hns with
  | nil => exact .none
  | cons hnm _ ih =>
      rw [List.find?_cons, List.find?_cons, hnm.isKind]
      split
      · exact .some hnm
      · exact ih

theorem agree_clause (h : x.Beside y) (hb : build.Agree build') (context : WrapContext)
    (hns : List.Forall₂ Node.Kin n.children m.children) :
    Agree OptAlike (clause x build context n) (clause y build' context m) := by
  have htypes := first?_alike .typeList hns
  have hkind := fun c => first?_isKind (n := n) (k := .typeList) (c := c)
  rw [clause, clause]
  generalize n.children = ns, m.children = ms at hns ⊢
  cases hns with
  | nil => exact .pure .none
  | @cons wordNode wordNode' _ _ hword _ =>
      apply (hb _ _ hword).bind
      intro word word' hwords
      generalize n.first? .typeList = o, m.first? .typeList = p at htypes hkind ⊢
      cases htypes with
      | none => exact .pure hwords
      | @some types types' htypes =>
          have hchildren := htypes.children_of_isKind (hkind types rfl) (by decide)
          apply (agree_elements h hb (ascii ",") true hchildren).bind
          intro es fs hes
          cases hes with
          | nil => exact .pure hwords
          | cons he hes =>
              apply (agree_element h hword
                (Chunk.Alike.seq (hwords.toList.append (.cons he.withSpace .nil)))).bind
              intro e e' he
              exact .pure (.some (.group _ _ _ (.cons he hes)))

theorem agree_typeList (h : x.Beside y) (hb : build.Agree build')
    (hns : List.Forall₂ Node.Kin n.children m.children) :
    Agree OptAlike (typeList x build n) (typeList y build' m) := by
  apply (agree_elements h hb (ascii ",") true hns).bind
  intro es fs hes
  exact .pure (.some (.seq hes))

end Clauses

section Types

/-- Heads of type declarations that differ in places only. -/
structure TypeHead.Alike (h h' : TypeHead) : Prop where
  parts : Chunk.Alikes h.parts h'.parts
  word : h'.word = h.word
  behindAt : h'.behindAt = h.behindAt

theorem clauseContext_alike (word : Option Bytes)
    (hns : List.Forall₂ Node.Kin n.children m.children) :
    clauseContext word m = clauseContext word n := by
  rw [clauseContext, clauseContext]
  generalize n.children = ns, m.children = ms at hns ⊢
  cases hns with
  | nil => rfl
  | cons hfirst _ =>
      rw [List.head?_cons, List.head?_cons, Option.map_some, Option.map_some, isText_alike hfirst]

theorem agree_typeHeadPart (h : x.Beside y) (hb : build.Agree build') {head head' : TypeHead}
    (hhead : head.Alike head') (hnm : n.Kin m) :
    Agree TypeHead.Alike (typeHeadPart x build head n) (typeHeadPart y build' head' m) := by
  obtain ⟨hparts, hword, hbehind⟩ := hhead
  have hpart : ∀ {p q : Build (Option Chunk)}, Agree OptAlike p q →
      Agree TypeHead.Alike (do return { head with parts := spaced head.parts (← p) })
        (do return { head' with parts := spaced head'.parts (← q) }) := by
    intro p q hpq
    apply hpq.bind
    intro c d hcd
    exact .pure ⟨spaced_alike hparts hcd, hword, hbehind⟩
  have hpart' : ∀ {p q : Build (Option Chunk)}, Agree OptAlike p q →
      Agree TypeHead.Alike (do return { head with parts := glued head.parts (← p) })
        (do return { head' with parts := glued head'.parts (← q) }) := by
    intro p q hpq
    apply hpq.bind
    intro c d hcd
    exact .pure ⟨glued_alike hparts hcd, hword, hbehind⟩
  rcases hnm.cases_form with ⟨i, t, j, u, rfl, rfl, htext⟩ | ⟨k, a, b, es, a', b', fs, rfl, rfl⟩
  · rw [typeHeadPart, typeHeadPart, isText_alike hnm, hword, hbehind, htext]
    apply (hb _ _ hnm).bind
    intro c d hcd
    apply CodeLayout.Agree.pure
    refine ⟨?_, rfl, rfl⟩
    dsimp only
    split
    · exact glued_alike hparts hcd
    · exact spaced_alike hparts hcd
  · have hchildren : k ≠ .enumBody → List.Forall₂ Node.Kin (Node.branch k a b es).children
        (Node.branch k a' b' fs).children := fun hk =>
      hnm.children_of_isKind (k := k) (by simp [Node.isKind, Node.kind?]) hk
    cases k
    case modifiers => exact hpart (agree_modifiers h hb true (hchildren (by decide)))
    case type => exact hpart' (agree_type h hb (hchildren (by decide)))
    case params => exact hpart' (agree_list h hb _ (hchildren (by decide)))
    case clause =>
      have hclause := hchildren (by decide)
      have hcontext := clauseContext_alike head'.word hclause
      nth_rewrite 2 [hword] at hcontext
      rw [typeHeadPart, typeHeadPart, hcontext]
      exact hpart (agree_clause h hb _ hclause)
    all_goals exact hpart (hb _ _ hnm)

theorem agree_typeDecl (h : x.Beside y) (hb : build.Agree build')
    (hns : List.Forall₂ Node.Kin n.children m.children) :
    Agree OptAlike (typeDecl x build n) (typeDecl y build' m) := by
  have hfold : Agree TypeHead.Alike (n.children.foldlM (typeHeadPart x build) {})
      (m.children.foldlM (typeHeadPart y build') {}) := by
    apply CodeLayout.Agree.foldlM _ hns ⟨.nil, rfl, rfl⟩
    intro head head' c d hhead hcd
    exact agree_typeHeadPart h hb hhead hcd
  apply hfold.bind
  intro head head' hhead
  exact .pure (sequence_alike hhead.parts)

end Types

section Enumerations

/-- What is made of the constants of a body: its first item, and the nodes behind it. -/
def Begun (p q : List Chunk × List Node) : Prop :=
  Alikes p.1 q.1 ∧ List.Forall₂ Node.Kin p.2 q.2

theorem agree_constants (h : x.Beside y) (hb : build.Agree build') (hns : Node.Members ns ms) :
    Agree Begun (constants x build ns) (constants y build' ms) := by
  unfold constants
  -- The semicolon goes behind the constants, and then the item is finished.
  extract_lets finish ending ending'
  have hfinish : ∀ {es fs cs ds : List Chunk} {ns ms : List Node} (blank : Int), Alikes es fs →
      Alikes cs ds → List.Forall₂ Node.Kin ns ms →
      Agree Begun (finish (es, blank, cs, ns)) (finish (fs, blank, ds, ms)) := by
    intro es fs cs ds ns ms blank hes hcs hns
    simp only [finish]
    apply CodeLayout.Agree.pure
    refine ⟨?_, hns⟩
    have hown := ((sequence_alike hcs).map fun _ _ h =>
      h.modify (f := fun t => { t with blank }) fun _ => rfl).toList
    rw [Option.toList_map, Option.toList_map] at hown
    exact hes.append hown
  clear_value finish
  have hending : ∀ {es fs cs ds : List Chunk} {ns ms : List Node} (blank : Int), Alikes es fs →
      Alikes cs ds → List.Forall₂ Node.Kin ns ms →
      Agree Begun (ending (es, blank, cs, ns)) (ending' (fs, blank, ds, ms)) := by
    intro es fs cs ds ns ms blank hes hcs hns
    simp only [ending, ending']
    cases hns with
    | nil => exact hfinish blank hes hcs .nil
    | @cons n m others others' hnm hothers =>
        have hmark : ∀ {es fs : List Chunk} (blank : Int), Alikes es fs → Agree Begun
            (do let c ← build n; finish (es, blank, glued cs c, others))
            (do let d ← build' m; finish (fs, blank, glued ds d, others')) := by
          intro es fs blank hes
          apply (hb n m hnm).bind
          intro c d hcd
          exact hfinish blank hes (glued_alike hcs hcd) hothers
        dsimp only
        rw [isText_alike hnm]
        apply CodeLayout.Agree.ite
        · cases hcs with
          | nil =>
              have hfirst := hnm.meet.firstId?
              generalize n.firstId? = i, m.firstId? = j at hfirst ⊢
              cases hfirst with
              | none => exact hmark blank hes
              | some hij =>
                  exact agree_behindGap h hij fun _ _ blank hgs => hmark blank (hes.append hgs)
          | cons hfirst hrest => exact hmark blank hes
        · exact hfinish blank hes hcs (.cons hnm hothers)
  clear_value ending ending'
  cases hns with
  | plain hns =>
      cases hns with
      | nil => exact hending 0 .nil .nil .nil
      | @cons n m ns ms hnm hrest =>
          dsimp only
          rw [hnm.isKind]
          cases hkind : n.isKind .enumConstants with
          | true =>
              have hinner := (hnm.kind_cases hkind).1
              cases hinner
          | false => exact hending 0 .nil .nil (.cons hnm hrest)
  | @constants a b a' b' es fs ns ms hmeet hes hrest =>
      dsimp only
      have hkind : ∀ a b es, (Node.branch .enumConstants a b es).isKind .enumConstants = true :=
        fun _ _ _ => rfl
      have hfirst := hmeet.firstId?
      rw [hkind, hkind]
      generalize (Node.branch .enumConstants a b es).firstId? = i,
        (Node.branch .enumConstants a' b' fs).firstId? = j at hfirst ⊢
      cases hfirst with
      | none => exact hending 0 .nil .nil hrest
      | some hij =>
          apply agree_behindGap h hij
          intro cs ds blank hcs
          apply (agree_elements h hb (ascii ",") true hes).bind
          intro gs gs' hgs
          exact hending blank hcs (.cons (.ofElements _ hgs) .nil) hrest

theorem splitClosing_members (hns : Node.Members ns ms) :
    Node.Members (splitClosing (isText "\x7d") ns).1 (splitClosing (isText "\x7d") ms).1 ∧
      Option.Rel Node.Kin (splitClosing (isText "\x7d") ns).2
        (splitClosing (isText "\x7d") ms).2 := by
  cases hns with
  | plain hns =>
      obtain ⟨hinner, hlast⟩ := splitClosing_alike (fun _ _ h => isText_alike h "\x7d") hns
      exact ⟨.plain hinner, hlast⟩
  | constants hmeet hes hrest =>
      rcases forall₂_last hrest with ⟨rfl, rfl⟩ | ⟨ns', n, ms', m, rfl, rfl, hothers, hlast⟩
      · exact ⟨.constants hmeet hes .nil, .none⟩
      · rw [← List.cons_append, ← List.cons_append]
        simp only [splitClosing, List.getLast?_concat, List.dropLast_concat, isText_alike hlast]
        split
        · exact ⟨.constants hmeet hes hothers, .some hlast⟩
        · exact ⟨.constants hmeet hes hrest, .none⟩

theorem agree_enumBody (h : x.Beside y) (hb : build.Agree build') (hnm : n.Kin m) :
    Agree OptAlike (enumBody x build n) (enumBody y build' m) := by
  rw [enumBody, enumBody]
  rcases hnm.children_cases with ⟨hn, hm⟩ | ⟨first, rest, first', rest', hn, hm, hfirst, hrest⟩
  · rw [hn, hm]
    exact .pure .none
  obtain ⟨hinner, hlast⟩ := splitClosing_members hrest
  rw [hn, hm]
  apply (hb _ _ hfirst).bind
  intro opening opening' hopening
  generalize splitClosing (isText "\x7d") rest = p, splitClosing (isText "\x7d") rest' = q
    at hinner hlast ⊢
  obtain ⟨inner, closing⟩ := p
  obtain ⟨inner', closing'⟩ := q
  apply (agree_constants h hb hinner).bind
  rintro ⟨own, members⟩ ⟨own', members'⟩ ⟨hown, hmembers⟩
  apply (agree_items h (agree_item h hb) hmembers).bind
  intro cs ds hcs
  exact agree_closing h hb hopening (hown.append hcs) hlast

theorem agree_enumConstant (h : x.Beside y) (hb : build.Agree build')
    (hns : List.Forall₂ Node.Kin n.children m.children) :
    Agree OptAlike (enumConstant x build n) (enumConstant y build' m) := by
  apply agree_foldlM _ hns
  intro cs ds c d hcs hcd
  apply agree_ifKind hcd
  · decide
  · intro hes
    exact agree_spaced (agree_modifiers h hb false hes) hcs
  apply agree_ifKind hcd
  · decide
  · intro hes
    exact agree_glued (agree_list h hb _ hes) hcs
  · exact agree_spaced (hb c d hcd) hcs

end Enumerations

section Members

theorem agree_method (h : x.Beside y) (hb : build.Agree build')
    (hns : List.Forall₂ Node.Kin n.children m.children) :
    Agree OptAlike (method x build n) (method y build' m) := by
  apply agree_foldlM _ hns
  intro cs ds c d hcs hcd
  rw [isText_alike hcd, isText_alike hcd, isText_alike hcd]
  apply agree_ifKind hcd
  · decide
  · intro hes
    exact agree_spaced (agree_modifiers h hb true hes) hcs
  apply agree_ifKind hcd
  · decide
  · intro hes
    exact agree_glued (agree_list h hb _ hes) hcs
  apply agree_ifKind hcd
  · decide
  · intro hes
    exact agree_spaced (agree_clause h hb _ hes) hcs
  · exact CodeLayout.Agree.ite (agree_glued (hb c d hcd) hcs) (agree_spaced (hb c d hcd) hcs)

theorem agree_declarators (h : x.Beside y) (hb : build.Agree build')
    (hns : List.Forall₂ Node.Kin n.children m.children) :
    Agree OptAlike (declarators x build n) (declarators y build' m) := by
  apply (agree_elements h hb (ascii ",") true hns).bind
  intro es fs hes
  match es, fs, hes with
  | [], [], _ => exact .pure .none
  | [e], [f], .cons hef _ => exact .pure (.some hef)
  | e :: e' :: es, f :: f' :: fs, .cons hef (.cons hef' hes) =>
      exact .pure (.some (.ofElements _ (.cons hef (.cons hef' hes))))

theorem agree_declaratorParts (h : x.Beside y) (hb : build.Agree build') {cs ds : List Chunk}
    (hcs : Alikes cs ds) (hns : List.Forall₂ Node.Kin ns ms) :
    Agree OptAlike (declaratorParts x build cs ns) (declaratorParts y build' ds ms) := by
  induction hns generalizing cs ds with
  | nil => exact .pure (sequence_alike hcs)
  | cons hnm hrest ih =>
      rw [declaratorParts, declaratorParts, isText_alike hnm]
      apply (hb _ _ hnm).bind
      intro c d hcd
      apply CodeLayout.Agree.ite
      · have hlhs := sequence_alike (spaced_alike hcs hcd)
        cases hrest with
        | nil => exact .pure hlhs
        | cons hvalue _ => exact agree_assignment h hb hlhs hvalue
      · exact ih (glued_alike hcs hcd)

theorem agree_declarator (h : x.Beside y) (hb : build.Agree build')
    (hns : List.Forall₂ Node.Kin n.children m.children) :
    Agree OptAlike (declarator x build n) (declarator y build' m) :=
  agree_declaratorParts h hb .nil hns

end Members

theorem agree_production (h : x.Beside y) (hb : build.Agree build') :
    NodeBuilder.Agree (production x build) (production y build') := by
  intro n m hnm
  rcases hnm.cases_form with ⟨i, t, j, u, rfl, rfl, htext⟩ | ⟨k, a, b, cs, a', b', ds, rfl, rfl⟩
  · cases hnm.meet with
    | cons hmeets _ => exact (agree_token h hmeets htext).map fun _ _ => .some
  have hkind : (Node.branch k a b cs).isKind k = true := by simp [Node.isKind, Node.kind?]
  obtain ⟨hinner, hraw⟩ := hnm.kind_cases hkind
  have hcs : k ≠ .enumBody → List.Forall₂ Node.Kin (Node.branch k a b cs).children
      (Node.branch k a' b' ds).children := hnm.children_of_isKind hkind
  cases k
  case unit => cases hinner
  case enumConstants => cases hinner
  case raw => exact absurd rfl hraw
  case enumBody => exact agree_enumBody h hb hnm
  case select => exact agree_selectChain h hb hnm
  case packageDecl | importDecl => exact agree_qualified hb (hcs (by decide))
  case typeDecl => exact agree_typeDecl h hb (hcs (by decide))
  case modifiers => exact agree_modifiers h hb false (hcs (by decide))
  case annot => exact agree_annot h hb (hcs (by decide))
  case annotArgs | params | args => exact agree_list h hb _ (hcs (by decide))
  case clause => exact agree_clause h hb _ (hcs (by decide))
  case typeList => exact agree_typeList h hb (hcs (by decide))
  case typeBody | switchBody | block => exact agree_block h hb (hcs (by decide))
  case enumConstant => exact agree_enumConstant h hb (hcs (by decide))
  case pair | initializer | tryStmt | switchStmt => exact agree_spacedNodes hb (hcs (by decide))
  case method => exact agree_method h hb (hcs (by decide))
  case param => exact agree_param h hb (hcs (by decide))
  case varDecl => exact agree_varDecl h hb false (hcs (by decide))
  case declarators => exact agree_declarators h hb (hcs (by decide))
  case declarator => exact agree_declarator h hb (hcs (by decide))
  case type => exact agree_type h hb (hcs (by decide))
  case ifStmt => exact agree_ifStmt h hb (hcs (by decide))
  case whileStmt | synchronizedStmt | catchClause | finallyClause =>
    exact agree_wordStmt h hb (hcs (by decide))
  case doStmt => exact agree_doStmt h hb (hcs (by decide))
  case forStmt => exact agree_forStmt h hb (hcs (by decide))
  case forControl => exact agree_forControl h hb (hcs (by decide))
  case resources => exact agree_resources h hb (hcs (by decide))
  case switchCase => exact agree_switchCase h hb (hcs (by decide))
  case returnStmt | throwStmt | jump | yieldStmt | assertStmt =>
    exact agree_simpleStmt hb (hcs (by decide))
  case labeled => exact agree_labeled h hb (hcs (by decide))
  case binary => exact agree_binary h hb (hcs (by decide))
  case assign => exact agree_assign h hb (hcs (by decide))
  case conditional => exact agree_conditional h hb (hcs (by decide))
  case unary => exact agree_unary hb (hcs (by decide))
  case cast => exact agree_cast hb (hcs (by decide))
  case call => exact agree_call h hb (hcs (by decide))
  case creation => exact agree_creation h hb (hcs (by decide))
  case arrayInit => exact agree_arrayInit h hb (hcs (by decide))
  case lambda => exact agree_lambda h hb (hcs (by decide))
  case exprStmt | emptyStmt | operator | postfixExpr | paren | index | methodRef =>
    exact agree_gluedNodes hb (hcs (by decide))

theorem agree_within (h : x.Beside y) (depth : Nat) :
    NodeBuilder.Agree (within x depth) (within y depth) := by
  induction depth with
  | zero => exact fun _ _ _ => .pure .none
  | succ depth ih => exact agree_production h ih

end CodeLayout.Build

namespace CodeLayout

/-- What is around the tokens of the left text and of the right one looks the same at first. -/
theorem BuildState.ofStream_alike [v : SideBySide]
    (hlook : v.left.surroundings v.style = v.right.surroundings v.style) :
    BuildState.Alike
      { trivia := TriviaIndex.ofStream v.left v.style (Regions.ofStream v.left v.style) }
      { trivia := TriviaIndex.ofStream v.right v.style (Regions.ofStream v.right v.style) } where
  size := Trivia.size_addGaps.trans Array.size_replicate
  size' := Trivia.size_addGaps.trans Array.size_replicate
  look i j hij := by
    obtain ⟨htokens, hend⟩ := Prod.mk.inj hlook
    cases hij with
    | none => exact hend
    | @some i j hij =>
        obtain ⟨k, t, u, hleft, hright⟩ := hij
        have hat := congrArg (fun looks => looks[k]?) htokens
        simpa only [List.getElem?_map, hleft, hright, Option.map_some, Option.some.injEq] using hat

namespace Chunk

/-- The chunks of two trees whose items differ in places only. -/
theorem ofNode_alike [v : SideBySide]
    (hlook : v.left.surroundings v.style = v.right.surroundings v.style) {a b a' b' : Nat}
    {ns ms : List Node} (hns : List.Forall₂ Node.Alike ns ms) (hall : ∀ n ∈ ns, n.Understood)
    {c d : Chunk}
    (h : ofNode v.left (.branch .unit a b ns) v.style (Regions.ofStream v.left v.style) = .ok c)
    (h' : ofNode v.right (.branch .unit a' b' ms) v.style (Regions.ofStream v.right v.style) =
      .ok d) : c.Alike d := by
  have hkin := Node.Kin.of_alike hns hall
  have hdepth : (Node.branch .unit a' b' ms).depth = (Node.branch .unit a b ns).depth := by
    rw [← Node.depth_bare, ← Node.Alike.bare_branch hns, Node.depth_bare]
  have hbeside : (v.left.buildContext v.style).Beside (v.right.buildContext v.style) := ⟨rfl, rfl⟩
  have hunit : Build.Agree Alikes
      (Build.unit (v.left.buildContext v.style) (.branch .unit a b ns))
      (Build.unit (v.right.buildContext v.style) (.branch .unit a' b' ms)) := by
    rw [Build.unit, Build.unit, hdepth]
    apply (Build.agree_items hbeside
      (Build.agree_item hbeside (Build.agree_within hbeside _)) hkin).bind
    intro cs ds hcs
    apply (Build.agree_detach hbeside .none true).bind
    intro es fs hes
    exact .pure (hcs.append hes)
  have hitems := (hunit _ _ (BuildState.ofStream_alike hlook)).1
  rw [ofNode_eq_ok h, ofNode_eq_ok h', Alike, bare_block, bare_block, hitems.map_bare]

end Chunk

end CodeLayout
