import CodeLayout.Proofs.Syntax.Tree
import CodeLayout.Style.Basic
import Mathlib.Data.List.Forall2
import Mathlib.Data.Option.Defs

/-!
# Trees that differ in places only

Two texts are set side by side: a token of the one meets the token of the other that comes behind
as many tokens with structure. The bare form of a tree forgets where its tokens are. Two nodes are
alike if they have the same bare form and their tokens meet. If they are understood, they are plain,
too: lists of constants stand nowhere but in the bodies of enumerations. Elsewhere such a list would
be written with the white space of the input, as raw branches are.
-/

namespace CodeLayout

/-- Two streams of tokens that are compared in one style. -/
class SideBySide where
  style : Style
  left : TokenStream
  right : TokenStream

/-- The tokens at two indices come behind as many tokens with structure. -/
def SideBySide.Meets [v : SideBySide] (i j : Nat) : Prop :=
  ∃ (k : Nat) (t u : Token), v.left.structural[k]? = some (i, t) ∧
    v.right.structural[k]? = some (j, u)

/-- Whether branches of a kind occur inside of others in more than one place. -/
def NodeKind.isInner (k : NodeKind) : Bool :=
  k != .unit && k != .enumConstants

namespace Node

mutual

/-- A tree without the places of its tokens. -/
def bare : Node → Node
  | .leaf _ t => .leaf 0 { t with start := 0 }
  | .branch k _ _ cs => .branch k 0 0 (bareList cs)

/-- Trees without the places of their tokens. -/
def bareList : List Node → List Node
  | [] => []
  | n :: ns => bare n :: bareList ns

end

theorem bareList_eq_map (ns : List Node) : bareList ns = ns.map bare := by
  induction ns with
  | nil => rfl
  | cons n ns ih => rw [bareList, ih, List.map_cons]

theorem isEmpty_bare (n : Node) : n.bare.isEmpty = n.isEmpty := by
  cases n with
  | leaf id t => rfl
  | branch k a b cs => simp only [bare, bareList_eq_map, isEmpty, List.isEmpty_map]

/-- No branch of a tree holds tokens that the grammar could not make sense of. -/
def Understood (n : Node) : Prop :=
  ∀ d ∈ n.preorder, d.isKind .raw = false

instance (n : Node) : Decidable n.Understood :=
  inferInstanceAs (Decidable (∀ d ∈ n.preorder, d.isKind .raw = false))

theorem mem_preorderList {ns : List Node} {n d : Node} (hn : n ∈ ns) (hd : d ∈ n.preorder) :
    d ∈ preorderList ns := by
  induction ns with
  | nil => cases hn
  | cons m ms ih =>
      rw [preorderList, List.mem_append]
      rcases List.mem_cons.mp hn with rfl | hmem
      · exact Or.inl hd
      · exact Or.inr (ih hmem)

theorem Understood.child {k : NodeKind} {a b : Nat} {cs : List Node} {c : Node}
    (h : (branch k a b cs).Understood) (hc : c ∈ cs) : c.Understood := by
  intro d hd
  apply h
  rw [preorder]
  exact List.mem_cons_of_mem _ (mem_preorderList hc hd)

theorem Understood.ne_raw {k : NodeKind} {a b : Nat} {cs : List Node}
    (h : (branch k a b cs).Understood) : k ≠ .raw := by
  rintro rfl
  have hroot := h _ (by rw [preorder]; exact List.mem_cons_self)
  cases hroot

/-- A tree that is written without a look at the white space of the input: no branch in it is raw,
and lists of constants stand behind the braces that open the bodies of enumerations. -/
inductive Plain : Node → Prop
  | leaf (id : Nat) (t : Token) : Plain (.leaf id t)
  | branch {k : NodeKind} {a b : Nat} {cs : List Node} (hk : k.isInner = true) (hraw : k ≠ .raw)
      (h : ∀ c ∈ cs, Plain c) : Plain (.branch k a b cs)
  | enumBody {a b a' b' id : Nat} {t : Token} {es cs : List Node} (hes : ∀ c ∈ es, Plain c)
      (hcs : ∀ c ∈ cs, Plain c) :
      Plain (.branch .enumBody a b (.leaf id t :: .branch .enumConstants a' b' es :: cs))

namespace Alike

/-- The children that a branch keeps. -/
def kept (cs : List (Option Node)) : List Node :=
  cs.filterMap fun c => c.filter fun n => !n.isEmpty

theorem kept_some (n : Node) (cs : List (Option Node)) :
    kept (some n :: cs) = if n.isEmpty then kept cs else n :: kept cs := by
  simp only [kept, List.filterMap_cons, Option.filter_some]
  cases n.isEmpty <;> rfl

end Alike

theorem kind?_bare (n : Node) : n.bare.kind? = n.kind? := by
  cases n <;> rfl

theorem text?_bare (n : Node) : n.bare.text? = n.text? := by
  cases n <;> rfl

mutual

theorem leaves_bare (n : Node) :
    n.bare.leaves = n.leaves.map fun (_, t) => (0, { t with start := 0 }) := by
  cases n with
  | leaf id t => rfl
  | branch k a b cs =>
      simp only [bare, leaves]
      exact leavesList_bareList cs

theorem leavesList_bareList (ns : List Node) :
    leavesList (bareList ns) = (leavesList ns).map fun (_, t) => (0, { t with start := 0 }) := by
  cases ns with
  | nil => rfl
  | cons n ns =>
      rw [bareList, leavesList, leavesList, List.map_append, leaves_bare n, leavesList_bareList ns]

end

theorem head?_of_bare {n m : Node} (h : n.bare = m.bare) :
    n.leaves.head?.map (·.2.text) = m.leaves.head?.map (·.2.text) := by
  have hhead := congrArg (fun n : Node => n.leaves.head?.map (·.2.text)) h
  simpa only [leaves_bare, List.head?_map, Option.map_map, Function.comp_def] using hhead

mutual

theorem depth_bare (n : Node) : n.bare.depth = n.depth := by
  cases n with
  | leaf id t => rfl
  | branch k a b cs =>
      rw [bare, depth, depth, depthList_bareList cs]

theorem depthList_bareList (ns : List Node) : depthList (bareList ns) = depthList ns := by
  cases ns with
  | nil => rfl
  | cons n ns => rw [bareList, depthList, depthList, depth_bare n, depthList_bareList ns]

end

variable [SideBySide]

/-- The tokens of two nodes meet one by one. -/
abbrev Meet (n m : Node) : Prop :=
  List.Forall₂ (fun p q => SideBySide.Meets p.1 q.1) n.leaves m.leaves

/-- The tokens of two lists of nodes meet one by one. -/
abbrev MeetAll (ns ms : List Node) : Prop :=
  List.Forall₂ (fun p q => SideBySide.Meets p.1 q.1) (leavesList ns) (leavesList ms)

theorem MeetAll.of_forall₂ {ns ms : List Node} (h : List.Forall₂ Meet ns ms) : MeetAll ns ms := by
  induction h with
  | nil => exact .nil
  | cons hnm _ ih => exact List.rel_append hnm ih

/-- Neither of two nodes whose tokens meet has a token, or their first tokens meet. -/
theorem Meet.firstId? {n m : Node} (h : n.Meet m) :
    Option.Rel SideBySide.Meets n.firstId? m.firstId? := by
  rw [Meet] at h
  rw [Node.firstId?, Node.firstId?]
  generalize n.leaves = ls, m.leaves = ks at h ⊢
  cases h with
  | nil => exact .none
  | cons hfirst _ => exact .some hfirst

/-- The nodes differ in places only, and are plain if they are understood. -/
structure Alike (n m : Node) : Prop where
  bare : n.bare = m.bare
  meet : n.Meet m
  plain : n.Understood → n.Plain

/-- Nodes, some of which may be missing, that are alike. -/
abbrev Alikes : List (Option Node) → List (Option Node) → Prop :=
  List.Forall₂ (Option.Rel Alike)

theorem Alikes.append {cs ds es fs : List (Option Node)} (h : Alikes cs ds) (h' : Alikes es fs) :
    Alikes (cs ++ es) (ds ++ fs) :=
  List.rel_append h h'

namespace Alike

variable {n m : Node} {cs ds es fs : List (Option Node)}

theorem isEmpty (h : n.Alike m) : n.isEmpty = m.isEmpty := by
  rw [← isEmpty_bare n, h.bare, isEmpty_bare]

theorem leaf {i j : Nat} {t u : Token} (hmeets : SideBySide.Meets i j) (hkind : u.kind = t.kind)
    (htext : u.text = t.text) : (Node.leaf i t).Alike (.leaf j u) where
  bare := by simp only [Node.bare, hkind, htext]
  meet := .cons hmeets .nil
  plain _ := .leaf i t

theorem kept_alike (h : Alikes cs ds) : List.Forall₂ Alike (kept cs) (kept ds) := by
  induction h with
  | nil => exact .nil
  | @cons c d cs ds hcd _ ih =>
      cases hcd with
      | none => exact ih
      | @some n m hnm =>
          rw [kept_some, kept_some, hnm.isEmpty]
          split
          · exact ih
          · exact .cons hnm ih

theorem map_bare {ns ms : List Node} (h : List.Forall₂ Alike ns ms) :
    ns.map Node.bare = ms.map Node.bare := by
  induction h with
  | nil => rfl
  | cons hnm _ ih => rw [List.map_cons, List.map_cons, hnm.bare, ih]

theorem bare_branch {k : NodeKind} {a b a' b' : Nat} {ns ms : List Node}
    (h : List.Forall₂ Alike ns ms) :
    (Node.branch k a b ns).bare = (Node.branch k a' b' ms).bare := by
  simp only [Node.bare, bareList_eq_map, map_bare h]

theorem meetAll {ns ms : List Node} (h : List.Forall₂ Alike ns ms) : MeetAll ns ms :=
  .of_forall₂ (h.imp fun _ _ hnm => hnm.meet)

theorem meet_branch {k : NodeKind} {a b a' b' : Nat} {ns ms : List Node}
    (h : List.Forall₂ Alike ns ms) : (Node.branch k a b ns).Meet (.branch k a' b' ms) :=
  meetAll h

theorem all_plain {ns ms : List Node} (h : List.Forall₂ Alike ns ms)
    (hall : ∀ n ∈ ns, n.Understood) : ∀ n ∈ ns, n.Plain := by
  induction h with
  | nil => exact nofun
  | cons hnm _ ih =>
      rw [List.forall_mem_cons] at hall ⊢
      exact ⟨hnm.plain hall.1, ih hall.2⟩

theorem branch {k : NodeKind} {a b a' b' : Nat} {ns ms : List Node} (hk : k.isInner = true)
    (h : List.Forall₂ Alike ns ms) : (Node.branch k a b ns).Alike (.branch k a' b' ms) where
  bare := bare_branch h
  meet := meet_branch h
  plain hall := .branch hk hall.ne_raw (all_plain h fun _ => hall.child)

theorem make {k : NodeKind} (hk : k.isInner = true) (h : Alikes cs ds) :
    (Node.make k cs).Alike (Node.make k ds) :=
  branch hk (kept_alike h)

/-- The body of an enumeration, with its constants behind its opening brace. -/
theorem make_enumBody {i j : Nat} {t u : Token} (hleaf : (Node.leaf i t).Alike (.leaf j u))
    (hes : Alikes es fs) (hcs : Alikes cs ds) :
    (Node.make .enumBody (some (.leaf i t) :: some (Node.make .enumConstants es) :: cs)).Alike
      (Node.make .enumBody (some (.leaf j u) :: some (Node.make .enumConstants fs) :: ds)) := by
  have hconstants := kept_alike hes
  have hrest := kept_alike hcs
  have hnil : (kept es).isEmpty = (kept fs).isEmpty := by
    rw [Bool.eq_iff_iff, List.isEmpty_iff_length_eq_zero, List.isEmpty_iff_length_eq_zero,
      hconstants.length_eq]
  change (Node.branch .enumBody _ _ (kept (_ :: _ :: cs))).Alike
    (.branch .enumBody _ _ (kept (_ :: _ :: ds)))
  rw [kept_some, kept_some, kept_some, kept_some]
  change (Node.branch .enumBody _ _ (.leaf i t :: if (kept es).isEmpty then _ else _)).Alike
    (.branch .enumBody _ _ (.leaf j u :: if (kept fs).isEmpty then _ else _))
  rw [← hnil]
  split
  · exact branch rfl (.cons hleaf hrest)
  · constructor
    · have hbare : (Node.make .enumConstants es).bare = (Node.make .enumConstants fs).bare :=
        bare_branch hconstants
      rw [Node.bare, Node.bare, bareList, bareList, bareList, bareList, hleaf.bare, hbare,
        bareList_eq_map, bareList_eq_map, map_bare hrest]
    · exact MeetAll.of_forall₂ (.cons hleaf.meet (.cons (meet_branch hconstants)
        (hrest.imp fun _ _ hnm => hnm.meet)))
    · intro hall
      apply Plain.enumBody
      · exact all_plain hconstants fun _ hc =>
          (hall.child (List.mem_cons_of_mem _ List.mem_cons_self)).child hc
      · exact all_plain hrest fun _ hc =>
          hall.child (List.mem_cons_of_mem _ (List.mem_cons_of_mem _ hc))

end Alike

section Kin

/-- Plain nodes that differ in places only. -/
structure Kin (n m : Node) : Prop where
  bare : n.bare = m.bare
  meet : n.Meet m
  plain : n.Plain

/-- The tokens of a first node and of those behind it meet one by one. -/
theorem MeetAll.uncons {n m : Node} {ns ms : List Node} (hbare : n.bare = m.bare)
    (h : MeetAll (n :: ns) (m :: ms)) : n.Meet m ∧ MeetAll ns ms := by
  have hlength : n.leaves.length = m.leaves.length := by
    have hleaves := congrArg (fun n : Node => n.leaves.length) hbare
    simpa only [leaves_bare, List.length_map] using hleaves
  rw [MeetAll, leavesList, leavesList] at h
  have hfirst := List.forall₂_take_append _ _ _ h
  have hrest := List.forall₂_drop_append _ _ _ h
  rw [List.take_left' hlength] at hfirst
  rw [List.drop_left' hlength] at hrest
  exact ⟨hfirst, hrest⟩

/-- What stands behind the opening brace of a body: the first node may hold constants. -/
inductive Members : List Node → List Node → Prop
  | plain {ns ms : List Node} (h : List.Forall₂ Kin ns ms) : Members ns ms
  | constants {a b a' b' : Nat} {es fs ns ms : List Node}
    (hmeet : (Node.branch .enumConstants a b es).Meet (.branch .enumConstants a' b' fs))
    (hes : List.Forall₂ Kin es fs) (h : List.Forall₂ Kin ns ms) :
    Members (.branch .enumConstants a b es :: ns) (.branch .enumConstants a' b' fs :: ms)

namespace Kin

variable {n m : Node}

theorem kind? (h : n.Kin m) : m.kind? = n.kind? := by
  rw [← kind?_bare m, ← h.bare, kind?_bare]

theorem isKind (h : n.Kin m) (k : NodeKind) : m.isKind k = n.isKind k := by
  rw [Node.isKind, Node.isKind, h.kind?]

theorem text? (h : n.Kin m) : m.text? = n.text? := by
  rw [← text?_bare m, ← h.bare, text?_bare]

theorem isToken (h : n.Kin m) (text : Bytes) : m.isToken text = n.isToken text := by
  rw [Node.isToken, Node.isToken, h.text?]

/-- The texts of the first leaves. -/
theorem head? (h : n.Kin m) :
    m.leaves.head?.map (·.2.text) = n.leaves.head?.map (·.2.text) :=
  (head?_of_bare h.bare).symm

theorem of_map_bare {ns ms : List Node} (h : ns.map Node.bare = ms.map Node.bare)
    (hmeet : MeetAll ns ms) (hplain : ∀ n ∈ ns, n.Plain) : List.Forall₂ Kin ns ms := by
  induction ns generalizing ms with
  | nil =>
      rw [List.map_nil, eq_comm, List.map_eq_nil_iff] at h
      rw [h]
      exact .nil
  | cons n ns ih =>
      cases ms with
      | nil => cases h
      | cons m ms =>
          obtain ⟨hnm, hrest⟩ := List.cons.inj h
          obtain ⟨hfirst, hmeet⟩ := hmeet.uncons hnm
          rw [List.forall_mem_cons] at hplain
          exact .cons ⟨hnm, hfirst, hplain.1⟩ (ih hrest hmeet hplain.2)

theorem of_alike {ns ms : List Node} (h : List.Forall₂ Alike ns ms)
    (hall : ∀ n ∈ ns, n.Understood) : List.Forall₂ Kin ns ms :=
  of_map_bare (Alike.map_bare h) (Alike.meetAll h) (Alike.all_plain h hall)

theorem kind_cases (h : n.Kin m) {k : NodeKind} (hk : n.isKind k = true) :
    k.isInner = true ∧ k ≠ .raw := by
  simp only [Node.isKind, decide_eq_true_eq] at hk
  cases h.plain with
  | leaf id t => cases hk
  | branch hinner hraw hall =>
      rw [← Option.some.inj hk]
      exact ⟨hinner, hraw⟩
  | enumBody hes hcs =>
      rw [← Option.some.inj hk]
      exact ⟨rfl, by decide⟩

/-- The children of all nodes but the bodies of enumerations. -/
theorem children (h : n.Kin m) (hk : n.isKind .enumBody = false) :
    List.Forall₂ Kin n.children m.children := by
  obtain ⟨hbare, hmeet, hplain⟩ := h
  cases hplain with
  | leaf id t =>
      cases m with
      | leaf id' t' => exact .nil
      | branch k a b cs => cases hbare
  | @branch k a b cs hinner hraw hall =>
      cases m with
      | leaf id' t' => cases hbare
      | branch k' a' b' ds =>
          simp only [Node.bare, bareList_eq_map, branch.injEq] at hbare
          exact of_map_bare hbare.2.2.2 hmeet hall
  | enumBody hes hcs => cases hk

theorem children_of_isKind (h : n.Kin m) {k : NodeKind} (hk : n.isKind k = true)
    (hne : k ≠ .enumBody) : List.Forall₂ Kin n.children m.children := by
  apply h.children
  simp only [Node.isKind, decide_eq_true_eq] at hk
  simp only [Node.isKind, hk, Option.some.injEq, decide_eq_false_iff_not]
  exact hne

theorem cases_form (h : n.Kin m) :
    (∃ i t j u, n = .leaf i t ∧ m = .leaf j u ∧ u.text = t.text) ∨
      ∃ k a b cs a' b' ds, n = .branch k a b cs ∧ m = .branch k a' b' ds := by
  have hbare := h.bare
  cases n with
  | leaf i t =>
      cases m with
      | leaf j u =>
          simp only [Node.bare, leaf.injEq, Token.mk.injEq, true_and] at hbare
          exact Or.inl ⟨i, t, j, u, rfl, rfl, hbare.2.symm⟩
      | branch k a b cs => cases hbare
  | branch k a b cs =>
      cases m with
      | leaf j u => cases hbare
      | branch k' a' b' ds =>
          simp only [Node.bare, branch.injEq] at hbare
          obtain ⟨rfl, -⟩ := hbare
          exact Or.inr ⟨k, a, b, cs, a', b', ds, rfl, rfl⟩

theorem children_cases (h : n.Kin m) : (n.children = [] ∧ m.children = []) ∨
    ∃ first rest first' rest', n.children = first :: rest ∧ m.children = first' :: rest' ∧
      first.Kin first' ∧ Members rest rest' := by
  rcases h.cases_form with ⟨i, t, j, u, rfl, rfl, -⟩ | ⟨k, a, b, cs, a', b', ds, rfl, rfl⟩
  · exact Or.inl ⟨rfl, rfl⟩
  have hbare := h.bare
  have hmeet : MeetAll cs ds := h.meet
  simp only [Node.bare, bareList_eq_map, branch.injEq, true_and] at hbare
  cases h.plain with
  | branch hk hraw hall =>
      have hchildren := of_map_bare hbare hmeet hall
      cases hchildren with
      | nil => exact Or.inl ⟨rfl, rfl⟩
      | cons hfirst hrest => exact Or.inr ⟨_, _, _, _, rfl, rfl, hfirst, .plain hrest⟩
  | @enumBody _ _ c d id t es cs hes hcs =>
      obtain ⟨first, second, ds, rfl⟩ : ∃ first second rest, ds = first :: second :: rest := by
        rcases ds with _ | ⟨first, _ | ⟨second, rest⟩⟩
        · cases hbare
        · cases (List.cons.inj hbare).2
        · exact ⟨first, second, rest, rfl⟩
      obtain ⟨hfirst, hsecond, hrest⟩ : _ ∧ _ ∧ _ := by
        simpa only [List.map_cons, List.cons.injEq] using hbare
      obtain ⟨hmeetFirst, hbehind⟩ := MeetAll.uncons hfirst hmeet
      obtain ⟨hmeetSecond, hmeetRest⟩ := MeetAll.uncons hsecond hbehind
      have hleaf : (Node.leaf id t).Kin first := ⟨hfirst, hmeetFirst, .leaf id t⟩
      cases second with
      | leaf j u => cases hsecond
      | branch k c' d' fs =>
          simp only [Node.bare, bareList_eq_map, branch.injEq, true_and] at hsecond
          obtain ⟨rfl, hes'⟩ := hsecond
          exact Or.inr ⟨_, _, _, _, rfl, rfl, hleaf,
            .constants hmeetSecond (of_map_bare hes' hmeetSecond hes)
              (of_map_bare hrest hmeetRest hcs)⟩

end Kin

end Kin

end Node

end CodeLayout
