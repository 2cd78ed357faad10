import CodeLayout.Proofs.Account.Basic
import CodeLayout.Proofs.Chunk.Lists

/-!
# Lists and types settle their nodes

Each builder settles the leaves of its nodes and makes a neat chunk if the builder of the nodes
below does.
-/

namespace CodeLayout

/-- Whether no token is empty and no identifier is an equals sign. -/
def BuildContext.IsLexed (x : BuildContext) : Prop :=
  ∀ (id : Nat) (t : Token), x.tokens[id]? = some t →
    t.text ≠ [] ∧ (t.kind = .ident → t.text ≠ ascii "=")

namespace Node

/-- The indices of the leaves of a node. -/
def ids (n : Node) : List Nat :=
  n.leaves.map (·.1)

/-- A formed node with leaves of the stream, none of them twice, of at most some number of
levels. -/
structure Fine (x : BuildContext) (depth : Nat) (n : Node) : Prop where
  formed : n.Formed
  full : n.isEmpty = false
  within : n.Within x.tokens
  nodup : n.ids.Nodup
  le : n.depth ≤ depth

/-- A branch with children, all of which are fine. -/
structure Parts (x : BuildContext) (depth : Nat) (n : Node) : Prop where
  ne_nil : n.children ≠ []
  fine : ∀ c ∈ n.children, c.Fine x depth
  ids : n.ids = n.children.flatMap Node.ids

variable {x : BuildContext} {depth : Nat} {n : Node} {kind : NodeKind} {children : List Node}

theorem map_leavesList (ns : List Node) : (leavesList ns).map (·.1) = ns.flatMap ids := by
  induction ns with
  | nil => rfl
  | cons n ns ih => simp [leavesList, ih, ids]

theorem ids_branch (start stop : Nat) :
    (branch kind start stop children).ids = children.flatMap ids :=
  map_leavesList children

theorem nodup_child {start stop : Nat} {c : Node} (h : (branch kind start stop children).ids.Nodup)
    (hc : c ∈ children) : c.ids.Nodup := by
  rw [ids_branch] at h
  exact (List.nodup_flatMap.mp h).1 c hc

theorem depth_le_depthList {c : Node} {cs : List Node} (hc : c ∈ cs) : c.depth ≤ depthList cs := by
  induction cs with
  | nil => cases hc
  | cons d ds ih =>
      rw [depthList]
      rcases List.mem_cons.mp hc with rfl | hc
      · exact Nat.le_max_left _ _
      · exact Nat.le_trans (ih hc) (Nat.le_max_right _ _)

theorem Fine.mono (h : n.Fine x depth) : n.Fine x (depth + 1) :=
  ⟨h.formed, h.full, h.within, h.nodup, Nat.le_succ_of_le h.le⟩

theorem Fine.parts (h : n.Fine x (depth + 1)) (hk : n.isKind kind = true) : n.Parts x depth := by
  obtain ⟨hformed, hfull, hwithin, hnodup, hle⟩ := h
  cases hformed with
  | leaf id t => simp [isKind, kind?] at hk
  | @branch kind start stop children htakes hchildren hbelow =>
      refine ⟨fun (hnil : children = []) => by simp [isEmpty, hnil] at hfull,
        fun c (hc : c ∈ children) => ?_, ids_branch _ _⟩
      refine ⟨hbelow c hc, hchildren c hc, hwithin.children c hc, nodup_child hnodup hc, ?_⟩
      have hdepth := depth_le_depthList hc
      rw [Node.depth] at hle
      omega

theorem Fine.below (h : n.Fine x depth) (hk : n.isKind kind = true) : n.Parts x depth :=
  h.mono.parts hk

/-- The children of a formed branch, also if it has none. -/
theorem Formed.children_fine (h : n.Formed) (hwithin : n.Within x.tokens) (hnodup : n.ids.Nodup)
    (hk : n.isKind kind = true) :
    (∀ c ∈ n.children, c.Fine x n.depth) ∧ n.ids = n.children.flatMap Node.ids := by
  cases h with
  | leaf id t => simp [isKind, kind?] at hk
  | @branch kind start stop children htakes hchildren hbelow =>
      refine ⟨fun c (hc : c ∈ children) => ?_, ids_branch _ _⟩
      refine ⟨hbelow c hc, hchildren c hc, hwithin.children c hc, nodup_child hnodup hc, ?_⟩
      have hdepth := depth_le_depthList hc
      rw [Node.depth]
      omega

/-- The children of a formed branch are those that its kind takes. -/
theorem Formed.takes (h : n.Formed) (hk : n.isKind kind = true) : kind.Takes n.children := by
  cases h with
  | leaf id t => simp [isKind, kind?] at hk
  | branch htakes _ _ =>
      simp only [isKind, kind?, decide_eq_true_eq, Option.some.injEq] at hk
      exact hk ▸ htakes

theorem Formed.leaves_ne_nil (h : n.Formed) (hfull : n.isEmpty = false) : n.leaves ≠ [] := by
  induction h with
  | leaf id t => simp [leaves]
  | @branch kind start stop children _ hchildren _ ih =>
      cases children with
      | nil => simp [isEmpty] at hfull
      | cons c cs =>
          have hc := ih c List.mem_cons_self (hchildren c List.mem_cons_self)
          simp [leaves, leavesList, hc]

/-- The first leaf of a node that has leaves. -/
theorem Fine.firstId (h : n.Fine x depth) :
    ∃ id rest, n.firstId? = some id ∧ n.ids = id :: rest := by
  obtain ⟨l, ls, hleaves⟩ := List.exists_cons_of_ne_nil (h.formed.leaves_ne_nil h.full)
  exact ⟨l.1, ls.map (·.1), by simp [firstId?, hleaves], by simp [ids, hleaves]⟩

end Node

namespace Build

open Chunk Node

/-- A builder settles the nodes of at most some number of levels, and makes a chunk of each. -/
def Completes (x : BuildContext) (build : NodeBuilder) (depth : Nat) : Prop :=
  ∀ n : Node, n.Fine x depth → Settles (build n) n.ids IsBuilt

variable {x : BuildContext} {build : NodeBuilder} {depth : Nat} {n : Node} {ns : List Node}
  {ids : List Nat} {parts : List Chunk}

section Parts

variable {α : Type} {f : List Chunk → α → Build (List Chunk)} {idsOf : α → List Nat} {as : List α}

theorem settles_glued {m : Build (Option Chunk)} (hparts : IsRow parts)
    (hm : Settles m ids IsBuilt) : Settles (do return glued parts (← m)) ids IsFilled := by
  refine hm.last ?_
  rintro _ ⟨c, rfl, hc⟩
  exact isFilled_glued hparts hc

theorem settles_spaced {m : Build (Option Chunk)} (hparts : IsRow parts)
    (hm : Settles m ids IsBuilt) : Settles (do return spaced parts (← m)) ids IsFilled := by
  refine hm.last ?_
  rintro _ ⟨c, rfl, hc⟩
  exact isFilled_spaced hparts hc

/-- A condition on the accumulator that holds behind the first step of at least one. -/
theorem settles_fold {β : Type} {g : β → α → Build β} {P Q : β → Prop} {b : β}
    (has : as ≠ []) (hweak : ∀ b, Q b → P b) (hb : P b)
    (hg : ∀ a ∈ as, ∀ b, P b → Settles (g b a) (idsOf a) Q) :
    Settles (as.foldlM g b) (as.flatMap idsOf) Q := by
  cases as with
  | nil => exact absurd rfl has
  | cons a as =>
      rw [List.foldlM_cons, List.flatMap_cons]
      refine (hg a List.mem_cons_self b hb).bind fun c hc => Settles.foldlM hc fun a' ha' d hd => ?_
      exact hg a' (List.mem_cons_of_mem a ha') d (hweak d hd)

/-- The sequence of parts, at least one, that are put one behind the other. -/
theorem settles_sequence (has : as ≠ [])
    (hf : ∀ a ∈ as, ∀ parts, IsRow parts → Settles (f parts a) (idsOf a) IsFilled) :
    Settles (do return sequence (← as.foldlM f [])) (as.flatMap idsOf) IsBuilt :=
  (settles_fold has (fun _ h => h.toIsRow) isRow_nil hf).last fun _ h => isBuilt_sequence h

/-- Parts that are put one behind the other by steps that know the places of their nodes. Only at
the first place there are no parts before it. -/
theorem settles_zipIdx {f : List Chunk → Node × Nat → Build (List Chunk)} (k : Nat)
    (hf : ∀ n ∈ ns, ∀ i parts, IsRow parts → (i ≠ 0 → parts ≠ []) →
      Settles (f parts (n, i)) n.ids IsFilled)
    (hparts : IsRow parts) (hbehind : k ≠ 0 → parts ≠ []) (hfull : parts ≠ [] ∨ ns ≠ []) :
    Settles ((ns.zipIdx k).foldlM f parts) (ns.flatMap Node.ids) IsFilled := by
  induction ns generalizing parts k with
  | nil => exact Settles.pure ⟨hparts, by simpa using hfull⟩
  | cons n ns ih =>
      rw [List.zipIdx_cons, List.foldlM_cons, List.flatMap_cons]
      refine (hf n List.mem_cons_self k parts hparts hbehind).bind fun parts' hparts' => ?_
      exact ih (k + 1) (fun m hm => hf m (List.mem_cons_of_mem n hm)) hparts'.toIsRow
        (fun _ => hparts'.ne_nil) (Or.inl hparts'.ne_nil)

/-- The sequence of parts where each step knows the place of its node. -/
theorem settles_sequence_zipIdx {f : List Chunk → Node × Nat → Build (List Chunk)} (hns : ns ≠ [])
    (hf : ∀ n ∈ ns, ∀ i parts, IsRow parts → (i ≠ 0 → parts ≠ []) →
      Settles (f parts (n, i)) n.ids IsFilled) :
    Settles (do return sequence (← ns.zipIdx.foldlM f [])) (ns.flatMap Node.ids) IsBuilt :=
  (settles_zipIdx 0 hf isRow_nil (fun h => absurd rfl h) (Or.inr hns)).last
    fun _ h => isBuilt_sequence h

end Parts

section Lists

variable (hb : Completes x build depth)
include hb

theorem settles_gluedNodes (hn : n.Parts x depth) :
    Settles (gluedNodes build n.children) n.ids IsBuilt := by
  rw [hn.ids]
  exact settles_sequence hn.ne_nil fun c hc parts hparts =>
    settles_glued hparts (hb c (hn.fine c hc))

theorem settles_spacedNodes (hn : n.Parts x depth) :
    Settles (spacedNodes build n.children) n.ids IsBuilt := by
  rw [hn.ids]
  exact settles_sequence hn.ne_nil fun c hc parts hparts =>
    settles_spaced hparts (hb c (hn.fine c hc))

omit hb in
theorem neat_spacedUnless {c : Chunk} (isFirst : Bool) (hc : c.IsHead) :
    (if isFirst then c else c.withSpace).Neat ∧
      (isFirst = true → (if isFirst then c else c.withSpace).IsFirst) := by
  cases isFirst with
  | true => exact ⟨hc.neat, fun _ => hc.toIsFirst⟩
  | false => exact ⟨neat_withSpace.mpr hc.neat, nofun⟩

/-- Neat elements. The first of them can come first if nothing is before them. -/
structure AreElements (isFirst : Bool) (ns : List Node) (es : List Chunk) : Prop where
  neat : ∀ e ∈ es, e.Neat
  ne_nil : ns ≠ [] → es ≠ []
  first : isFirst = true → ∀ e ∈ es.head?, e.IsFirst

omit hb in
theorem AreElements.isRow {es : List Chunk} (h : AreElements true ns es) : IsRow es :=
  ⟨h.neat, h.first rfl⟩

omit hb in
theorem AreElements.isFilled {es : List Chunk} (h : AreElements true ns es) (hns : ns ≠ []) :
    IsFilled es :=
  ⟨h.isRow, h.ne_nil hns⟩

omit hb in
/-- An element in front of others. -/
theorem settles_element_cons {c : Chunk} {m : Build (List Chunk)} {isFirst : Bool}
    (hc : c.IsHead) (hm : Settles m ids fun es => ∀ e ∈ es, e.Neat) :
    Settles (do
      let e ← element x n (if isFirst then c else c.withSpace)
      return e :: (← m)) ids (AreElements isFirst ns) := by
  obtain ⟨hneat, hspace⟩ := neat_spacedUnless isFirst hc
  refine Settles.element hneat fun e he hsame => hm.last fun es hes => ?_
  exact ⟨List.forall_mem_cons.mpr ⟨he, hes⟩, by simp, fun h => by simpa using hsame (hspace h)⟩

theorem settles_elements (sep : Bytes) (isFirst : Bool) {ns : List Node}
    (hns : ∀ n ∈ ns, n.Fine x depth) :
    Settles (elements x build sep isFirst ns) (ns.flatMap Node.ids) (AreElements isFirst ns) := by
  match ns with
  | [] => exact Settles.pure ⟨by simp, by simp, by simp⟩
  | [n] =>
      rw [elements, List.flatMap_cons]
      refine (hb n (hns n (by simp))).bind ?_
      rintro _ ⟨c, rfl, hc⟩
      exact settles_element_cons hc (m := Pure.pure []) (Settles.pure (by simp))
  | n :: s :: rest =>
      have htail : ∀ m ∈ s :: rest, m.Fine x depth := fun m hm => hns m (by simp_all)
      have hrest : ∀ m ∈ rest, m.Fine x depth := fun m hm => hns m (by simp [hm])
      rw [elements, List.flatMap_cons]
      refine (hb n (hns n (by simp))).bind ?_
      rintro _ ⟨c, rfl, hc⟩
      refine Settles.ite (fun _ => ?_) fun _ => ?_
      · rw [List.flatMap_cons]
        refine (hb s (hns s (by simp))).bind ?_
        rintro _ ⟨mark, rfl, hmark⟩
        have hparts : IsFilled (glued (glued [] (some c)) (some mark)) :=
          isFilled_glued (isFilled_glued isRow_nil hc).toIsRow hmark
        obtain ⟨d, hd, hhead⟩ := isBuilt_sequence hparts
        rw [hd]
        exact settles_element_cons hhead
          ((settles_elements sep false hrest).mono fun _ h => h.neat)
      · exact settles_element_cons hc ((settles_elements sep false htail).mono fun _ h => h.neat)
termination_by ns.length

theorem settles_optional {o : Option Node} (ho : ∀ n ∈ o.toList, n.Fine x depth) :
    Settles (optional build o) (o.toList.flatMap Node.ids) fun c =>
      (∀ d ∈ c.toList, d.IsHead) ∧ c.isSome = o.isSome := by
  cases o with
  | none => exact Settles.pure (by simp)
  | some n =>
      rw [Option.toList_some, List.flatMap_singleton, optional]
      refine (hb n (ho n (by simp))).mono ?_
      rintro _ ⟨c, rfl, hc⟩
      simpa using hc

omit hb in
/-- What is inside of brackets, with the closing one behind it, is what was given. -/
theorem splitClosing_append (isClosing : Node → Bool) (ns : List Node) :
    (splitClosing isClosing ns).1 ++ (splitClosing isClosing ns).2.toList = ns := by
  rw [splitClosing]
  cases hlast : ns.getLast? with
  | none => simp
  | some last =>
      dsimp only
      split_ifs
      · exact List.dropLast_append_getLast? last hlast
      · simp

omit hb in
theorem isHead_bracketed {context : WrapContext} {opening closing : Option Chunk}
    {es : List Chunk} (ho : ∀ d ∈ opening.toList, d.IsHead) (hc : ∀ d ∈ closing.toList, d.IsHead)
    (hes : IsRow es) (hfull : opening.isSome = true ∨ es ≠ [] ∨ closing.isSome = true) :
    (bracketed context opening closing es).IsHead := by
  refine (isFilled_of_heads (fun d hd => ?_) ?_).seq
  · simp only [List.mem_filterMap, List.mem_cons, List.not_mem_nil, or_false, id_eq,
      exists_eq_right] at hd
    rcases hd with h | h | h
    · exact ho d (by simp [← h])
    · split_ifs at h with hempty
      obtain rfl := Option.some.inj h
      exact IsFilled.ofElements ⟨hes, by simpa using hempty⟩ context
    · exact hc d (by simp [← h])
  · rcases hfull with h | h | h
    · obtain ⟨o, rfl⟩ := Option.isSome_iff_exists.mp h
      simp
    · simp [h]
    · obtain ⟨c, rfl⟩ := Option.isSome_iff_exists.mp h
      cases opening <;> cases es <;> simp

theorem settles_list (context : WrapContext) (hn : n.Parts x depth) :
    Settles (list x build context n.children) n.ids IsBuilt := by
  -- What is between the brackets, whether or not there is an opening one.
  have hinner : ∀ (opening : Option Chunk) (inner : List Node),
      (∀ c ∈ inner, c.Fine x depth) → (∀ d ∈ opening.toList, d.IsHead) →
      (opening.isSome = true ∨ inner ≠ []) → Settles (do
        let es ← elements x build (ascii ",") true (splitClosing closesList inner).1
        return some (bracketed context opening
          (← optional build (splitClosing closesList inner).2) es))
        (inner.flatMap Node.ids) IsBuilt := by
    intro opening inner hfine ho hfull
    have hsplit := splitClosing_append closesList inner
    obtain ⟨hin, hclosing⟩ := splitClosing_mem closesList inner
    rw [show inner.flatMap Node.ids = _ from congrArg (List.flatMap Node.ids) hsplit.symm,
      List.flatMap_append]
    refine (settles_elements hb (ascii ",") true fun c hc => hfine c (hin c hc)).bind
      fun es hes => ?_
    refine (settles_optional hb fun c hc =>
      hfine c (hclosing c (Option.mem_toList.mp hc))).last ?_
    rintro closing ⟨hheads, hsome⟩
    refine ⟨_, rfl, isHead_bracketed ho hheads hes.isRow ?_⟩
    refine hfull.imp_right fun hne => ?_
    rw [hsome]
    by_cases hin' : (splitClosing closesList inner).1 = []
    · refine Or.inr ?_
      rw [hin', List.nil_append] at hsplit
      rw [← hsplit] at hne
      cases h : (splitClosing closesList inner).2 with
      | none => simp [h] at hne
      | some c => rfl
    · exact Or.inl (hes.ne_nil hin')
  obtain ⟨hne, hfine, hids⟩ := hn
  rw [hids]
  cases hchildren : n.children with
  | nil => exact absurd hchildren hne
  | cons c rest =>
      rw [hchildren] at hfine
      rw [list.eq_def]
      dsimp only
      split_ifs with hopens
      · rw [List.flatMap_cons]
        refine (hb c (hfine c List.mem_cons_self)).bind ?_
        rintro _ ⟨o, rfl, ho⟩
        exact hinner (some o) rest (fun d hd => hfine d (List.mem_cons_of_mem c hd))
          (by simpa using ho) (Or.inl rfl)
      · exact hinner none (c :: rest) hfine (by simp) (Or.inr (by simp))

theorem settles_annot (hn : n.Parts x depth) : Settles (annot x build n) n.ids IsBuilt := by
  rw [hn.ids]
  refine settles_sequence hn.ne_nil fun c hc parts hparts => ?_
  have hfine := hn.fine c hc
  split_ifs with hk
  · exact settles_glued hparts (settles_list hb _ (hfine.below hk))
  · exact settles_glued hparts (hb c hfine)

theorem settles_type (hn : n.Parts x depth) : Settles (type x build n) n.ids IsBuilt := by
  rw [hn.ids, type]
  refine (settles_fold (P := fun acc => IsRow acc.1) (Q := fun acc => IsFilled acc.1)
    hn.ne_nil (fun _ h => h.toIsRow) isRow_nil fun c hc acc hparts => ?_).last
    fun acc h => isBuilt_sequence h
  have hfine := hn.fine c hc
  obtain ⟨parts, previous⟩ := acc
  -- A part with or without a space before it.
  have hpart : ∀ (apart : Bool) (last : Bytes) {m : Build (Option Chunk)} {ids : List Nat},
      Settles m ids IsBuilt → Settles (do
        let c ← m
        return (if apart then spaced parts c else glued parts c, last)) ids
        fun acc => IsFilled acc.1 := by
    intro apart last m ids hm
    refine hm.last ?_
    rintro _ ⟨c, rfl, hc⟩
    split_ifs
    · exact isFilled_spaced hparts hc
    · exact isFilled_glued hparts hc
  rw [typePart.eq_def]
  cases c with
  | leaf id t => exact hpart _ _ (hb _ hfine)
  | branch kind start stop children =>
      refine Settles.ite (fun hk => ?_) fun _ => ?_
      · exact hpart _ _ (settles_annot hb (hfine.below hk))
      · exact hpart true [] (hb _ hfine)

theorem settles_modifiers (decl : Bool) (hn : n.Parts x depth) :
    Settles (modifiers x build decl n) n.ids IsBuilt := by
  rw [hn.ids, modifiers]
  refine (settles_fold (P := IsRow) (Q := IsFilled) hn.ne_nil (fun _ h => h.toIsRow)
    isRow_nil fun c hc parts hparts => ?_).last fun parts h => ?_
  · refine (hb c (hn.fine c hc)).last ?_
    rintro _ ⟨d, rfl, hd⟩
    split_ifs
    · exact isFilled_spaced hparts (hd.modify fun _ => rfl)
    · exact isFilled_spaced hparts hd
  · obtain ⟨c, hc, hhead⟩ := isBuilt_sequence h
    rw [hc, Option.map_some]
    refine ⟨_, rfl, ?_⟩
    split_ifs
    · exact hhead.modify fun _ => rfl
    · exact hhead

theorem settles_items (hns : ∀ n ∈ ns, n.Fine x depth) :
    Settles (items x build ns) (ns.flatMap Node.ids) fun cs =>
      (∀ c ∈ cs, c.IsHead) ∧ (ns ≠ [] → cs ≠ []) := by
  induction ns with
  | nil => exact Settles.pure (by simp)
  | cons n ns ih =>
      obtain ⟨id, rest, hid, hids⟩ := (hns n List.mem_cons_self).firstId
      rw [items, hid, List.flatMap_cons, hids, List.cons_append]
      refine Settles.detach id false fun comments hcomments => ?_
      refine (settles_blankBefore id).quiet fun blank _ => ?_
      rw [← List.cons_append, ← hids]
      refine (hb n (hns n List.mem_cons_self)).bind ?_
      rintro _ ⟨c, rfl, hc⟩
      refine (ih fun m hm => hns m (List.mem_cons_of_mem n hm)).last ?_
      rintro cs ⟨hcs, -⟩
      refine ⟨?_, by simp⟩
      simp only [Option.toList_some, List.map_cons, List.map_nil, List.forall_mem_append,
        List.forall_mem_singleton]
      exact ⟨⟨hcomments, hc.modify fun _ => rfl⟩, hcs⟩

/-- The items of a block behind its opening brace, and the comments in front of the other one as
the last items. -/
theorem settles_closed {rest : List Node} {opening : Chunk}
    {f : List Node → Build (List Chunk)} (hrest : ∀ c ∈ rest, c.Fine x depth)
    (hopening : opening.IsHead) (hinside : ∀ inner, (∀ c ∈ inner, c.Fine x depth) →
      Settles (f inner) (inner.flatMap Node.ids) fun cs => ∀ c ∈ cs, c.IsHead) :
    Settles (do
      let own ← f (splitClosing (isText "\x7d") rest).1
      match (splitClosing (isText "\x7d") rest).2 with
      | none => return some (Chunk.ofItems (some opening) none own)
      | some c =>
        let comments ← detach x c.firstId? true
        return some (Chunk.ofItems (some opening) (← build c) (own ++ comments)))
      (rest.flatMap Node.ids) IsBuilt := by
  have hsplit := splitClosing_append (isText "\x7d") rest
  obtain ⟨hin, hclosing⟩ := splitClosing_mem (isText "\x7d") rest
  have hids : rest.flatMap Node.ids = (splitClosing (isText "\x7d") rest).1.flatMap Node.ids ++
      (splitClosing (isText "\x7d") rest).2.toList.flatMap Node.ids := by
    rw [← List.flatMap_append, hsplit]
  rw [hids]
  refine (hinside _ fun c hc => hrest c (hin c hc)).bind fun own hown => ?_
  cases hc : (splitClosing (isText "\x7d") rest).2 with
  | none =>
      exact Settles.pure ⟨_, rfl, isHead_ofItems hopening (by simp) fun c hc => (hown c hc).neat⟩
  | some c =>
      have hfine : c.Fine x depth := hrest c (hclosing c (by simp [hc]))
      obtain ⟨id, behind, hid, hcids⟩ := hfine.firstId
      dsimp only
      rw [Option.toList_some, List.flatMap_singleton, hid, hcids]
      refine Settles.detach id true fun comments hcomments => ?_
      rw [← hcids]
      refine (hb c hfine).last ?_
      rintro _ ⟨closing, rfl, hhead⟩
      refine ⟨_, rfl, isHead_ofItems hopening (by simpa using hhead) fun d hd => ?_⟩
      exact ((List.forall_mem_append.mpr ⟨hown, hcomments⟩) d hd).neat

theorem settles_braces {item : NodeBuilder} (hitem : Completes x item depth)
    (hn : n.Parts x depth) : Settles (braces x build item n) n.ids IsBuilt := by
  obtain ⟨hne, hfine, hids⟩ := hn
  rw [hids, braces.eq_def]
  cases hchildren : n.children with
  | nil => exact absurd hchildren hne
  | cons first rest =>
      rw [hchildren] at hfine
      rw [List.flatMap_cons]
      refine (hb first (hfine first List.mem_cons_self)).bind ?_
      rintro _ ⟨opening, rfl, hopening⟩
      exact settles_closed hb (fun c hc => hfine c (List.mem_cons_of_mem first hc)) hopening
        fun inner hinner => (settles_items hitem hinner).mono fun _ h => h.1

theorem settles_assignment {lhs : Chunk} {rhs : Node} (hlhs : lhs.IsHead)
    (hrhs : rhs.Fine x depth) : Settles (assignment x build (some lhs) rhs) rhs.ids IsBuilt := by
  rw [assignment]
  refine (hb rhs hrhs).ended ?_
  rintro _ ⟨r, rfl, hr⟩
  refine Settles.element (neat_withSpace.mpr hr.neat) fun d hd _ => Settles.pure ?_
  exact ⟨_, rfl, IsFilled.ofElements (hlhs.cons (by simpa using hd)) .assignment⟩

theorem settles_param (hn : n.Parts x depth) : Settles (param x build n) n.ids IsBuilt := by
  rw [hn.ids]
  refine settles_sequence hn.ne_nil fun c hc parts hparts => ?_
  have hfine := hn.fine c hc
  split_ifs with hk
  · exact settles_spaced hparts (settles_modifiers hb false (hfine.below hk))
  · exact settles_glued hparts (hb c hfine)
  · exact settles_spaced hparts (hb c hfine)

theorem settles_varDecl (decl : Bool) (hn : n.Parts x depth) :
    Settles (varDecl x build decl n) n.ids IsBuilt := by
  rw [hn.ids]
  refine settles_sequence hn.ne_nil fun c hc parts hparts => ?_
  have hfine := hn.fine c hc
  split_ifs with hk
  · exact settles_spaced hparts (settles_modifiers hb decl (hfine.below hk))
  · exact settles_glued hparts (hb c hfine)
  · exact settles_spaced hparts (hb c hfine)

theorem completes_item : Completes x (item x build) depth := fun n hn =>
  Settles.ite (fun hk => settles_varDecl hb true (hn.below hk)) fun _ => hb n hn

theorem settles_block (hn : n.Parts x depth) : Settles (block x build n) n.ids IsBuilt :=
  settles_braces hb (completes_item hb) hn

end Lists

end Build

end CodeLayout
