import CodeLayout.Proofs.Chunk.Content
import Mathlib.Data.List.Nodup

/-!
# Chunks that are numbered and measured

The numbers of a tree count its chunks in the order of the output, so no two chunks share one. A
chunk is measured unless a comment below it has no contents.
-/

namespace CodeLayout.Chunk

/-- A property of all trees from the trees right below them. -/
theorem byParts {P : Chunk → Prop} (token : ∀ t s, P (token t s))
    (comment : ∀ t s c, P (comment t s c))
    (group : ∀ t x b cs, (∀ d ∈ cs, P d) → P (group t x b cs))
    (block : ∀ t o c i cs, (∀ d ∈ o.toList, P d) → (∀ d ∈ c.toList, P d) → (∀ d ∈ cs, P d) →
      P (block t o c i cs)) (c : Chunk) : P c :=
  @Chunk.rec P (fun cs => ∀ d ∈ cs, P d) (fun o => ∀ d ∈ o.toList, P d) token comment
    group (fun t o c i cs ho hc hcs => block t o c i cs ho hc hcs) nofun
    (fun _ _ hc hcs => List.forall_mem_cons.mpr ⟨hc, hcs⟩) nofun
    (fun _ hc => List.forall_mem_singleton.mpr hc) c

theorem mem_walkList {d : Chunk} {cs : List Chunk} : d ∈ walkList cs ↔ ∃ c ∈ cs, d ∈ c.walk := by
  induction cs with
  | nil => simp [walkList]
  | cons c cs ih => simp [walkList, ih]

theorem walk_sublist_walkList {d : Chunk} {cs : List Chunk} (hd : d ∈ cs) :
    d.walk.Sublist (walkList cs) := by
  induction cs with
  | nil => cases hd
  | cons c cs ih =>
      rcases List.mem_cons.mp hd with rfl | hd
      · exact List.sublist_append_left _ _
      · exact (ih hd).trans (List.sublist_append_right _ _)

theorem walk_block (t : Traits) (o c : Option Chunk) (i : Bool) (cs : List Chunk) :
    (block t o c i cs).walk =
      block t o c i cs :: (walkList o.toList ++ walkList cs ++ walkList c.toList) := by
  cases o <;> cases c <;> simp [walk, walkList]

/-- A chunk comes first among the chunks of its tree. -/
theorem mem_walk (c : Chunk) : c ∈ c.walk := by
  cases c with
  | block => simp [walk_block]
  | _ => simp [walk]

/-- A chunk is followed by all that is below it. -/
theorem walk_eq (c : Chunk) : c.walk = c :: c.walk.tail := by
  cases c with
  | block => simp [walk_block]
  | _ => simp [walk]

theorem walk_ne_nil (c : Chunk) : c.walk ≠ [] := by
  rw [walk_eq]
  exact List.cons_ne_nil _ _

theorem head?_walk (c : Chunk) : c.walk.head? = some c := by
  rw [walk_eq]
  rfl

theorem leaf_mem_content {c d : Chunk} {l : Leaf} (hd : d ∈ c.walk) (hl : d.leaf? = some l) :
    l ∈ c.content :=
  List.mem_filterMap.mpr ⟨d, hd, hl⟩

/-- The braces of a block are numbered and measured like its items. -/
theorem annotate_block (tabstop : Int) (n : Nat) (t : Traits) (o c : Option Chunk) (i : Bool)
    (cs : List Chunk) : ∃ o' c' cs' k m,
      annotateList tabstop (n + 1) o.toList = (o'.toList, k) ∧
      annotateList tabstop k cs = (cs', m) ∧
      annotateList tabstop m c.toList = (c'.toList, (annotate tabstop n (block t o c i cs)).2) ∧
      (annotate tabstop n (block t o c i cs)).1 = block { t with
        id := n, measure := measureBlock o' c' (!cs'.isEmpty) } o' c' i cs' := by
  cases o with
  | none =>
      cases c with
      | none => exact ⟨none, none, _, _, _, rfl, rfl, rfl, rfl⟩
      | some c => exact ⟨none, some _, _, _, _, rfl, rfl, rfl, rfl⟩
  | some o =>
      cases c with
      | none => exact ⟨some _, none, _, _, _, rfl, rfl, rfl, rfl⟩
      | some c => exact ⟨some _, some _, _, _, _, rfl, rfl, rfl, rfl⟩

/-- The numbers of chunks. -/
def ids (cs : List Chunk) : List Nat :=
  cs.map fun c => c.traits.id

theorem ids_append (cs ds : List Chunk) : ids (cs ++ ds) = ids cs ++ ids ds :=
  List.map_append

theorem ids_annotateList {tabstop : Int} {cs : List Chunk}
    (h : ∀ c ∈ cs, ∀ n, n ≤ (c.annotate tabstop n).2 ∧
      ids (c.annotate tabstop n).1.walk = List.range' n ((c.annotate tabstop n).2 - n)) (n : Nat) :
    n ≤ (annotateList tabstop n cs).2 ∧ ids (walkList (annotateList tabstop n cs).1) =
      List.range' n ((annotateList tabstop n cs).2 - n) := by
  induction cs generalizing n with
  | nil => simp [annotateList, walkList, ids]
  | cons c cs ih =>
      obtain ⟨hfirst, hfirstIds⟩ := h c List.mem_cons_self n
      obtain ⟨hrest, hrestIds⟩ :=
        ih (fun d hd => h d (List.mem_cons_of_mem c hd)) (c.annotate tabstop n).2
      simp only [annotateList]
      refine ⟨Nat.le_trans hfirst hrest, ?_⟩
      rw [walkList, ids_append, hfirstIds, hrestIds]
      generalize (annotateList tabstop (c.annotate tabstop n).2 cs).2 = last at hrest ⊢
      generalize (c.annotate tabstop n).2 = next at hfirst hrest ⊢
      rw [show last - n = (next - n) + (last - next) by omega, ← List.range'_append_1,
        Nat.add_sub_cancel' hfirst]

/-- The chunks of a tree are numbered in order. -/
theorem ids_annotate (tabstop : Int) (c : Chunk) (n : Nat) :
    n ≤ (c.annotate tabstop n).2 ∧
      ids (c.annotate tabstop n).1.walk = List.range' n ((c.annotate tabstop n).2 - n) := by
  induction c using byParts generalizing n with
  | token t s => simp [annotate, walk, ids, traits]
  | comment t s c => simp [annotate, walk, ids, traits]
  | group t x b cs ih =>
      obtain ⟨hle, hids⟩ := ids_annotateList ih (n + 1)
      simp only [annotate, walk]
      refine ⟨by omega, ?_⟩
      generalize (annotateList tabstop (n + 1) cs).2 = last at hle hids ⊢
      rw [show last - n = (last - (n + 1)) + 1 by omega, List.range'_succ, ← hids]
      rfl
  | block t o c i cs iho ihc ih =>
      obtain ⟨o', c', cs', k, m, hopening, hitems, hclosing, heq⟩ :=
        annotate_block tabstop n t o c i cs
      have ho := ids_annotateList iho (n + 1)
      have hcs := ids_annotateList ih k
      have hc := ids_annotateList ihc m
      rw [hopening] at ho
      rw [hitems] at hcs
      rw [hclosing] at hc
      rw [heq, walk_block]
      generalize (annotate tabstop n (block t o c i cs)).2 = last at hc ⊢
      obtain ⟨hok, hoIds⟩ := ho
      obtain ⟨hkm, hcsIds⟩ := hcs
      obtain ⟨hml, hcIds⟩ := hc
      dsimp only at hok hkm hml hoIds hcsIds hcIds
      refine ⟨by omega, ?_⟩
      rw [show last - n = ((k - (n + 1)) + (m - k) + (last - m)) + 1 by omega, List.range'_succ,
        ← List.range'_append_1, ← List.range'_append_1,
        show n + 1 + (k - (n + 1) + (m - k)) = m by omega,
        show n + 1 + (k - (n + 1)) = k by omega, ← hoIds, ← hcsIds, ← hcIds, ← ids_append,
        ← ids_append]
      rfl

theorem nodup_ids_annotate (tabstop : Int) (c : Chunk) :
    (ids (c.annotate tabstop 0).1.walk).Nodup := by
  rw [(ids_annotate tabstop c 0).2]
  exact List.nodup_range'

/-- Two chunks of a numbered tree with the same number are the same. -/
theorem eq_of_id_eq {tabstop : Int} {c d e : Chunk} (hd : d ∈ (c.annotate tabstop 0).1.walk)
    (he : e ∈ (c.annotate tabstop 0).1.walk) (h : d.traits.id = e.traits.id) : d = e :=
  List.inj_on_of_nodup_map (nodup_ids_annotate tabstop c) hd he h

theorem id_lt {tabstop : Int} {c d : Chunk} (hd : d ∈ (c.annotate tabstop 0).1.walk) :
    d.traits.id < (c.annotate tabstop 0).2 := by
  have hmem : d.traits.id ∈ ids (c.annotate tabstop 0).1.walk := List.mem_map_of_mem hd
  rw [(ids_annotate tabstop c 0).2, List.mem_range'_1] at hmem
  omega

/-- Whether all chunks of a list of trees are measured. -/
def AllMeasured (cs : List Chunk) : Prop :=
  ∀ d ∈ walkList cs, d.traits.measure.isSome = true

theorem AllMeasured.root {c : Chunk} {cs : List Chunk} (h : AllMeasured cs) (hc : c ∈ cs) :
    c.traits.measure.isSome = true :=
  h c (mem_walkList.mpr ⟨c, hc, mem_walk c⟩)

theorem measureRow_isSome {cs : List Chunk} (h : ∀ c ∈ cs, c.traits.measure.isSome = true)
    (isFirst : Bool) (width : Int) : (measureRow isFirst width cs).isSome = true := by
  induction cs generalizing isFirst width with
  | nil => rfl
  | cons c cs ih =>
      obtain ⟨m, hm⟩ := Option.isSome_iff_exists.mp (h c List.mem_cons_self)
      simp only [measureRow, hm]
      split
      · rfl
      · split
        · rfl
        · exact ih (fun d hd => h d (List.mem_cons_of_mem c hd)) false _

theorem measureBlock_isSome {o c : Option Chunk}
    (ho : ∀ d ∈ o.toList, d.traits.measure.isSome = true)
    (hc : ∀ d ∈ c.toList, d.traits.measure.isSome = true) (hasItems : Bool) :
    (measureBlock o c hasItems).isSome = true := by
  cases o with
  | none => rfl
  | some o =>
      obtain ⟨m, hm⟩ := Option.isSome_iff_exists.mp (ho o (by simp))
      cases c with
      | none => simp [measureBlock, hm]
      | some c =>
          simp only [measureBlock, hm]
          split
          · rfl
          · simpa using hc c (by simp)

theorem allMeasured_annotateList {tabstop : Int} {cs : List Chunk}
    (h : ∀ c ∈ cs, ∀ n, AllMeasured [(c.annotate tabstop n).1]) (n : Nat) :
    AllMeasured (annotateList tabstop n cs).1 := by
  induction cs generalizing n with
  | nil => simp [annotateList, AllMeasured, walkList]
  | cons c cs ih =>
      intro d hd
      simp only [annotateList, walkList, List.mem_append] at hd
      rcases hd with hd | hd
      · exact h c List.mem_cons_self n d (by simpa [walkList] using hd)
      · exact ih (fun e he => h e (List.mem_cons_of_mem c he)) _ d hd

/-- A tree whose comments all have contents is measured. -/
theorem allMeasured_annotate {tabstop : Int} {c : Chunk}
    (h : ∀ start stop text, Leaf.comment start stop text none ∉ c.content) (n : Nat) :
    AllMeasured [(c.annotate tabstop n).1] := by
  induction c using byParts generalizing n with
  | token t s => simp [AllMeasured, annotate, walkList, walk, traits]
  | comment t s c =>
      cases c with
      | none => exact absurd (by simp) (h t.start t.stop s)
      | some c => simp [AllMeasured, annotate, walkList, walk, traits]
  | group t x b cs ih =>
      have hcs : AllMeasured (annotateList tabstop (n + 1) cs).1 := by
        refine allMeasured_annotateList (fun d hd => ih d hd fun a b s hmem => h a b s ?_) _
        rw [content_group, contentAll, List.mem_filterMap]
        obtain ⟨e, he, hl⟩ := List.mem_filterMap.mp hmem
        exact ⟨e, mem_walkList.mpr ⟨d, hd, he⟩, hl⟩
      intro d hd
      simp only [annotate, walkList, walk, List.append_nil, List.mem_cons] at hd
      rcases hd with rfl | hd
      · exact measureRow_isSome (fun e he => hcs.root he) true 0
      · exact hcs d hd
  | block t o c i cs iho ihc ih =>
      have hmem : ∀ ds : List Chunk, (∀ l ∈ contentAll ds, l ∈ (block t o c i cs).content) →
          ∀ d ∈ ds, ∀ a b s, Leaf.comment a b s none ∉ d.content := by
        intro ds hds d hd a b s hl
        refine h a b s (hds _ ?_)
        rw [contentAll, List.mem_filterMap]
        obtain ⟨e, he, hl⟩ := List.mem_filterMap.mp hl
        exact ⟨e, mem_walkList.mpr ⟨d, hd, he⟩, hl⟩
      obtain ⟨o', c', cs', k, m, hopening, hitems, hclosing, heq⟩ :=
        annotate_block tabstop n t o c i cs
      have ho := allMeasured_annotateList (fun d hd => iho d hd
        (hmem o.toList (fun l hl => by simp [contentAll_toList _ ▸ hl]) d hd)) (n + 1)
      have hcs := allMeasured_annotateList (fun d hd => ih d hd
        (hmem cs (fun l hl => by simp [hl]) d hd)) k
      have hc := allMeasured_annotateList (fun d hd => ihc d hd
        (hmem c.toList (fun l hl => by simp [contentAll_toList _ ▸ hl]) d hd)) m
      rw [hopening] at ho
      rw [hitems] at hcs
      rw [hclosing] at hc
      intro d hd
      rw [heq, walkList, walk_block] at hd
      simp only [walkList, List.append_nil, List.mem_cons, List.mem_append] at hd
      rcases hd with rfl | (hd | hd) | hd
      · exact measureBlock_isSome (fun e he => ho.root he) (fun e he => hc.root he) _
      · exact ho d hd
      · exact hcs d hd
      · exact hc d hd

end CodeLayout.Chunk
