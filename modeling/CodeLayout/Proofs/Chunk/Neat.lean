import CodeLayout.Proofs.Chunk.Numbered

/-!
# Neat chunks

Laying out counts the space before a chunk when the chunk is placed, by its own mark or by that of
its first part, and writing holds a space back for each mark it meets. The two agree on chunks that
are neat: each of them leaves something in the output, and only a chunk that is not the first in its
group or its block has a mark of its own, or is a body without braces.
-/

namespace CodeLayout

namespace Chunk

/-- Whether a chunk can come first: no space is before it, and it is no body without braces. -/
structure IsFirst (c : Chunk) : Prop where
  unspaced : c.isSpaced = false
  braced : c.isBraceless = false

/-- Whether a chunk by itself is neat: a token has a text, a group has a first element, a block has
an opening brace or items, and the first element and the braces can come first. -/
def IsNeat : Chunk → Prop
  | .token _ s => s ≠ []
  | .comment .. => True
  | .group _ _ _ cs => cs ≠ [] ∧ ∀ d ∈ cs.head?, d.IsFirst
  | .block _ o c _ cs =>
    (∀ d ∈ o.toList ++ c.toList, d.IsFirst) ∧ (o.isSome = true ∨ cs ≠ [])

/-- Whether all chunks of a tree are neat. -/
def Neat (c : Chunk) : Prop :=
  ∀ d ∈ c.walk, d.IsNeat

/-- A neat chunk that can come first. -/
structure IsHead (c : Chunk) : Prop extends IsFirst c where
  neat : c.Neat

/-- Neat chunks of which the first can come first. -/
structure IsRow (cs : List Chunk) : Prop where
  neat : ∀ c ∈ cs, c.Neat
  first : ∀ c ∈ cs.head?, c.IsFirst

/-- Neat chunks, at least one, of which the first can come first. -/
structure IsFilled (cs : List Chunk) : Prop extends IsRow cs where
  ne_nil : cs ≠ []

/-- A chunk that is there and is a neat one that can come first. -/
def IsBuilt (c : Option Chunk) : Prop :=
  ∃ d, c = some d ∧ d.IsHead

variable {c d : Chunk} {cs ds : List Chunk} {t : Traits} {s : Bytes}

theorem neat_token : (token t s).Neat ↔ s ≠ [] := by
  simp [Neat, walk, IsNeat]

theorem neat_comment (contents : Option Comment) : (comment t s contents).Neat := by
  simp [Neat, walk, IsNeat]

theorem neat_walkList : (∀ d ∈ walkList cs, d.IsNeat) ↔ ∀ c ∈ cs, c.Neat := by
  simp only [mem_walkList, Neat]
  exact ⟨fun h c hc d hd => h d ⟨c, hc, hd⟩, fun h d ⟨c, hc, hd⟩ => h c hc d hd⟩

theorem neat_group {context : WrapContext} {b : Bool} :
    (group t context b cs).Neat ↔ IsFilled cs := by
  rw [Neat, walk, List.forall_mem_cons, neat_walkList]
  constructor
  · rintro ⟨⟨hne, hfirst⟩, hcs⟩
    exact ⟨⟨hcs, hfirst⟩, hne⟩
  · rintro ⟨⟨hcs, hfirst⟩, hne⟩
    exact ⟨⟨hne, hfirst⟩, hcs⟩

theorem firstSpaced_eq_false (h : ∀ c ∈ cs.head?, c.IsFirst) : firstSpaced cs = false := by
  cases cs with
  | nil => rfl
  | cons c cs => exact (h c rfl).unspaced

theorem neat_block {o close : Option Chunk} {indented : Bool} :
    (block t o close indented cs).Neat ↔
      (∀ d ∈ o.toList ++ close.toList, d.IsHead) ∧ (∀ c ∈ cs, c.Neat) ∧
        (o.isSome = true ∨ cs ≠ []) := by
  rw [Neat, walk_block, List.forall_mem_cons, List.forall_mem_append, List.forall_mem_append,
    neat_walkList, neat_walkList, neat_walkList, List.forall_mem_append, IsNeat,
    List.forall_mem_append]
  constructor
  · rintro ⟨⟨⟨ho, hc⟩, hfull⟩, ⟨hon, hcs⟩, hcn⟩
    exact ⟨⟨fun d hd => ⟨ho d hd, hon d hd⟩, fun d hd => ⟨hc d hd, hcn d hd⟩⟩, hcs, hfull⟩
  · rintro ⟨⟨ho, hc⟩, hcs, hfull⟩
    exact ⟨⟨⟨fun d hd => (ho d hd).toIsFirst, fun d hd => (hc d hd).toIsFirst⟩, hfull⟩,
      ⟨fun d hd => (ho d hd).neat, hcs⟩, fun d hd => (hc d hd).neat⟩

/-- The traits of a chunk do not matter for whether it is neat. -/
@[simp] theorem neat_modify {f : Traits → Traits} : (c.modify f).Neat ↔ c.Neat := by
  cases c with
  | token t s => simp only [modify, neat_token]
  | comment t s b => simp only [modify, neat_comment]
  | group t context b cs => simp only [modify, neat_group]
  | block t o close indented cs => simp only [modify, neat_block]

@[simp] theorem neat_withSpace : c.withSpace.Neat ↔ c.Neat :=
  neat_modify

/-- A change of the traits of a chunk that keeps the mark for the space before it. -/
theorem isSpaced_modify {f : Traits → Traits} (hf : (f c.traits).space = c.traits.space) :
    (c.modify f).isSpaced = c.isSpaced := by
  cases c with
  | block t o close indented cs =>
      cases o <;> exact congrArg (· || _) hf
  | _ => simp_all [modify, isSpaced, traits]

@[simp] theorem isBraceless_modify {f : Traits → Traits} :
    (c.modify f).isBraceless = c.isBraceless := by
  cases c with
  | block t o close indented cs => cases o <;> rfl
  | _ => rfl

theorem IsFirst.modify {f : Traits → Traits} (h : c.IsFirst) (hf : ∀ t, (f t).space = t.space) :
    (c.modify f).IsFirst :=
  ⟨(isSpaced_modify (hf _)).trans h.unspaced, isBraceless_modify.trans h.braced⟩

theorem IsHead.modify {f : Traits → Traits} (h : c.IsHead) (hf : ∀ t, (f t).space = t.space) :
    (c.modify f).IsHead :=
  ⟨h.toIsFirst.modify hf, neat_modify.mpr h.neat⟩

/-- The mark of a neat chunk says whether a space is before it. -/
theorem Neat.isSpaced_eq (h : c.Neat) : c.isSpaced = c.traits.space := by
  have hc := h c (mem_walk c)
  cases c with
  | token t s => rfl
  | comment t s b => rfl
  | group t context b cs =>
      simp only [isSpaced, traits, firstSpaced_eq_false hc.2, Bool.or_false]
  | block t o close indented cs =>
      cases o with
      | none => simp [isSpaced, traits]
      | some o => simp [isSpaced, traits, (hc.1 o (by simp)).unspaced]

theorem isFilled_singleton (h : c.IsHead) : IsFilled [c] :=
  ⟨⟨by simpa using h.neat, by simpa using h.toIsFirst⟩, by simp⟩

theorem isRow_nil : IsRow [] :=
  ⟨by simp, by simp⟩

theorem IsFilled.append (h : IsFilled cs) (hds : ∀ d ∈ ds, d.Neat) : IsFilled (cs ++ ds) := by
  refine ⟨⟨List.forall_mem_append.mpr ⟨h.neat, hds⟩, ?_⟩, by simp [h.ne_nil]⟩
  have hfirst := h.first
  cases cs with
  | nil => exact absurd rfl h.ne_nil
  | cons c cs => exact hfirst

/-- Neat chunks of which the first is a head. -/
theorem IsHead.cons (h : c.IsHead) (hcs : ∀ d ∈ cs, d.Neat) : IsFilled (c :: cs) :=
  (isFilled_singleton h).append hcs

theorem IsFilled.isHead (h : IsFilled [c]) : c.IsHead :=
  ⟨h.first c rfl, h.neat c (by simp)⟩

theorem isFilled_of_heads (h : ∀ c ∈ cs, c.IsHead) (hcs : cs ≠ []) : IsFilled cs := by
  cases cs with
  | nil => exact absurd rfl hcs
  | cons c cs =>
      obtain ⟨hc, hrest⟩ := List.forall_mem_cons.mp h
      exact hc.cons fun d hd => (hrest d hd).neat

theorem IsFilled.group (h : IsFilled cs) (context : WrapContext) (b : Bool) :
    (Chunk.group {} context b cs).IsHead :=
  ⟨⟨by simp [isSpaced, firstSpaced_eq_false h.first], rfl⟩, neat_group.mpr h⟩

theorem IsFilled.ofElements (h : IsFilled cs) (context : WrapContext) :
    (ofElements context cs).IsHead :=
  h.group context false

theorem IsFilled.seq (h : IsFilled cs) : (seq cs).IsHead :=
  h.ofElements .plain

theorem isHead_ofItems {o : Chunk} {close : Option Chunk} (ho : o.IsHead)
    (hclose : ∀ d ∈ close.toList, d.IsHead) (hcs : ∀ c ∈ cs, c.Neat) :
    (ofItems (some o) close cs).IsHead := by
  refine ⟨⟨?_, rfl⟩, neat_block.mpr ⟨?_, hcs, Or.inl rfl⟩⟩
  · simpa [ofItems, isSpaced] using ho.unspaced
  · simpa using ⟨ho, by simpa using hclose⟩

/-- A body without braces. -/
theorem neat_ofItems (hcs : ∀ c ∈ cs, c.Neat) (hne : cs ≠ []) : (ofItems none none cs).Neat :=
  neat_block.mpr ⟨by simp, hcs, Or.inr hne⟩

theorem contentAll_ne_nil (h : ∀ c ∈ cs, c.content ≠ []) (hne : cs ≠ []) : contentAll cs ≠ [] := by
  obtain ⟨c, rest, rfl⟩ := List.exists_cons_of_ne_nil hne
  rw [contentAll_cons]
  exact List.append_ne_nil_of_left_ne_nil (h c List.mem_cons_self) _

/-- A neat chunk leaves something in the output. -/
theorem Neat.content_ne_nil (h : c.Neat) : c.content ≠ [] := by
  induction c using byParts with
  | token t s => simp
  | comment t s b => simp
  | group t context b cs ih =>
      have hcs := neat_group.mp h
      rw [content_group]
      exact contentAll_ne_nil (fun d hd => ih d hd (hcs.neat d hd)) hcs.ne_nil
  | block t o close indented cs iho ihc ih =>
      obtain ⟨hbraces, hitems, hfull⟩ := neat_block.mp h
      rw [content_block, List.append_assoc]
      rcases hfull with hopening | hne
      · obtain ⟨d, rfl⟩ := Option.isSome_iff_exists.mp hopening
        rw [contentAny_some]
        exact List.append_ne_nil_of_left_ne_nil (iho d (by simp) (hbraces d (by simp)).neat) _
      · have hbelow := contentAll_ne_nil (fun d hd => ih d hd (hitems d hd)) hne
        exact List.append_ne_nil_of_right_ne_nil _ (List.append_ne_nil_of_left_ne_nil hbelow _)

section Annotate

variable {tabstop : Int} {n : Nat}

theorem mem_annotateList (hd : d ∈ (annotateList tabstop n cs).1) :
    ∃ c ∈ cs, ∃ m, d = (c.annotate tabstop m).1 := by
  induction cs generalizing n with
  | nil => simp [annotateList] at hd
  | cons c cs ih =>
      rcases List.mem_cons.mp hd with rfl | hd
      · exact ⟨c, List.mem_cons_self, n, rfl⟩
      · obtain ⟨e, he, m, rfl⟩ := ih hd
        exact ⟨e, List.mem_cons_of_mem c he, m, rfl⟩

theorem head?_annotateList :
    (annotateList tabstop n cs).1.head? = cs.head?.map fun c => (c.annotate tabstop n).1 := by
  cases cs <;> rfl

theorem isSpaced_annotate (c : Chunk) (n : Nat) :
    (c.annotate tabstop n).1.isSpaced = c.isSpaced := by
  induction c using byParts generalizing n with
  | token t s => rfl
  | comment t s b => rfl
  | group t context b cs ih =>
      cases cs with
      | nil => rfl
      | cons c cs => exact congrArg (t.space || ·) (ih c List.mem_cons_self (n + 1))
  | block t o close indented cs iho ihc ih =>
      cases o with
      | none => cases close <;> rfl
      | some o =>
          have ho := congrArg (t.space || ·) (iho o (by simp) (n + 1))
          cases close <;> exact ho

/-- Numbering and measuring a chunk keeps whether it can come first. -/
theorem IsFirst.annotate (h : c.IsFirst) (n : Nat) : (c.annotate tabstop n).1.IsFirst := by
  refine ⟨(isSpaced_annotate c n).trans h.unspaced, ?_⟩
  have hbraced := h.braced
  cases c with
  | block t o close indented cs =>
      cases o with
      | none => cases hbraced
      | some o => cases close <;> rfl
  | _ => rfl

theorem IsRow.annotateList (h : IsRow cs)
    (hneat : ∀ c ∈ cs, ∀ n, (c.annotate tabstop n).1.Neat) (n : Nat) :
    IsRow (annotateList tabstop n cs).1 := by
  refine ⟨fun d hd => ?_, fun d hd => ?_⟩
  · obtain ⟨c, hc, m, rfl⟩ := mem_annotateList hd
    exact hneat c hc m
  · rw [head?_annotateList] at hd
    obtain ⟨c, hc, rfl⟩ := Option.map_eq_some_iff.mp hd
    exact (h.first c hc).annotate n

theorem isHead_of_mem_annotateList (h : ∀ c ∈ cs, c.IsHead)
    (hneat : ∀ c ∈ cs, c.Neat → ∀ n, (c.annotate tabstop n).1.Neat)
    (hd : d ∈ (Chunk.annotateList tabstop n cs).1) : d.IsHead := by
  obtain ⟨c, hc, m, rfl⟩ := mem_annotateList hd
  exact ⟨(h c hc).toIsFirst.annotate m, hneat c hc (h c hc).neat m⟩

theorem annotateList_eq_nil : (Chunk.annotateList tabstop n cs).1 = [] ↔ cs = [] := by
  cases cs <;> simp [Chunk.annotateList]

/-- Numbering and measuring a tree keeps that it is neat. -/
theorem Neat.annotate (h : c.Neat) (n : Nat) : (c.annotate tabstop n).1.Neat := by
  induction c using byParts generalizing n with
  | token t s => exact neat_token.mpr (neat_token.mp h)
  | comment t s b => exact neat_comment b
  | group t context b cs ih =>
      have hcs := neat_group.mp h
      exact neat_group.mpr ⟨hcs.annotateList (fun c hc => ih c hc (hcs.neat c hc)) _,
        mt annotateList_eq_nil.mp hcs.ne_nil⟩
  | block t o close indented cs iho ihc ih =>
      obtain ⟨hbraces, hitems, hfull⟩ := neat_block.mp h
      obtain ⟨ho, hclose⟩ := List.forall_mem_append.mp hbraces
      obtain ⟨o', close', cs', k, m, hopening, hcs', hclosing, heq⟩ :=
        annotate_block tabstop n t o close indented cs
      rw [heq]
      refine neat_block.mpr ⟨List.forall_mem_append.mpr ⟨fun d hd => ?_, fun d hd => ?_⟩,
        fun d hd => ?_, ?_⟩
      · exact isHead_of_mem_annotateList ho (fun c hc hneat n => iho c hc hneat n)
          (by rw [hopening]; exact hd)
      · exact isHead_of_mem_annotateList hclose (fun c hc hneat n => ihc c hc hneat n)
          (by rw [hclosing]; exact hd)
      · obtain ⟨c, hc, j, rfl⟩ := mem_annotateList (by rw [hcs']; exact hd)
        exact ih c hc (hitems c hc) j
      · refine hfull.imp (fun hsome => ?_) fun hne hnil => ?_
        · cases o with
          | none => cases hsome
          | some o => cases o' <;> simp_all [Chunk.annotateList]
        · exact hne (annotateList_eq_nil.mp (congrArg Prod.fst hcs' |>.trans hnil))

end Annotate

end Chunk

namespace Build

open Chunk

variable {c : Chunk} {cs parts : List Chunk}

/-- Parts with a sequence of their own. -/
theorem isBuilt_sequence (h : IsFilled parts) : IsBuilt (sequence parts) := by
  match parts, h with
  | [], h => exact absurd rfl h.ne_nil
  | [c], h => exact ⟨c, rfl, h.isHead⟩
  | c :: d :: cs, h => exact ⟨_, rfl, h.seq⟩

theorem isFilled_glued (h : IsRow parts) (hc : c.IsHead) : IsFilled (glued parts (some c)) := by
  cases parts with
  | nil => exact isFilled_singleton hc
  | cons d ds => exact IsFilled.append ⟨h, by simp⟩ (by simpa using hc.neat)

theorem isFilled_spaced (h : IsRow parts) (hc : c.IsHead) : IsFilled (spaced parts (some c)) := by
  cases parts with
  | nil => exact isFilled_singleton hc
  | cons d ds => exact IsFilled.append ⟨h, by simp⟩ (by simpa using hc.neat)

/-- Behind other parts there may be any neat chunk. -/
theorem isFilled_spaced_behind (h : IsFilled parts) (hc : c.Neat) :
    IsFilled (spaced parts (some c)) := by
  obtain ⟨d, ds, rfl⟩ := List.exists_cons_of_ne_nil h.ne_nil
  exact h.append (by simpa using hc)

end Build

end CodeLayout
