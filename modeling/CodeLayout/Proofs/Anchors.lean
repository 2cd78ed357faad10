import CodeLayout.Proofs.Edit
import CodeLayout.Proofs.Strokes

/-!
# Anchors go up

The pieces of strokes that cover a stream are apart from each other in the input, in the order of
the strokes. Their ends are the anchors, so these go up in the input as they do in the output.
-/

namespace CodeLayout

variable {s : TokenStream} {style : Style} {regions : Regions} {separator : Bytes}
  {ks : List Stroke}

section Apart

variable (hin : Token.InOrder 0 s.file.text.length s.tokens.toList)
include hin

/-- The ends of a piece are in order and in the text. -/
theorem Piece.ends_bounds (hfit : regions.Fit s.file.text.length s.tokens.toList) {p : Piece}
    (hp : p.Valid s regions) (hmem : ∀ i ∈ p.ids s, i ∈ s.significant) {start stop : Nat}
    (hends : p.ends? s = some (start, stop)) : start ≤ stop ∧ stop ≤ s.file.text.length := by
  cases p with
  | token id =>
      have hb := hin.bounds _ (TokenStream.tokenAt_mem (hmem id (by simp [Piece.ids])))
      simp only [Piece.ends?, Option.some.injEq, Prod.mk.injEq] at hends
      omega
  | comment ids position => cases hends
  | region v =>
      have hb := hfit.inOrder.bounds v hp.1
      simp only [Piece.ends?, Option.some.injEq, Prod.mk.injEq] at hends
      omega

/-- What a region holds lies in it. -/
theorem Piece.exists_mem_region {v : VerbatimSpan} (hv : Piece.ids s (.region v) ≠ []) :
    ∃ i ∈ Piece.ids s (.region v), v.start ≤ (s.tokenAt i).start ∧
      (s.tokenAt i).start < (s.tokenAt i).stop ∧ (s.tokenAt i).stop ≤ v.stop := by
  obtain ⟨i, hi⟩ := List.exists_mem_of_ne_nil _ hv
  obtain ⟨hsig, hinside⟩ := List.mem_filter.mp hi
  have hb := hin.bounds _ (TokenStream.tokenAt_mem hsig)
  simp only [Bool.and_eq_true, decide_eq_true_eq] at hinside
  exact ⟨i, hi, hinside.1, hb.2.1, hinside.2⟩

/-- A piece ends before the next one starts. -/
theorem Piece.ends_apart (hfit : regions.Fit s.file.text.length s.tokens.toList) {p q : Piece}
    (hp : p.Valid s regions) (hq : q.Valid s regions)
    (hpmem : ∀ i ∈ p.ids s, i ∈ s.significant) (hqmem : ∀ i ∈ q.ids s, i ∈ s.significant)
    (hbefore : ∀ i ∈ p.ids s, ∀ j ∈ q.ids s, (s.tokenAt i).stop ≤ (s.tokenAt j).start)
    {a b c d : Nat} (hpends : p.ends? s = some (a, b)) (hqends : q.ends? s = some (c, d)) :
    b ≤ c := by
  cases p with
  | comment ids position => cases hpends
  | token i =>
      simp only [Piece.ends?, Option.some.injEq, Prod.mk.injEq] at hpends
      have hi : i ∈ Piece.ids s (.token i) := by simp [Piece.ids]
      have hbi := hin.bounds _ (TokenStream.tokenAt_mem (hpmem i hi))
      cases q with
      | comment ids position => cases hqends
      | token j =>
          simp only [Piece.ends?, Option.some.injEq, Prod.mk.injEq] at hqends
          have hij := hbefore i hi j (by simp [Piece.ids])
          omega
      | region v =>
          simp only [Piece.ends?, Option.some.injEq, Prod.mk.injEq] at hqends
          obtain ⟨j, hj, hlo, hne, hhi⟩ := Piece.exists_mem_region hin hq.2
          have hij := hbefore i hi j hj
          have hout := hp.2 v hq.1
          omega
  | region u =>
      simp only [Piece.ends?, Option.some.injEq, Prod.mk.injEq] at hpends
      obtain ⟨i, hi, hlo, hne, hhi⟩ := Piece.exists_mem_region hin hp.2
      cases q with
      | comment ids position => cases hqends
      | token j =>
          simp only [Piece.ends?, Option.some.injEq, Prod.mk.injEq] at hqends
          have hj : j ∈ Piece.ids s (.token j) := by simp [Piece.ids]
          have hbj := hin.bounds _ (TokenStream.tokenAt_mem (hqmem j hj))
          have hij := hbefore i hi j hj
          have hout := hq.2 u hp.1
          omega
      | region v =>
          simp only [Piece.ends?, Option.some.injEq, Prod.mk.injEq] at hqends
          obtain ⟨j, hj, hlo', hne', hhi'⟩ := Piece.exists_mem_region hin hq.2
          have hij := hbefore i hi j hj
          -- Regions with an offset in common are the same, and so is what they hold.
          by_contra hlt
          have hu : u.Has (max u.start v.start) := ⟨by omega, by omega⟩
          have hv : v.Has (max u.start v.start) := ⟨by omega, by omega⟩
          have huv : u = v := hfit.inOrder.eq_of_has hp.1 hq.1 hu hv
          rw [huv] at hi
          have hii := hbefore i (huv ▸ hi) i hi
          omega

end Apart

namespace Stroke

/-- Every anchor of a stroke is an end of its piece. -/
theorem mem_anchors {k : Stroke} {size : Nat} {a : Anchor} (h : a ∈ k.anchors s style size) :
    (∃ start stop, k.piece.ends? s = some (start, stop) ∧ (a.input = start ∨ a.input = stop)) ∧
      size ≤ a.output ∧ a.output ≤ size + (k.text s style).length := by
  rw [anchors] at h
  split at h
  · simp at h
  · rename_i start stop hends
    have hlen : (k.text s style).length = k.gap.length + (k.piece.text s style).length := by
      simp [text]
    simp only [List.mem_cons, List.not_mem_nil, or_false] at h
    rcases h with rfl | rfl
    · exact ⟨⟨start, stop, hends, Or.inl rfl⟩, by simp only; omega, by simp only; omega⟩
    · exact ⟨⟨start, stop, hends, Or.inr rfl⟩, by simp only; omega, by simp only; omega⟩

theorem mem_anchorsAll {size : Nat} {a : Anchor} (h : a ∈ anchorsAll s style size ks) :
    (∃ k ∈ ks, ∃ start stop, k.piece.ends? s = some (start, stop) ∧
      (a.input = start ∨ a.input = stop)) ∧
      size ≤ a.output ∧ a.output ≤ size + (textAll s style ks).length := by
  induction ks generalizing size with
  | nil => simp [anchorsAll] at h
  | cons k ks ih =>
      have hlen : (textAll s style (k :: ks)).length =
          (k.text s style).length + (textAll s style ks).length := by
        simp [textAll]
      rcases List.mem_append.mp h with h | h
      · obtain ⟨hends, hlo, hhi⟩ := mem_anchors h
        exact ⟨⟨k, List.mem_cons_self, hends⟩, hlo, by omega⟩
      · obtain ⟨⟨l, hl, hends⟩, hlo, hhi⟩ := ih h
        exact ⟨⟨l, List.mem_cons_of_mem k hl, hends⟩, by omega, by omega⟩

/-- Anchors go up if the ends of each piece are in order and each piece ends before the next. -/
theorem anchorsAll_pairwise {size : Nat}
    (hends : ∀ k ∈ ks, ∀ a b, k.piece.ends? s = some (a, b) → a ≤ b)
    (hapart : ks.Pairwise fun k l => ∀ a b c d, k.piece.ends? s = some (a, b) →
      l.piece.ends? s = some (c, d) → b ≤ c) :
    (anchorsAll s style size ks).Pairwise Anchor.Before := by
  induction ks generalizing size with
  | nil => exact List.Pairwise.nil
  | cons k ks ih =>
      obtain ⟨hfirst, hrest⟩ := List.pairwise_cons.mp hapart
      have hlater := fun l hl => hends l (List.mem_cons_of_mem k hl)
      refine List.pairwise_append.mpr ⟨?_, ih hlater hrest, fun a ha b hb => ?_⟩
      · rw [anchors]
        split
        · exact List.Pairwise.nil
        · rename_i start stop hk
          have hle := hends k List.mem_cons_self start stop hk
          have hlen : (k.text s style).length = k.gap.length + (k.piece.text s style).length := by
            simp [text]
          refine List.pairwise_pair.mpr ⟨?_, ?_⟩
          · simpa using hle
          · simp only
            omega
      · obtain ⟨⟨start, stop, hk, ha⟩, -, hout⟩ := mem_anchors ha
        obtain ⟨⟨l, hl, start', stop', hl', hb⟩, hout', -⟩ := mem_anchorsAll hb
        have hle := hends k List.mem_cons_self start stop hk
        have hle' := hlater l hl start' stop' hl'
        have hbetween := hfirst l hl start stop start' stop' hk hl'
        exact ⟨by omega, by omega⟩

namespace Cover

variable {k : Stroke} (h : Cover s style regions separator ks)
include h

theorem mem_significant (hk : k ∈ ks) {id : Nat} (hid : id ∈ k.piece.ids s) :
    id ∈ s.significant := by
  rw [← h.ids]
  exact List.mem_flatMap.mpr ⟨k, hk, hid⟩

variable (hin : Token.InOrder 0 s.file.text.length s.tokens.toList)
include hin

/-- What a later stroke stands for is behind what an earlier one stands for. -/
theorem pairwise : ks.Pairwise fun k l => ∀ i ∈ k.piece.ids s, ∀ j ∈ l.piece.ids s,
    (s.tokenAt i).stop ≤ (s.tokenAt j).start := by
  have horder := TokenStream.significant_pairwise hin
  rw [← h.ids, List.pairwise_flatMap] at horder
  exact horder.2

variable (hfit : regions.Fit s.file.text.length s.tokens.toList)
include hfit

theorem ends_bounds (hk : k ∈ ks) {a b : Nat} (hends : k.piece.ends? s = some (a, b)) :
    a ≤ b ∧ b ≤ s.file.text.length :=
  Piece.ends_bounds hin hfit (h.valid k hk).piece (fun _ => h.mem_significant hk) hends

theorem ends_apart : ks.Pairwise fun k l => ∀ a b c d, k.piece.ends? s = some (a, b) →
    l.piece.ends? s = some (c, d) → b ≤ c :=
  (h.pairwise hin).imp_of_mem fun {k l} hk hl hkl _ _ _ _ =>
    Piece.ends_apart hin hfit (h.valid k hk).piece (h.valid l hl).piece
      (fun _ => h.mem_significant hk) (fun _ => h.mem_significant hl) hkl

/-- The anchors of a text written in strokes for a whole stream go up. -/
theorem anchors_pairwise : (output s style separator ks).anchors.Pairwise Anchor.Before := by
  have hstrokes : (anchorsAll s style 0 ks).Pairwise Anchor.Before :=
    anchorsAll_pairwise (fun k hk a b hends => (h.ends_bounds hin hfit hk hends).1)
      (h.ends_apart hin hfit)
  rw [output]
  refine List.pairwise_append.mpr ⟨List.pairwise_cons.mpr ⟨fun a ha => ?_, hstrokes⟩,
    List.pairwise_singleton _ _, fun a ha b hb => ?_⟩
  · obtain ⟨⟨k, -, start, stop, -, hinput⟩, -, -⟩ := mem_anchorsAll ha
    exact ⟨by simp only; omega, Nat.zero_le _⟩
  · rw [List.mem_singleton] at hb
    subst hb
    rcases List.mem_cons.mp ha with rfl | ha
    · exact ⟨Int.natCast_nonneg _, Nat.zero_le _⟩
    · obtain ⟨⟨k, hk, start, stop, hends, hinput⟩, -, hout⟩ := mem_anchorsAll ha
      have hb := h.ends_bounds hin hfit hk hends
      exact ⟨by simp only; omega, by simp only [List.length_append]; omega⟩

/-- The edits of a text written in strokes for a whole stream rewrite the input into it. -/
theorem edits_rewrites :
    Edit.Rewrites s.file.text 0 ((output s style separator ks).edits s.file.text)
      (output s style separator ks).text := by
  refine Output.edits_rewrites rfl (h.anchors_pairwise hin hfit) ?_
  exact List.getLast?_concat

end Cover

end Stroke

end CodeLayout
