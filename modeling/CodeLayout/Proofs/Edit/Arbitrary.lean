import CodeLayout.Proofs.Edit

/-!
# Edits from elsewhere

Edits that come from elsewhere may be in any order, overlap, and run past the end of the text.
Sorted by their offsets, each one that starts at or behind the end of the last one applied and ends
in the text is applied. Two sums of words can go wrong here: the difference by which two offsets are
compared, and the end of an edit. If all differences are words, the order is right; then an end that
is no word meets a fault, unless the edit starts before the end of the last one applied.
-/

namespace CodeLayout

namespace Edit

/-- Edits in the order of their offsets; those at one offset keep their order. -/
def inOrder (es : List Edit) : List Edit :=
  es.mergeSort fun a b => decide (a.offset.toInt ≤ b.offset.toInt)

/-- Whether an edit starts at or behind an offset and ends in a text. -/
def Fits (text : Bytes) (done : Int) (e : Edit) : Prop :=
  done ≤ e.offset.toInt ∧ e.reach ≤ text.length

instance (text : Bytes) (done : Int) : DecidablePred (Fits text done) := fun _ =>
  inferInstanceAs (Decidable (_ ∧ _))

/-- The edits that are applied: each one that fits behind the end of the last one before it. -/
def chosen (text : Bytes) (done : Int) : List Edit → List Edit
  | [] => []
  | e :: es => if Fits text done e then e :: chosen text e.reach es else chosen text done es

/-- The end of the last edit that is applied. -/
def doneBy (text : Bytes) (done : Int) : List Edit → Int
  | [] => done
  | e :: es => if Fits text done e then doneBy text e.reach es else doneBy text done es

/-- The part of a text behind an offset with edits in place of what they replace. -/
def replaced (text : Bytes) (done : Int) : List Edit → Bytes
  | [] => text.drop done.toNat
  | e :: es => text.slice done.toNat e.offset.toInt.toNat ++ e.text ++ replaced text e.reach es

/-- Whether no edit ends past the words, except where it starts before the end of the last one
applied. -/
def EndsAreWords (text : Bytes) (done : Int) (es : List Edit) : Prop :=
  ∀ before e after, es = before ++ e :: after → doneBy text done before ≤ e.offset.toInt →
    e.reach < 2 ^ 63

section Sorting

variable {es sorted : List Edit} {e : Edit}

theorem mem_insertSorted {d : Edit} : d ∈ insertSorted e sorted ↔ d = e ∨ d ∈ sorted := by
  induction sorted with
  | nil => simp [insertSorted]
  | cons c sorted ih =>
      rw [insertSorted]
      split_ifs
      · rw [List.mem_cons, ih, List.mem_cons, or_left_comm]
      · rw [List.mem_cons]

/-- Edits at one offset keep their order, as the difference of their offsets is zero. -/
theorem filter_insertSorted (offset : Int64) :
    (insertSorted e sorted).filter (·.offset = offset) =
      (e :: sorted).filter (·.offset = offset) := by
  induction sorted with
  | nil => rfl
  | cons d sorted ih =>
      rw [insertSorted]
      split_ifs with hlt
      · have hne : e.offset ≠ d.offset := by
          rintro heq
          rw [heq, Int64.sub_self] at hlt
          exact Int64.lt_irrefl hlt
        rw [List.filter_cons, ih]
        by_cases he : e.offset = offset
        · have hd : ¬d.offset = offset := fun hd => hne (he.trans hd.symm)
          simp [he, hd]
        · simp [he, List.filter_cons]
      · rfl

/-- Adding an edit to sorted edits, if the differences of the offsets are words. -/
theorem pairwise_insertSorted (hsorted : sorted.Pairwise fun a b => b.offset.toInt ≤ a.offset.toInt)
    (hwords : ∀ d ∈ sorted, e.offset.toInt - d.offset.toInt < 2 ^ 63 ∧
      d.offset.toInt - e.offset.toInt < 2 ^ 63) :
    (insertSorted e sorted).Pairwise fun a b => b.offset.toInt ≤ a.offset.toInt := by
  induction sorted with
  | nil => exact List.pairwise_singleton _ _
  | cons d sorted ih =>
      obtain ⟨hfirst, hrest⟩ := List.pairwise_cons.mp hsorted
      have hd := hwords d List.mem_cons_self
      have hsub : (e.offset - d.offset).toInt = e.offset.toInt - d.offset.toInt := by
        rw [Int64.toInt_sub, Int.bmod_eq_of_le (by omega) (by omega)]
      rw [insertSorted]
      split_ifs with hlt <;> rw [Int64.lt_iff_toInt_lt, hsub, Int64.toInt_zero] at hlt
      · refine List.pairwise_cons.mpr ⟨fun c hc => ?_,
          ih hrest fun c hc => hwords c (List.mem_cons_of_mem d hc)⟩
        rcases mem_insertSorted.mp hc with rfl | hc
        · omega
        · exact hfirst c hc
      · refine List.pairwise_cons.mpr ⟨fun c hc => ?_, hsorted⟩
        rcases List.mem_cons.mp hc with rfl | hc
        · omega
        · have := hfirst c hc
          omega

/-- Adding edits one by one. -/
theorem filter_foldl_insertSorted (offset : Int64) :
    (es.foldl (fun sorted e => insertSorted e sorted) sorted).filter (·.offset = offset) =
      (es.filter (·.offset = offset)).reverse ++ sorted.filter (·.offset = offset) := by
  induction es generalizing sorted with
  | nil => rfl
  | cons e es ih =>
      rw [List.foldl_cons, ih, filter_insertSorted]
      by_cases he : e.offset = offset <;> simp [he]

theorem pairwise_foldl_insertSorted
    (hsorted : sorted.Pairwise fun a b => b.offset.toInt ≤ a.offset.toInt)
    (hwords : ∀ d ∈ es ++ sorted, ∀ e ∈ es ++ sorted, e.offset.toInt - d.offset.toInt < 2 ^ 63) :
    (es.foldl (fun sorted e => insertSorted e sorted) sorted).Pairwise
      fun a b => b.offset.toInt ≤ a.offset.toInt := by
  induction es generalizing sorted with
  | nil => exact hsorted
  | cons e es ih =>
      have hmem : ∀ d ∈ es ++ insertSorted e sorted, d ∈ e :: es ++ sorted := by
        intro d hd
        simp only [List.mem_append, mem_insertSorted, List.cons_append, List.mem_cons] at hd ⊢
        exact or_left_comm.mp hd
      refine ih (pairwise_insertSorted hsorted fun d hd => ?_)
        fun d hd c hc => hwords d (hmem d hd) c (hmem c hc)
      have he : e ∈ e :: es ++ sorted := List.mem_cons_self
      have hd' : d ∈ e :: es ++ sorted := List.mem_append_right _ hd
      exact ⟨hwords d hd' e he, hwords e he d hd'⟩

/-- Two sorted lists in which the edits at each offset are the same are the same. -/
theorem eq_of_filter_eq {as bs : List Edit}
    (has : as.Pairwise fun a b => a.offset.toInt ≤ b.offset.toInt)
    (hbs : bs.Pairwise fun a b => a.offset.toInt ≤ b.offset.toInt)
    (h : ∀ offset, as.filter (·.offset = offset) = bs.filter (·.offset = offset)) : as = bs := by
  have hmem : ∀ {cs ds : List Edit}, (∀ offset, cs.filter (·.offset = offset) =
      ds.filter (·.offset = offset)) → ∀ c ∈ cs, c ∈ ds := fun heq c hc =>
    (List.mem_filter.mp (heq c.offset ▸ List.mem_filter.mpr ⟨hc, by simp⟩)).1
  induction as generalizing bs with
  | nil =>
      cases bs with
      | nil => rfl
      | cons b bs => exact absurd (hmem (fun o => (h o).symm) b List.mem_cons_self) (by simp)
  | cons a as ih =>
      cases bs with
      | nil => exact absurd (hmem h a List.mem_cons_self) (by simp)
      | cons b bs =>
          obtain ⟨hafirst, harest⟩ := List.pairwise_cons.mp has
          obtain ⟨hbfirst, hbrest⟩ := List.pairwise_cons.mp hbs
          have hle : a.offset.toInt ≤ b.offset.toInt := by
            rcases List.mem_cons.mp (hmem (fun o => (h o).symm) b List.mem_cons_self) with rfl | hb
            · exact Int.le_refl _
            · exact hafirst b hb
          have hge : b.offset.toInt ≤ a.offset.toInt := by
            rcases List.mem_cons.mp (hmem h a List.mem_cons_self) with rfl | ha
            · exact Int.le_refl _
            · exact hbfirst a ha
          have hkey : a.offset = b.offset := Int64.toInt_inj.mp (Int.le_antisymm hle hge)
          have hhead := h a.offset
          rw [List.filter_cons_of_pos (by simp), List.filter_cons_of_pos (by simp [hkey])] at hhead
          obtain ⟨rfl, -⟩ := List.cons.inj hhead
          rw [ih harest hbrest fun offset => ?_]
          have hoffset := h offset
          by_cases ha : a.offset = offset
          · rw [List.filter_cons_of_pos (by simp [ha]), List.filter_cons_of_pos (by simp [ha])]
              at hoffset
            exact (List.cons.inj hoffset).2
          · rwa [List.filter_cons_of_neg (by simp [ha]), List.filter_cons_of_neg (by simp [ha])]
              at hoffset

theorem pairwise_inOrder (es : List Edit) :
    (inOrder es).Pairwise fun a b => a.offset.toInt ≤ b.offset.toInt := by
  refine (List.pairwise_mergeSort (fun a b c hab hbc => ?_) (fun a b => ?_) es).imp fun hab => ?_
  · simp only [decide_eq_true_eq] at hab hbc ⊢
    exact Int.le_trans hab hbc
  · simp only [Bool.or_eq_true, decide_eq_true_eq]
    exact Int.le_total _ _
  · simpa using hab

theorem filter_inOrder (es : List Edit) (offset : Int64) :
    (inOrder es).filter (·.offset = offset) = es.filter (·.offset = offset) := by
  have hperm : (inOrder es).Perm es := List.mergeSort_perm es _
  have hsub : (es.filter (·.offset = offset)).Sublist (inOrder es) := by
    refine List.sublist_mergeSort (fun a b c hab hbc => ?_) (fun a b => ?_)
      (List.Pairwise.imp_of_mem ?_ (List.pairwise_of_forall fun _ _ => trivial))
      List.filter_sublist
    · simp only [decide_eq_true_eq] at hab hbc ⊢
      exact Int.le_trans hab hbc
    · simp only [Bool.or_eq_true, decide_eq_true_eq]
      exact Int.le_total _ _
    · intro a b ha hb _
      have ha := (List.mem_filter.mp ha).2
      have hb := (List.mem_filter.mp hb).2
      simp only [decide_eq_true_eq] at ha hb ⊢
      exact Int.le_of_eq (by rw [ha, hb])
  have hfilter := hsub.filter (·.offset = offset)
  rw [List.filter_filter] at hfilter
  simp only [Bool.and_self] at hfilter
  exact (hfilter.eq_of_length (hperm.filter _).length_eq.symm).symm

/-- If the differences of all offsets are words, the edits are sorted by them. -/
theorem sort_eq_inOrder
    (hwords : ∀ d ∈ es, ∀ e ∈ es, e.offset.toInt - d.offset.toInt < 2 ^ 63) :
    sort es = inOrder es := by
  refine eq_of_filter_eq ?_ (pairwise_inOrder es) fun offset => ?_
  · exact List.pairwise_reverse.mpr
      (pairwise_foldl_insertSorted List.Pairwise.nil (by simpa using hwords))
  · rw [filter_inOrder, sort, List.filter_reverse, filter_foldl_insertSorted]
    simp

end Sorting

section Walk

variable {text : Bytes} {done : Int} {e : Edit} {es : List Edit}

/-- Behind an edit whose end is no word the text is cut out of range. -/
theorem applySorted_of_neg {start : Int64} (hneg : start.toInt < 0) (es : List Edit) :
    applySorted text start es = .error .missing := by
  have hslice : ∀ stop, slice? text start stop = .error .missing := by
    intro stop
    refine if_neg ?_
    simp only [Bool.and_eq_true, decide_eq_true_eq, Int64.le_iff_toInt_le, Int64.toInt_zero]
    omega
  induction es with
  | nil => exact hslice _
  | cons e es ih =>
      rw [applySorted]
      split_ifs
      · exact ih
      · rw [hslice]
        rfl

theorem endsAreWords_cons : EndsAreWords text done (e :: es) ↔
    (done ≤ e.offset.toInt → e.reach < 2 ^ 63) ∧
      EndsAreWords text (if Fits text done e then e.reach else done) es := by
  constructor
  · refine fun h => ⟨h [] e es rfl, fun before d after hes hle => ?_⟩
    refine h (e :: before) d after (by rw [hes, List.cons_append]) ?_
    rw [doneBy]
    split_ifs at hle ⊢ <;> exact hle
  · rintro ⟨hfirst, hrest⟩ before d after hes hle
    cases before with
    | nil =>
        obtain ⟨rfl, rfl⟩ := List.cons.inj hes
        exact hfirst hle
    | cons c before =>
        obtain ⟨rfl, hrestEq⟩ := List.cons.inj hes
        refine hrest before d after hrestEq ?_
        rw [doneBy] at hle
        split_ifs at hle ⊢ <;> exact hle

instance decidableEndsAreWords (text : Bytes) (done : Int) :
    (es : List Edit) → Decidable (EndsAreWords text done es)
  | [] => isTrue fun before _ _ hes => by cases before <;> cases hes
  | e :: es =>
    have := decidableEndsAreWords text (if Fits text done e then e.reach else done) es
    decidable_of_iff' _ endsAreWords_cons

variable (hmax : text.length < 2 ^ 63)
include hmax

section Step

variable {done : Nat} (hdone : done ≤ text.length)
include hdone

theorem applySorted_of_lt (hlt : e.offset.toInt < done) :
    applySorted text (Int64.ofNat done) (e :: es) = applySorted text (Int64.ofNat done) es := by
  refine if_pos ?_
  simp only [Bool.or_eq_true, decide_eq_true_eq, Int64.lt_iff_toInt_lt,
    Rewrites.toInt_ofNat hmax hdone]
  exact Or.inl hlt

variable (hle : (done : Int) ≤ e.offset.toInt) (hlength : 0 ≤ e.length.toInt)
include hle hlength

/-- The end of an edit that starts in range. -/
theorem toInt_stop : e.stop.toInt = if e.reach < 2 ^ 63 then e.reach else e.reach - 2 ^ 64 := by
  have ho := e.offset.toInt_lt
  have hl := e.length.toInt_lt
  rw [stop, Int64.toInt_add, Int.bmod_def, reach]
  split_ifs <;> omega

/-- An edit whose end is a word is left out if it runs past the end of the text. -/
theorem applySorted_of_length_lt (hword : e.reach < 2 ^ 63) (hlt : text.length < e.reach) :
    applySorted text (Int64.ofNat done) (e :: es) = applySorted text (Int64.ofNat done) es := by
  refine if_pos ?_
  simp only [Bool.or_eq_true, decide_eq_true_eq, Int64.lt_iff_toInt_lt,
    toInt_stop hmax hdone hle hlength, if_pos hword,
    Rewrites.toInt_ofNat hmax (Nat.le_refl text.length)]
  exact Or.inr hlt

theorem applySorted_of_fits (hfits : e.reach ≤ text.length) :
    applySorted text (Int64.ofNat done) (e :: es) =
      (applySorted text (Int64.ofNat e.reach.toNat) es).map
        (text.slice done e.offset.toInt.toNat ++ e.text ++ ·) := by
  have hstop := toInt_stop hmax hdone hle hlength
  rw [if_pos (by omega)] at hstop
  have hreach : e.offset.toInt ≤ e.reach := by
    rw [reach]
    omega
  have hstart : e.offset = Int64.ofNat e.offset.toInt.toNat := Int64.toInt_inj.mp (by
    rw [Rewrites.toInt_ofNat hmax (by omega)]
    omega)
  have hend : e.stop = Int64.ofNat e.reach.toNat := Int64.toInt_inj.mp (by
    rw [Rewrites.toInt_ofNat hmax (by omega)]
    omega)
  have hkept := Rewrites.slice?_eq_ok hmax (i := done) (j := e.offset.toInt.toNat)
    (by omega) (by omega)
  rw [applySorted, if_neg (Rewrites.not_skipped hmax (by omega) (by omega) (by omega) hstart hend),
    ← hend]
  rw [← hstart] at hkept
  rw [hkept]
  cases applySorted text e.stop es <;> rfl

/-- An edit whose end is no word is not left out, and what is behind it is cut out of range. -/
theorem applySorted_of_le_reach (hreach : 2 ^ 63 ≤ e.reach) :
    applySorted text (Int64.ofNat done) (e :: es) = .error .missing := by
  have ho := e.offset.toInt_lt
  have hl := e.length.toInt_lt
  have hstop := toInt_stop hmax hdone hle hlength
  rw [if_neg (by omega), reach] at hstop
  have hlen := Rewrites.toInt_ofNat hmax (Nat.le_refl text.length)
  have hnot : ¬(e.offset < Int64.ofNat done || Int64.ofNat text.length < e.stop) = true := by
    simp only [Bool.or_eq_true, decide_eq_true_eq, Int64.lt_iff_toInt_lt, hlen,
      Rewrites.toInt_ofNat hmax hdone]
    omega
  rw [applySorted, if_neg hnot, applySorted_of_neg (by omega) es]
  cases hslice : slice? text (Int64.ofNat done) e.offset with
  | ok kept => rfl
  | error fault =>
      rw [slice?] at hslice
      split_ifs at hslice
      exact hslice.symm ▸ rfl

end Step

/-- Applying sorted edits behind an offset of the text. -/
theorem applySorted_walk {done : Nat} (hdone : done ≤ text.length)
    (hlength : ∀ e ∈ es, 0 ≤ e.length.toInt) :
    (EndsAreWords text done es →
      applySorted text (Int64.ofNat done) es = .ok (replaced text done (chosen text done es))) ∧
    (¬EndsAreWords text done es →
      applySorted text (Int64.ofNat done) es = .error .missing) := by
  induction es generalizing done with
  | nil =>
      refine ⟨fun _ => ?_, fun h => absurd ?_ h⟩
      · exact Rewrites.applySorted_eq hmax (Rewrites.rest hdone)
      · intro before e after hes
        cases before <;> cases hes
  | cons e es ih =>
      have he := hlength e List.mem_cons_self
      have hrest : ∀ d ∈ es, 0 ≤ d.length.toInt := fun d hd => hlength d (List.mem_cons_of_mem e hd)
      rw [endsAreWords_cons, chosen]
      by_cases hle : (done : Int) ≤ e.offset.toInt
      case neg =>
        rw [if_neg fun hfits => hle hfits.1, if_neg fun hfits => hle hfits.1,
          applySorted_of_lt hmax hdone (by omega)]
        simpa only [hle, false_implies, true_and] using ih hdone hrest
      rcases Int.lt_or_le e.reach (2 ^ 63) with hword | hwrapped
      case inr =>
        refine ⟨fun h => absurd (h.1 hle) (by omega), fun _ => ?_⟩
        exact applySorted_of_le_reach hmax hdone hle he hwrapped
      rcases Int.lt_or_le text.length e.reach with hlt | hfits
      · have hnot : ¬Fits text done e := fun hfits => by
          have := hfits.2
          omega
        rw [if_neg hnot, if_neg hnot, applySorted_of_length_lt hmax hdone hle he hword hlt]
        simpa only [hword, implies_true, true_and] using ih hdone hrest
      · have hpos : 0 ≤ e.reach := by
          rw [reach]
          omega
        have hdone' : e.reach.toNat ≤ text.length := by omega
        have hmore := ih hdone' hrest
        rw [Int.toNat_of_nonneg hpos] at hmore
        rw [if_pos ⟨hle, hfits⟩, if_pos ⟨hle, hfits⟩, applySorted_of_fits hmax hdone hle he hfits,
          replaced, Int.toNat_natCast]
        refine ⟨fun h => by rw [hmore.1 h.2]; rfl, fun h => ?_⟩
        rw [hmore.2 fun hends => h ⟨fun _ => hword, hends⟩]
        rfl

end Walk

/-- Edits of no negative length whose offsets are less than the words apart: applying them gives the
text with exactly those replaced that fit behind the end of the last one before them, in the order
of their offsets, if and only if every end that is looked at is a word. Otherwise the text is cut
out of range. -/
theorem apply_eq_ok_iff (text : Bytes) (es : List Edit) (hmax : text.length < 2 ^ 63)
    (hlength : ∀ e ∈ es, 0 ≤ e.length.toInt)
    (hwords : ∀ d ∈ es, ∀ e ∈ es, e.offset.toInt - d.offset.toInt < 2 ^ 63) :
    (apply text es = .ok (replaced text 0 (chosen text 0 (inOrder es))) ↔
      EndsAreWords text 0 (inOrder es)) ∧
    (¬EndsAreWords text 0 (inOrder es) → apply text es = .error .missing) := by
  have hsorted : ∀ e ∈ inOrder es, 0 ≤ e.length.toInt := fun e he =>
    hlength e ((List.mergeSort_perm es _).mem_iff.mp he)
  obtain ⟨hok, herror⟩ := applySorted_walk hmax (Nat.zero_le text.length) hsorted
  rw [apply, sort_eq_inOrder hwords]
  refine ⟨⟨fun heq => ?_, hok⟩, herror⟩
  by_cases hends : EndsAreWords text 0 (inOrder es)
  · exact hends
  · cases (herror hends).symm.trans heq

/-- Three edits out of order: one runs past the end of the text, and one reaches back into
another. -/
theorem apply_eq_ok_iff_three :
    let es : List Edit := [⟨3, 9, []⟩, ⟨1, 2, ascii "x"⟩, ⟨2, 0, ascii "y"⟩]
    (ascii "abcd").length < 2 ^ 63 ∧ (∀ e ∈ es, 0 ≤ e.length.toInt) ∧
      (∀ d ∈ es, ∀ e ∈ es, e.offset.toInt - d.offset.toInt < 2 ^ 63) ∧
      apply (ascii "abcd") es = .ok (ascii "axd") := by
  intro es
  have hmax : (ascii "abcd").length < 2 ^ 63 := by decide
  have hlength : ∀ e ∈ es, 0 ≤ e.length.toInt := by decide
  have hwords : ∀ d ∈ es, ∀ e ∈ es, e.offset.toInt - d.offset.toInt < 2 ^ 63 := by decide
  have happly := (apply_eq_ok_iff (ascii "abcd") es hmax hlength hwords).1
  rw [← sort_eq_inOrder hwords] at happly
  exact ⟨hmax, hlength, hwords, (happly.mpr (by decide)).trans (congrArg Except.ok (by decide))⟩

/-- An edit of the largest length runs past the end of the text and is not left out: the text is cut
out of range. Offsets that are more than the words apart are not sorted, so that an edit that fits
is left out. -/
theorem apply_ne_replaced :
    apply (ascii "ab") [⟨1, 9223372036854775807, ascii "x"⟩] = .error .missing ∧
      chosen (ascii "ab") 0 [⟨1, 9223372036854775807, ascii "x"⟩] = [] ∧
      apply (ascii "abcd") [⟨3, 0, ascii "x"⟩, ⟨-9223372036854775806, 0, []⟩, ⟨1, 0, ascii "y"⟩] =
        .ok (ascii "abcxd") ∧
      chosen (ascii "abcd") 0
          [⟨-9223372036854775806, 0, []⟩, ⟨1, 0, ascii "y"⟩, ⟨3, 0, ascii "x"⟩] =
        [⟨1, 0, ascii "y"⟩, ⟨3, 0, ascii "x"⟩] :=
  ⟨rfl, by decide, rfl, by decide⟩

end Edit

end CodeLayout
