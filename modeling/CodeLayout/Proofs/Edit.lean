import CodeLayout.Edit
import CodeLayout.Proofs.IntervalMap
import Mathlib.Algebra.Group.Nat.Defs
import Mathlib.Tactic.NthRewrite
import Mathlib.Tactic.Set
import Mathlib.Tactic.SplitIfs

/-!
# Edits between anchors

The edit between two texts cuts out what they do not share. Edits that are in order and in range
rewrite a text piece by piece, and applying them leaves none of them out. The edits between anchors
that go up in the input and in the output, from the start of both to their ends, are of this kind,
and they rewrite the input into the output.
-/

namespace CodeLayout

namespace Bytes

variable {s : Bytes} {i j k : Nat}

theorem slice_append_drop (h : i ≤ j) : s.slice i j ++ s.drop j = s.drop i := by
  have hj : j = i + (j - i) := by omega
  rw [slice]
  nth_rewrite 2 [hj]
  rw [← List.drop_drop, List.take_append_drop]

theorem slice_append_slice (hij : i ≤ j) (hjk : j ≤ k) :
    s.slice i j ++ s.slice j k = s.slice i k := by
  have hk : k - i = (j - i) + (k - j) := by omega
  have hj : i + (j - i) = j := by omega
  rw [slice, slice, slice, hk, List.take_add, List.drop_drop, hj]

theorem length_slice (hj : j ≤ s.length) : (s.slice i j).length = j - i := by
  simp only [slice, List.length_take, List.length_drop]
  omega

/-- The part of a text between two others. -/
theorem slice_between (front mid back : Bytes) :
    (front ++ mid ++ back).slice front.length (front.length + mid.length) = mid := by
  rw [slice, List.append_assoc, List.drop_left, Nat.add_sub_cancel_left, List.take_left]

/-- The first part of a slice and the rest of it are slices. -/
theorem slice_eq_append {l r : Bytes} (hk : k ≤ s.length) (hik : i ≤ k)
    (h : s.slice i k = l ++ r) :
    s.slice i (i + l.length) = l ∧ s.slice (i + l.length) k = r := by
  have hlen := congrArg List.length h
  rw [length_slice hk, List.length_append] at hlen
  have hcut : s.slice i (i + l.length) ++ s.slice (i + l.length) k = l ++ r := by
    rw [slice_append_slice (by omega) (by omega), h]
  refine List.append_inj hcut ?_
  rw [length_slice (by omega)]
  omega

end Bytes

namespace Edit

section Between

variable {old new : Bytes}

/-- Two texts agree in what they share at their start. -/
theorem take_shared (old new : Bytes) :
    old.take (shared old new) = new.take (shared old new) := by
  induction old generalizing new with
  | nil => simp [shared]
  | cons a old ih =>
      cases new with
      | nil => simp [shared]
      | cons b new =>
          by_cases hab : a = b
          · simp [shared, hab, ih new]
          · simp [shared, hab]

theorem shared_comm (old new : Bytes) : shared old new = shared new old := by
  induction old generalizing new with
  | nil => cases new <;> rfl
  | cons a old ih =>
      cases new with
      | nil => rfl
      | cons b new => simp [shared, ih new, eq_comm]

theorem shared_le (old new : Bytes) : shared old new ≤ old.length := by
  induction old generalizing new with
  | nil => simp [shared]
  | cons a old ih =>
      cases new with
      | nil => simp [shared]
      | cons b new =>
          have hle := ih new
          simp only [shared, List.length_cons]
          split_ifs <;> omega

/-- What two texts share at their end. -/
theorem drop_shared_reverse (old new : Bytes) :
    old.drop (old.length - shared old.reverse new.reverse) =
      new.drop (new.length - shared old.reverse new.reverse) := by
  have hold := shared_le old.reverse new.reverse
  have hnew := shared_le new.reverse old.reverse
  rw [shared_comm] at hnew
  have heq := congrArg List.reverse (take_shared old.reverse new.reverse)
  rw [List.take_reverse, List.take_reverse, List.reverse_reverse, List.reverse_reverse] at heq
  exact heq

/-- Behind what two texts share at their start, one of them ends or they differ. -/
theorem drop_shared (old new : Bytes) :
    old.drop (shared old new) = [] ∨ new.drop (shared old new) = [] ∨
      (old.drop (shared old new)).head? ≠ (new.drop (shared old new)).head? := by
  induction old generalizing new with
  | nil => simp [shared]
  | cons a old ih =>
      cases new with
      | nil => simp [shared]
      | cons b new =>
          by_cases hab : a = b
          · simpa [shared, hab] using ih new
          · simp [shared, hab]

/-- Whether two texts have nothing in common at either end. -/
def IsTrimmed (old new : Bytes) : Prop :=
  old = [] ∨ new = [] ∨ old.head? ≠ new.head? ∧ old.getLast? ≠ new.getLast?

/-- What is left of two texts without what they share at their start and then at their end. -/
theorem isTrimmed_take (old new : Bytes)
    (h : old = [] ∨ new = [] ∨ old.head? ≠ new.head?) :
    IsTrimmed (old.take (old.length - shared old.reverse new.reverse))
      (new.take (new.length - shared old.reverse new.reverse)) := by
  have hold : old.take (old.length - shared old.reverse new.reverse) =
      (old.reverse.drop (shared old.reverse new.reverse)).reverse := by
    rw [List.drop_reverse, List.reverse_reverse]
  have hnew : new.take (new.length - shared old.reverse new.reverse) =
      (new.reverse.drop (shared old.reverse new.reverse)).reverse := by
    rw [List.drop_reverse, List.reverse_reverse]
  rcases drop_shared old.reverse new.reverse with hnil | hnil | hlast
  · exact Or.inl (by rw [hold, hnil, List.reverse_nil])
  · exact Or.inr (Or.inl (by rw [hnew, hnil, List.reverse_nil]))
  · by_cases holdNil : old.take (old.length - shared old.reverse new.reverse) = []
    · exact Or.inl holdNil
    by_cases hnewNil : new.take (new.length - shared old.reverse new.reverse) = []
    · exact Or.inr (Or.inl hnewNil)
    refine Or.inr (Or.inr ⟨?_, ?_⟩)
    · -- A part that is not empty starts as the whole does.
      have hhead : ∀ {s : Bytes} {n : Nat}, s.take n ≠ [] → (s.take n).head? = s.head? :=
        fun hne => by
          rw [List.head?_take, if_neg]
          rintro rfl
          exact hne List.take_zero
      rw [hhead holdNil, hhead hnewNil]
      rcases h with rfl | rfl | h
      · simp at holdNil
      · simp at hnewNil
      · exact h
    · rwa [hold, hnew, List.getLast?_reverse, List.getLast?_reverse]

/-- The edit between two texts that differ replaces what stands between a front and a back that
both have, and nothing that its two sides share. -/
theorem between?_eq_some {offset : Nat} {e : Edit} (h : between? offset old new = some e) :
    ∃ front mid back, old = front ++ mid ++ back ∧ new = front ++ e.text ++ back ∧
      e.offset = Int64.ofNat (offset + front.length) ∧ e.length = Int64.ofNat mid.length ∧
      IsTrimmed mid e.text := by
  rw [between?] at h
  split_ifs at h with heq
  obtain rfl := Option.some.inj h
  have hfront := shared_le old new
  have hback := drop_shared_reverse (old.drop (shared old new)) (new.drop (shared old new))
  set front := shared old new
  set back := shared (old.drop front).reverse (new.drop front).reverse
  refine ⟨old.take front, (old.drop front).take ((old.drop front).length - back),
    (old.drop front).drop ((old.drop front).length - back), ?_, ?_, ?_, ?_,
    isTrimmed_take _ _ (drop_shared old new)⟩
  · rw [List.append_assoc, List.take_append_drop, List.take_append_drop]
  · rw [hback, take_shared, List.append_assoc, List.take_append_drop, List.take_append_drop]
  · rw [List.length_take, Nat.min_eq_left hfront]
  · rw [List.length_take, Nat.min_eq_left (Nat.sub_le _ _)]

theorem between?_eq_none {offset : Nat} (h : between? offset old new = none) : old = new := by
  rw [between?] at h
  split_ifs at h with heq
  exact heq

end Between

section Order

variable {es sorted : List Edit}

/-- Adding an edit that does not start before any other puts it first. -/
theorem insertSorted_of_le {e : Edit} (h : ∀ d ∈ sorted, 0 ≤ d.offset.toInt)
    (hle : ∀ d ∈ sorted, d.offset.toInt ≤ e.offset.toInt) :
    insertSorted e sorted = e :: sorted := by
  cases sorted with
  | nil => rfl
  | cons d ds =>
      have hd := h d List.mem_cons_self
      have hde := hle d List.mem_cons_self
      have hlt := e.offset.toInt_lt
      have hsub : (e.offset - d.offset).toInt = e.offset.toInt - d.offset.toInt := by
        rw [Int64.toInt_sub, Int.bmod_eq_of_le (by omega) (by omega)]
      refine if_neg ?_
      rw [Int64.lt_iff_toInt_lt, hsub, Int64.toInt_zero]
      omega

/-- Edits in order are not moved. -/
theorem sort_eq_self (h : ∀ e ∈ es, 0 ≤ e.offset.toInt)
    (hes : es.Pairwise fun a b => a.offset.toInt ≤ b.offset.toInt) : sort es = es := by
  suffices hfold : ∀ sorted, (∀ d ∈ sorted, 0 ≤ d.offset.toInt) →
      (∀ d ∈ sorted, ∀ e ∈ es, d.offset.toInt ≤ e.offset.toInt) →
      es.foldl (fun sorted e => insertSorted e sorted) sorted = es.reverse ++ sorted by
    rw [sort, hfold [] (by simp) (by simp), List.append_nil, List.reverse_reverse]
  induction es with
  | nil => simp
  | cons e es ih =>
      intro sorted hpos hle
      obtain ⟨hfirst, hrest⟩ := List.pairwise_cons.mp hes
      rw [List.foldl_cons, insertSorted_of_le hpos fun d hd => hle d hd e List.mem_cons_self,
        ih (fun d hd => h d (List.mem_cons_of_mem e hd)) hrest, List.reverse_cons,
        List.append_assoc, List.singleton_append]
      · intro d hd
        rcases List.mem_cons.mp hd with rfl | hd
        · exact h d List.mem_cons_self
        · exact hpos d hd
      · intro d hd c hc
        rcases List.mem_cons.mp hd with rfl | hd
        · exact hfirst c hc
        · exact hle d hd c (List.mem_cons_of_mem e hc)

end Order

/-- The end of an edit, counted over the integers. -/
def reach (e : Edit) : Int :=
  e.offset.toInt + e.length.toInt

/-- The sorted edits that are not left out when they are applied behind the offset `done`. -/
def admitted (text : Bytes) (done : Int64) : List Edit → List Edit
  | [] => []
  | e :: es =>
    if e.offset < done || Int64.ofNat text.length < e.stop then admitted text done es
    else e :: admitted text e.stop es

/-- Applying edits comes to applying those that are admitted. -/
theorem applySorted_admitted (text : Bytes) (done : Int64) (es : List Edit) :
    applySorted text done (admitted text done es) = applySorted text done es := by
  induction es generalizing done with
  | nil => rfl
  | cons e es ih =>
      rw [admitted, applySorted]
      split_ifs with hskip
      · exact ih done
      · rw [applySorted, if_neg hskip, ih e.stop]

/-- Edits in order and in range rewrite a text from the offset `done` on. -/
inductive Rewrites (text : Bytes) : Nat → List Edit → Bytes → Prop
  | rest {done : Nat} (h : done ≤ text.length) : Rewrites text done [] (text.drop done)
  | edit {done start stop : Nat} {e : Edit} {es : List Edit} {out : Bytes} (hdone : done ≤ start)
      (hstart : start ≤ stop) (hstop : stop ≤ text.length) (hoffset : e.offset = Int64.ofNat start)
      (hend : e.stop = Int64.ofNat stop) (h : Rewrites text stop es out) :
      Rewrites text done (e :: es) (text.slice done start ++ e.text ++ out)

namespace Rewrites

variable {text out : Bytes} {done before : Nat} {es : List Edit}

/-- What is before the edits is kept. -/
theorem extend (h : Rewrites text done es out) (hle : before ≤ done) :
    Rewrites text before es (text.slice before done ++ out) := by
  cases h with
  | rest h =>
      rw [Bytes.slice_append_drop hle]
      exact Rewrites.rest (Nat.le_trans hle h)
  | edit hdone hstart hstop hoffset hend h =>
      rw [← List.append_assoc, ← List.append_assoc, Bytes.slice_append_slice hle hdone]
      exact Rewrites.edit (Nat.le_trans hle hdone) hstart hstop hoffset hend h

variable (hmax : text.length < 2 ^ 63)
include hmax

theorem toInt_ofNat {n : Nat} (h : n ≤ text.length) : (Int64.ofNat n).toInt = n :=
  Int64.toInt_ofNat_of_lt (Nat.lt_of_le_of_lt h hmax)

/-- Where the edits lie. -/
theorem bounds (h : Rewrites text done es out) : ∀ e ∈ es, (done : Int) ≤ e.offset.toInt ∧
    e.offset.toInt ≤ e.stop.toInt ∧ e.stop.toInt ≤ text.length := by
  induction h with
  | rest h => simp
  | edit hdone hstart hstop hoffset hend h ih =>
      intro e he
      rcases List.mem_cons.mp he with rfl | he
      · rw [hoffset, hend, toInt_ofNat hmax hstop, toInt_ofNat hmax (Nat.le_trans hstart hstop)]
        omega
      · obtain ⟨hlo, hrest⟩ := ih e he
        exact ⟨by omega, hrest⟩

/-- The end of an edit in range is the sum of its offset and its length. -/
theorem toInt_stop (h : Rewrites text done es out) : ∀ e ∈ es, e.stop.toInt = e.reach := by
  intro e he
  obtain ⟨hlo, hmid, hhi⟩ := bounds hmax h e he
  have hlength := e.length.toInt_lt
  have hlow := e.length.le_toInt
  rw [stop, Int64.toInt_add, Int.bmod_def] at hmid hhi ⊢
  rw [reach]
  split_ifs at hmid hhi ⊢ <;> omega

theorem pairwise (h : Rewrites text done es out) :
    es.Pairwise fun a b => a.stop.toInt ≤ b.offset.toInt := by
  induction h with
  | rest h => exact List.Pairwise.nil
  | edit hdone hstart hstop hoffset hend h ih =>
      refine List.pairwise_cons.mpr ⟨fun b hb => ?_, ih⟩
      rw [hend, toInt_ofNat hmax hstop]
      exact (bounds hmax h b hb).1

theorem sort_eq (h : Rewrites text done es out) : sort es = es := by
  have hb := bounds hmax h
  refine sort_eq_self (fun e he => ?_) ((pairwise hmax h).imp_of_mem fun {a b} ha _ hab => ?_)
  · have := (hb e he).1
    omega
  · exact Int.le_trans (hb a ha).2.1 hab

/-- An edit that starts at the offset or behind it and ends in the text is not left out. -/
theorem not_skipped {e : Edit} {start stop : Nat} (hdone : done ≤ start) (hstart : start ≤ stop)
    (hstop : stop ≤ text.length) (hoffset : e.offset = Int64.ofNat start)
    (hend : e.stop = Int64.ofNat stop) :
    ¬(e.offset < Int64.ofNat done || Int64.ofNat text.length < e.stop) = true := by
  have hle := Nat.le_trans hstart hstop
  simp only [Bool.or_eq_true, decide_eq_true_eq, Int64.lt_iff_toInt_lt, hoffset, hend,
    toInt_ofNat hmax hle, toInt_ofNat hmax (Nat.le_trans hdone hle), toInt_ofNat hmax hstop,
    toInt_ofNat hmax (Nat.le_refl _)]
  omega

theorem slice?_eq_ok {i j : Nat} (hij : i ≤ j) (hj : j ≤ text.length) :
    slice? text (Int64.ofNat i) (Int64.ofNat j) = .ok (text.slice i j) := by
  have hi := Nat.le_trans hij hj
  rw [slice?, toInt_ofNat hmax hi, toInt_ofNat hmax hj, Int.toNat_natCast, Int.toNat_natCast]
  refine if_pos ?_
  simp only [Bool.and_eq_true, decide_eq_true_eq, Int64.le_iff_toInt_le, toInt_ofNat hmax hi,
    toInt_ofNat hmax hj, toInt_ofNat hmax (Nat.le_refl _), Int64.toInt_zero]
  omega

theorem applySorted_eq (h : Rewrites text done es out) :
    applySorted text (Int64.ofNat done) es = .ok out := by
  induction h with
  | rest h =>
      rw [applySorted, slice?_eq_ok hmax h (Nat.le_refl _), Bytes.slice, List.take_of_length_le]
      simp
  | edit hdone hstart hstop hoffset hend h ih =>
      rw [applySorted, if_neg (not_skipped hmax hdone hstart hstop hoffset hend), hend, ih, hoffset,
        slice?_eq_ok hmax hdone (Nat.le_trans hstart hstop)]
      rfl

theorem admitted_eq (h : Rewrites text done es out) :
    admitted text (Int64.ofNat done) es = es := by
  induction h with
  | rest h => rfl
  | edit hdone hstart hstop hoffset hend h ih =>
      rw [admitted, if_neg (not_skipped hmax hdone hstart hstop hoffset hend), hend, ih]

/-- Edits in order and in range that rewrite a whole text: applying them leaves none out. -/
theorem apply_eq (h : Rewrites text 0 es out) :
    apply text es = .ok out ∧ admitted text 0 (sort es) = es := by
  rw [apply, sort_eq hmax h]
  exact ⟨applySorted_eq hmax h, admitted_eq hmax h⟩

/-- All edits in range touch the whole text. -/
theorem filter_touches (h : Rewrites text 0 es out) :
    es.filter (touches 0 (Int64.ofNat text.length)) = es := by
  rw [List.filter_eq_self]
  intro e he
  obtain ⟨hlo, hmid, hhi⟩ := bounds hmax h e he
  have hlen := toInt_ofNat hmax (Nat.le_refl text.length)
  have hpos : (0 : Int64) ≤ Int64.ofNat text.length := by
    rw [Int64.le_iff_toInt_le, hlen, Int64.toInt_zero]
    omega
  have hwhole : (0 : Int64) + max (Int64.ofNat text.length) 0 = Int64.ofNat text.length := by
    rw [Int64.zero_add]
    change (if Int64.ofNat text.length ≤ 0 then 0 else Int64.ofNat text.length) = _
    split_ifs with hzero
    · exact Int64.le_antisymm hpos hzero
    · rfl
  rw [touches, hwhole]
  simp only [Bool.and_eq_true, decide_eq_true_eq, Int64.le_iff_toInt_le, hlen, Int64.toInt_zero]
  omega

end Rewrites

end Edit

/-- An anchor that is before another in the input and in the output. -/
def Anchor.Before (a b : Anchor) : Prop :=
  a.input ≤ b.input ∧ a.output ≤ b.output

namespace Output

variable {o : Output} {input : Bytes} {a b : Anchor}

/-- The edit between two anchors, if there is one, in front of edits behind them. -/
theorem rewrites_between {es : List Edit} {out : Bytes} (hab : a.Before b)
    (hb : b.input ≤ input.length) (h : Edit.Rewrites input b.input.toNat es out) :
    Edit.Rewrites input a.input.toNat ((o.editBetween? input a b).toList ++ es)
      (o.text.slice a.output b.output ++ out) := by
  obtain ⟨hin, hout⟩ := hab
  have hle : a.input.toNat ≤ b.input.toNat := by omega
  have hlen : b.input.toNat ≤ input.length := by omega
  have hnot : ¬(b.input < a.input || b.output < a.output) = true := by
    simp only [Bool.or_eq_true, decide_eq_true_eq]
    omega
  rw [editBetween?, if_neg hnot]
  cases hedit : Edit.between? a.input.toNat (input.slice a.input.toNat b.input.toNat)
      (o.text.slice a.output b.output) with
  | none =>
      rw [← Edit.between?_eq_none hedit]
      exact h.extend hle
  | some e =>
      obtain ⟨front, mid, back, hold, hnew, hoffset, hlength, -⟩ := Edit.between?_eq_some hedit
      rw [List.append_assoc] at hold
      have hsum := congrArg List.length hold
      simp only [Bytes.length_slice hlen, List.length_append] at hsum
      obtain ⟨hfront, htail⟩ := Bytes.slice_eq_append hlen hle hold
      obtain ⟨-, hback⟩ := Bytes.slice_eq_append hlen (by omega) htail
      have hend : e.stop = Int64.ofNat (a.input.toNat + front.length + mid.length) := by
        rw [Edit.stop, hoffset, hlength, ← Int64.ofNat_add]
      have hall := Edit.Rewrites.edit (Nat.le_add_right _ _) (Nat.le_add_right _ _) (by omega)
        hoffset hend (h.extend (by omega))
      rw [hfront, hback] at hall
      rwa [hnew, List.append_assoc _ back]

/-- The edits between anchors that go up to the ends of the input and the output rewrite what is
behind the first of them. -/
theorem rewrites_anchors {as : List Anchor}
    (horder : (a :: as).Pairwise Anchor.Before)
    (hlast : (a :: as).getLast? = some ⟨input.length, o.text.length⟩) :
    Edit.Rewrites input a.input.toNat
      (((a :: as).zip as).filterMap fun (b, c) => o.editBetween? input b c)
      (o.text.drop a.output) := by
  induction as generalizing a with
  | nil =>
      obtain rfl := Option.some.inj hlast
      have hrest : Edit.Rewrites input input.length [] (input.drop input.length) :=
        .rest (Nat.le_refl _)
      simpa using hrest
  | cons b as ih =>
      obtain ⟨hfirst, hrest⟩ := List.pairwise_cons.mp horder
      rw [List.getLast?_cons_cons] at hlast
      have hab := hfirst b List.mem_cons_self
      -- No anchor is behind the last one.
      have hend : b.input ≤ input.length := by
        rcases List.mem_cons.mp (List.mem_of_getLast? hlast) with heq | hmem
        · exact Int.le_of_eq (congrArg Anchor.input heq).symm
        · exact ((List.pairwise_cons.mp hrest).1 _ hmem).1
      have hmore := ih hrest hlast
      have hall := rewrites_between (o := o) hab hend hmore
      rw [Bytes.slice_append_drop hab.2] at hall
      cases hedit : o.editBetween? input a b with
      | none => simpa [hedit] using hall
      | some e => simpa [hedit] using hall

/-- The edits of a written text whose anchors go up from the start of the input and the output to
their ends turn the input into the text. -/
theorem edits_rewrites {as : List Anchor} (hanchors : o.anchors = ⟨0, 0⟩ :: as)
    (horder : o.anchors.Pairwise Anchor.Before)
    (hlast : o.anchors.getLast? = some ⟨input.length, o.text.length⟩) :
    Edit.Rewrites input 0 (o.edits input) o.text := by
  rw [hanchors] at horder hlast
  have h := rewrites_anchors (o := o) horder hlast
  rw [edits, hanchors]
  exact h

end Output

end CodeLayout
