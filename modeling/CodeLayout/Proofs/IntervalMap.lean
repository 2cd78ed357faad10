import CodeLayout.IntervalMap
import Mathlib.Algebra.Group.Int.Defs

/-!
# Maps of disjoint intervals

At every key the entries of a map whose intervals are not empty and follow each other fall into the
ones that end there or in front of it and the ones that end behind it. The first of the latter is
the only one that can hold the key. An interval that fits between two neighbours is stored between
them.

Of the entries that end behind the start of an interval only the first can be the least one that the
interval overlaps, so it is enough to look at that one. An interval that overlaps none is stored in
front of it, and the map stays in order; so every map that is made by insertions is in order.
-/

namespace CodeLayout

namespace IntervalMap

variable {α : Type} {m : IntervalMap α} {i : Interval α} {key : Int64}

/-- No interval of a list is empty, and each ends before the next starts. -/
structure Ordered (es : List (Interval α)) : Prop where
  pairwise : es.Pairwise fun a b => a.stop.toInt ≤ b.start.toInt
  nonempty : ∀ e ∈ es, e.start.toInt < e.stop.toInt

theorem Ordered.tail {e : Interval α} {es : List (Interval α)} (h : Ordered (e :: es)) :
    Ordered es :=
  ⟨h.pairwise.of_cons, fun d hd => h.nonempty d (List.mem_cons_of_mem e hd)⟩

theorem Ordered.append_right {before behind : List (Interval α)}
    (h : Ordered (before ++ behind)) : Ordered behind :=
  ⟨(List.pairwise_append.mp h.pairwise).2.1, fun e he =>
    h.nonempty e (List.mem_append_right before he)⟩

/-- The first of the entries starts first. -/
theorem Ordered.start_le {e d : Interval α} {es : List (Interval α)} (h : Ordered (e :: es))
    (hd : d ∈ e :: es) : e.start.toInt ≤ d.start.toInt := by
  rcases List.mem_cons.mp hd with rfl | hd
  · exact Int.le_refl _
  · have hle := (List.pairwise_cons.mp h.pairwise).1 d hd
    have hne := h.nonempty e List.mem_cons_self
    omega

theorem toInt_succ (h : key.toInt < 2 ^ 63 - 1) : (key + 1).toInt = key.toInt + 1 := by
  have hle := key.le_toInt
  rw [Int64.toInt_add, Int64.toInt_one, Int.bmod_eq_of_le (by omega) (by omega)]

theorem succ_le_iff {e : Int64} (h : key.toInt < 2 ^ 63 - 1) :
    key + 1 ≤ e ↔ key.toInt < e.toInt := by
  rw [Int64.le_iff_toInt_le, toInt_succ h]
  omega

theorem contains_iff : i.contains key = true ↔
    i.start.toInt ≤ key.toInt ∧ key.toInt < i.stop.toInt := by
  simp [Interval.contains, Int64.le_iff_toInt_le, Int64.lt_iff_toInt_lt]

/-- The entries of a map on both sides of a key. The first one that ends behind it is found. -/
theorem exists_split (key : Int64) (hm : Ordered m.entries) (hkey : key.toInt < 2 ^ 63 - 1) :
    ∃ before behind, m.entries = before ++ behind ∧ (∀ e ∈ before, e.stop.toInt ≤ key.toInt) ∧
      (∀ e ∈ behind, key.toInt < e.stop.toInt) ∧ m.seek? (key + 1) = behind.head? := by
  obtain ⟨es⟩ := m
  simp only [seek?] at hm ⊢
  induction es with
  | nil => exact ⟨[], [], by simp⟩
  | cons e es ih =>
      by_cases he : key.toInt < e.stop.toInt
      · refine ⟨[], e :: es, rfl, by simp, fun d hd => ?_, ?_⟩
        · rcases List.mem_cons.mp hd with rfl | hd
          · exact he
          · have hafter := (List.pairwise_cons.mp hm.pairwise).1 d hd
            have hne := hm.tail.nonempty d hd
            omega
        · exact List.find?_cons_of_pos (by simpa using (succ_le_iff hkey).mpr he)
      · obtain ⟨before, behind, rfl, hbefore, hbehind, hfind⟩ := ih hm.tail
        refine ⟨e :: before, behind, rfl, fun d hd => ?_, hbehind, ?_⟩
        · rcases List.mem_cons.mp hd with rfl | hd
          · omega
          · exact hbefore d hd
        · rw [List.find?_cons_of_neg (by simpa using fun h => he ((succ_le_iff hkey).mp h)), hfind]

/-- The interval that is found holds the key, and it is the only one that does. -/
theorem get?_eq_some_iff (hm : Ordered m.entries) (hkey : key.toInt < 2 ^ 63 - 1) :
    m.get? key = some i ↔ i ∈ m.entries ∧ i.contains key = true := by
  obtain ⟨before, behind, hsplit, hbefore, hbehind, hseek⟩ := exists_split key hm hkey
  rw [hsplit] at hm ⊢
  rw [get?, hseek, contains_iff, List.mem_append]
  cases behind with
  | nil =>
      refine ⟨nofun, ?_⟩
      rintro ⟨hi | hi, -, hstop⟩
      · have hle := hbefore i hi
        omega
      · cases hi
  | cons e behind =>
      rw [List.head?_cons, Option.filter_some, Option.ite_none_right_eq_some, decide_eq_true_eq,
        Int64.le_iff_toInt_le]
      constructor
      · rintro ⟨hstart, hfound⟩
        obtain rfl : e = i := Option.some.inj hfound
        exact ⟨Or.inr List.mem_cons_self, hstart, hbehind e List.mem_cons_self⟩
      · rintro ⟨hi | hi, hstart, hstop⟩
        · have hle := hbefore i hi
          omega
        · rcases List.mem_cons.mp hi with rfl | hi
          · exact ⟨hstart, rfl⟩
          · -- A later entry starts behind the end of the first, which is behind the key.
            have hle := (List.pairwise_cons.mp hm.append_right.pairwise).1 i hi
            have hlt := hbehind e List.mem_cons_self
            omega

/-- An interval is put behind the ones that end before it does and in front of the others. -/
theorem put_between {before behind : List (Interval α)}
    (hbefore : ∀ e ∈ before, e.stop.toInt < i.stop.toInt)
    (hbehind : ∀ e ∈ behind, i.stop.toInt < e.stop.toInt) :
    put i (before ++ behind) = before ++ i :: behind := by
  induction before with
  | nil =>
      cases behind with
      | nil => rfl
      | cons e behind =>
          have he := hbehind e List.mem_cons_self
          rw [← Int64.lt_iff_toInt_lt] at he
          rw [List.nil_append, put, if_pos he]
          rfl
  | cons e before ih =>
      have he := hbefore e List.mem_cons_self
      have hlt : ¬i.stop < e.stop := by
        rw [Int64.lt_iff_toInt_lt]
        omega
      have hne : i.stop ≠ e.stop := by
        intro heq
        rw [heq] at he
        omega
      rw [List.cons_append, put, if_neg hlt, if_neg hne,
        ih fun d hd => hbefore d (List.mem_cons_of_mem e hd)]
      rfl

/-- An interval that is not empty is stored unless one is in the way. -/
theorem insert_eq (hi : i.start.toInt < i.stop.toInt) :
    m.insert i = match m.overlap? i with
      | some e => .blocked e
      | none => .done ⟨put i m.entries⟩ := by
  have hnot : ¬i.stop < i.start := by
    rw [Int64.lt_iff_toInt_lt]
    omega
  have hne : i.start ≠ i.stop := by
    intro heq
    rw [heq] at hi
    omega
  cases hover : m.overlap? i with
  | none => rw [insert, if_neg hnot, if_neg hne, hover]
  | some e => rw [insert, if_neg hnot, if_neg hne, hover]

/-- An interval is inserted between the ones that end at its start or in front of it and the ones
that start at its end or behind it. -/
theorem insert_between {before behind : List (Interval α)} (hi : i.start.toInt < i.stop.toInt)
    (hbefore : ∀ e ∈ before, e.stop.toInt ≤ i.start.toInt)
    (hbehind : ∀ e ∈ behind, i.stop.toInt ≤ e.start.toInt ∧ e.start.toInt < e.stop.toInt) :
    (⟨before ++ behind⟩ : IntervalMap α).insert i = .done ⟨before ++ i :: behind⟩ := by
  have hmax := i.stop.toInt_lt
  have hskip : before.find? (fun e => decide (i.start + 1 ≤ e.stop)) = none := by
    rw [List.find?_eq_none]
    intro e he
    rw [decide_eq_true_eq, succ_le_iff (by omega)]
    have hle := hbefore e he
    omega
  have hover : (⟨before ++ behind⟩ : IntervalMap α).overlap? i = none := by
    rw [overlap?, seek?, List.find?_append, hskip, Option.none_or, Option.filter_eq_none_iff]
    intro e he
    have hle := (hbehind e (List.mem_of_find?_eq_some he)).1
    rw [decide_eq_true_eq, Int64.lt_iff_toInt_lt]
    omega
  have hput : put i (before ++ behind) = before ++ i :: behind := by
    apply put_between
    · intro e he
      have hle := hbefore e he
      omega
    · intro e he
      have hle := hbehind e he
      omega
  rw [insert_eq hi, hover, hput]

theorem insert_behind (hi : i.start.toInt < i.stop.toInt)
    (h : ∀ e ∈ m.entries, e.stop.toInt ≤ i.start.toInt) :
    m.insert i = .done ⟨m.entries ++ [i]⟩ := by
  have hinsert : (⟨m.entries ++ []⟩ : IntervalMap α).insert i = .done ⟨m.entries ++ [i]⟩ :=
    insert_between hi h (by simp)
  rwa [List.append_nil] at hinsert

end IntervalMap

variable {α : Type}

/-- Two intervals overlap if a key lies in both. -/
def Interval.Overlaps (a b : Interval α) : Prop :=
  ∃ key, a.contains key = true ∧ b.contains key = true

namespace IntervalMap

/-- The map behind an insertion. -/
def after (m : IntervalMap α) (i : Interval α) : IntervalMap α :=
  match m.insert i with
  | .done m' => m'
  | _ => m

/-- The map behind insertions into an empty map, one after another. -/
def ofInsertions (is : List (Interval α)) : IntervalMap α :=
  is.foldl after empty

variable {m : IntervalMap α} {i : Interval α}

theorem overlaps_iff {a b : Interval α} (ha : a.start.toInt < a.stop.toInt)
    (hb : b.start.toInt < b.stop.toInt) :
    a.Overlaps b ↔ a.start.toInt < b.stop.toInt ∧ b.start.toInt < a.stop.toInt := by
  constructor
  · rintro ⟨key, hkeya, hkeyb⟩
    rw [contains_iff] at hkeya hkeyb
    omega
  · rintro ⟨hab, hba⟩
    -- The start of the interval that starts last lies in both.
    rcases Int.le_total a.start.toInt b.start.toInt with hle | hle
    · exact ⟨b.start, contains_iff.mpr ⟨hle, hba⟩, contains_iff.mpr ⟨Int.le_refl _, hb⟩⟩
    · exact ⟨a.start, contains_iff.mpr ⟨Int.le_refl _, ha⟩, contains_iff.mpr ⟨hle, hab⟩⟩

/-- Of the entries that an interval overlaps none is in front of the first one that ends behind its
start. -/
theorem Ordered.start_le_of_overlaps {e d : Interval α} {before behind : List (Interval α)}
    (h : Ordered (before ++ e :: behind)) (hbefore : ∀ e ∈ before, e.stop.toInt ≤ i.start.toInt)
    (hd : d ∈ before ++ e :: behind) (hover : d.Overlaps i) :
    e.start.toInt ≤ d.start.toInt := by
  rcases List.mem_append.mp hd with hd | hd
  · obtain ⟨key, hkeyd, hkeyi⟩ := hover
    rw [contains_iff] at hkeyd hkeyi
    have hle := hbefore d hd
    omega
  · exact h.append_right.start_le hd

/-- Inserting an interval: the first entry that ends behind its start is in the way, or the interval
is stored in front of that entry. -/
theorem insert_cases (hm : Ordered m.entries) (hi : i.start.toInt < i.stop.toInt) :
    (∃ e ∈ m.entries, m.insert i = .blocked e ∧ e.Overlaps i ∧
      ∀ d ∈ m.entries, d.Overlaps i → e.start.toInt ≤ d.start.toInt) ∨
    ∃ before behind, m.entries = before ++ behind ∧
      (∀ e ∈ before, e.stop.toInt ≤ i.start.toInt) ∧
      (∀ e ∈ behind, i.stop.toInt ≤ e.start.toInt) ∧
      m.insert i = .done ⟨before ++ i :: behind⟩ := by
  have hmax := i.stop.toInt_lt
  obtain ⟨before, behind, hsplit, hbefore, hbehind, hseek⟩ :=
    exists_split i.start hm (by omega)
  obtain ⟨es⟩ := m
  obtain rfl : es = before ++ behind := hsplit
  have hfree : (∀ e ∈ behind, i.stop.toInt ≤ e.start.toInt) →
      insert ⟨before ++ behind⟩ i = .done ⟨before ++ i :: behind⟩ := fun hfits =>
    insert_between hi hbefore fun e he =>
      ⟨hfits e he, hm.nonempty e (List.mem_append_right before he)⟩
  cases behind with
  | nil => exact Or.inr ⟨before, [], rfl, hbefore, by simp, hfree (by simp)⟩
  | cons e behind =>
      have hmem : e ∈ before ++ e :: behind := by simp
      by_cases hover : e.start.toInt < i.stop.toInt
      · have hfound : overlap? ⟨before ++ e :: behind⟩ i = some e := by
          rw [overlap?, hseek, List.head?_cons, Option.filter_some, if_pos]
          rwa [decide_eq_true_eq, Int64.lt_iff_toInt_lt]
        have hblocks : e.Overlaps i :=
          (overlaps_iff (hm.nonempty e hmem) hi).mpr ⟨hover, hbehind e List.mem_cons_self⟩
        refine Or.inl ⟨e, hmem, by rw [insert_eq hi, hfound], hblocks, fun d hd hdi => ?_⟩
        exact hm.start_le_of_overlaps hbefore hd hdi
      · have hfits : ∀ d ∈ e :: behind, i.stop.toInt ≤ d.start.toInt := by
          intro d hd
          have hle := hm.append_right.start_le hd
          omega
        exact Or.inr ⟨before, e :: behind, rfl, hbefore, hfits, hfree hfits⟩

theorem Ordered.not_overlaps (hm : Ordered m.entries) :
    m.entries.Pairwise fun a b => ¬a.Overlaps b := by
  refine hm.pairwise.imp fun hle => ?_
  rintro ⟨key, hkeya, hkeyb⟩
  rw [contains_iff] at hkeya hkeyb
  omega

/-- An entry between the ones that end in front of it and the ones that start behind it. -/
theorem Ordered.insert_between {before behind : List (Interval α)}
    (h : Ordered (before ++ behind)) (hi : i.start.toInt < i.stop.toInt)
    (hbefore : ∀ e ∈ before, e.stop.toInt ≤ i.start.toInt)
    (hbehind : ∀ e ∈ behind, i.stop.toInt ≤ e.start.toInt) : Ordered (before ++ i :: behind) := by
  obtain ⟨hfront, hback, hcross⟩ := List.pairwise_append.mp h.pairwise
  constructor
  · refine List.pairwise_append.mpr ⟨hfront, List.pairwise_cons.mpr ⟨hbehind, hback⟩, ?_⟩
    intro e he d hd
    rcases List.mem_cons.mp hd with rfl | hd
    · exact hbefore e he
    · exact hcross e he d hd
  · intro e he
    rcases List.mem_append.mp he with he | he
    · exact h.nonempty e (List.mem_append_left behind he)
    · rcases List.mem_cons.mp he with rfl | he
      · exact hi
      · exact h.nonempty e (List.mem_append_right before he)

theorem insert_empty (hi : i.start = i.stop) : m.insert i = .done m := by
  rw [insert, if_neg (by simp [hi, Int64.lt_irrefl]), if_pos hi]

/-- An insertion keeps a map in order. -/
theorem Ordered.after (hm : Ordered m.entries) (i : Interval α) : Ordered (m.after i).entries := by
  rcases Int.lt_trichotomy i.start.toInt i.stop.toInt with hlt | heq | hgt
  · rw [IntervalMap.after]
    rcases insert_cases hm hlt with ⟨e, -, hinsert, -⟩ | ⟨before, behind, hsplit, hb, ha, hinsert⟩
    · rw [hinsert]
      exact hm
    · rw [hinsert]
      rw [hsplit] at hm
      exact hm.insert_between hlt hb ha
  · rw [IntervalMap.after, insert_empty (Int64.toInt_inj.mp heq)]
    exact hm
  · rw [IntervalMap.after, insert, if_pos (Int64.lt_iff_toInt_lt.mpr hgt)]
    exact hm

/-- A map that is made by insertions is in order. -/
theorem ordered_ofInsertions (is : List (Interval α)) : Ordered (ofInsertions is).entries := by
  have hrun : ∀ m : IntervalMap α, Ordered m.entries →
      Ordered (is.foldl IntervalMap.after m).entries := by
    induction is with
    | nil => exact fun m hm => hm
    | cons i is ih => exact fun m hm => ih (m.after i) (hm.after i)
  exact hrun empty ⟨List.Pairwise.nil, by simp [empty]⟩

/-- What an insertion into a map that is made by insertions comes to. The entries of the map are not
empty, follow each other and do not overlap. An empty interval changes nothing. Any other one is
blocked by the least entry that it overlaps, and then the map stays as it is; or it overlaps none
and is stored between two parts of the entries. -/
theorem insert_ofInsertions (is : List (Interval α)) (i : Interval α) :
    Ordered (ofInsertions is).entries ∧
    ((ofInsertions is).entries.Pairwise fun a b => ¬a.Overlaps b) ∧
    (i.start = i.stop → (ofInsertions is).insert i = .done (ofInsertions is)) ∧
    ((∃ e ∈ (ofInsertions is).entries, e.Overlaps i) →
      ∃ e ∈ (ofInsertions is).entries, (ofInsertions is).insert i = .blocked e ∧
        (ofInsertions is).after i = ofInsertions is ∧ e.Overlaps i ∧
        ∀ d ∈ (ofInsertions is).entries, d.Overlaps i → e.start ≤ d.start) ∧
    (i.start < i.stop → (∀ e ∈ (ofInsertions is).entries, ¬e.Overlaps i) →
      ∃ before behind, (ofInsertions is).entries = before ++ behind ∧
        (ofInsertions is).insert i = .done ⟨before ++ i :: behind⟩) := by
  have hm := ordered_ofInsertions is
  generalize ofInsertions is = m at hm ⊢
  refine ⟨hm, hm.not_overlaps, insert_empty, fun hover => ?_, fun hi hfree => ?_⟩
  · obtain ⟨e, he, key, hkeye, hkeyi⟩ := hover
    have hi : i.start.toInt < i.stop.toInt := by
      rw [contains_iff] at hkeyi
      omega
    rcases insert_cases hm hi with
      ⟨d, hd, hinsert, hdi, hleast⟩ | ⟨before, behind, hsplit, hbefore, hbehind, -⟩
    · refine ⟨d, hd, hinsert, by rw [after, hinsert], hdi, fun c hc hci => ?_⟩
      rw [Int64.le_iff_toInt_le]
      exact hleast c hc hci
    · -- An entry on either side of the interval has no key in common with it.
      rw [contains_iff] at hkeye hkeyi
      rw [hsplit, List.mem_append] at he
      rcases he with he | he
      · have hle := hbefore e he
        omega
      · have hle := hbehind e he
        omega
  · rcases insert_cases hm (Int64.lt_iff_toInt_lt.mp hi) with
      ⟨e, he, -, hover, -⟩ | ⟨before, behind, hsplit, -, -, hinsert⟩
    · exact absurd hover (hfree e he)
    · exact ⟨before, behind, hsplit, hinsert⟩

theorem toInt_maxValue : Int64.maxValue.toInt = 2 ^ 63 - 1 := by
  decide

/-- No interval ends in front of the least key, and all of them start at the greatest one or in
front of it. -/
theorem get?_maxValue : m.get? Int64.maxValue = m.entries.head? := by
  have hsucc : Int64.maxValue + 1 = Int64.minValue := by decide
  rw [get?, seek?, hsucc]
  cases m.entries with
  | nil => rfl
  | cons e es =>
      rw [List.find?_cons_of_pos (by simp [Int64.minValue_le]), List.head?_cons, Option.filter_some,
        if_pos (by simp [Int64.le_maxValue])]

/-- What is found in a map that is made by insertions. At every key but the greatest it is the entry
that the key lies in. No interval reaches beyond the greatest key, but there the first entry is
found, as the successor of that key is the least one. -/
theorem get?_ofInsertions_iff (is : List (Interval α)) (key : Int64) :
    ((∀ i, (ofInsertions is).get? key = some i ↔
        i ∈ (ofInsertions is).entries ∧ i.contains key = true) ↔
      key ≠ Int64.maxValue ∨ (ofInsertions is).entries = []) ∧
    (ofInsertions is).get? Int64.maxValue = (ofInsertions is).entries.head? := by
  have hm := ordered_ofInsertions is
  generalize ofInsertions is = m at hm ⊢
  have hgreatest := get?_maxValue (m := m)
  refine ⟨⟨fun hget => ?_, fun hkey i => ?_⟩, hgreatest⟩
  · by_cases hkey : key = Int64.maxValue
    · subst hkey
      cases hes : m.entries with
      | nil => exact Or.inr rfl
      | cons e es =>
          rw [hes, List.head?_cons] at hgreatest
          have hcontains := contains_iff.mp ((hget e).mp hgreatest).2
          have hmax := e.stop.toInt_lt
          rw [toInt_maxValue] at hcontains
          omega
    · exact Or.inl hkey
  · rcases hkey with hkey | hnil
    · refine get?_eq_some_iff hm ?_
      have hlt := key.toInt_lt
      have hne : key.toInt ≠ Int64.maxValue.toInt := fun heq => hkey (Int64.toInt_inj.mp heq)
      rw [toInt_maxValue] at hne
      omega
    · simp [get?, seek?, hnil]

/-- At the greatest key an interval is found that ends long before it. -/
theorem get?_ofInsertions_maxValue :
    (ofInsertions [⟨10, 20, ascii "a"⟩]).get? 9223372036854775807 = some ⟨10, 20, ascii "a"⟩ ∧
      (⟨10, 20, ascii "a"⟩ : Interval Bytes).contains 9223372036854775807 = false :=
  ⟨by decide, by decide⟩

end IntervalMap

end CodeLayout
