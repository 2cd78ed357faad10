import CodeLayout.Source
import Mathlib.Data.List.TakeWhile

/-!
# Lines and columns are counts

The line of an offset is the number of line breaks in front of it, and its column is the number of
bytes behind the last of them. The text in front of an offset is split behind that line break. The
starts of lines are those in front of the split, the split itself, and others that are behind the
offset, so that the search for the offset comes to the split or to the place behind it.
-/

namespace CodeLayout

/-- What is in front of the last line of a text is nothing or ends in a line break. -/
theorem Bytes.exists_lastLine (s : Bytes) : ∃ front, s = front ++ s.lastLine ∧
    (front = [] ∨ ∃ t, front = t ++ [newline]) ∧ newline ∉ s.lastLine := by
  refine ⟨(s.reverse.dropWhile (· ≠ newline)).reverse, ?_, ?_, fun hmem => ?_⟩
  · rw [lastLine, ← List.reverse_append, List.takeWhile_append_dropWhile, List.reverse_reverse]
  · cases hrest : s.reverse.dropWhile (· ≠ newline) with
    | nil => exact Or.inl rfl
    | cons b t =>
        have hb := List.head?_dropWhile_not (· ≠ newline) s.reverse
        rw [hrest] at hb
        obtain rfl : b = newline := by simpa using hb
        exact Or.inr ⟨t.reverse, List.reverse_cons⟩
  · have hne := List.mem_takeWhile_imp (List.mem_reverse.mp hmem)
    simp at hne

namespace SourceFile

/-- The text in front of an offset. -/
def textBefore (f : SourceFile) (offset : Nat) : Bytes :=
  f.text.take offset

variable {f : SourceFile} {s : Bytes} {k i start offset : Nat} {before after : List Nat}

theorem startsFrom_append (k : Nat) (s t : Bytes) :
    startsFrom k (s ++ t) = startsFrom k s ++ startsFrom (k + s.length) t := by
  induction s generalizing k with
  | nil => rfl
  | cons b s ih =>
      rw [List.cons_append, startsFrom, startsFrom, ih, List.length_cons, Nat.add_right_comm,
        Nat.add_assoc]
      split <;> rfl

theorem length_startsFrom (k : Nat) (s : Bytes) : (startsFrom k s).length = s.newlines := by
  induction s generalizing k with
  | nil => rfl
  | cons b s ih =>
      rw [startsFrom, Bytes.newlines, List.count_cons]
      split_ifs <;> simp_all [Bytes.newlines]

theorem startsFrom_bounds (h : i ∈ startsFrom k s) : k < i ∧ i ≤ k + s.length := by
  induction s generalizing k with
  | nil => cases h
  | cons b s ih =>
      rw [List.length_cons]
      rw [startsFrom] at h
      split at h
      · rcases List.mem_cons.mp h with rfl | h
        · omega
        · have := ih h
          omega
      · have := ih h
        omega

/-- Behind a line break a line starts, and it is the last one up to there. -/
theorem exists_starts (h : s = [] ∨ ∃ t, s = t ++ [newline]) : ∃ before,
    0 :: startsFrom 0 s = before ++ [s.length] ∧ before.length = s.newlines ∧
      ∀ n ∈ before, n < s.length := by
  rcases h with rfl | ⟨t, rfl⟩
  · exact ⟨[], rfl, rfl, nofun⟩
  · refine ⟨0 :: startsFrom 0 t, ?_, ?_, fun n hn => ?_⟩
    · have hlast : startsFrom (0 + t.length) [newline] = [(t ++ [newline]).length] := by
        simp [startsFrom]
      rw [startsFrom_append, hlast, List.cons_append]
    · rw [List.length_cons, length_startsFrom, Bytes.newlines, Bytes.newlines, List.count_append]
      rfl
    · rw [List.length_append, List.length_singleton]
      rcases List.mem_cons.mp hn with rfl | hn
      · omega
      · have := startsFrom_bounds hn
        omega

/-- The last start that is not behind an offset is the start of its line. -/
theorem lineIndex_of_split (h : f.lineStarts = before ++ start :: after)
    (hbefore : ∀ n ∈ before, n < start) (hstart : start ≤ offset)
    (hafter : ∀ n ∈ after, offset < n) :
    f.lineIndex offset = before.length ∧ f.lineStart offset = start := by
  have hindex : f.lineIndex offset = before.length := by
    have hfront : ∀ n ∈ before, decide (n < offset) = true := fun n hn =>
      decide_eq_true (Nat.lt_of_lt_of_le (hbefore n hn) hstart)
    rw [lineIndex, search, h, List.takeWhile_append_of_pos hfront]
    rcases Nat.eq_or_lt_of_le hstart with rfl | hlt
    · rw [List.takeWhile_cons_of_neg (by simp), List.append_nil]
      simp
    · have hrest : after.takeWhile (· < offset) = [] := by
        cases after with
        | nil => rfl
        | cons n after =>
            have hn := hafter n List.mem_cons_self
            exact List.takeWhile_cons_of_neg (by simpa using hn.le)
      have hnot : (before ++ start :: after)[before.length + 1]? ≠ some offset := fun hget => by
        rw [List.getElem?_append_right (Nat.le_add_right _ 1), Nat.add_sub_cancel_left,
          List.getElem?_cons_succ] at hget
        exact absurd (hafter offset (List.mem_of_getElem? hget)) (Nat.lt_irrefl _)
      rw [List.takeWhile_cons_of_pos (by simpa using hlt), hrest]
      simp [hnot]
  refine ⟨hindex, ?_⟩
  rw [lineStart, hindex, h]
  simp

/-- The starts of lines are split at the start of the line of an offset. -/
theorem exists_lineStarts (f : SourceFile) (offset : Nat) : ∃ before start after,
    f.lineStarts = before ++ start :: after ∧ (∀ n ∈ before, n < start) ∧ start ≤ offset ∧
      (∀ n ∈ after, offset < n) ∧ before.length = (f.textBefore offset).newlines ∧
      start + (f.textBefore offset).lastLine.length = min offset f.text.length := by
  obtain ⟨front, hfront, hends, hline⟩ := (f.textBefore offset).exists_lastLine
  obtain ⟨before, hstarts, hcount, hbefore⟩ := exists_starts hends
  have hnone : startsFrom front.length (f.textBefore offset).lastLine = [] := by
    rw [← List.length_eq_zero_iff, length_startsFrom]
    exact List.count_eq_zero.mpr hline
  have hlength :
      front.length + (f.textBefore offset).lastLine.length = min offset f.text.length := by
    rw [← List.length_append, ← hfront, textBefore, List.length_take]
  refine ⟨before, front.length, startsFrom (min offset f.text.length) (f.text.drop offset), ?_,
    hbefore, by omega, fun n hn => ?_, ?_, hlength⟩
  · have htake : startsFrom 0 (f.textBefore offset) = startsFrom 0 front := by
      rw [hfront, startsFrom_append, Nat.zero_add, hnone, List.append_nil]
    have hsplit : f.text = f.textBefore offset ++ f.text.drop offset :=
      (List.take_append_drop offset f.text).symm
    rw [lineStarts, hsplit, startsFrom_append, htake, ← List.cons_append, hstarts, ← hsplit,
      Nat.zero_add, textBefore, List.length_take, List.append_assoc, List.singleton_append]
  · obtain ⟨hlo, hhi⟩ := startsFrom_bounds hn
    rw [List.length_drop] at hhi
    omega
  · rw [hcount, hfront, Bytes.newlines, Bytes.newlines, List.count_append,
      List.count_eq_zero.mpr hline, Nat.add_zero]

/-- A location has the offset moved into the file. Its line is one more than there are line breaks
in front of the offset, and its column one more than there are bytes since the last of them. The
line that is looked up, which counts from zero, is the number of line breaks in front of an
offset. -/
theorem location_eq_counts (f : SourceFile) :
    (∀ offset : Int, ∃ o : Nat, (o : Int) = max 0 (min offset f.text.length) ∧
      f.location offset =
        ⟨o, 1 + (f.textBefore o).newlines, 1 + (f.textBefore o).lastLine.length⟩) ∧
    ∀ offset : Nat, f.lineIndex offset = (f.textBefore offset).newlines := by
  have hline : ∀ offset : Nat, f.lineIndex offset = (f.textBefore offset).newlines ∧
      f.lineStart offset + (f.textBefore offset).lastLine.length = min offset f.text.length := by
    intro offset
    obtain ⟨before, start, after, hsplit, hbefore, hstart, hafter, hcount, hlength⟩ :=
      f.exists_lineStarts offset
    obtain ⟨hindex, hfound⟩ := lineIndex_of_split hsplit hbefore hstart hafter
    exact ⟨hindex.trans hcount, hfound ▸ hlength⟩
  refine ⟨fun offset => ⟨f.clamp offset, ?_, ?_⟩, fun offset => (hline offset).1⟩
  · rw [clamp]
    omega
  · obtain ⟨hindex, hstart⟩ := hline (f.clamp offset)
    have hclamp : f.clamp offset ≤ f.text.length := Nat.min_le_right _ _
    rw [location, hindex, Location.mk.injEq]
    refine ⟨rfl, Nat.add_comm _ _, ?_⟩
    omega

example : SourceFile.location ⟨[], ascii "if (a)\n\tb();\n"⟩ 9 = ⟨9, 2, 3⟩ := by decide

end SourceFile

end CodeLayout
