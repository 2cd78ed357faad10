import CodeLayout.Proofs.Text.Words
import CodeLayout.Text.Width
import Mathlib.Data.List.TakeWhile
import Mathlib.Tactic.Ring

/-!
# The width of printable text

A printable character of ASCII is a cluster of its own and takes one column. So a line of tabs and
printable characters behind them ends at the tab stop of the last tab and one column for each
character. A character before a printable one may be kept together with what follows, and even then
the printable one takes one column. So the width of a text is that of the parts on both sides of
such a character, and one column more.
-/

namespace CodeLayout

/-- Whether all bytes of a text are printable characters of ASCII. -/
def Bytes.IsPrintable (s : Bytes) : Prop :=
  ∀ b ∈ s, 32 ≤ b ∧ b ≤ 126

instance (s : Bytes) : Decidable (Bytes.IsPrintable s) :=
  List.decidableBAll (fun b => 32 ≤ b ∧ b ≤ 126) s

namespace Grapheme

theorem classOf_printable {b : UInt8} (h : 32 ≤ b ∧ b ≤ 126) : classOf b.toNat = .other := by
  have hall : ∀ n < 127, 32 ≤ n → classOf n = .other := by decide +kernel
  exact hall b.toNat (Nat.lt_succ_of_le (UInt8.le_iff_toNat_le.mp h.2))
    (UInt8.le_iff_toNat_le.mp h.1)

end Grapheme

namespace Bytes

variable {s : Bytes}

theorem IsPrintable.append {t : Bytes} (h : IsPrintable s) (h' : IsPrintable t) :
    IsPrintable (s ++ t) :=
  List.forall_mem_append.mpr ⟨h, h'⟩

/-- A printable byte is no tab and no part of a line break. -/
theorem IsPrintable.not_mem (h : IsPrintable s) {b : UInt8} (hb : b < 32) : b ∉ s :=
  fun hmem => absurd (h b hmem).1 (UInt8.not_le.mpr hb)

theorem lastLine_eq_self (h : newline ∉ s) : lastLine s = s := by
  rw [lastLine, List.takeWhile_eq_self_iff.mpr, List.reverse_reverse]
  intro b hb
  have hne : b ≠ newline := by
    rintro rfl
    exact h (List.mem_reverse.mp hb)
  simpa using hne

theorem cut?_eq_none {sep : UInt8} (h : sep ∉ s) : cut? sep s = none := by
  induction s with
  | nil => rfl
  | cons b s ih =>
      obtain ⟨hne, hs⟩ := not_or.mp (mt List.mem_cons.mpr h)
      rw [cut?, if_neg (Ne.symm hne), ih hs, Option.map_none]

theorem charactersWithin_printable (n : Nat) (hn : s.length ≤ n) (h : IsPrintable s) :
    Utf8.charactersWithin n s = s.map fun b => ⟨b.toNat, [b]⟩ := by
  induction n generalizing s with
  | zero =>
      obtain rfl := List.length_eq_zero_iff.mp (Nat.le_zero.mp hn)
      rfl
  | succ n ih =>
      cases s with
      | nil => rfl
      | cons b rest =>
          obtain ⟨hb, hrest⟩ := List.forall_mem_cons.mp h
          have hfirst : Utf8.first b rest = ⟨b.toNat, [b]⟩ :=
            if_pos (UInt8.lt_of_le_of_lt hb.2 (by decide))
          rw [Utf8.charactersWithin, hfirst]
          exact congrArg _ (ih (Nat.le_of_succ_le_succ hn) hrest)

end Bytes

namespace Width

variable {s : Bytes}

theorem charWidth_printable {b : UInt8} (hb : 32 ≤ b ∧ b ≤ 126) :
    Grapheme.charWidth b.toNat .other = 1 :=
  if_pos (Nat.lt_of_le_of_lt (UInt8.le_iff_toNat_le.mp hb.2) (by decide))

theorem widthFrom_printable (h : Bytes.IsPrintable s) (w : Nat) :
    Grapheme.widthFrom .start .other w (s.map fun b => ⟨b.toNat, [b]⟩) = w + s.length := by
  induction s generalizing w with
  | nil => rfl
  | cons b s ih =>
      obtain ⟨hb, hs⟩ := List.forall_mem_cons.mp h
      rw [List.map_cons, Grapheme.widthFrom]
      dsimp only
      rw [Grapheme.classOf_printable hb, charWidth_printable hb]
      change w + Grapheme.widthFrom .start .other 1 _ = _
      rw [ih hs, List.length_cons, Nat.add_comm 1]

/-- A printable text takes one column for each byte. -/
theorem text_printable (h : Bytes.IsPrintable s) : text s = s.length := by
  rw [text, Bytes.characters, Bytes.charactersWithin_printable _ (Nat.le_refl _) h]
  cases s with
  | nil => rfl
  | cons b s =>
      obtain ⟨hb, hs⟩ := List.forall_mem_cons.mp h
      rw [List.map_cons]
      dsimp only
      rw [Grapheme.classOf_printable hb, charWidth_printable hb]
      change Grapheme.widthFrom .start .other 1 _ = _
      rw [widthFrom_printable hs, List.length_cons, Nat.add_comm]

/-- A text that does not end in a carriage return has none to drop. -/
theorem dropEnding_of_last (h : s.getLast? ≠ some 13) : Bytes.dropEnding [13] s = s := by
  refine if_neg fun hsuffix => h ?_
  obtain ⟨front, rfl⟩ := List.isSuffixOf_iff_suffix.mp hsuffix
  simp

theorem getLast?_printable (h : Bytes.IsPrintable s) : s.getLast? ≠ some 13 :=
  fun hlast => h.not_mem (by decide) (List.mem_of_getLast? hlast)

theorem pieces_eq_singleton {sep : UInt8} (h : sep ∉ s) : Bytes.pieces sep s = [s] :=
  Bytes.pieces_join (List.cons_ne_nil s []) (by simpa using h)

/-- The pieces of a line: nothing before each of its tabs, and then the rest. -/
theorem pieces_tabs (k : Nat) (h : Bytes.IsPrintable s) :
    Bytes.pieces 9 (List.replicate k 9 ++ s) = List.replicate k [] ++ [s] := by
  induction k with
  | zero => exact pieces_eq_singleton (h.not_mem (by decide))
  | succ k ih =>
      rw [List.replicate_succ, List.cons_append, Bytes.pieces, if_pos rfl, ih]
      rfl

theorem advancePieces_cons (keep : Int → Int) (stop column : Int) (piece : Bytes)
    {ps : List Bytes} (hps : ps ≠ []) : advancePieces keep stop column (piece :: ps) =
      advancePieces keep stop (keep (nextStop stop (keep (column + text piece)))) ps := by
  obtain ⟨p, ps, rfl⟩ := List.exists_cons_of_ne_nil hps
  rfl

theorem advancePieces_tabs {keep : Int → Int} {stop : Int} (k j : Nat) (h : Bytes.IsPrintable s)
    (hkeep : ∀ i : Nat, i ≤ j + k → keep (i * stop) = i * stop) :
    advancePieces keep stop (j * stop) (List.replicate k [] ++ [s]) =
      keep ((j + k) * stop + s.length) := by
  induction k generalizing j with
  | zero =>
      change keep ((j * stop : Int) + (text (Bytes.dropEnding [13] s) : Int)) = _
      rw [dropEnding_of_last (getLast?_printable h), text_printable h, Nat.cast_zero, add_zero]
  | succ k ih =>
      have hnext : nextStop stop (j * stop) = ((j + 1 : Nat) : Int) * stop := by
        rw [nextStop, Int.mul_tmod_left, Nat.cast_succ, add_mul]
        ring
      have htext : (text [] : Int) = 0 := rfl
      rw [List.replicate_succ, List.cons_append, advancePieces_cons keep stop _ _ (by simp), htext,
        add_zero, hkeep j (by omega), hnext, hkeep (j + 1) (by omega),
        ih (j + 1) fun i hi => hkeep i (by omega)]
      push_cast
      congr 1
      ring

/-- The column at the end of a line of tabs with printable characters behind them. -/
theorem advanceBy_line {keep : Int → Int} (size : Int) (k : Nat) (h : Bytes.IsPrintable s)
    (hkeep : ∀ i : Nat, i ≤ k → keep (i * tabstop size) = i * tabstop size) :
    advanceBy keep 0 size (List.replicate k 9 ++ s) = keep (k * tabstop size + s.length) := by
  have hmem : newline ∉ List.replicate k 9 ++ s := by
    rw [List.mem_append, List.mem_replicate]
    rintro (⟨-, hnewline⟩ | hmem)
    · exact absurd hnewline (by decide)
    · exact h.not_mem (by decide) hmem
  have hpieces := advancePieces_tabs k 0 h fun i hi => hkeep i (by omega)
  simp only [Nat.cast_zero, zero_mul, zero_add] at hpieces
  rw [advanceBy, Bytes.lastLine_eq_self hmem, pieces_tabs k h, ite_self]
  exact hpieces

theorem advance_line (size : Int) (k : Nat) (h : Bytes.IsPrintable s) :
    advance 0 size (List.replicate k 9 ++ s) = k * tabstop size + s.length :=
  advanceBy_line size k h fun _ _ => rfl

/-- A text without tabs and line breaks moves a column by its width. -/
theorem advance_eq (column size : Int) (hnewline : newline ∉ s) (htab : 9 ∉ s)
    (hlast : s.getLast? ≠ some 13) : advance column size s = column + text s := by
  rw [advance, advanceBy, Bytes.lastLine_eq_self hnewline, pieces_eq_singleton htab,
    if_neg (by simpa using hnewline)]
  change column + (text (Bytes.dropEnding [13] s) : Int) = _
  rw [dropEnding_of_last hlast]

/-- A printable text moves a column by its length. -/
theorem advance_printable (column size : Int) (h : Bytes.IsPrintable s) :
    advance column size s = column + s.length := by
  rw [advance_eq column size (h.not_mem (by decide)) (h.not_mem (by decide)) (getLast?_printable h),
    text_printable h]

/-- A printable text is a line. -/
theorem firstLine_printable (column size : Int) (h : Bytes.IsPrintable s) :
    firstLine column size s = ((s.length : Int), false) := by
  have hadvance : advanceBy id column size s = column + s.length := advance_printable column size h
  rw [firstLine, firstLineBy, Bytes.cut?_eq_none (h.not_mem (by decide)), hadvance]
  simp

/-- A number in the range of a word is kept as it is. -/
theorem word_eq {n : Int} (hlo : -2 ^ 63 ≤ n) (hhi : n < 2 ^ 63) : word n = n :=
  Int64.toInt_ofInt_of_le hlo hhi

/-- Whether a number is in the range of a word. -/
def InWord (n : Int) : Prop :=
  -2 ^ 63 ≤ n ∧ n < 2 ^ 63

instance (n : Int) : Decidable (InWord n) :=
  inferInstanceAs (Decidable (_ ∧ _))

theorem InWord.word_eq {n : Int} (h : InWord n) : word n = n :=
  Width.word_eq h.1 h.2

theorem word_lt (n : Int) : word n < 2 ^ 63 :=
  Int64.toInt_lt _

/-- What is taken off a number is taken off its word, as long as the word is no less. -/
theorem word_sub {n : Int} {k : Nat} (h : k ≤ word n) : word (n - k) = word n - k := by
  have hlt := word_lt n
  have hsame : word (n - k) = word (word n - k) := by
    simp only [word, Int64.toInt_ofInt, Int.bmod_sub_bmod]
  rw [hsame, word_eq (by omega) (by omega)]

theorem one_le_tabstop (size : Int) : 1 ≤ tabstop size :=
  le_max_right size 1

theorem le_nextStop {stop : Int} (hstop : 1 ≤ stop) (column : Int) :
    column ≤ nextStop stop column := by
  have hlt := Int.tmod_lt_of_pos column (by omega : 0 < stop)
  rw [nextStop]
  omega

theorem le_advancePieces {stop : Int} (hstop : 1 ≤ stop) (column : Int) (ps : List Bytes) :
    column ≤ advancePieces id stop column ps := by
  fun_induction advancePieces id stop column ps with
  | case1 column => exact le_refl column
  | case2 column last => exact Int.le_add_of_nonneg_right (Int.natCast_nonneg _)
  | case3 column piece rest hrest ih =>
      have hnext := le_nextStop hstop (column + text piece)
      simp only [id_eq] at ih ⊢
      omega

theorem advancePieces_word {stop column : Int} (hstop : 1 ≤ stop) {ps : List Bytes}
    (hlo : -2 ^ 63 ≤ column) (hhi : advancePieces id stop column ps < 2 ^ 63) :
    advancePieces word stop column ps = advancePieces id stop column ps := by
  fun_induction advancePieces id stop column ps with
  | case1 column => rfl
  | case2 column last => exact word_eq (by omega) hhi
  | case3 column piece rest hrest ih =>
      have hnext := le_nextStop hstop (column + text piece)
      have hle := le_advancePieces hstop (nextStop stop (column + text piece)) rest
      simp only [id_eq] at ih hhi ⊢
      have hpiece : word (column + text piece) = column + text piece :=
        word_eq (by omega) (by omega)
      rw [advancePieces_cons word stop column piece hrest, hpiece, word_eq (by omega) (by omega)]
      exact ih (by omega) hhi

/-- As long as the column that is reached is in the range of a word, it is the one in words. -/
theorem advanceWord_eq {column : Int} (size : Int) (s : Bytes) (hlo : -2 ^ 63 ≤ column)
    (hhi : advance column size s < 2 ^ 63) : advanceWord column size s = advance column size s := by
  refine advancePieces_word (one_le_tabstop size) ?_ hhi
  split_ifs
  · decide
  · exact hlo

end Width

namespace Grapheme

/-- Whether every character of a cluster adds its own width, by the class of the first one. -/
def Class.addsUp : Class → Bool
  | .pictograph | .regional | .hangulL => false
  | _ => true

variable {lead lead' c : Class} {s s' : State} {rs : List Character}

theorem grow_of_addsUp (h : lead.addsUp = true) (w code : Nat) (c : Class) :
    grow lead w code c = w + charWidth code c := by
  cases lead <;> first | rfl | cases h

/-- The width so far can be counted apart. -/
theorem widthFrom_add (h : lead.addsUp = true) (h' : lead'.addsUp = true) (s : State) (w k : Nat)
    (rs : List Character) : widthFrom s lead (w + k) rs = w + widthFrom s lead' k rs := by
  induction rs generalizing s k with
  | nil => rfl
  | cons r rs ih =>
      simp only [widthFrom]
      split
      · rw [Nat.add_assoc]
      · rw [grow_of_addsUp h, grow_of_addsUp h', Nat.add_assoc, ih]

/-- The width of some characters. -/
def widthOf : List Character → Nat
  | [] => 0
  | r :: rest =>
    let c := classOf r.code
    widthFrom c.opens c (charWidth r.code c) rest

theorem widthOf_cons (r : Character) (rs : List Character) : widthOf (r :: rs) =
    widthFrom (classOf r.code).opens (classOf r.code) (charWidth r.code (classOf r.code)) rs :=
  rfl

/-- Behind a character that is kept together with nothing, a text is as wide as by itself. -/
theorem widthFrom_start (h : lead.addsUp = true) (w : Nat) (rs : List Character) :
    widthFrom .start lead w rs = w + widthOf rs := by
  cases rs with
  | nil => rfl
  | cons r rs =>
      have hopens : (State.start.step (classOf r.code)).1 = (classOf r.code).opens := by
        cases classOf r.code <;> rfl
      have hkept : (State.start.step (classOf r.code)).2 = false →
          (classOf r.code).addsUp = true := by
        cases classOf r.code <;> first | exact fun _ => rfl | nofun
      simp only [widthFrom, widthOf, hopens]
      split_ifs with hbreaks
      · rfl
      · rw [grow_of_addsUp h, widthFrom_add h (hkept (Bool.eq_false_iff.mpr hbreaks))]

/-- A cluster that is kept together with whatever follows adds up. -/
theorem step_prepend (h : (s.step c).1 = .prepend) :
    if (s.step c).2 then c.addsUp = true else s = .prepend := by
  revert h
  cases s <;> cases c <;> first | exact fun _ => rfl | nofun

theorem widthFrom_append {r : Character} (hr : classOf r.code = .other)
    (hs : s = .prepend → lead.addsUp = true) (w : Nat) (rs ss : List Character) :
    widthFrom s lead w (rs ++ r :: ss) =
      widthFrom s lead w rs + charWidth r.code .other + widthOf ss := by
  induction rs generalizing s lead w with
  | nil =>
      have hopens : (s.step .other).1 = .start := by cases s <;> rfl
      have hbreaks : (s.step .other).2 = false → s = .prepend := by
        cases s <;> first | exact fun _ => rfl | nofun
      simp only [List.nil_append, widthFrom, hr, hopens]
      split_ifs with hstep
      · rw [widthFrom_start rfl, Nat.add_assoc]
      · have hlead := hs (hbreaks (Bool.eq_false_iff.mpr hstep))
        rw [grow_of_addsUp hlead, widthFrom_start hlead]
  | cons q rs ih =>
      have hprepend (h : (s.step (classOf q.code)).1 = .prepend) := step_prepend h
      simp only [List.cons_append, widthFrom]
      split_ifs with hstep
      · rw [ih fun h => by simpa [hstep] using hprepend h]
        omega
      · exact ih (fun h => hs (by simpa [hstep] using hprepend h)) _

end Grapheme

namespace Width

open Grapheme

theorem text_eq (s : Bytes) : text s = widthOf s.characters := by
  rw [text]
  cases s.characters <;> rfl

/-- The width of a text is that of the parts on both sides of a printable byte, and one more. -/
theorem text_append {b : UInt8} (hb : 32 ≤ b ∧ b ≤ 126) (s t : Bytes) :
    text (s ++ b :: t) = text s + 1 + text t := by
  have hascii : b < 0x80 := UInt8.lt_of_le_of_lt hb.2 (by decide)
  have hclass : classOf b.toNat = .other := classOf_printable hb
  rw [text_eq, text_eq, text_eq, Bytes.characters_append hascii]
  cases s.characters with
  | nil =>
      have hstart : widthFrom .start .other 1 t.characters = 1 + widthOf t.characters :=
        widthFrom_start rfl 1 _
      rw [List.nil_append, widthOf_cons, hclass, charWidth_printable hb]
      exact hstart.trans (congrArg (· + _) (Nat.zero_add 1).symm)
  | cons r rs =>
      have hopens : (classOf r.code).opens = .prepend → (classOf r.code).addsUp = true := by
        cases classOf r.code <;> first | exact fun _ => rfl | nofun
      rw [List.cons_append, widthOf_cons, widthOf_cons, widthFrom_append hclass hopens,
        charWidth_printable hb]

/-- The width of a text is that of its parts if the first one ends in a printable byte. -/
theorem text_append_of_last {b : UInt8} (hb : 32 ≤ b ∧ b ≤ 126) (s t : Bytes) :
    text ((s ++ [b]) ++ t) = text (s ++ [b]) + text t := by
  have hnil : text [] = 0 := rfl
  rw [List.append_assoc, List.singleton_append, text_append hb, text_append hb, hnil]

/-- A printable text takes one column for each byte in front of a text. -/
theorem text_append_of_printable {s : Bytes} (hs : s.IsPrintable) (t : Bytes) :
    text (s ++ t) = s.length + text t := by
  have hnil : text [] = 0 := rfl
  induction s with
  | nil => simp
  | cons b s ih =>
      obtain ⟨hb, hs⟩ := List.forall_mem_cons.mp hs
      have hfront := text_append hb [] (s ++ t)
      rw [List.nil_append, hnil, ih hs] at hfront
      rw [List.cons_append, hfront, List.length_cons]
      omega

end Width

end CodeLayout
