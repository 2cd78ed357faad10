import CodeLayout.Proofs.Text.Characters
import CodeLayout.Proofs.Text.Words
import CodeLayout.Text.LowerCase
import Mathlib.Data.List.Flatten

/-!
# Texts without their white space

What is left of a text without its white space is what its words hold, so it does not depend on how
the words are spaced. A text may be cut at any ASCII byte, and what has an ASCII text of the same
length as its lower-case form is ASCII itself.
-/

namespace CodeLayout

namespace Bytes

/-- The text without its white space. -/
def solid (s : Bytes) : Bytes :=
  ofCharacters (s.characters.filter fun r => !r.isBlank)

variable {b : UInt8} {s t : Bytes}

theorem flatten_wordsFrom (word rs : List Character) : (wordsFrom word rs).flatten =
    ofCharacters (word.reverse ++ rs.filter fun r => !r.isBlank) := by
  fun_induction wordsFrom word rs with
  | case1 word hempty => simp_all [ofCharacters]
  | case2 word hempty => simp
  | case3 word r rest hblank hempty ih => simp_all
  | case4 word r rest hblank hempty ih => simp [ih, hblank, ofCharacters_append]
  | case5 word r rest hblank ih => simp [ih, hblank]

/-- Without white space a text is its words. -/
theorem flatten_words (s : Bytes) : s.words.flatten = s.solid := by
  rw [words, flatten_wordsFrom, List.reverse_nil, List.nil_append, solid]

theorem solid_append (hb : b < 0x80) (s t : Bytes) :
    solid (s ++ b :: t) = solid s ++ solid (b :: t) := by
  have hright := characters_append hb [] t
  rw [List.nil_append] at hright
  have hnil : characters [] = [] := rfl
  rw [solid, solid, solid, characters_append hb, hright, hnil, List.nil_append, List.filter_append,
    ofCharacters_append]

theorem solid_concat (hb : b < 0x80) (s t : Bytes) :
    solid (s ++ b :: t) = solid (s ++ [b]) ++ solid t := by
  have hleft := solid_append hb [] t
  have hone := solid_append hb s []
  have hcons : solid (b :: t) = solid [b] ++ solid t := by
    have hchars := characters_append hb [] t
    have hbyte := characters_append hb [] []
    rw [List.nil_append] at hchars hbyte
    have hnil : characters [] = [] := rfl
    rw [solid, solid, solid, hchars, hbyte, hnil, List.nil_append, List.nil_append,
      ← List.singleton_append, List.filter_append, ofCharacters_append]
  rw [solid_append hb, hone, hcons, List.append_assoc]

theorem solid_eq_of_trim (h : s.trim = t.trim) : solid s = solid t := by
  rw [← flatten_words, ← flatten_words, ← words_trim s, ← words_trim t, h]

theorem solid_trim (s : Bytes) : solid s.trim = solid s :=
  solid_eq_of_trim (trim_trim s)

theorem solid_eq_nil_iff : solid s = [] ↔ s.trim = [] := by
  rw [← flatten_words, trim_eq_nil_iff, List.flatten_eq_nil_iff]
  refine ⟨fun h => List.eq_nil_iff_forall_not_mem.mpr fun w hw => ?_, fun h => by simp [h]⟩
  exact (isWord_of_mem_words hw).ne_nil (h w hw)

theorem solid_sublist (s : Bytes) : (solid s).Sublist s := by
  nth_rewrite 2 [← ofCharacters_characters s]
  exact List.Sublist.flatMap List.filter_sublist Character.bytes

/-- A text that stays as it is without its white space has none. -/
theorem solid_eq_self_iff : solid s = s ↔ ∀ r ∈ s.characters, r.isBlank = false := by
  refine ⟨fun h => ?_, fun h => ?_⟩
  · by_contra hnot
    obtain ⟨r, hr, hblank⟩ : ∃ r ∈ s.characters, r.isBlank = true := by simpa using hnot
    obtain ⟨front, back, hsplit⟩ := List.append_of_mem hr
    obtain ⟨a, rest, hfirst⟩ := exists_first_of_mem hr
    have hpos := Utf8.first_bytes_pos a rest
    rw [← hfirst] at hpos
    have hkeep (rs : List Character) :
        (ofCharacters (rs.filter fun r => !r.isBlank)).length ≤ (ofCharacters rs).length :=
      (List.Sublist.flatMap List.filter_sublist Character.bytes).length_le
    have hfront := hkeep front
    have hback := hkeep back
    have hlength := congrArg List.length h
    nth_rewrite 2 [← ofCharacters_characters s] at hlength
    rw [solid, hsplit, List.filter_append, List.filter_cons_of_neg (by simp [hblank]),
      ofCharacters_append, ofCharacters_append, List.length_append, List.length_append] at hlength
    have hcons : (ofCharacters (r :: back)).length = r.bytes.length + (ofCharacters back).length :=
      List.length_append
    omega
  · have hall : s.characters.filter (fun r => !r.isBlank) = s.characters :=
      List.filter_eq_self.mpr fun r hr => by simp [h r hr]
    rw [solid, hall, ofCharacters_characters]

section Blank

variable (hb : b < 0x80) (hblank : CodeLayout.isBlank b.toNat = true)
include hb hblank

theorem solid_cons (s : Bytes) : solid (b :: s) = solid s :=
  solid_eq_of_trim (trim_cons hb hblank s)

/-- Texts with white space in between. -/
theorem solid_join (ps : List Bytes) : solid (join [b] ps) = ps.flatMap solid := by
  fun_induction join [b] ps with
  | case1 => rfl
  | case2 p => simp
  | case3 p q ps ih =>
      rw [List.append_assoc, List.singleton_append, solid_append hb, solid_cons hb hblank, ih]
      rfl

end Blank

end Bytes

namespace Utf8

/-- A code point whose form is ASCII has a form of one byte at most. -/
theorem length_encode_le {c : Nat} (h : ∀ b ∈ encode c, b < 0x80) : (encode c).length ≤ 1 := by
  have hhigh : ∀ n : Nat, 128 ≤ n → n < 256 → ¬n.toUInt8 < 0x80 := by
    intro n hle hlt hbyte
    have hnat : n.toUInt8.toNat < 128 := UInt8.lt_iff_toNat_lt.mp hbyte
    rw [show n.toUInt8.toNat = n % 256 from rfl] at hnat
    omega
  revert h
  simp only [encode]
  split_ifs with hone htwo hthree hfour
  · exact fun _ => Nat.le_refl 1
  · exact fun h => absurd (h _ List.mem_cons_self) (hhigh _ (by omega) (by omega))
  · exact fun h => absurd (h _ List.mem_cons_self) (hhigh _ (by omega) (by omega))
  · exact fun h => absurd (h _ List.mem_cons_self) (hhigh _ (by omega) (by omega))
  · exact fun _ => Nat.zero_le 1

/-- A character does not get longer by an ASCII form of its code point in lower case, and only one
of ASCII stays as long. -/
theorem Form.length_lower {r : Character} (h : Form r)
    (hlower : ∀ b ∈ encode (lowerCode r.code), b < 0x80) :
    (encode (lowerCode r.code)).length ≤ r.bytes.length ∧
      ((encode (lowerCode r.code)).length = r.bytes.length → ∀ b ∈ r.bytes, b < 0x80) := by
  have hone := length_encode_le hlower
  cases h with
  | malformed a =>
      change ∀ b ∈ encode (lowerCode replacement), b < 0x80 at hlower
      exact absurd (hlower 0xEF (by decide)) (by decide)
  | one ha => exact ⟨hone, fun _ => by simpa using UInt8.lt_iff_toNat_lt.mpr ha⟩
  | two | three | four =>
      simp only [List.length_cons, List.length_nil] at hone ⊢
      exact ⟨by omega, fun heq => by omega⟩

end Utf8

namespace Bytes

/-- A space is a character of its own in lower case, too. -/
theorem lower_append (s t : Bytes) : lower (s ++ 32 :: t) = lower s ++ 32 :: lower t := by
  rw [lower, characters_append (by decide), List.flatMap_append]
  rfl
/-- A text that has an ASCII text of its own length as its lower-case form is ASCII. -/
theorem ascii_of_lower {s : Bytes} (hlower : ∀ b ∈ s.lower, b < 0x80)
    (hlength : s.lower.length = s.length) : ∀ b ∈ s, b < 0x80 := by
  have hall : ∀ rs : List Character, (∀ r ∈ rs, Utf8.Form r) →
      (∀ b ∈ rs.flatMap fun r => Utf8.encode (lowerCode r.code), b < 0x80) →
      (rs.flatMap fun r => Utf8.encode (lowerCode r.code)).length ≤ (ofCharacters rs).length ∧
        ((rs.flatMap fun r => Utf8.encode (lowerCode r.code)).length = (ofCharacters rs).length →
          ∀ b ∈ ofCharacters rs, b < 0x80) := by
    intro rs hform hbytes
    induction rs with
    | nil => exact ⟨Nat.le_refl _, fun _ => nofun⟩
    | cons r rs ih =>
        obtain ⟨hr, hrs⟩ := List.forall_mem_cons.mp hform
        rw [List.flatMap_cons, List.forall_mem_append] at hbytes
        obtain ⟨hle, heq⟩ := hr.length_lower hbytes.1
        obtain ⟨hle', heq'⟩ := ih hrs hbytes.2
        have hsplit : ofCharacters (r :: rs) = r.bytes ++ ofCharacters rs := rfl
        rw [hsplit, List.flatMap_cons, List.length_append, List.length_append,
          List.forall_mem_append]
        exact ⟨by omega, fun h => ⟨heq (by omega), heq' (by omega)⟩⟩
  have hform : ∀ r ∈ s.characters, Utf8.Form r := by
    intro r hr
    obtain ⟨a, rest, rfl⟩ := exists_first_of_mem hr
    exact Utf8.form_first a rest
  obtain ⟨-, heq⟩ := hall s.characters hform hlower
  rw [ofCharacters_characters] at heq
  exact heq hlength

end Bytes

end CodeLayout
