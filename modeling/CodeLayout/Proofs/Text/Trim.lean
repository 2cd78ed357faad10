import CodeLayout.Proofs.Text.Characters
import Mathlib.Data.List.DropRight

/-!
# Trimmed texts

A part of the characters of a text is read back as just these characters. So what trimming leaves
has the same characters again, and trimming it once more changes nothing.
-/

namespace CodeLayout

namespace Utf8

/-- A character does not depend on what stands behind its bytes. -/
theorem first_append (a : UInt8) (s t : Bytes)
    (h : (first a (s ++ t)).bytes.length ≤ s.length + 1) : first a s = first a (s ++ t) := by
  refine (first_append_cases a s t).resolve_right fun hcut => ?_
  have hlt := hcut.2
  rw [List.length_cons] at hlt
  omega

end Utf8

namespace Bytes

/-- Whether characters are those of the text they make up. -/
def IsWhole (rs : List Character) : Prop :=
  characters (ofCharacters rs) = rs

theorem isWhole_characters (s : Bytes) : IsWhole s.characters := by
  rw [IsWhole, ofCharacters_characters]

theorem charactersWithin_eq (n m : Nat) (s : Bytes) (hn : s.length ≤ n) (hm : s.length ≤ m) :
    Utf8.charactersWithin n s = Utf8.charactersWithin m s := by
  induction n generalizing s m with
  | zero =>
      obtain rfl := List.length_eq_zero_iff.mp (Nat.le_zero.mp hn)
      cases m <;> rfl
  | succ n ih =>
      rcases s with _ | ⟨a, rest⟩
      · cases m <;> rfl
      · rcases m with _ | m
        · exact absurd hm (Nat.not_succ_le_zero _)
        · have hpos := Utf8.first_bytes_pos a rest
          rw [List.length_cons] at hn hm
          have hdrop :
              ((a :: rest).drop (Utf8.first a rest).bytes.length).length ≤ rest.length := by
            rw [List.length_drop, List.length_cons]
            omega
          exact congrArg _ (ih m _ (by omega) (by omega))

theorem characters_cons (a : UInt8) (rest : Bytes) : characters (a :: rest) =
    Utf8.first a rest :: characters ((a :: rest).drop (Utf8.first a rest).bytes.length) := by
  have hpos := Utf8.first_bytes_pos a rest
  refine congrArg _ (charactersWithin_eq _ _ _ ?_ (Nat.le_refl _))
  rw [List.length_drop, List.length_cons]
  omega

namespace IsWhole

variable {r : Character} {rs ss : List Character}

/-- The first of some characters that are those of their text. -/
theorem exists_first (h : IsWhole (r :: rs)) : ∃ a cs, r.bytes = a :: cs ∧
    Utf8.first a (cs ++ ofCharacters rs) = r ∧ IsWhole rs := by
  have hbytes : ofCharacters (r :: rs) = r.bytes ++ ofCharacters rs := rfl
  rw [IsWhole, hbytes] at h
  cases hr : r.bytes ++ ofCharacters rs with
  | nil =>
      rw [hr] at h
      cases h
  | cons a rest =>
      rw [hr, characters_cons] at h
      obtain ⟨hfirst, hrest⟩ := List.cons.inj h
      have hpos := Utf8.first_bytes_pos a rest
      rw [hfirst] at hpos hrest
      obtain ⟨c, cs, hcs⟩ := List.exists_cons_of_length_pos hpos
      rw [← hr, List.drop_left] at hrest
      rw [hcs, List.cons_append] at hr
      obtain ⟨rfl, rfl⟩ := List.cons.inj hr
      exact ⟨c, cs, hcs, hfirst, hrest⟩

theorem right (h : IsWhole (rs ++ ss)) : IsWhole ss := by
  induction rs with
  | nil => exact h
  | cons r rs ih =>
      obtain ⟨-, -, -, -, hrest⟩ := h.exists_first
      exact ih hrest

theorem left (h : IsWhole (rs ++ ss)) : IsWhole rs := by
  induction rs with
  | nil => rfl
  | cons r rs ih =>
      obtain ⟨a, cs, hbytes, hfirst, hrest⟩ := h.exists_first
      have hagain : Utf8.first a (cs ++ ofCharacters rs) = r := by
        change Utf8.first a (cs ++ ofCharacters (rs ++ ss)) = r at hfirst
        rw [ofCharacters_append, ← List.append_assoc] at hfirst
        rw [← hfirst]
        refine Utf8.first_append _ _ _ ?_
        rw [hfirst, hbytes, List.length_cons, List.length_append]
        omega
      have htext : ofCharacters (r :: rs) = a :: (cs ++ ofCharacters rs) := by
        rw [← List.cons_append, ← hbytes]
        rfl
      rw [IsWhole, htext, characters_cons, hagain, hbytes, ← List.cons_append, List.drop_left,
        ih hrest]

end IsWhole

/-- What trimming leaves has the characters that it leaves. -/
theorem characters_trim (s : Bytes) : s.trim.characters =
    (s.characters.dropWhile Character.isBlank).rdropWhile Character.isBlank := by
  obtain ⟨front, hfront⟩ := List.dropWhile_suffix (l := s.characters) Character.isBlank
  obtain ⟨back, hback⟩ :=
    List.rdropWhile_prefix Character.isBlank (s.characters.dropWhile Character.isBlank)
  have hwhole := isWhole_characters s
  rw [← hfront] at hwhole
  have hright := hwhole.right
  rw [← hback] at hright
  exact hright.left

/-- A text that starts and ends with a character that is not blank is trimmed. -/
theorem trim_eq_of_ends {s : Bytes} (hhead : ∀ r ∈ s.characters.head?, r.isBlank = false)
    (hlast : ∀ r ∈ s.characters.getLast?, r.isBlank = false) : s.trim = s := by
  have hfront : s.characters.dropWhile Character.isBlank = s.characters := by
    cases hs : s.characters with
    | nil => rfl
    | cons r rs =>
        rw [hs] at hhead
        exact List.dropWhile_cons_of_neg (by simp [hhead r rfl])
  have hback : s.characters.rdropWhile Character.isBlank = s.characters :=
    List.rdropWhile_eq_self_iff.mpr fun hne => by simp [hlast _ (List.getLast_mem_getLast? hne)]
  change ofCharacters ((s.characters.dropWhile Character.isBlank).rdropWhile Character.isBlank) = s
  rw [hfront, hback, ofCharacters_characters]

theorem trim_eq_self {s : Bytes} (h : ∀ r ∈ s.characters, r.isBlank = false) : s.trim = s :=
  trim_eq_of_ends (fun r hr => h r (List.mem_of_mem_head? hr))
    fun r hr => h r (List.mem_of_getLast? hr)

/-- What trimming leaves has no white space at its ends. -/
theorem trim_trim (s : Bytes) : s.trim.trim = s.trim := by
  generalize hbehind : s.characters.dropWhile Character.isBlank = behind
  have hchars := characters_trim s
  rw [hbehind] at hchars
  refine trim_eq_of_ends (fun r hr => ?_) fun r hr => ?_
  · have hhead := List.head?_dropWhile_not Character.isBlank s.characters
    obtain ⟨back, hback⟩ := List.rdropWhile_prefix Character.isBlank behind
    rw [hchars] at hr
    rw [hbehind, ← hback, List.head?_append, Option.mem_def.mp hr] at hhead
    simpa using hhead
  · rw [hchars] at hr
    have hne : behind.rdropWhile Character.isBlank ≠ [] := by
      rintro hnil
      rw [hnil] at hr
      cases hr
    have hlast := List.rdropWhile_last_not Character.isBlank behind hne
    rw [List.getLast?_eq_some_getLast hne] at hr
    obtain rfl := Option.some.inj hr
    simpa using hlast

end Bytes

end CodeLayout
