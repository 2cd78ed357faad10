import CodeLayout.Text.Decimal
import Mathlib.Data.List.Basic

/-!
# Numbers read back

What is written for a number is read as that number, as long as it fits into 64 bits.
-/

namespace CodeLayout

theorem digitsValue_concat (n : Nat) (s : Bytes) (b : UInt8) :
    digitsValue n (s ++ [b]) = 10 * digitsValue n s + (b.toNat - 48) := by
  induction s generalizing n with
  | nil => rfl
  | cons c s ih => exact ih (10 * n + (c.toNat - 48))

/-- The digits of a number are those of its tenth and the last one. -/
theorem natDigits_eq (n : Nat) : natDigits n =
    if n < 10 then [UInt8.ofNat (48 + n)]
    else natDigits (n / 10) ++ [UInt8.ofNat (48 + n % 10)] := by
  have hdigit : ∀ d < 10, (Nat.digitChar d).toNat.toUInt8 = UInt8.ofNat (48 + d) := by decide
  unfold natDigits
  rw [Nat.toDigits_eq_if (by decide)]
  split_ifs with hn
  · simp [hdigit n hn]
  · simp [hdigit (n % 10) (Nat.mod_lt n (by decide))]

/-- The digits of a number are digits, there is at least one, and their value is the number. -/
theorem natDigits_spec (n : Nat) :
    (natDigits n).all isDigit = true ∧ natDigits n ≠ [] ∧ digitsValue 0 (natDigits n) = n := by
  have hdigit : ∀ d < 10, isDigit (UInt8.ofNat (48 + d)) = true ∧
      (UInt8.ofNat (48 + d)).toNat - 48 = d := by decide
  induction n using Nat.strongRecOn with
  | _ n ih =>
      rw [natDigits_eq]
      split_ifs with hn
      · have hlast := hdigit n hn
        generalize UInt8.ofNat (48 + n) = b at hlast
        refine ⟨by simp [hlast.1], by simp, ?_⟩
        rw [← List.nil_append [b], digitsValue_concat, hlast.2]
        exact Nat.zero_add n
      · have hlast := hdigit (n % 10) (Nat.mod_lt n (by decide))
        generalize UInt8.ofNat (48 + n % 10) = b at hlast
        obtain ⟨ihall, -, ihvalue⟩ := ih (n / 10) (by omega)
        refine ⟨by simp [List.all_append, ihall, hlast.1], by simp, ?_⟩
        rw [digitsValue_concat, ihvalue, hlast.2]
        omega

theorem readNat?_natDigits (n : Nat) : readNat? (natDigits n) = some n := by
  obtain ⟨hall, hne, hvalue⟩ := natDigits_spec n
  rw [readNat?, hall, hvalue]
  simp [hne]

theorem natDigits_inj {m n : Nat} (h : natDigits m = natDigits n) : m = n := by
  rw [← (natDigits_spec m).2.2, h, (natDigits_spec n).2.2]

/-- A number that fits into 64 bits is read back from its digits. -/
theorem readInt?_intDigits {n : Int} (h : isWord n = true) : readInt? (intDigits n) = some n := by
  unfold intDigits
  split_ifs with hneg
  · have hnat : -((n.natAbs : Nat) : Int) = n := by omega
    have hread : readInt? (45 :: natDigits n.natAbs) =
        Option.filter isWord (some (-((n.natAbs : Nat) : Int))) := by
      simp only [readInt?, readNat?_natDigits]
      rfl
    rw [hread, hnat, Option.filter_some, if_pos h]
  · have hnat : ((n.natAbs : Nat) : Int) = n := by omega
    obtain ⟨hall, hne, -⟩ := natDigits_spec n.natAbs
    have hread := readNat?_natDigits n.natAbs
    obtain ⟨b, rest, hdigits⟩ := List.exists_cons_of_ne_nil hne
    rw [hdigits] at hread hall ⊢
    have hb : isDigit b = true := by
      rw [List.all_cons, Bool.and_eq_true] at hall
      exact hall.1
    -- The first byte is a digit, so there is no sign.
    have hminus : b ≠ 45 := by
      rintro rfl
      cases hb
    have hplus : b ≠ 43 := by
      rintro rfl
      cases hb
    simp [readInt?, hminus, hplus, hread, hnat, h]

/-- The text of a number is made of digits and a sign. -/
theorem mem_intDigits {n : Int} {b : UInt8} (h : b ∈ intDigits n) : isDigit b = true ∨ b = 45 := by
  have hdigits : ∀ b ∈ natDigits n.natAbs, isDigit b = true :=
    List.all_eq_true.mp (natDigits_spec n.natAbs).1
  unfold intDigits at h
  split_ifs at h
  · rcases List.mem_cons.mp h with rfl | h
    · exact Or.inr rfl
    · exact Or.inl (hdigits b h)
  · exact Or.inl (hdigits b h)

/-- The digits of a number are not those of another one behind a sign. -/
theorem natDigits_ne_minus (m n : Nat) : natDigits m ≠ 45 :: natDigits n := by
  intro h
  have hall := (natDigits_spec m).1
  rw [h] at hall
  cases hall

theorem intDigits_inj {m n : Int} (h : intDigits m = intDigits n) : m = n := by
  unfold intDigits at h
  split_ifs at h with hm hn hn
  · have habs := natDigits_inj (List.cons.inj h).2
    omega
  · exact absurd h.symm (natDigits_ne_minus _ _)
  · exact absurd h (natDigits_ne_minus _ _)
  · have habs := natDigits_inj h
    omega

end CodeLayout
