import CodeLayout.Syntax.Lookahead
import Mathlib.Tactic.SplitIfs

/-!
# How far lookahead goes

A search for the end of a type stays within the stream, and it goes forward unless the annotations
in front of the type are not closed.
-/

namespace CodeLayout

namespace Cursor

variable {c : Cursor} {j k : Int} {fuel : Nat}

/-- A position is at most the end of the stream. -/
def Reaches (c : Cursor) (k : Int) : Prop :=
  c.pos + k ≤ c.lexemes.size

theorem reaches_of_get? {l : Lexeme} (h : c.get? k = some l) : c.Reaches (k + 1) := by
  simp only [get?] at h
  by_cases hneg : (c.pos : Int) + k < 0
  · simp [hneg] at h
  · simp only [if_neg hneg] at h
    have hlt := (Array.getElem?_eq_some_iff.mp h).1
    simp only [Reaches]
    omega

theorem reaches_of_text (h : c.text k ≠ []) : c.Reaches (k + 1) := by
  cases hl : c.get? k with
  | none => simp [text, hl] at h
  | some l => exact reaches_of_get? hl

theorem reaches_of_isAt {t : String} (h : c.isAt k t = true) (ht : ascii t ≠ []) :
    c.Reaches (k + 1) := by
  refine reaches_of_text ?_
  rw [beq_iff_eq.mp h]
  exact ht

theorem reaches_of_isWord (h : c.isWord k = true) : c.Reaches (k + 1) := by
  cases hl : c.get? k with
  | none => simp [isWord, kind, hl] at h
  | some l => exact reaches_of_get? hl

theorem reaches_of_isName (h : c.isName k = true) : c.Reaches (k + 1) := by
  simp only [isName, Bool.and_eq_true] at h
  exact reaches_of_isWord h.1

theorem reaches_of_isTypeName (h : c.isTypeName k = true) : c.Reaches (k + 1) := by
  simp only [isTypeName, Bool.or_eq_true] at h
  rcases h with hname | hvoid
  · exact reaches_of_isName hname
  · exact reaches_of_isAt hvoid (by decide)

theorem typeArgsFrom_bounds {depth : Int} (h : c.typeArgsFrom fuel depth k = some j) :
    k < j ∧ c.Reaches j := by
  induction fuel generalizing depth k with
  | zero => simp [typeArgsFrom] at h
  | succ fuel ih =>
      simp only [typeArgsFrom] at h
      cases hl : c.get? k with
      | none => simp [hl] at h
      | some l =>
          have hreach := reaches_of_get? hl
          have hmore : ∀ d, c.typeArgsFrom fuel d (k + 1) = some j → k < j ∧ c.Reaches j := by
            intro d hd
            obtain ⟨hlt, hj⟩ := ih hd
            exact ⟨by omega, hj⟩
          simp only [hl] at h
          split_ifs at h
          · exact hmore _ h
          · simp only [Option.some.injEq] at h
            subst h
            exact ⟨by omega, hreach⟩
          · exact hmore _ h
          · exact hmore _ h

theorem skipTypeArgs_bounds (h : c.skipTypeArgs k = some j) : k < j ∧ c.Reaches j :=
  typeArgsFrom_bounds h

theorem typeNameFrom_bounds (hk : c.Reaches k) (h : c.typeNameFrom fuel k = some j) :
    k ≤ j ∧ c.Reaches j := by
  induction fuel generalizing k with
  | zero =>
      simp only [typeNameFrom, Option.some.injEq] at h
      subst h
      exact ⟨Int.le_refl _, hk⟩
  | succ fuel ih =>
      simp only [typeNameFrom] at h
      split at h
      · cases h
      · rename_i i hi
        have hi' : k ≤ i ∧ c.Reaches i := by
          split at hi
          · obtain ⟨hlt, hreach⟩ := skipTypeArgs_bounds hi
            exact ⟨by omega, hreach⟩
          · simp only [Option.some.injEq] at hi
            subst hi
            exact ⟨Int.le_refl _, hk⟩
        split at h
        · rename_i hname
          simp only [Bool.and_eq_true] at hname
          have hreach := reaches_of_isName hname.2
          obtain ⟨hle, hj⟩ := ih (k := i + 2) (by simpa [Int.add_assoc] using hreach) h
          exact ⟨by omega, hj⟩
        · simp only [Option.some.injEq] at h
          subst h
          exact hi'

theorem skipDims_bounds (fuel : Nat) (hk : c.Reaches k) :
    k ≤ c.skipDims fuel k ∧ c.Reaches (c.skipDims fuel k) := by
  induction fuel generalizing k with
  | zero => exact ⟨Int.le_refl _, hk⟩
  | succ fuel ih =>
      simp only [skipDims]
      split
      · rename_i hpair
        simp only [Bool.and_eq_true] at hpair
        have hreach := reaches_of_isAt hpair.2 (by decide)
        obtain ⟨hle, hj⟩ := ih (k := k + 2) (by simpa [Int.add_assoc] using hreach)
        exact ⟨by omega, hj⟩
      · exact ⟨Int.le_refl _, hk⟩

theorem skipType_bounds (h : c.skipType k = some j) : c.skipAnnots k < j ∧ c.Reaches j := by
  simp only [skipType] at h
  split at h
  · rename_i hname
    obtain ⟨i, hi, rfl⟩ := Option.map_eq_some_iff.mp h
    obtain ⟨hle, hreach⟩ := typeNameFrom_bounds (reaches_of_isTypeName hname) hi
    have hdims := skipDims_bounds c.bound hreach
    exact ⟨by omega, hdims.2⟩
  · cases h

/-- Where no annotation stands, none is skipped. -/
theorem skipAnnots_eq_self (h : c.isAnnot k = false) : c.skipAnnots k = k := by
  have hnone : c.annotsFrom c.bound k = some k := by
    change (if c.isAnnot k = true then _ else some k) = some k
    rw [if_neg (by simp [h])]
  rw [skipAnnots, hnone, Option.getD_some]

theorem skipType_isSome_of_isTyped (h : c.isTyped = true) : (c.skipType 0).isSome = true := by
  cases hskip : c.skipType 0 with
  | none =>
      delta isTyped at h
      rw [hskip] at h
      cases h
  | some k => rfl

end Cursor

end CodeLayout
