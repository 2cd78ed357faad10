import CodeLayout.Proofs.Text.Trim
import CodeLayout.Style.Options
import CodeLayout.Style.Policy
import Mathlib.Tactic.SplitIfs

/-!
# Valid policies and normal styles

A policy that was read names a way to split and has no bits that stand for nothing. Its words are
read as the same policy, unless it has both bits for the indentation: only the one that wins has a
word.

Normalizing a style makes a normal one of it: every number is in its range, the separator and the
choice of indentation are known, and the tags have no white space around them. A normal style is
left as it is, with a warning at most about tags that are used and missing.
-/

namespace CodeLayout

set_option maxRecDepth 1000

namespace Policy

/-- Whether the bits name a way to split and no other bits are set than those with a meaning. -/
def IsValid (p : Policy) : Prop :=
  p.bits &&& 0x88 = 0 ∧ p.split?.isSome = true

instance (p : Policy) : Decidable p.IsValid :=
  inferInstanceAs (Decidable (_ ∧ _))

/-- Whether a policy has both bits that choose an indentation. -/
def hasBothIndents (p : Policy) : Bool :=
  p.bits &&& indentMask = indentMask

/-- The policy with the bit of the indentation that is used only. -/
def spoken (p : Policy) : Policy :=
  if p.hasBothIndents then ⟨p.bits &&& ~~~WrapIndent.byOne.bits⟩ else p

/-- What holds of the policies of all bytes holds of every policy. -/
theorem forall_of_lt {P : Policy → Prop} (h : ∀ n < 256, P ⟨UInt8.ofNat n⟩) (p : Policy) : P p := by
  have hp := h p.bits.toNat p.bits.toNat_lt
  rwa [UInt8.ofNat_toNat] at hp

theorem isValid_ofSplit (s : Split) : (ofSplit s).IsValid := by
  cases s <;> decide

theorem isValid_none : none.IsValid := by
  decide

/-- The words of a policy are read. -/
theorem parse_render {p : Policy} (h : p.IsValid) : parse p.render = .ok p.spoken := by
  have hall : ∀ n < 256, IsValid ⟨UInt8.ofNat n⟩ →
      (parse (render ⟨UInt8.ofNat n⟩)).toOption = some (spoken ⟨UInt8.ofNat n⟩) := by
    decide +kernel
  have hp :=
    forall_of_lt (P := fun p => p.IsValid → (parse p.render).toOption = some p.spoken) hall p h
  cases hparse : parse p.render with
  | error e =>
      rw [hparse] at hp
      cases hp
  | ok q =>
      rw [hparse] at hp
      exact congrArg _ (Option.some.inj hp)

theorem IsValid.spoken {p : Policy} (h : p.IsValid) : p.spoken.IsValid := by
  have hall : ∀ n < 256, IsValid ⟨UInt8.ofNat n⟩ → IsValid (Policy.spoken ⟨UInt8.ofNat n⟩) := by
    decide +kernel
  exact forall_of_lt (P := fun p => p.IsValid → p.spoken.IsValid) hall p h

theorem spoken_eq_self_iff (p : Policy) : p.spoken = p ↔ p.hasBothIndents = false := by
  have hall : ∀ n < 256, Policy.spoken ⟨UInt8.ofNat n⟩ = ⟨UInt8.ofNat n⟩ ↔
      hasBothIndents ⟨UInt8.ofNat n⟩ = false := by
    decide +kernel
  exact forall_of_lt (P := fun p => p.spoken = p ↔ p.hasBothIndents = false) hall p

/-- Modifiers keep the way to split, and they set bits with a meaning only. -/
theorem IsValid.modify {p q : Policy} {word : Bytes} (h : p.IsValid) (hq : modify p word = .ok q) :
    q.IsValid := by
  have hall : ∀ n < 256, IsValid ⟨UInt8.ofNat n⟩ →
      IsValid ⟨UInt8.ofNat n ||| forceBit⟩ ∧ IsValid ⟨UInt8.ofNat n &&& ~~~indentMask⟩ ∧
        IsValid ⟨UInt8.ofNat n &&& ~~~indentMask ||| WrapIndent.onColumn.bits⟩ ∧
        IsValid ⟨UInt8.ofNat n &&& ~~~indentMask ||| WrapIndent.byOne.bits⟩ := by
    decide +kernel
  obtain ⟨hforce, hplain, hcolumn, hone⟩ := forall_of_lt
    (P := fun p => p.IsValid → IsValid ⟨p.bits ||| forceBit⟩ ∧ IsValid ⟨p.bits &&& ~~~indentMask⟩ ∧
      IsValid ⟨p.bits &&& ~~~indentMask ||| WrapIndent.onColumn.bits⟩ ∧
      IsValid ⟨p.bits &&& ~~~indentMask ||| WrapIndent.byOne.bits⟩) hall p h
  simp only [Policy.modify] at hq
  split_ifs at hq <;> cases hq
  · exact hforce
  · exact hcolumn
  · exact hone
  · exact hplain

/-- A policy that was read is valid. -/
theorem isValid_of_parse {s : Bytes} {p : Policy} (h : parse s = .ok p) : p.IsValid := by
  simp only [parse] at h
  split at h
  · simp only [ofCode] at h
    split_ifs at h with hcode
    cases h
    simp only [Bool.or_eq_true, not_or, Bool.not_eq_true, bne_eq_false_iff_eq] at hcode
    exact ⟨hcode.1, Option.isSome_iff_ne_none.mpr fun hnone => by simp [hnone] at hcode⟩
  · split at h
    · cases h
    · rename_i word modifiers heq
      split at h
      · cases h
      · rename_i split _
        have hfold : ∀ (ws : List Bytes) (q : Policy), q.IsValid →
            ws.foldlM Policy.modify q = .ok p → p.IsValid := by
          intro ws
          induction ws with
          | nil =>
              intro q hq hp
              cases hp
              exact hq
          | cons w ws ih =>
              intro q hq hp
              rw [List.foldlM_cons] at hp
              cases hmodify : Policy.modify q w with
              | error e =>
                  rw [hmodify] at hp
                  cases hp
              | ok q' =>
                  rw [hmodify] at hp
                  exact ih q' (hq.modify hmodify) hp
        exact hfold modifiers _ (isValid_ofSplit split) h

end Policy

namespace Style

/-- Whether all policies of a style are valid, and contexts without a policy have none. -/
structure HasValidPolicies (s : Style) : Prop where
  isValid : ∀ c, (s.policies c).IsValid
  plain : ∀ c, c.isConfigurable = false → s.policies c = .none

/-- Whether normalizing has nothing to change about a style. -/
structure IsNormal (s : Style) : Prop extends HasValidPolicies s where
  tabSize : 0 ≤ s.tabSize ∧ s.tabSize ≤ maxIndent
  indentSize : 0 ≤ s.indentSize ∧ s.indentSize ≤ maxIndent
  continuation : 0 ≤ s.continuation ∧ s.continuation ≤ maxIndent
  blankLines : 0 ≤ s.blankLines ∧ s.blankLines ≤ maxBlank
  lineLength : 0 ≤ s.comments.lineLength ∧ s.comments.lineLength ≤ maxWidth
  pageWidth : 0 ≤ s.pageWidth ∧ s.pageWidth ≤ maxWidth
  indentChar : s.indentChar ∈ [IndentChar.tab, .space, .mixed]
  separator : s.separator ∈ separators
  disablingTag : s.disablingTag.trim = s.disablingTag
  enablingTag : s.enablingTag.trim = s.enablingTag

theorem clamp_bounds (key : Bytes) {lo hi : Int} (h : lo ≤ hi) (value : Int) :
    lo ≤ (clamp key lo hi value).1 ∧ (clamp key lo hi value).1 ≤ hi := by
  unfold clamp
  split_ifs <;> constructor <;> simp only <;> omega

theorem clamp_eq (key : Bytes) {lo hi value : Int} (h : lo ≤ value ∧ value ≤ hi) :
    clamp key lo hi value = (value, []) := by
  unfold clamp
  rw [if_neg (by omega), if_neg (by omega)]

theorem normalIndentChar_mem (c : IndentChar) :
    (normalIndentChar c).1 ∈ [IndentChar.tab, .space, .mixed] := by
  cases c <;> simp [normalIndentChar]

theorem normalIndentChar_eq {c : IndentChar} (h : c ∈ [IndentChar.tab, .space, .mixed]) :
    normalIndentChar c = (c, []) := by
  simp only [List.mem_cons, List.not_mem_nil, or_false] at h
  rcases h with rfl | rfl | rfl <;> rfl

theorem normalSeparator_mem (sep : Bytes) : (normalSeparator sep).1 ∈ separators := by
  unfold normalSeparator
  split_ifs with h
  · exact List.contains_iff_mem.mp h
  · exact List.mem_cons_self

theorem normalSeparator_eq {sep : Bytes} (h : sep ∈ separators) :
    normalSeparator sep = (sep, []) :=
  if_pos (List.contains_iff_mem.mpr h)

theorem normalPolicy_eq (c : WrapContext) {p : Policy} (h : p.IsValid) :
    normalPolicy c p = (p, []) :=
  if_pos h.2

/-- The warning about a tag that is used and missing. -/
def tagReport (s : Style) : Report :=
  if s.useTags && s.disablingTag.isEmpty then
    warn (.emptyTag useTagsSetting.key disablingTagSetting.key)
  else []

theorem normalize_of_isNormal {s : Style} (h : s.IsNormal) : s.normalize = (s, s.tagReport) := by
  have hwidth : max s.pageWidth 0 = s.pageWidth := Int.max_eq_left h.pageWidth.1
  have hreport :
      (WrapContext.configurable.flatMap fun c => (normalPolicy c (s.policies c)).2) = [] :=
    List.flatMap_eq_nil_iff.mpr fun c _ => by rw [normalPolicy_eq c (h.isValid c)]
  have hpolicies : (fun c => (normalPolicy c (s.policies c)).1) = s.policies :=
    funext fun c => by rw [normalPolicy_eq c (h.isValid c)]
  unfold normalize
  rw [hwidth, clamp_eq _ h.tabSize, clamp_eq _ h.indentSize, clamp_eq _ h.continuation,
    clamp_eq _ h.blankLines, clamp_eq _ h.lineLength, clamp_eq _ h.pageWidth,
    normalIndentChar_eq h.indentChar, normalSeparator_eq h.separator, hreport, hpolicies,
    h.disablingTag, h.enablingTag]
  simp only [List.append_nil, List.nil_append]
  rfl

theorem isNormal_normalize {s : Style} (h : s.HasValidPolicies) : s.normalize.1.IsNormal where
  isValid c := by
    change (normalPolicy c (s.policies c)).1.IsValid
    rw [normalPolicy_eq c (h.isValid c)]
    exact h.isValid c
  plain c hc := by
    change (normalPolicy c (s.policies c)).1 = _
    rw [normalPolicy_eq c (h.isValid c)]
    exact h.plain c hc
  tabSize := clamp_bounds _ (by decide) _
  indentSize := clamp_bounds _ (by decide) _
  continuation := clamp_bounds _ (by decide) _
  blankLines := clamp_bounds _ (by decide) _
  lineLength := clamp_bounds _ (by decide) _
  pageWidth := clamp_bounds _ (by decide) _
  indentChar := normalIndentChar_mem _
  separator := normalSeparator_mem _
  disablingTag := Bytes.trim_trim _
  enablingTag := Bytes.trim_trim _

/-- The style with the indentation of each policy that is used. -/
def spoken (s : Style) : Style :=
  { s with policies := fun c => (s.policies c).spoken }

theorem IsNormal.spoken {s : Style} (h : s.IsNormal) : s.spoken.IsNormal :=
  { h with
    isValid := fun c => (h.isValid c).spoken
    plain := fun c hc => congrArg Policy.spoken (h.plain c hc) }

theorem hasValidPolicies_default : default.HasValidPolicies where
  isValid c := by
    have hpolicy : default.policies c = .none ∨ default.policies c = .ofSplit .compact := by
      cases c <;> first | exact Or.inl rfl | exact Or.inr rfl
    rcases hpolicy with hnone | hcompact
    · exact hnone ▸ Policy.isValid_none
    · exact hcompact ▸ Policy.isValid_ofSplit .compact
  plain c hc := by
    cases c <;> first | rfl | cases hc

theorem HasValidPolicies.withPolicy {s : Style} (h : s.HasValidPolicies) (c : WrapContext)
    {p : Policy} (hp : p.IsValid) : (s.withPolicy c p).HasValidPolicies := by
  unfold Style.withPolicy
  split_ifs with hc
  · refine ⟨fun d => ?_, fun d hd => ?_⟩
    · simp only
      split_ifs
      · exact hp
      · exact h.isValid d
    · simp only
      split_ifs with hdc
      · rw [hdc, hc] at hd
        cases hd
      · exact h.plain d hd
  · exact h

end Style

end CodeLayout
