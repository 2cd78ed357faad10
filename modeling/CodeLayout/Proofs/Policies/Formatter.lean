import CodeLayout.Formatter
import CodeLayout.Layout.Resolve
import CodeLayout.Proofs.Policies.Build
import CodeLayout.Proofs.Style.Normal

/-!
# Formatting without alignment

Only the policy without any bits keeps a group from being split. One that names no alignment and has
a modifier lays out every tree in the way compact splitting does, with the same indentation of
wrapped lines: each place that looks at a policy looks at what the two have in common.

So formatting never tells a policy from the compacted one, and no alignment with a modifier gives
what no alignment alone gives exactly for the texts for which compact splitting does.
-/

namespace CodeLayout

set_option maxRecDepth 1000

namespace Policy

/-- Whether a policy names no alignment and has bits besides. -/
def isModifiedNone (p : Policy) : Bool :=
  p.split? = some .noAlignment && p ≠ .none

/-- The policy with compact splitting in place of no alignment with modifiers. -/
def compacted (p : Policy) : Policy :=
  if p.isModifiedNone then ⟨Split.compact.bits ||| p.bits &&& indentMask⟩ else p

/-- What laying out sees of a policy is the same for the compacted one. -/
structure LooksLike (q p : Policy) : Prop where
  none_iff : q = .none ↔ p = .none
  isForced : q.isForced = p.isForced
  indent : q.indent = p.indent
  /-- The ways to split differ at most in a way that no choice depends on. -/
  split : q.split? = p.split? ∨ q.split? = some .compact ∧ p.split? = some .noAlignment

instance (q p : Policy) : Decidable (LooksLike q p) :=
  decidable_of_iff ((q = .none ↔ p = .none) ∧ q.isForced = p.isForced ∧ q.indent = p.indent ∧
      (q.split? = p.split? ∨ q.split? = some .compact ∧ p.split? = some .noAlignment))
    ⟨fun ⟨h, h', h'', h'''⟩ => ⟨h, h', h'', h'''⟩, fun h => ⟨h.1, h.2, h.3, h.4⟩⟩

theorem looksLike_compacted (p : Policy) : LooksLike p.compacted p := by
  have hall : ∀ n < 256, LooksLike (compacted ⟨UInt8.ofNat n⟩) ⟨UInt8.ofNat n⟩ := by
    decide +kernel
  exact forall_of_lt (P := fun p => LooksLike p.compacted p) hall p

@[simp] theorem compacted_compacted (p : Policy) : p.compacted.compacted = p.compacted := by
  have hall : ∀ n < 256, (compacted ⟨UInt8.ofNat n⟩).compacted = compacted ⟨UInt8.ofNat n⟩ := by
    decide +kernel
  exact forall_of_lt (P := fun p => p.compacted.compacted = p.compacted) hall p

@[simp] theorem compacted_none : Policy.none.compacted = .none := by
  decide

@[simp] theorem compacted_eq_none_iff (p : Policy) : p.compacted = .none ↔ p = .none :=
  (looksLike_compacted p).none_iff

@[simp] theorem compacted_bne_none (p : Policy) : (p.compacted != .none) = (p != .none) := by
  rw [Bool.eq_iff_iff, bne_iff_ne, bne_iff_ne, ne_eq, compacted_eq_none_iff]

@[simp] theorem isForced_compacted (p : Policy) : p.compacted.isForced = p.isForced :=
  (looksLike_compacted p).isForced

@[simp] theorem indent_compacted (p : Policy) : p.compacted.indent = p.indent :=
  (looksLike_compacted p).indent

theorem isSome_split?_compacted (p : Policy) : p.compacted.split?.isSome = p.split?.isSome := by
  rcases (looksLike_compacted p).split with hsplit | ⟨hcompact, hnone⟩
  · rw [hsplit]
  · rw [hcompact, hnone]
    rfl

theorem compacted_eq_self {p : Policy} (h : p.split? ≠ some .noAlignment) : p.compacted = p :=
  if_neg (by simp [isModifiedNone, h])

end Policy

/-- The style with its policies compacted. -/
def Style.compacted (s : Style) : Style :=
  s.withPolicies fun c => (s.policies c).compacted

@[simp] theorem Style.policy_compacted (s : Style) (c : WrapContext) :
    s.compacted.policy c = (s.policy c).compacted := by
  unfold Style.policy
  split_ifs
  · rfl
  · decide

/-- What laying out depends on, with the policies compacted. -/
def LayoutContext.compacted (x : LayoutContext) : LayoutContext :=
  { x with style := x.style.compacted }

namespace Placing

/-- A plan with its policy compacted. -/
def SplitPlan.compacted (plan : SplitPlan) : SplitPlan :=
  { plan with policy := plan.policy.compacted }

variable (x : LayoutContext)

theorem policy_compacted (context : WrapContext) :
    policy x.compacted context = Policy.compacted <$> policy x context := by
  simp only [policy, map_eq_pure_bind, bind_assoc]
  refine bind_congr fun s => ?_
  have hbudget : x.compacted.budget = x.budget := rfl
  rw [hbudget]
  split_ifs
  · simp only [bind_assoc, pure_bind, Policy.compacted_none]
  · simp only [pure_bind, Policy.compacted_none]
  · rw [pure_bind, ← Style.policy_compacted]
    rfl

section Room

mutual

theorem lead_compacted : ∀ c : Chunk, lead x.compacted c = lead x c
  | .token _ _ => rfl
  | .comment _ _ _ => rfl
  | .block _ _ _ _ _ => rfl
  | .group _ context breakFirst cs => by
      rw [lead, lead, leadElements_compacted context true 0 cs]

theorem leadElements_compacted (context : WrapContext) (isFirst : Bool) (width : Int) :
    ∀ cs : List Chunk,
      leadElements x.compacted context isFirst width cs = leadElements x context isFirst width cs
  | [] => rfl
  | e :: es => by
      have hrest := fun width => leadElements_compacted context false width es
      simp only [leadElements, lead_compacted e, policy_compacted, hrest, map_eq_pure_bind,
        bind_assoc, pure_bind, Policy.compacted_bne_none]

end

theorem tail_compacted (parent width : Int) (cs : List Chunk) :
    tail x.compacted parent width cs = tail x parent width cs := by
  induction cs generalizing width with
  | nil => rfl
  | cons c cs ih => simp only [tail, lead_compacted, ih]

theorem fits_compacted : fits x.compacted = fits x :=
  rfl

end Room

section Resolve

theorem wrapIndent_compacted (context : WrapContext) (policy : Policy) (p : Position) :
    wrapIndent x.compacted context policy.compacted p = wrapIndent x context policy p := by
  simp only [wrapIndent, Policy.indent_compacted]
  rfl

mutual

theorem flatten_compacted (indent : Indent) : ∀ c : Chunk,
    flatten x.compacted indent c = flatten x indent c
  | .token _ _ => rfl
  | .comment _ _ _ => rfl
  | .group _ _ _ cs => flattenElements_compacted indent none cs
  | .block _ opening closing indented items => by
      have hitems := fun indent => flattenItems_compacted indent items
      have hopening := flattenBrace_compacted indent opening
      have hclosing := flattenBrace_compacted indent closing
      cases opening <;> cases closing <;> simp only [flatten, hitems, hopening, hclosing]

theorem flattenBrace_compacted (indent : Indent) : ∀ (brace : Option Chunk) (c : Chunk),
    brace = some c → flatten x.compacted indent c = flatten x indent c
  | none, _, h => nomatch h
  | some c, _, rfl => flatten_compacted indent c

theorem flattenElements_compacted (indent : Indent) (previous : Option Chunk) : ∀ cs : List Chunk,
    flattenElements x.compacted indent previous cs = flattenElements x indent previous cs
  | [] => rfl
  | c :: cs => by
      simp only [flattenElements, flatten_compacted indent c,
        flattenElements_compacted indent (some c) cs]
      rfl

theorem flattenItems_compacted (indent : Indent) : ∀ cs : List Chunk,
    flattenItems x.compacted indent cs = flattenItems x indent cs
  | [] => rfl
  | c :: cs => by
      simp only [flattenItems, flatten_compacted indent c, flattenItems_compacted indent cs]

end

theorem guarded_compacted (c : Chunk) (p : Position) (place : Placing Position) :
    guarded x.compacted c p place = guarded x c p place := by
  simp only [guarded, flatten_compacted]
  rfl

theorem choose_compacted (plan : SplitPlan) :
    choose x.compacted plan.compacted = choose x plan := by
  funext broke i previous c p tail
  simp only [choose, fits_compacted, SplitPlan.compacted, Policy.isForced_compacted]
  rcases (Policy.looksLike_compacted plan.policy).split with hsplit | ⟨hcompact, hnone⟩
  · rw [hsplit]
    rfl
  · rw [hcompact, hnone]
    rfl

mutual

theorem place_compacted : ∀ (c : Chunk) (p : Position) (tail : Int),
    place x.compacted c p tail = place x c p tail
  | .token _ _, _, _ => rfl
  | .comment _ _ _, _, _ => rfl
  | .block _ opening closing indented items, p, tail => by
      simp only [place, placeOpening_compacted opening, placeItems_compacted items,
        placeClosing_compacted closing]
  | .group t context breakFirst children, p, tail => by
      have hsplit : ∀ policy indent,
          placeSplit x.compacted children ⟨policy.compacted, indent, breakFirst⟩ false 0 none p
              tail =
            placeSplit x children ⟨policy, indent, breakFirst⟩ false 0 none p tail :=
        fun policy indent => placeSplit_compacted children ⟨policy, indent, breakFirst⟩ ..
      simp only [place, policy_compacted, map_eq_pure_bind, bind_assoc, pure_bind,
        Policy.compacted_eq_none_iff, Policy.isForced_compacted, wrapIndent_compacted,
        placeSequence_compacted children, hsplit]
      rfl

theorem placeOpening_compacted : ∀ (opening : Option Chunk) (p : Position),
    placeOpening x.compacted opening p = placeOpening x opening p
  | none, _ => rfl
  | some c, p => by simp only [placeOpening, place_compacted c]

theorem placeClosing_compacted : ∀ (closing : Option Chunk) (startsLine : Bool) (p : Position),
    placeClosing x.compacted closing startsLine p = placeClosing x closing startsLine p
  | none, _, _ => rfl
  | some c, startsLine, p => by
      simp only [placeClosing, place_compacted c]
      rfl

theorem placeItems_compacted : ∀ (items : List Chunk) (indent : Indent) (p : Position),
    placeItems x.compacted items indent p = placeItems x items indent p
  | [], _, _ => rfl
  | c :: cs, indent, p => by
      simp only [placeItems, place_compacted c, placeItems_compacted cs, guarded_compacted]
      rfl

theorem placeSequence_compacted : ∀ (children : List Chunk) (start : Indent)
    (previous : Option Chunk) (p : Position) (tail : Int),
    placeSequence x.compacted children start previous p tail =
      placeSequence x children start previous p tail
  | [], _, _, _, _ => rfl
  | c :: cs, start, previous, p, tail => by
      simp only [placeSequence, place_compacted c, placeSequence_compacted cs, tail_compacted]
      rfl

theorem placeSplit_compacted : ∀ (children : List Chunk) (plan : SplitPlan) (broke : Bool) (i : Nat)
    (previous : Option Chunk) (p : Position) (tail : Int),
    placeSplit x.compacted children plan.compacted broke i previous p tail =
      placeSplit x children plan broke i previous p tail
  | [], _, _, _, _, _, _ => rfl
  | c :: cs, plan, broke, i, previous, p, tail => by
      simp only [placeSplit, place_compacted c, placeSplit_compacted cs, choose_compacted]
      rfl

end

theorem root_compacted (c : Chunk) : root x.compacted c = root x c := by
  unfold root placeBlock
  simp only [placeOpening_compacted, placeItems_compacted, placeClosing_compacted]

end Resolve

end Placing

theorem Layout.ofChunk_compacted (c : Chunk) (file : SourceFile) (s : Style) :
    Layout.ofChunk c file s.compacted = Layout.ofChunk c file s := by
  have htab : s.compacted.tabSize = s.tabSize := rfl
  unfold Layout.ofChunk
  rw [htab]
  generalize c.annotate s.tabSize 0 = annotated
  obtain ⟨c, count⟩ := annotated
  have hroot : Placing.root ⟨s.compacted, file, budget count⟩ c =
      Placing.root ⟨s, file, budget count⟩ c :=
    Placing.root_compacted (x := ⟨s, file, budget count⟩) c
  dsimp only
  rw [hroot]

theorem Output.ofLayout_withPolicies (l : Layout) (file : SourceFile) (s : Style)
    (regions : Regions) (f : WrapContext → Policy) :
    Output.ofLayout l file (s.withPolicies f) regions = Output.ofLayout l file s regions :=
  rfl

theorem Formatted.ofFile_compacted (file : SourceFile) (kind : SourceKind) (s : Style) :
    Formatted.ofFile file kind s.compacted = Formatted.ofFile file kind s := by
  have hregions (t : TokenStream) : Regions.ofStream t s.compacted = Regions.ofStream t s :=
    Regions.ofStream_withPolicies t s
  have hchunk (t : TokenStream) (root : Node) (regions : Regions) :
      Chunk.ofNode t root s.compacted regions = Chunk.ofNode t root s regions :=
    Chunk.ofNode_withPolicies t root s regions
  have houtput (l : Layout) (regions : Regions) :
      Output.ofLayout l file s.compacted regions = Output.ofLayout l file s regions :=
    Output.ofLayout_withPolicies l file s regions _
  simp only [Formatted.ofFile, hregions, hchunk, houtput, Layout.ofChunk_compacted]

namespace Style

theorem normalPolicy_compacted (c : WrapContext) (p : Policy) :
    normalPolicy c p.compacted = ((normalPolicy c p).1.compacted, (normalPolicy c p).2) := by
  unfold normalPolicy
  by_cases hsplit : p.split?.isSome = true
  · rw [if_pos hsplit, if_pos (by rwa [Policy.isSome_split?_compacted])]
  · rw [if_neg hsplit, if_neg (by rwa [Policy.isSome_split?_compacted]),
      Policy.compacted_eq_self (by rintro heq; simp [heq] at hsplit),
      Policy.compacted_eq_self (p := .ofSplit .compact) (by decide)]

theorem normalize_compacted (s : Style) :
    s.compacted.normalize = (s.normalize.1.compacted, s.normalize.2) := by
  have hnormal (c : WrapContext) := normalPolicy_compacted c (s.policies c)
  have hreport : (WrapContext.configurable.flatMap fun c =>
      (normalPolicy c (s.compacted.policies c)).2) =
      WrapContext.configurable.flatMap fun c => (normalPolicy c (s.policies c)).2 :=
    congrArg WrapContext.configurable.flatMap (funext fun c => (Prod.ext_iff.mp (hnormal c)).2)
  have hpolicies : (fun c => (normalPolicy c (s.compacted.policies c)).1) =
      fun c => (normalPolicy c (s.policies c)).1.compacted :=
    funext fun c => (Prod.ext_iff.mp (hnormal c)).1
  unfold normalize
  rw [hreport, hpolicies]
  rfl

theorem agrees_bare_compacted (s : Style) : s.compacted.agrees bare = s.agrees bare := by
  have hpolicies (c : WrapContext) :
      decide (s.compacted.policies c = bare.policies c) = decide (s.policies c = bare.policies c) :=
    decide_eq_decide.mpr (Policy.compacted_eq_none_iff (s.policies c))
  simp only [agrees, hpolicies]
  rfl

theorem compacted_withPolicy (s : Style) (c : WrapContext) (p : Policy) :
    (s.withPolicy c p.compacted).compacted = (s.withPolicy c p).compacted := by
  unfold withPolicy
  split_ifs with hc
  · refine congrArg s.withPolicies (funext fun d => ?_)
    simp only
    split_ifs
    · exact Policy.compacted_compacted p
    · rfl
  · rfl

end Style

namespace Formatter

theorem format_compacted (s : Style) (kind : SourceKind) (text : Bytes) :
    (Formatter.mk s.compacted kind).format text = (Formatter.mk s kind).format text := by
  have heffective : (Formatter.mk s.compacted kind).effective = (Formatter.mk s kind).effective ∨
      (Formatter.mk s.compacted kind).effective =
        ((Formatter.mk s kind).effective.1.compacted, (Formatter.mk s kind).effective.2) := by
    simp only [effective, Style.agrees_bare_compacted]
    split_ifs
    · exact Or.inl rfl
    · exact Or.inr (Style.normalize_compacted s)
  rcases heffective with heq | heq
  · simp only [format, run, heq]
  · simp only [format, run, heq, Formatted.ofFile_compacted]

/-- Formatting does not tell a policy from the compacted one. -/
theorem format_withPolicy_compacted (s : Style) (kind : SourceKind) (c : WrapContext) (p : Policy)
    (text : Bytes) :
    (Formatter.mk (s.withPolicy c p.compacted) kind).format text =
      (Formatter.mk (s.withPolicy c p) kind).format text := by
  rw [← format_compacted (s.withPolicy c p.compacted), Style.compacted_withPolicy,
    format_compacted]

/-- Formatting with no alignment and modifiers is formatting with compact splitting and the same
indentation of wrapped lines. So it leaves out the optional breaks that no alignment alone leaves
out exactly if compact splitting takes none of them either. -/
theorem format_noAlignment_eq_iff (s : Style) (kind : SourceKind) (c : WrapContext) {p : Policy}
    (h : p.split? = some .noAlignment) (text : Bytes) :
    let formatted (q : Policy) := (Formatter.mk (s.withPolicy c q) kind).format text
    let compact : Policy := ⟨Split.compact.bits ||| p.bits &&& Policy.indentMask⟩
    (p ≠ .none → formatted p = formatted compact) ∧
      ((formatted p).1 = (formatted .none).1 ↔
        p = .none ∨ (formatted compact).1 = (formatted .none).1) := by
  have hcompact (hp : p ≠ .none) :
      p.compacted = ⟨Split.compact.bits ||| p.bits &&& Policy.indentMask⟩ :=
    if_pos (by simp [Policy.isModifiedNone, h, hp])
  simp only
  by_cases hp : p = .none
  · exact ⟨fun hne => absurd hp hne, by simp [hp]⟩
  · have heq := format_withPolicy_compacted s kind c p text
    rw [hcompact hp] at heq
    exact ⟨fun _ => heq.symm, by rw [heq]; simp [hp]⟩

/-- A call that is too long for its line wraps under a forced no alignment as it does under compact
splitting. -/
theorem format_noAlignment_force_eq_compact :
    let narrow : Style := { Style.default with pageWidth := 30 }
    let formatted (p : Policy) :=
      (Formatter.mk (narrow.withPolicy .invocationArguments p) .body).format
        (ascii "foo(aaaaaa, bbbbbb, cccccc, dddddd);\n")
    (Policy.mk Policy.forceBit).split? = some .noAlignment ∧
      formatted ⟨Policy.forceBit⟩ = formatted (.ofSplit .compact) ∧
      (formatted (.ofSplit .compact)).1 = ascii "foo(aaaaaa, bbbbbb, cccccc,\n\t\tdddddd);\n" :=
  ⟨by decide,
    (format_noAlignment_eq_iff { Style.default with pageWidth := 30 } .body .invocationArguments
      (by decide) _).1 (by decide),
    by decide +kernel⟩

/-- With no alignment for the arguments of a call none of them is moved to a new line, however long
the line gets; with no alignment that is forced they are. -/
theorem format_noAlignment_force_breaks :
    let narrow : Style := { Style.default with pageWidth := 30 }
    let formatted (p : Policy) :=
      ((Formatter.mk (narrow.withPolicy .invocationArguments p) .body).format
        (ascii "foo(aaaaaa, bbbbbb, cccccc, dddddd);\n")).1
    (Policy.mk Policy.forceBit).split? = some .noAlignment ∧
      (narrow.withPolicy .invocationArguments .none).agrees .bare = false ∧
      formatted .none = ascii "foo(aaaaaa, bbbbbb, cccccc, dddddd);\n" ∧
      formatted ⟨Policy.forceBit⟩ = ascii "foo(aaaaaa, bbbbbb, cccccc,\n\t\tdddddd);\n" := by
  decide +kernel

end Formatter

end CodeLayout
