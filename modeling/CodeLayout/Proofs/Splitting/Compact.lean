import CodeLayout.Formatter
import CodeLayout.Proofs.Splitting.Lines

/-!
# Compact splitting

Compact splitting keeps an element if it fits on the line, or if a new line would not start further
to the left. An element that is kept though it does not fit would not fit on a new line either, but
for one case: that the two lines start in the same column says nothing about the space before the
element, which a new line does without.
-/

namespace CodeLayout.Placing

namespace Decision

variable (x : LayoutContext) (plan : SplitPlan) (d : Decision)

/-- Whether the element fits on the current line. -/
def Fits : Prop :=
  d.position.column + (if d.isSpaced then 1 else 0) + d.measure.width + d.tail ≤ x.style.width

/-- Whether the element fits on a new line of the group. -/
def FitsBelow : Prop :=
  columnOf x plan.indent + d.measure.width + d.tail ≤ x.style.width

/-- Whether the element would start a new line at the column at which it stands, and would fill that
line to its end, but must have a space before it if it is kept. -/
def IsTight : Prop :=
  d.isSpaced = true ∧ d.position.column = columnOf x plan.indent ∧
    columnOf x plan.indent + d.measure.width + d.tail = x.style.width

instance : Decidable (d.Fits x) :=
  inferInstanceAs (Decidable (_ ≤ _))

instance : Decidable (d.FitsBelow x plan) :=
  inferInstanceAs (Decidable (_ ≤ _))

instance : Decidable (d.IsTight x plan) :=
  inferInstanceAs (Decidable (_ ∧ _ ∧ _))

/-- Whether the element is one that may be kept or wrapped: it is not the first, and no line break
is demanded before it or in it. -/
structure IsFree : Prop where
  index : 0 < d.index
  demanded : d.isDemanded = false
  hard : d.measure.hard = false

instance : Decidable d.IsFree :=
  decidable_of_iff (0 < d.index ∧ d.isDemanded = false ∧ d.measure.hard = false)
    ⟨fun ⟨h, h', h''⟩ => ⟨h, h', h''⟩, fun h => ⟨h.1, h.2, h.3⟩⟩

/-- An element that does not fit, and that a new line would not start further to the left, fits on a
new line only if it fills that line and a space is in its way here. -/
theorem fits_or_not_fitsBelow_iff (h : d.Fits x ∨ d.position.column ≤ columnOf x plan.indent) :
    (d.Fits x ∨ ¬d.FitsBelow x plan) ↔ ¬d.IsTight x plan := by
  unfold Fits FitsBelow IsTight at *
  by_cases hspaced : d.isSpaced = true
  · rw [if_pos hspaced] at h ⊢
    simp only [hspaced, true_and]
    omega
  · rw [if_neg hspaced] at h ⊢
    simp only [hspaced, Bool.false_eq_true, false_and, not_false_eq_true, iff_true]
    omega

end Decision

variable {x : LayoutContext}

/-- Whether a policy is compact splitting that is not forced. -/
structure IsCompact (policy : Policy) : Prop where
  split : policy.split? = some .compact
  isForced : policy.isForced = false

section Compact

variable {plan : SplitPlan}

/-- Whether an element fits is what the check finds, if nothing in it demands a line break. -/
theorem fits_eq {d : Decision} (hmeasured : d.chunk.traits.measure.isSome = true)
    (hhard : d.measure.hard = false) :
    fits x d.chunk d.position d.tail = pure (decide (d.Fits x)) := by
  obtain ⟨m, hm⟩ := Option.isSome_iff_exists.mp hmeasured
  have hmeasure : d.measure = m := by
    rw [Decision.measure, hm]
    rfl
  have hspace : (if !d.position.fresh && 0 < m.width && d.chunk.isSpaced then d.position.column + 1
      else d.position.column) = d.position.column + if d.isSpaced then 1 else 0 := by
    rw [Decision.isSpaced, hmeasure]
    split_ifs <;> omega
  rw [hmeasure] at hhard
  simp only [fits, Placing.measure, hm, pure_bind, hhard, Decision.Fits, hspace, hmeasure,
    Bool.false_eq_true, if_false]

variable (hplan : IsCompact plan.policy) (houter : x.style.wrapOuter = true)
include hplan houter

/-- What becomes of an element that may be kept or wrapped. -/
theorem choose_eq {d : Decision} (hfree : d.IsFree)
    (hmeasured : d.chunk.traits.measure.isSome = true) (broke : Bool) :
    choose x plan broke d.index d.previous d.chunk d.position d.tail =
      pure (if d.Fits x ∨ d.position.column ≤ columnOf x plan.indent then .keep
        else .wrap plan.indent) := by
  have hdemanded :
      ¬(d.previous.map fun b => b.endsHard || d.chunk.startsHard).getD false = true := by
    simpa [Decision.isDemanded] using hfree.demanded
  have hindex : ¬(decide (d.index = 0) && !plan.breakFirst) = true := by
    simp [Nat.pos_iff_ne_zero.mp hfree.index]
  unfold choose
  rw [if_neg hdemanded, hplan.split]
  simp only [if_neg hindex, hplan.isForced, fits_eq hmeasured hfree.hard, houter, pure_bind,
    Bool.false_and, decide_eq_true_eq, Bool.false_eq_true, if_false, if_true]
  by_cases hfits : d.Fits x
  · rw [if_pos hfits, if_pos (Or.inl hfits)]
  · rw [if_neg hfits]
    by_cases hleft : d.position.column ≤ columnOf x plan.indent
    · rw [if_pos hleft, if_pos (Or.inr hleft)]
    · rw [if_neg hleft, if_neg (not_or.mpr ⟨hfits, hleft⟩)]

/-- An element is kept exactly if it fits, or if a new line would not start further to the left. -/
theorem ensures_placeElement {d : Decision} (hfree : d.IsFree)
    (hmeasured : d.chunk.traits.measure.isSome = true) (broke : Bool) (s : LayoutState) :
    Ensures (placeElement x plan broke d.index d.previous d.chunk d.position d.tail) s fun r =>
      (r.1 = true ↔ d.Fits x ∨ d.position.column ≤ columnOf x plan.indent) := by
  have hindex : decide (d.index = 0) = false := decide_eq_false (Nat.pos_iff_ne_zero.mp hfree.index)
  rw [placeElement, choose_eq hplan houter hfree hmeasured, pure_bind]
  split_ifs with hkeep
  · simp only [pure_bind, Choice.indent?, Option.filter_none]
    refine Ensures.bind_run fun q s _ => Ensures.bind_run fun q s _ => ?_
    exact Ensures.pure (by simp [hkeep])
  · simp only [pure_bind, Choice.indent?, hindex, Bool.false_and, Bool.not_false,
      Option.filter_some, if_true]
    refine Ensures.bind_run fun q s _ => Ensures.bind_run fun q s _ => ?_
    exact Ensures.pure (by simp [hkeep])

/-- All decisions on the elements of a group are taken in this way. -/
theorem ensures_splitting {cs : List Chunk}
    (hmeasured : ∀ c ∈ cs, c.traits.measure.isSome = true) (broke : Bool) (i : Nat)
    (previous : Option Chunk) (p : Position) (tail : Int) (s : LayoutState) :
    Ensures (splitting x plan broke i previous p tail cs) s fun r =>
      ∀ d ∈ r.2, d.IsFree →
        (d.kept = true ↔ d.Fits x ∨ d.position.column ≤ columnOf x plan.indent) := by
  induction cs generalizing broke i previous p s with
  | nil => exact Ensures.pure (fun _ hd => nomatch hd)
  | cons c cs ih =>
      have hc := hmeasured c List.mem_cons_self
      have hrest := ih fun e he => hmeasured e (List.mem_cons_of_mem c he)
      rw [splitting]
      refine Ensures.bind_run fun r s₁ hrun => ?_
      obtain ⟨kept, q⟩ := r
      refine (hrest (broke || !kept) (i + 1) (some c) q s₁).bind fun r _ hds => ?_
      refine Ensures.pure fun d hd hfree => ?_
      rcases List.mem_cons.mp hd with rfl | hd
      · exact ensures_placeElement hplan houter hfree hc broke s (kept, q) s₁ hrun
      · exact hds d hd hfree

end Compact

/-- How a group at a position is split under the policy of its context. -/
def groupPlan (x : LayoutContext) (context : WrapContext) (breakFirst : Bool) (p : Position) :
    SplitPlan where
  policy := x.style.policy context
  indent := wrapIndent x context (x.style.policy context) p
  breakFirst

theorem run_policy (context : WrapContext) {s : LayoutState} (hbudget : s.steps ≤ x.budget) :
    (policy x context).run s = (.ok (x.style.policy context), s) := by
  change (ite (x.budget < s.steps) _ _ : Placing Policy).run s = _
  rw [if_neg (Nat.not_lt.mpr hbudget)]
  rfl

/-- A group that is too long is split under a policy that takes optional breaks. -/
theorem yields_place_group {t : Traits} {context : WrapContext} {breakFirst : Bool}
    {cs : List Chunk} {m : Measure} {p : Position} {tail : Int} {s s' : LayoutState}
    {r : Position} {ds : List Decision} (hpolicy : x.style.policy context ≠ .none)
    (hm : t.measure = some m) (hlong : m.hard = true ∨ x.style.width < p.column + m.width + tail)
    (hbudget : s.steps < x.budget)
    (hrun : (splitting x (groupPlan x context breakFirst p) false 0 none p tail cs).run
      { s with steps := s.steps + 1 } = (.ok (r, ds), s')) :
    Yields (place x (.group t context breakFirst cs) p tail) s fun q s'' =>
      q = { r with base := p.base } ∧ s'' = s' := by
  have hmeasure : measure (.group t context breakFirst cs) = pure m := by
    unfold measure
    rw [show (Chunk.group t context breakFirst cs).traits.measure = some m from hm]
  have hfit : ¬(!(x.style.policy context).isForced && !m.hard &&
      decide (p.column + m.width + tail ≤ x.style.width)) = true := by
    rcases hlong with hhard | hwide
    · simp [hhard]
    · simp [Int.not_le.mpr hwide]
  have hsplit : Yields (placeSplit x cs (groupPlan x context breakFirst p) false 0 none p tail)
      { s with steps := s.steps + 1 } fun q s'' => q = r ∧ s'' = s' := by
    have hplaced : Yields (splitting x (groupPlan x context breakFirst p) false 0 none p tail cs)
      { s with steps := s.steps + 1 } fun q s'' => q.1 = r ∧ s'' = s' := ⟨_, _, hrun, rfl, rfl⟩
    rw [placeSplit_eq_map_splitting, map_eq_pure_bind]
    exact hplaced.bind fun q s'' hq => Yields.pure hq
  rw [place]
  refine Yields.change ?_
  refine Yields.look (run_policy context (Nat.succ_le_of_lt hbudget)) ?_
  rw [if_neg hpolicy, hmeasure, pure_bind, if_neg hfit]
  refine hsplit.bind ?_
  rintro _ _ ⟨rfl, rfl⟩
  exact Yields.pure ⟨rfl, rfl⟩

/-- A group under compact splitting that does not fit is split, and an element in it that may be
kept or wrapped is kept exactly if it fits, or if a new line would not start further to the left. So
an element that is kept fits, or would not fit on a new line, unless a new line starts in the same
column and the space before the element is all that is too much. -/
theorem place_compact {t : Traits} {context : WrapContext} {breakFirst : Bool} {cs : List Chunk}
    (hready : Chunk.Ready (Chunk.group t context breakFirst cs).walk)
    (hnodup : (Chunk.ids (Chunk.group t context breakFirst cs).walk).Nodup)
    (hcompact : IsCompact (x.style.policy context)) (houter : x.style.wrapOuter = true)
    {m : Measure} (hm : t.measure = some m) (p : Position) (tail : Int)
    (hlong : m.hard = true ∨ x.style.width < p.column + m.width + tail) (s : LayoutState)
    (hs : ∀ d ∈ (Chunk.group t context breakFirst cs).walk, d.traits.id < s.placements.size)
    (hbudget : s.steps < x.budget) :
    Yields (place x (.group t context breakFirst cs) p tail) s fun q s' => ∃ r ds,
      (splitting x (groupPlan x context breakFirst p) false 0 none p tail cs).run
          { s with steps := s.steps + 1 } = (.ok (r, ds), s') ∧
        q = { r with base := p.base } ∧ AreOn cs 0 none tail ds ∧ ∀ d ∈ ds,
          (s'.placements.getD d.chunk.traits.id {}).newLine = !d.kept ∧ (d.IsFree →
            (d.kept = true ↔ d.Fits x ∨
              d.position.column ≤ columnOf x (groupPlan x context breakFirst p).indent) ∧
            (d.kept = true → ((d.Fits x ∨ ¬d.FitsBelow x (groupPlan x context breakFirst p)) ↔
              ¬d.IsTight x (groupPlan x context breakFirst p)))) := by
  have hmem : ∀ d ∈ cs, d ∈ (Chunk.group t context breakFirst cs).walk := fun d hd =>
    List.mem_cons_of_mem _ (Chunk.mem_walkList.mpr ⟨d, hd, d.mem_walk⟩)
  obtain ⟨⟨r, ds⟩, s', hrun, hlines⟩ := yields_splitting hready
    (fun d hd => List.mem_cons_of_mem _ hd) (List.Nodup.of_cons hnodup)
    (groupPlan x context breakFirst p) false 0 none p tail (s := { s with steps := s.steps + 1 })
    fun d hd => hs d (hmem d hd)
  have hon := ensures_splitting_areOn x cs (groupPlan x context breakFirst p) false 0 none p tail
    _ _ _ hrun
  have hkept : ∀ d ∈ ds, d.IsFree → (d.kept = true ↔ d.Fits x ∨
      d.position.column ≤ columnOf x (groupPlan x context breakFirst p).indent) :=
    ensures_splitting hcompact houter (fun d hd => hready.measured d (hmem d hd)) false 0 none p
      tail _ _ _ hrun
  have hsome : x.style.policy context ≠ .none := by
    intro hnone
    have hsplit := hcompact.split
    rw [hnone] at hsplit
    exact absurd hsplit (by decide)
  refine (yields_place_group hsome hm hlong hbudget hrun).mono ?_
  rintro _ _ ⟨rfl, rfl⟩
  refine ⟨_, ds, hrun, rfl, hon, fun d hd => ⟨hlines d hd, fun hfree => ?_⟩⟩
  have hchoice := hkept d hd hfree
  exact ⟨hchoice, fun hkeep => d.fits_or_not_fitsBelow_iff x _ (hchoice.mp hkeep)⟩

/-- The arguments of a call, each behind a space but the first. -/
def callArguments (words : List Bytes) : Chunk :=
  .group {} .invocationArguments false
    (words.mapIdx fun i word => .token { space := decide (0 < i) } word)

/-- The default style with narrow pages. -/
def narrow (width : Int) : LayoutContext where
  style := { Style.default with pageWidth := width }
  file := ⟨[], []⟩
  budget := 64

theorem place_compact_arguments : ∃ cs r ds s',
    ((callArguments [ascii "abc,", ascii "bbbbbbbb,", ascii "c"]).annotate 4 0).1 =
        .group { measure := some ⟨16, false⟩ } .invocationArguments false cs ∧
      (splitting (narrow 17) (groupPlan (narrow 17) .invocationArguments false { column := 4 })
        false 0 none { column := 4 } 2 cs).run { placements := Array.replicate 4 {}, steps := 1 } =
          (.ok (r, ds), s') ∧
      ds.map (·.chunk) = cs ∧ ∀ d ∈ ds, d.IsFree → d.kept = true →
        ¬d.IsTight (narrow 17) (groupPlan (narrow 17) .invocationArguments false { column := 4 }) →
          d.Fits (narrow 17) ∨ ¬d.FitsBelow (narrow 17)
            (groupPlan (narrow 17) .invocationArguments false { column := 4 }) := by
  have hready : Chunk.Ready
      ((callArguments [ascii "abc,", ascii "bbbbbbbb,", ascii "c"]).annotate 4 0).1.walk :=
    Chunk.ready_annotate 4 (by simp [callArguments])
  have hnodup := Chunk.nodup_ids_annotate 4
    (callArguments [ascii "abc,", ascii "bbbbbbbb,", ascii "c"])
  obtain ⟨_, s', _, r, ds, hrun, _, hon, hds⟩ := place_compact (x := narrow 17) hready hnodup
    ⟨by decide, by decide⟩ rfl rfl { column := 4 } 2 (by decide)
    { placements := Array.replicate 4 {} } (by decide) (by decide)
  exact ⟨_, r, ds, s', rfl, hrun, hon.1, fun d hd hfree hkeep htight =>
    (((hds d hd).2 hfree).2 hkeep).mpr htight⟩

/-- The arguments of the first call in a tree. -/
def firstArguments (c : Chunk) : List Chunk :=
  match c.walk.find? fun d => d matches .group _ .invocationArguments _ _ with
  | some (.group _ _ _ cs) => cs
  | _ => []

/-- An argument is kept and makes its line too long by one column, though it fits on a new line. -/
theorem splitting_overflows :
    let text := ascii "foo(abc, bbbbbbbb, c);\n"
    let x := narrow 17
    let plan := groupPlan x .invocationArguments false { column := 4 }
    plan.policy = .ofSplit .compact ∧ x.style.wrapOuter = true ∧
      ((Formatter.mk x.style .body).format text).1 = ascii "foo(abc, bbbbbbbb,\n\t\tc);\n" ∧
      ((Formatted.ofFile ⟨[], text⟩ .body x.style).1.toOption.any fun f =>
        ((splitting x plan false 0 none { column := 4 } 2 (firstArguments f.layout.chunk)).run
          { placements := f.layout.placements }).1.toOption.any fun r =>
            r.2.any fun d => d.IsFree ∧ d.kept = true ∧ ¬d.Fits x ∧ d.FitsBelow x plan) = true := by
  decide +kernel

end CodeLayout.Placing
