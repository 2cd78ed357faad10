import CodeLayout.Proofs.Lines.Demanded
import CodeLayout.Proofs.Splitting.Compact

/-!
# Splitting into a staircase

A group that is split with each line shifted by one level more than the line before puts its `i`-th
element `i` levels below the indentation of wrapped lines. A line break that is demanded is taken
before the policy is asked: an element behind it goes back to the indentation of wrapped lines,
while the elements that follow go on as if it were on its stair.
-/

namespace CodeLayout.Placing

/-- The element before the `i`-th one of a row. -/
def before? (cs : List Chunk) (i : Nat) : Option Chunk :=
  if i = 0 then none else cs[i - 1]?

/-- Whether a line break is demanded between an element and the one before it. -/
def isDemanded (previous : Option Chunk) (c : Chunk) : Bool :=
  (previous.map fun b => b.endsHard || c.startsHard).getD false

/-- The indentation of the `i`-th element of a group that is split into a staircase. -/
def stair (wrapped : Indent) (i : Nat) (previous : Option Chunk) (c : Chunk) : Indent :=
  if isDemanded previous c then wrapped else { wrapped with level := wrapped.level + i }

variable {x : LayoutContext} {plan : SplitPlan} {cs : List Chunk} {c : Chunk}

/-- An element is on its stair exactly if no line break is demanded before it. -/
theorem stair_eq_iff {wrapped : Indent} {i : Nat} {previous : Option Chunk}
    (hi : i = 0 → previous = none) :
    stair wrapped i previous c = { wrapped with level := wrapped.level + i } ↔
      isDemanded previous c = false := by
  rw [stair]
  by_cases hdemanded : isDemanded previous c = true
  · have hlater : i ≠ 0 := fun h => by
      rw [hi h] at hdemanded
      cases hdemanded
    rw [if_pos hdemanded, hdemanded]
    refine iff_of_false (fun h => ?_) Bool.noConfusion
    have hlevel : wrapped.level = wrapped.level + i := congrArg Indent.level h
    omega
  · rw [if_neg hdemanded, Bool.not_eq_true _ |>.mp hdemanded]
    exact iff_of_true rfl rfl

section Stairs

variable (hshifted : plan.policy.split? = some .nextLineShifted)
include hshifted

/-- All elements are wrapped. -/
theorem choose_shifted (broke : Bool) (i : Nat) (previous : Option Chunk) (p : Position)
    (tail : Int) : choose x plan broke i previous c p tail =
      pure (.wrap (stair plan.indent i previous c)) := by
  rw [choose.eq_def, hshifted, stair, isDemanded]
  by_cases hdemanded : (previous.map fun b => b.endsHard || c.startsHard).getD false = true
  · rw [if_pos hdemanded, if_pos hdemanded]
  · rw [if_neg hdemanded, if_neg hdemanded]

theorem assigns_placeElement_shifted (hnodup : (Chunk.ids c.walk).Nodup) (broke : Bool) (i : Nat)
    (previous : Option Chunk) (p : Position) (tail : Int) :
    Assigns (placeElement x plan broke i previous c p tail) (Chunk.ids c.walk) fun _ line =>
      line c.traits.id =
        if i = 0 && p.fresh then none else some (stair plan.indent i previous c) := by
  have hchoose : Assigns (choose x plan broke i previous c p tail) [] fun choice _ =>
      choice = .wrap (stair plan.indent i previous c) := by
    rw [choose_shifted hshifted]
    exact Assigns.pure fun _ => rfl
  refine (assigns_placeElement (obeys c) hnodup hchoose).mono ?_
  rintro _ line ⟨⟨choice, rfl, hline | ⟨hattempt, -⟩⟩, -⟩
  · rw [hline, Choice.indent?]
    cases (i = 0 && p.fresh : Bool) <;> rfl
  · cases hattempt

/-- Each element of the group is assigned its line, whatever is in it. -/
theorem assigns_placeSplit_shifted (hnodup : (Chunk.ids (Chunk.walkList cs)).Nodup) (broke : Bool)
    (i : Nat) (previous : Option Chunk) (p : Position) (tail : Int) :
    Assigns (placeSplit x cs plan broke i previous p tail) (Chunk.ids (Chunk.walkList cs))
      fun _ line => ∀ j d, cs[j]? = some d → line d.traits.id =
        if i + j = 0 && p.fresh then none
        else some (stair plan.indent (i + j) (if j = 0 then previous else before? cs j) d) := by
  induction cs generalizing broke i previous p with
  | nil => exact Assigns.pure fun _ j d hd => by cases hd
  | cons c cs ih =>
      rw [Chunk.walkList, Chunk.ids_append] at hnodup ⊢
      rw [placeSplit_cons]
      have helement := assigns_placeElement_shifted (x := x) hshifted
        (List.Nodup.of_append_left hnodup) broke i previous p
      refine (helement _).bind (List.disjoint_of_nodup_append hnodup) fun r => ?_
      refine (ih (List.Nodup.of_append_right hnodup) (broke || !r.1) (i + 1) (some c) r.2).mono ?_
      intro _ line hrest hfirst j d hd
      cases j with
      | zero =>
          obtain rfl := Option.some.inj hd
          exact hfirst
      | succ j =>
          have hline := hrest j d hd
          have hbefore : (if j = 0 then some c else before? cs j) = before? (c :: cs) (j + 1) := by
            cases j <;> rfl
          rw [hbefore, show i + 1 + j = i + (j + 1) by omega] at hline
          simpa using hline

end Stairs

section Group

variable {t : Traits} {context : WrapContext} {breakFirst : Bool} {m : Measure} {p q : Position}
  {tail : Int} {s s₁ s' : LayoutState}

/-- A group is split whose policy splits always, or that does not fit. -/
theorem run_place_group (hpolicy : x.style.policy context ≠ .none) (hbudget : s.steps < x.budget)
    (hmeasure : (measure (.group t context breakFirst cs)).run { s with steps := s.steps + 1 } =
      (.ok m, s₁))
    (hbroken : (x.style.policy context).isForced = true ∨ m.hard = true ∨
      x.style.width < p.column + m.width + tail)
    (hrun : (place x (.group t context breakFirst cs) p tail).run s = (.ok q, s')) :
    ∃ r, (placeSplit x cs (groupPlan x context breakFirst p) false 0 none p tail).run s₁ =
      (.ok r, s') := by
  have hfit : ¬(!(x.style.policy context).isForced && !m.hard &&
      decide (p.column + m.width + tail ≤ x.style.width)) = true := by
    rcases hbroken with hforced | hhard | hwide
    · simp [hforced]
    · simp [hhard]
    · simp [Int.not_le.mpr hwide]
  rw [place] at hrun
  obtain ⟨_, s₀, hstep, hrun⟩ := exists_of_run_bind hrun
  obtain rfl : s₀ = { s with steps := s.steps + 1 } := (Prod.mk.inj hstep).2.symm
  obtain ⟨policy, s₂, hget, hrun⟩ := exists_of_run_bind hrun
  rw [run_policy context (Nat.succ_le_of_lt hbudget)] at hget
  obtain ⟨⟨rfl⟩, rfl⟩ := Prod.mk.inj hget
  rw [if_neg hpolicy] at hrun
  obtain ⟨n, s₃, hget, hrun⟩ := exists_of_run_bind hrun
  rw [hmeasure] at hget
  obtain ⟨⟨rfl⟩, rfl⟩ := Prod.mk.inj hget
  rw [if_neg hfit] at hrun
  obtain ⟨r, s₄, hsplit, hrun⟩ := exists_of_run_bind hrun
  obtain ⟨-, rfl⟩ := Prod.mk.inj hrun
  exact ⟨r, hsplit⟩

/-- In a group that is split into a staircase all elements start lines but a first one that is at
the start of a line already. The `i`-th element is indented `i` levels below the indentation of
wrapped lines exactly if no line break is demanded before it; behind a line break that is demanded
it is at the indentation of wrapped lines. This does not depend on what is in the elements. -/
theorem place_shifted (hnodup : (Chunk.ids (Chunk.group t context breakFirst cs).walk).Nodup)
    (hshifted : (x.style.policy context).split? = some .nextLineShifted)
    (hs : ∀ d ∈ (Chunk.group t context breakFirst cs).walk, d.traits.id < s.placements.size)
    (hbudget : s.steps < x.budget)
    (hmeasure : (measure (.group t context breakFirst cs)).run { s with steps := s.steps + 1 } =
      (.ok m, s₁))
    (hbroken : (x.style.policy context).isForced = true ∨ m.hard = true ∨
      x.style.width < p.column + m.width + tail)
    (hrun : (place x (.group t context breakFirst cs) p tail).run s = (.ok q, s')) {i : Nat}
    {c : Chunk} (hc : cs[i]? = some c) :
    let wrapped := wrapIndent x context (x.style.policy context) p
    let placed := s'.placements.getD c.traits.id {}
    placed.newLine = !(i = 0 && p.fresh) ∧ (placed.newLine = true →
      (placed.indent = { wrapped with level := wrapped.level + i } ↔
        isDemanded (before? cs i) c = false) ∧
      (isDemanded (before? cs i) c = true → placed.indent = wrapped)) := by
  have hpolicy : x.style.policy context ≠ .none := by
    intro hnone
    rw [hnone] at hshifted
    exact absurd hshifted (by decide)
  obtain ⟨r, hsplit⟩ := run_place_group hpolicy hbudget hmeasure hbroken hrun
  have hsize := (idle_measure (.group t context breakFirst cs) { s with steps := s.steps + 1 }
    nofun).1
  rw [hmeasure] at hsize
  have hplan : (groupPlan x context breakFirst p).policy.split? = some .nextLineShifted := hshifted
  have hassigns := assigns_placeSplit_shifted (x := x) hplan (List.Nodup.of_cons hnodup) false 0
    none p tail s₁ fun id hid => by
      obtain ⟨d, hd, rfl⟩ := List.mem_map.mp hid
      exact hsize ▸ hs d (List.mem_cons_of_mem _ hd)
  rw [hsplit] at hassigns
  have hline := hassigns.2.2 r rfl s'.line? (fun _ _ => rfl) i c hc
  have hbefore : (if i = 0 then none else before? cs i) = before? cs i := by
    cases i <;> rfl
  rw [Nat.zero_add, hbefore] at hline
  intro wrapped placed
  change placed.line? = if i = 0 && p.fresh then none else some (stair wrapped i _ c) at hline
  refine ⟨?_, fun hnew => ?_⟩
  · rw [placed.newLine_eq_isSome, hline]
    cases (i = 0 && p.fresh : Bool) <;> rfl
  · rw [Placement.line?_eq_some hnew] at hline
    have hindent : placed.indent = stair wrapped i (before? cs i) c := by
      cases hstays : (i = 0 && p.fresh : Bool) with
      | false =>
          rw [hstays] at hline
          exact Option.some.inj hline
      | true =>
          rw [hstays] at hline
          cases hline
    rw [hindent]
    refine ⟨stair_eq_iff fun hi => ?_, fun hdemanded => ?_⟩
    · rw [hi]
      rfl
    · rw [stair, if_pos hdemanded]

end Group

/-- Narrow pages on which the arguments of a call go down a staircase. -/
def staircase (width : Int) : LayoutContext where
  style := { Style.default with pageWidth := width }.withPolicy .invocationArguments
    (.ofSplit .nextLineShifted)
  file := ⟨[], []⟩
  budget := 64

/-- The layout of the arguments of a call behind a name and a bracket. -/
def placedArguments : Except Fault Position × LayoutState :=
  (place (staircase 17)
    ((callArguments [ascii "abc,", ascii "bbbbbbbb,", ascii "c"]).annotate 4 0).1
    { column := 4 } 2).run { placements := Array.replicate 4 {} }

theorem place_shifted_arguments : ∃ q s', placedArguments = (.ok q, s') ∧
    (s'.placements.getD 2 {}).newLine = true ∧
      ((s'.placements.getD 2 {}).indent = { level := 2 + 1 } ↔
        isDemanded (some (.token { id := 1 } (ascii "abc,")))
          (.token { id := 2 } (ascii "bbbbbbbb,")) = false) := by
  have hok : placedArguments.1.toOption.isSome = true := by decide +kernel
  rcases hrun : placedArguments with ⟨fault | q, s'⟩
  · rw [hrun] at hok
    cases hok
  · have hnodup := Chunk.nodup_ids_annotate 4
      (callArguments [ascii "abc,", ascii "bbbbbbbb,", ascii "c"])
    obtain ⟨hline, hindent⟩ := place_shifted (i := 1) hnodup (by decide) (by decide) (by decide)
      (m := ⟨16, false⟩) rfl (by decide) hrun rfl
    exact ⟨q, s', rfl, hline, (hindent hline).1⟩

/-- An argument behind a line comment starts a line without going down a step. -/
theorem place_shifted_goes_back :
    let text := ascii "foo(aaa, // x\nbbb, ccc);\n"
    let x := staircase 120
    let wrapped := wrapIndent x .invocationArguments (.ofSplit .nextLineShifted) { column := 4 }
    ((Formatter.mk x.style .body).format text).1 =
        ascii "foo(\n\t\taaa, // x\n\t\tbbb,\n\t\t\t\tccc);\n" ∧
      ((Formatted.ofFile ⟨[], text⟩ .body x.style).1.toOption.any fun f =>
        f.layout.chunk.walk.any fun d =>
          match d with
          | .group _ .invocationArguments _ cs => cs[1]?.any fun c =>
              (f.layout.placement c).newLine &&
                (f.layout.placement c).indent ≠ { wrapped with level := wrapped.level + 1 }
          | _ => false) = true := by
  decide +kernel

end CodeLayout.Placing
