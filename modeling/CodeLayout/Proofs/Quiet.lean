import CodeLayout.Layout.Resolve
import CodeLayout.Proofs.Chunk.Numbered
import CodeLayout.Proofs.Total
import Mathlib.Tactic.SplitIfs

/-!
# Steps that place nothing

Measuring, looking ahead and choosing what becomes of an element count steps and follow trials, but
they leave all placements as they are, and meet no fault in a tree whose comments have contents.
-/

namespace CodeLayout

/-- What the layout of a tree relies on: no two of its chunks share a number, all chunks are
measured, and all comments have contents. -/
structure Chunk.Ready (all : List Chunk) : Prop where
  distinct : ∀ d ∈ all, ∀ e ∈ all, d.traits.id = e.traits.id → d = e
  measured : ∀ d ∈ all, d.traits.measure.isSome = true
  contents : ∀ t s, Chunk.comment t s none ∉ all

theorem Chunk.Ready.mono {all ds : List Chunk} (h : Ready all) (hsub : ds ⊆ all) : Ready ds :=
  ⟨fun d hd e he => h.distinct d (hsub hd) e (hsub he), fun d hd => h.measured d (hsub hd),
    fun t s hmem => h.contents t s (hsub hmem)⟩

/-- Numbering and measuring a tree whose comments have contents makes it ready. -/
theorem Chunk.ready_annotate (tabstop : Int) {c : Chunk}
    (h : ∀ start stop text, Leaf.comment start stop text none ∉ c.content) :
    Ready (c.annotate tabstop 0).1.walk := by
  refine ⟨fun d hd e he => eq_of_id_eq hd he, fun d hd => ?_, fun t s hmem => ?_⟩
  · exact allMeasured_annotate h 0 d (by simpa [walkList] using hd)
  · refine h t.start t.stop s ?_
    rw [← content_annotate tabstop 0]
    exact leaf_mem_content hmem rfl

namespace Placing

/-- Of what is recorded, only that laying out gave up is not recorded before. -/
def Calm (s s' : LayoutState) : Prop :=
  ∀ d ∈ s'.recorded, d ∈ s.recorded ∨ ∃ n, d.problem = .gaveUp n

/-- A step that meets no fault and changes no placement. Its result satisfies a condition. -/
def Quiet {α : Type} (m : Placing α) (post : α → Prop) : Prop :=
  ∀ s, Yields m s fun a s' => post a ∧ s'.placements = s.placements ∧ Calm s s'

variable {α β : Type} {x : LayoutContext} {all cs : List Chunk} {c : Chunk} {m m' : Placing α}
  {k : α → Placing β} {mid : α → Prop} {post : β → Prop}

theorem Calm.refl (s : LayoutState) : Calm s s :=
  fun _ h => Or.inl h

theorem Calm.trans {s s' s'' : LayoutState} (h : Calm s s') (h' : Calm s' s'') : Calm s s'' :=
  fun d hd => (h' d hd).elim (h d) Or.inr

namespace Quiet

theorem pure {a : α} (h : mid a) : Quiet (Pure.pure a) mid :=
  fun s => Yields.pure ⟨h, rfl, Calm.refl s⟩

theorem bind (h : Quiet m mid) (hk : ∀ a, mid a → Quiet (k a) post) : Quiet (m >>= k) post := by
  intro s
  refine (h s).bind fun a s' ⟨ha, heq, hcalm⟩ => ?_
  exact (hk a ha s').mono fun b s'' ⟨hb, heq', hcalm'⟩ => ⟨hb, heq'.trans heq, hcalm.trans hcalm'⟩

theorem ite {p : Prop} [Decidable p] (h : p → Quiet m mid) (h' : ¬p → Quiet m' mid) :
    Quiet (if p then m else m') mid :=
  fun s => Yields.ite (fun hp => h hp s) fun hp => h' hp s

theorem mono {mid' : α → Prop} (h : Quiet m mid) (himp : ∀ a, mid a → mid' a) : Quiet m mid' :=
  fun s => (h s).mono fun _ _ ⟨ha, hrest⟩ => ⟨himp _ ha, hrest⟩

end Quiet

theorem quiet_modify {f : LayoutState → LayoutState}
    (hf : ∀ s, (f s).placements = s.placements ∧ (f s).recorded = s.recorded) :
    Quiet (modify f : Placing Unit) fun _ => True :=
  fun s => ⟨(), f s, rfl, trivial, (hf s).1, fun _ hd => Or.inl ((hf s).2 ▸ hd)⟩

theorem quiet_modifyTrial (f : Trial → Trial) : Quiet (modifyTrial f) fun _ => True :=
  quiet_modify fun s => by
    split <;> exact ⟨rfl, rfl⟩

theorem quiet_step : Quiet step fun _ => True :=
  quiet_modify fun _ => ⟨rfl, rfl⟩

/-- A context has its own policy, or none once the budget is spent. -/
theorem quiet_policy (context : WrapContext) : Quiet (policy x context) fun policy =>
    policy = .none ∨ policy = x.style.policy context := by
  intro s
  rw [policy]
  refine Yields.get ?_
  by_cases hbudget : x.budget < s.steps
  · rw [if_pos hbudget]
    by_cases hexhausted : (!s.exhausted) = true
    · rw [if_pos hexhausted]
      refine ⟨_, _, rfl, Or.inl rfl, rfl, fun d hd => ?_⟩
      rcases List.mem_cons.mp hd with rfl | hd
      · exact Or.inr ⟨_, rfl⟩
      · exact Or.inl hd
    · rw [if_neg hexhausted]
      exact Yields.pure ⟨Or.inl rfl, rfl, Calm.refl s⟩
  · rw [if_neg hbudget]
    exact Yields.pure ⟨Or.inr rfl, rfl, Calm.refl s⟩

/-- A token moves the position to its end. -/
theorem quiet_token {text : Bytes} (p : Position) (htext : text ≠ []) :
    Quiet (token x text p) fun q => q = { p with
      column := Width.advance p.column x.style.tabSize text, fresh := false } := by
  rw [token, if_neg (by simpa using htext)]
  exact (quiet_modifyTrial _).bind fun _ _ => Quiet.pure rfl

theorem quiet_leadElements (context : WrapContext)
    (hcs : ∀ c ∈ cs, Quiet (lead x c) fun _ => True) (isFirst : Bool) (width : Int) :
    Quiet (leadElements x context isFirst width cs) fun _ => True := by
  induction cs generalizing isFirst width with
  | nil => exact Quiet.pure trivial
  | cons e es ih =>
      have hrest := ih fun d hd => hcs d (List.mem_cons_of_mem e hd)
      rw [leadElements]
      refine Quiet.ite (fun _ => Quiet.pure trivial) fun _ => ?_
      refine (hcs e List.mem_cons_self).bind fun own _ => ?_
      refine Quiet.ite (fun _ => Quiet.pure trivial) fun _ => ?_
      refine (quiet_policy context).bind fun policy _ => ?_
      exact Quiet.ite (fun _ => Quiet.pure trivial) fun _ => hrest false _

section Tree

variable (hall : Chunk.Ready all)
include hall

theorem quiet_measure (hc : c ∈ all) : Quiet (measure c) fun _ => True := by
  obtain ⟨m, hm⟩ := Option.isSome_iff_exists.mp (hall.measured c hc)
  rw [measure, hm]
  exact Quiet.pure trivial

theorem quiet_lead (hc : ∀ d ∈ c.walk, d ∈ all) : Quiet (lead x c) fun _ => True := by
  induction c using Chunk.byParts with
  | token t s => exact Quiet.pure trivial
  | comment t s b => exact Quiet.pure trivial
  | group t context breakFirst cs ih =>
      rw [lead]
      refine Quiet.bind (quiet_leadElements context (fun d hd => ih d hd fun e he => ?_) _ _)
        fun _ _ => Quiet.pure trivial
      exact hc e (by simpa [Chunk.walk] using Or.inr (Chunk.mem_walkList.mpr ⟨d, hd, he⟩))
  | block t o c i cs iho ihc ih =>
      cases o with
      | none => exact Quiet.pure trivial
      | some o =>
          have ho : o ∈ all := hc o (by simp [Chunk.walk_block, Chunk.walkList, Chunk.mem_walk])
          rw [lead]
          exact (quiet_measure hall ho).bind fun _ _ => Quiet.pure trivial

theorem quiet_tail (hcs : ∀ d ∈ Chunk.walkList cs, d ∈ all) (parent width : Int) :
    Quiet (tail x parent width cs) fun _ => True := by
  induction cs generalizing width with
  | nil => exact Quiet.pure trivial
  | cons c cs ih =>
      simp only [Chunk.walkList, List.mem_append] at hcs
      have hrest := ih fun d hd => hcs d (Or.inr hd)
      rw [tail]
      refine Quiet.ite (fun _ => Quiet.pure trivial) fun _ => ?_
      refine (quiet_lead hall fun d hd => hcs d (Or.inl hd)).bind fun own _ => ?_
      exact Quiet.ite (fun _ => Quiet.pure trivial) fun _ => hrest _

theorem quiet_fits (hc : c ∈ all) (p : Position) (tail : Int) :
    Quiet (fits x c p tail) fun _ => True := by
  rw [fits]
  exact (quiet_measure hall hc).bind fun _ _ => Quiet.pure trivial

/-- An element that is wrapped is aligned like the lines of its group. -/
theorem quiet_choose (hc : c ∈ all) (plan : SplitPlan) (broke : Bool) (i : Nat)
    (previous : Option Chunk) (p : Position) (tail : Int) :
    Quiet (choose x plan broke i previous c p tail) fun choice =>
      ∀ indent, choice.indent? plan = some indent → indent.align = plan.indent.align := by
  -- All choices are one of these.
  have hwrap : ∀ level, ∀ indent, (Choice.wrap { plan.indent with level }).indent? plan =
      some indent → indent.align = plan.indent.align := by
    rintro level _ ⟨⟩
    rfl
  have hkeep : ∀ indent, Choice.keep.indent? plan = some indent →
      indent.align = plan.indent.align := nofun
  rw [choose.eq_def]
  refine Quiet.ite (fun _ => Quiet.pure (hwrap _)) fun _ => ?_
  split
  case h_6 =>
    refine Quiet.ite (fun _ => Quiet.pure hkeep) fun _ => ?_
    refine Quiet.ite (fun _ => Quiet.pure (hwrap _)) fun _ => ?_
    refine (quiet_fits hall hc p tail).bind fun _ _ => ?_
    refine Quiet.ite (fun _ => Quiet.pure hkeep) fun _ => ?_
    refine Quiet.ite (fun _ => Quiet.pure hkeep) fun _ => ?_
    refine Quiet.ite (fun _ => Quiet.pure (hwrap _)) fun _ => Quiet.pure ?_
    rintro _ ⟨⟩
    rfl
  all_goals first | exact Quiet.pure (hwrap _) | exact Quiet.pure hkeep

end Tree

end Placing

end CodeLayout
