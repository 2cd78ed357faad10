import CodeLayout.Proofs.Chunk.Relabel
import CodeLayout.Proofs.Frame

/-!
# Layouts in lockstep

The labels of chunks have no part in how a tree is laid out: two trees that differ in them only are
laid out in lockstep, step by step with the same results. What corresponds in the states on both
sides is settled by the primitive steps, so a lockstep is given by these; all of laying out follows.
Runs that give up may be left out of account, for they go different ways.
-/

namespace CodeLayout

/-- A change that is no change. -/
def Relabeling.none : Relabeling where
  traits t := t
  space _ := rfl
  breakAfter _ := rfl
  breakBefore _ := rfl
  lead _ := rfl
  measure _ := rfl

theorem Chunk.relabel_none (c : Chunk) : c.relabel .none = c := by
  induction c using byParts with
  | token t s => rfl
  | comment t s b => rfl
  | group t x b cs ih =>
      rw [relabel_group, List.map_congr_left ih, List.map_id']
      rfl
  | block t o k i cs iho ihk ih =>
      rw [relabel_block, List.map_congr_left ih, List.map_id']
      cases o with
      | none => cases k with
        | none => rfl
        | some k => rw [Option.map_some, ihk k (by simp)]; rfl
      | some o =>
          rw [Option.map_some, iho o (by simp)]
          cases k with
          | none => rfl
          | some k => rw [Option.map_some, ihk k (by simp)]; rfl

namespace Placing

/-- What it takes for two trees to be laid out in lockstep. -/
structure Lockstep where
  /-- The labels on both sides, from those of one tree. -/
  left : Relabeling
  right : Relabeling
  x : LayoutContext
  y : LayoutContext
  /-- The chunks that are laid out. -/
  own : Traits → Prop
  /-- The states that correspond. -/
  same : LayoutState → LayoutState → Prop
  /-- Whether runs that give up are left out of account. -/
  lenient : Bool
  style : x.style = y.style
  trials {s t : LayoutState} : same s t → s.trials = t.trials
  setTrials {s t : LayoutState} (ts : List Trial) : same s t →
    same { s with trials := ts } { t with trials := ts }
  record {s t : LayoutState} (ds es : List Diagnostic) : same s t →
    same { s with recorded := ds } { t with recorded := es }
  count {s t : LayoutState} : same s t →
    same { s with steps := s.steps + 1 } { t with steps := t.steps + 1 }
  mark {s t : LayoutState} {τ : Traits} (f : Placement → Placement) : own τ → same s t →
    same { s with placements := s.placements.modify (left.traits τ).id f }
      { t with placements := t.placements.modify (right.traits τ).id f }
  lookup {s t : LayoutState} {τ : Traits} : own τ → same s t →
    s.interrupted.lookup (left.traits τ).id = t.interrupted.lookup (right.traits τ).id
  keep {s t : LayoutState} {τ : Traits} (m : Measure) : own τ → same s t →
    same { s with interrupted := ((left.traits τ).id, m) :: s.interrupted }
      { t with interrupted := ((right.traits τ).id, m) :: t.interrupted }
  /-- Policies are the same unless a run gives up. -/
  policy {s t : LayoutState} (context : WrapContext) : same s t →
    lenient = true ∧ (((Placing.policy x context).run s).2.exhausted = true ∨
        ((Placing.policy y context).run t).2.exhausted = true) ∨
      ((Placing.policy x context).run s).1 = ((Placing.policy y context).run t).1 ∧
        same ((Placing.policy x context).run s).2 ((Placing.policy y context).run t).2

/-- Once a run has given up, this stays so. -/
def lasting : TreeFrame where
  own _ := True
  ok s s' := s.exhausted = true → s'.exhausted = true
  err s s' := s.exhausted = true → s'.exhausted = true
  refl _ := id
  trans h h' hs := h' (h hs)
  throw _ := id
  fail h h' hs := h' (h hs)
  mark _ _ _ := id
  keep _ _ _ := id
  trial _ _ := id
  record _ _ := id
  exhaust _ _ := rfl
  count _ := id
  tried h := h
  abort h := h
  recover h := h

namespace Lockstep

variable {α β : Type} (L : Lockstep)

/-- Two steps give the same from two states and end in states that correspond, unless a run gives
up. -/
def From (s t : LayoutState) (p q : Placing α) : Prop :=
  L.lenient = true ∧ ((p.run s).2.exhausted = true ∨ (q.run t).2.exhausted = true) ∨
    (p.run s).1 = (q.run t).1 ∧ L.same (p.run s).2 (q.run t).2

/-- Two steps that are in lockstep. -/
structure Steps (p q : Placing α) : Prop where
  left : lasting.Keeps p
  right : lasting.Keeps q
  run {s t : LayoutState} : L.same s t → L.From s t p q

variable {L} {p q p' q' : Placing α} {f g : α → Placing β} {c : Chunk} {cs : List Chunk}

theorem exhausted_of_keeps (h : lasting.Keeps p) {s : LayoutState} (hs : s.exhausted = true) :
    (p.run s).2.exhausted = true := by
  obtain ⟨hok, herr⟩ := h s
  cases hr : (p.run s).1 with
  | ok a => exact hok a hr hs
  | error fault => exact herr fault hr hs

theorem exhausted_bind (hf : ∀ a, lasting.Keeps (f a)) {s : LayoutState}
    (hs : (p.run s).2.exhausted = true) : ((p >>= f).run s).2.exhausted = true := by
  rw [run_bind]
  rcases hp : p.run s with ⟨r, s'⟩
  rw [hp] at hs
  cases r with
  | ok a => exact exhausted_of_keeps (hf a) hs
  | error fault => exact hs

namespace Steps

theorem pure (a : α) : L.Steps (Pure.pure a) (Pure.pure a) :=
  ⟨Frame.Keeps.pure a, Frame.Keeps.pure a, fun h => Or.inr ⟨rfl, h⟩⟩

theorem throw (fault : Fault) :
    L.Steps (MonadExcept.throw fault : Placing α) (MonadExcept.throw fault) :=
  ⟨FaultFrame.keeps_throw fault, FaultFrame.keeps_throw fault, fun h => Or.inr ⟨rfl, h⟩⟩

/-- What follows steps from two states. -/
theorem from_bind {s t : LayoutState} (h : L.From s t p q) (hf : ∀ a, L.Steps (f a) (g a)) :
    L.From s t (p >>= f) (q >>= g) := by
  rcases h with ⟨hlenient, hgone | hgone⟩ | ⟨heq, hsame⟩
  · exact Or.inl ⟨hlenient, Or.inl (exhausted_bind (fun a => (hf a).left) hgone)⟩
  · exact Or.inl ⟨hlenient, Or.inr (exhausted_bind (fun a => (hf a).right) hgone)⟩
  · rw [From, run_bind, run_bind]
    rcases hp : p.run s with ⟨r, s'⟩
    rcases hq : q.run t with ⟨r', t'⟩
    rw [hp, hq] at heq hsame
    obtain rfl : r = r' := heq
    cases r with
    | ok a => exact (hf a).run hsame
    | error fault => exact Or.inr ⟨rfl, hsame⟩

theorem bind (h : L.Steps p q) (hf : ∀ a, L.Steps (f a) (g a)) : L.Steps (p >>= f) (q >>= g) :=
  ⟨h.left.bind fun a => (hf a).left, h.right.bind fun a => (hf a).right,
    fun hs => from_bind (h.run hs) hf⟩

theorem ite {b : Prop} [Decidable b] (h : L.Steps p q) (h' : L.Steps p' q') :
    L.Steps (if b then p else p') (if b then q else q') := by
  split
  · exact h
  · exact h'

theorem modify {f g : LayoutState → LayoutState}
    (hf : ∀ s, (f s).exhausted = s.exhausted) (hg : ∀ s, (g s).exhausted = s.exhausted)
    (h : ∀ s t, L.same s t → L.same (f s) (g t)) :
    L.Steps (modify f : Placing Unit) (modify g) :=
  ⟨Frame.Keeps.modify fun s hs => (hf s).trans hs, Frame.Keeps.modify fun s hs => (hg s).trans hs,
    fun hs => Or.inr ⟨rfl, h _ _ hs⟩⟩

end Steps

section Primitives

theorem steps_setPlacement (hc : L.own c.traits) (f : Placement → Placement) :
    L.Steps (setPlacement (c.relabel L.left) f) (setPlacement (c.relabel L.right) f) := by
  refine Steps.modify (fun _ => rfl) (fun _ => rfl) fun s t hs => ?_
  rw [Chunk.traits_relabel, Chunk.traits_relabel]
  exact L.mark f hc hs

theorem steps_modifyTrial (f : Trial → Trial) : L.Steps (modifyTrial f) (modifyTrial f) := by
  refine Steps.modify (fun s => ?_) (fun s => ?_) fun s t hs => ?_
  · split <;> rfl
  · split <;> rfl
  · rw [L.trials hs]
    cases t.trials with
    | nil => exact hs
    | cons u ts => exact L.setTrials _ hs

theorem steps_remark (problem : Problem) (span span' : Span) :
    L.Steps (remark problem span) (remark problem span') :=
  Steps.modify (fun _ => rfl) (fun _ => rfl) fun _ _ hs => L.record _ _ hs

theorem steps_step : L.Steps step step :=
  Steps.modify (fun _ => rfl) (fun _ => rfl) fun _ _ hs => L.count hs

theorem steps_keepMeasure (hc : L.own c.traits) (m : Measure) :
    L.Steps (keepMeasure (c.relabel L.left) m) (keepMeasure (c.relabel L.right) m) := by
  refine Steps.modify (fun _ => rfl) (fun _ => rfl) fun s t hs => ?_
  rw [Chunk.traits_relabel, Chunk.traits_relabel]
  exact L.keep m hc hs

theorem steps_policy (context : WrapContext) :
    L.Steps (Placing.policy L.x context) (Placing.policy L.y context) :=
  ⟨Frame.keeps_policy context, Frame.keeps_policy context, fun hs => L.policy context hs⟩

theorem columnOf_eq (indent : Indent) : columnOf L.x indent = columnOf L.y indent := by
  rw [columnOf, columnOf, L.style]

theorem alignedAt_eq (p : Position) : alignedAt L.x p = alignedAt L.y p := by
  rw [alignedAt, alignedAt, L.style]

theorem wrapIndent_eq (context : WrapContext) (policy : Policy) (p : Position) :
    wrapIndent L.x context policy p = wrapIndent L.y context policy p := by
  rw [wrapIndent.eq_def, wrapIndent.eq_def L.y, alignedAt_eq, L.style]

theorem steps_breakTo (hc : L.own c.traits) (indent : Indent) (p : Position) :
    L.Steps (breakTo L.x (c.relabel L.left) indent p)
      (breakTo L.y (c.relabel L.right) indent p) := by
  rw [breakTo, breakTo, columnOf_eq]
  exact (steps_modifyTrial _).bind fun _ => (steps_setPlacement hc _).bind fun _ => .pure _

theorem steps_continueLine (hc : L.own c.traits) :
    L.Steps (continueLine (c.relabel L.left)) (continueLine (c.relabel L.right)) :=
  steps_setPlacement hc _

theorem steps_stay (hc : L.own c.traits) (p : Position) :
    L.Steps (stay (c.relabel L.left) p) (stay (c.relabel L.right) p) := by
  rw [stay, stay, Chunk.isSpaced_relabel, Chunk.isSpaced_relabel]
  exact (steps_setPlacement hc _).bind fun _ => .pure _

theorem steps_token (text : Bytes) (p : Position) :
    L.Steps (token L.x text p) (token L.y text p) := by
  rw [token, token, L.style]
  exact Steps.ite (.pure p) ((steps_modifyTrial _).bind fun _ => .pure _)

theorem steps_comment (hc : L.own c.traits) (contents : Option Comment) (p : Position) :
    L.Steps (comment L.x (c.relabel L.left) contents p)
      (comment L.y (c.relabel L.right) contents p) := by
  cases contents with
  | none => exact .throw _
  | some b =>
      have hbehind (r : Rendered) : columnBehind L.x p.column r = columnBehind L.y p.column r := by
        rw [columnBehind.eq_def, columnBehind.eq_def, L.style]
      rw [comment, comment, alignedAt_eq, L.style]
      refine (steps_setPlacement hc _).bind fun _ => ?_
      rw [hbehind]
      generalize columnBehind L.y p.column _ = column
      cases column <;> exact .pure _

end Primitives

section Room

theorem steps_measureElements (hc : L.own c.traits)
    (hcs : ∀ e ∈ cs, L.Steps (measureInterrupted (e.relabel L.left))
      (measureInterrupted (e.relabel L.right))) (isFirst : Bool) (width : Int) :
    L.Steps (measureElements (c.relabel L.left) isFirst width (cs.map (Chunk.relabel L.left)))
      (measureElements (c.relabel L.right) isFirst width (cs.map (Chunk.relabel L.right))) := by
  induction cs generalizing isFirst width with
  | nil => exact .pure _
  | cons e es ih =>
      obtain ⟨he, hes⟩ := List.forall_mem_cons.mp hcs
      simp only [List.map_cons, measureElements, Chunk.traits_relabel, Relabeling.measure,
        Chunk.startsHard_relabel, Chunk.isSpaced_relabel, Chunk.endsHard_relabel, List.isEmpty_map]
      -- The measure goes on in the same way whether it was taken before or not.
      cases e.traits.measure <;> refine Steps.bind ?_ fun m => Steps.ite ?_ ?_
      case none.refine_1 => exact he
      case some.refine_1 => exact .pure _
      case none.refine_2 | some.refine_2 => exact (steps_keepMeasure hc _).bind fun _ => .pure _
      case none.refine_3 | some.refine_3 =>
        exact (steps_keepMeasure hc _).bind fun _ => Steps.ite (.pure _) (ih hes false _)

/-- A look at how far the measure of a chunk got. -/
theorem steps_lookup {f g : LayoutState → Placing α} {τ : Traits} (hτ : L.own τ)
    (h : ∀ s t : LayoutState, s.interrupted.lookup (L.left.traits τ).id =
      t.interrupted.lookup (L.right.traits τ).id → L.Steps (f s) (g t)) :
    L.Steps (get >>= f) (get >>= g) := by
  -- Whatever one side finds, the other side may find it too.
  have hfound (id : Nat) (m : Option Measure) : ∃ s : LayoutState, s.interrupted.lookup id = m :=
    ⟨{ placements := #[], interrupted := m.toList.map (id, ·) }, by cases m <;> simp⟩
  refine ⟨Frame.Keeps.get fun s => ?_, Frame.Keeps.get fun t => ?_, fun {s t} hs => ?_⟩
  · obtain ⟨t, ht⟩ := hfound (L.right.traits τ).id (s.interrupted.lookup (L.left.traits τ).id)
    exact (h s t ht.symm).left
  · obtain ⟨s, hs⟩ := hfound (L.left.traits τ).id (t.interrupted.lookup (L.right.traits τ).id)
    exact (h s t hs).right
  · exact (h s t (L.lookup hτ hs)).run hs

theorem steps_measureInterrupted (hc : ∀ d ∈ c.walk, L.own d.traits) :
    L.Steps (measureInterrupted (c.relabel L.left)) (measureInterrupted (c.relabel L.right)) := by
  induction c using Chunk.byParts with
  | token t s =>
      simp only [Chunk.relabel, measureInterrupted, Chunk.traits, Relabeling.measure]
      exact .pure _
  | comment t s contents =>
      have hown : L.own t := hc _ (Chunk.mem_walk _)
      simp only [Chunk.relabel, measureInterrupted]
      cases contents with
      | some b =>
          refine steps_lookup hown fun s t hlookup => ?_
          rw [hlookup]
          exact .pure _
      | none =>
          refine steps_lookup hown fun s' t' hlookup => ?_
          rw [hlookup]
          cases t'.interrupted.lookup (L.right.traits t).id with
          | some m => exact .pure _
          | none =>
              exact (steps_keepMeasure (c := .comment t s none) hown _).bind fun _ => .throw _
  | group t context breakFirst cs ih =>
      have hown : L.own t := hc _ (Chunk.mem_walk _)
      simp only [Chunk.relabel_group, measureInterrupted]
      refine steps_lookup hown fun s' t' hlookup => ?_
      rw [hlookup]
      cases t'.interrupted.lookup (L.right.traits t).id with
      | some m => exact .pure _
      | none =>
          rw [← Chunk.relabel_group, ← Chunk.relabel_group]
          refine (steps_keepMeasure hown _).bind fun _ => ?_
          exact steps_measureElements (c := .group t context breakFirst cs) hown
            (fun e he => ih e he fun d hd => hc d (Chunk.mem_walk_group he hd)) true 0
  | block t o k i cs iho ihk ih =>
      have hown : L.own t := hc _ (Chunk.mem_walk _)
      obtain ⟨ho, -, hk⟩ := Chunk.forall_mem_walk_block hc
      have hkeep (m : Measure) := steps_keepMeasure (L := L) (c := .block t o k i cs) hown m
      simp only [Chunk.relabel_block, measureInterrupted] at hkeep ⊢
      refine steps_lookup hown fun s' t' hlookup => ?_
      rw [hlookup]
      cases t'.interrupted.lookup (L.right.traits t).id with
      | some m => exact .pure _
      | none =>
          refine (hkeep _).bind fun _ => ?_
          cases o with
          | none => exact .pure _
          | some o =>
              simp only [Option.map_some, List.isEmpty_map, Option.isNone_map,
                Chunk.endsHard_relabel] at hkeep ⊢
              refine (iho o (by simp) (ho o (by simp))).bind fun m => (hkeep _).bind fun _ => ?_
              cases k with
              | none => exact .pure _
              | some k =>
                  refine Steps.ite (.pure _) ?_
                  refine (ihk k (by simp) (hk k (by simp))).bind fun n => ?_
                  exact (hkeep _).bind fun _ => .pure _

theorem steps_measure (hc : ∀ d ∈ c.walk, L.own d.traits) :
    L.Steps (measure (c.relabel L.left)) (measure (c.relabel L.right)) := by
  rw [measure, measure, Chunk.traits_relabel, Chunk.traits_relabel, Relabeling.measure,
    Relabeling.measure]
  cases c.traits.measure with
  | some m => exact .pure m
  | none => exact steps_measureInterrupted hc

theorem steps_leadElements (hcs : ∀ e ∈ cs, L.Steps (lead L.x (e.relabel L.left))
    (lead L.y (e.relabel L.right))) (context : WrapContext) (isFirst : Bool) (width : Int) :
    L.Steps (leadElements L.x context isFirst width (cs.map (Chunk.relabel L.left)))
      (leadElements L.y context isFirst width (cs.map (Chunk.relabel L.right))) := by
  induction cs generalizing isFirst width with
  | nil => exact .pure _
  | cons e es ih =>
      obtain ⟨he, hes⟩ := List.forall_mem_cons.mp hcs
      simp only [List.map_cons, leadElements, Chunk.startsHard_relabel, Chunk.isSpaced_relabel,
        Chunk.endsHard_relabel]
      refine Steps.ite (.pure _) (he.bind fun own => Steps.ite (.pure _) ?_)
      refine (steps_policy context).bind fun policy => Steps.ite (.pure _) ?_
      exact ih hes false _

theorem steps_lead (hc : ∀ d ∈ c.walk, L.own d.traits) :
    L.Steps (lead L.x (c.relabel L.left)) (lead L.y (c.relabel L.right)) := by
  induction c using Chunk.byParts with
  | token t s =>
      simp only [Chunk.relabel, lead, Chunk.endsHard, Relabeling.breakAfter, L.style]
      exact .pure _
  | comment t s b => exact .pure _
  | group t context breakFirst cs ih =>
      have hends (ρ : Relabeling) := Chunk.endsHard_relabel ρ (.group t context breakFirst cs)
      simp only [Chunk.relabel_group] at hends ⊢
      simp only [lead, hends]
      refine (steps_leadElements (fun e he => ih e he fun d hd =>
        hc d (Chunk.mem_walk_group he hd)) context true 0).bind fun _ => .pure _
  | block t o k i cs iho ihk ih =>
      obtain ⟨ho, -⟩ := Chunk.forall_mem_walk_block hc
      simp only [Chunk.relabel_block]
      cases o with
      | none => exact .pure _
      | some o =>
          simp only [Option.map_some, lead]
          exact (steps_measure (ho o (by simp))).bind fun _ => .pure _

theorem steps_tail (hcs : ∀ c ∈ cs, ∀ d ∈ c.walk, L.own d.traits) (parent width : Int) :
    L.Steps (tail L.x parent width (cs.map (Chunk.relabel L.left)))
      (tail L.y parent width (cs.map (Chunk.relabel L.right))) := by
  induction cs generalizing width with
  | nil => exact .pure _
  | cons c cs ih =>
      obtain ⟨hc, hcs⟩ := List.forall_mem_cons.mp hcs
      simp only [List.map_cons, tail, Chunk.startsHard_relabel, Chunk.isSpaced_relabel]
      refine Steps.ite (.pure _) ((steps_lead hc).bind fun own => ?_)
      exact Steps.ite (.pure _) (ih hcs _)

theorem steps_fits (hc : ∀ d ∈ c.walk, L.own d.traits) (p : Position) (tail : Int) :
    L.Steps (fits L.x (c.relabel L.left) p tail) (fits L.y (c.relabel L.right) p tail) := by
  rw [fits, fits, Chunk.isSpaced_relabel, Chunk.isSpaced_relabel, L.style]
  exact (steps_measure hc).bind fun _ => .pure _

end Room

section Flatten

theorem continuation_relabel (b : Chunk) (indent : Indent) :
    continuation L.x (b.relabel L.left) indent = continuation L.y (b.relabel L.right) indent := by
  rw [continuation, continuation, Chunk.settles_relabel, Chunk.settles_relabel, L.style]

theorem closingStartsLine_relabel (ρ : Relabeling) (o : Option Chunk) (cs : List Chunk) :
    closingStartsLine (o.map (Chunk.relabel ρ)) (cs.map (Chunk.relabel ρ)) =
      closingStartsLine o cs := by
  cases o <;> simp [closingStartsLine]

theorem steps_flattenElements (hcs : ∀ c ∈ cs, L.own c.traits)
    (hflatten : ∀ c ∈ cs, ∀ indent, L.Steps (flatten L.x indent (c.relabel L.left))
      (flatten L.y indent (c.relabel L.right))) (indent : Indent) (previous : Option Chunk) :
    L.Steps (flattenElements L.x indent (previous.map (Chunk.relabel L.left))
        (cs.map (Chunk.relabel L.left)))
      (flattenElements L.y indent (previous.map (Chunk.relabel L.right))
        (cs.map (Chunk.relabel L.right))) := by
  induction cs generalizing previous with
  | nil => exact .pure _
  | cons c cs ih =>
      obtain ⟨hc, hcs⟩ := List.forall_mem_cons.mp hcs
      obtain ⟨hfirst, hrest⟩ := List.forall_mem_cons.mp hflatten
      have helement (f : Placement → Placement) := (steps_setPlacement hc f).bind fun _ =>
        (hfirst indent).bind fun _ => ih hcs hrest (some c)
      simp only [List.map_cons, flattenElements]
      cases previous with
      | none => exact helement _
      | some b =>
          simp only [Option.map_some, Option.filter_some, Chunk.endsHard_relabel,
            Chunk.startsHard_relabel]
          by_cases hdemanded : (b.endsHard || c.startsHard) = true
          · rw [if_pos hdemanded, if_pos hdemanded]
            simp only [continuation_relabel]
            exact helement _
          · rw [if_neg hdemanded, if_neg hdemanded]
            exact helement _

theorem steps_flattenItems (hcs : ∀ c ∈ cs, L.own c.traits)
    (hflatten : ∀ c ∈ cs, ∀ indent, L.Steps (flatten L.x indent (c.relabel L.left))
      (flatten L.y indent (c.relabel L.right))) (indent : Indent) :
    L.Steps (flattenItems L.x indent (cs.map (Chunk.relabel L.left)))
      (flattenItems L.y indent (cs.map (Chunk.relabel L.right))) := by
  induction cs with
  | nil => exact .pure _
  | cons c cs ih =>
      obtain ⟨hc, hcs⟩ := List.forall_mem_cons.mp hcs
      obtain ⟨hfirst, hrest⟩ := List.forall_mem_cons.mp hflatten
      simp only [List.map_cons, flattenItems]
      exact (steps_setPlacement hc _).bind fun _ => (hfirst indent).bind fun _ => ih hcs hrest

theorem steps_flatten (hc : ∀ d ∈ c.walk, L.own d.traits) (indent : Indent) :
    L.Steps (flatten L.x indent (c.relabel L.left)) (flatten L.y indent (c.relabel L.right)) := by
  induction c using Chunk.byParts generalizing indent with
  | token t s => exact .pure _
  | comment t s b => exact .pure _
  | group t context breakFirst cs ih =>
      have hbelow : ∀ e ∈ cs, ∀ d ∈ e.walk, L.own d.traits := fun e he d hd =>
        hc d (Chunk.mem_walk_group he hd)
      simp only [Chunk.relabel_group, flatten]
      exact steps_flattenElements (fun e he => hbelow e he e (Chunk.mem_walk e))
        (fun e he => ih e he (hbelow e he)) indent none
  | block t o k i cs iho ihk ih =>
      obtain ⟨ho, hcs, hk⟩ := Chunk.forall_mem_walk_block hc
      rw [Chunk.relabel_block, Chunk.relabel_block, flatten_block, flatten_block,
        closingStartsLine_relabel, closingStartsLine_relabel]
      refine Steps.bind ?_ fun _ => Steps.bind ?_ fun _ => ?_
      · cases o with
        | none => exact .pure _
        | some o =>
            have hown := ho o (by simp)
            exact (steps_continueLine (hown o (Chunk.mem_walk o))).bind fun _ =>
              iho o (by simp) hown indent
      · exact steps_flattenItems (fun e he => hcs e he e (Chunk.mem_walk e))
          (fun e he => ih e he (hcs e he)) _
      · cases k with
        | none => exact .pure _
        | some k =>
            have hown := hk k (by simp)
            exact (steps_setPlacement (hown k (Chunk.mem_walk k)) _).bind fun _ =>
              ihk k (by simp) hown indent

end Flatten

section Trials

/-- A fault is recorded with a place of the input, but what is done about it is the same. -/
theorem steps_guarded (hc : ∀ d ∈ c.walk, L.own d.traits) (pos : Position)
    {place place' : Placing Position} (h : L.Steps place place') :
    L.Steps (guarded L.x (c.relabel L.left) pos place)
      (guarded L.y (c.relabel L.right) pos place') := by
  have hagain (fault : Fault) := (steps_remark (L := L) (.recovered (ascii "wrapping lines") fault)
    (spanOf L.x (c.relabel L.left)) (spanOf L.y (c.relabel L.right))).bind fun _ =>
      (steps_flatten hc pos.line).bind fun _ => Steps.pure { pos with fresh := false }
  refine ⟨TreeFrame.keeps_guarded (fun _ _ => trivial) pos h.left,
    TreeFrame.keeps_guarded (fun _ _ => trivial) pos h.right, fun {s t} hs => ?_⟩
  have hplace := h.run hs
  rw [From, run_guarded, run_guarded, L.trials hs]
  rw [From] at hplace
  rcases hp : place.run s with ⟨r, s'⟩
  rcases hq : place'.run t with ⟨r', t'⟩
  rw [hp, hq] at hplace
  rcases hplace with ⟨hlenient, hgone | hgone⟩ | ⟨heq, hsame⟩
  · refine Or.inl ⟨hlenient, Or.inl ?_⟩
    cases r with
    | ok q => exact hgone
    | error fault => exact exhausted_of_keeps (hagain fault).left hgone
  · refine Or.inl ⟨hlenient, Or.inr ?_⟩
    cases r' with
    | ok q => exact hgone
    | error fault => exact exhausted_of_keeps (hagain fault).right hgone
  · obtain rfl : r = r' := heq
    cases r with
    | ok q => exact Or.inr ⟨rfl, hsame⟩
    | error fault =>
        have htrials : s'.trials = t'.trials := L.trials hsame
        have hback := (hagain fault).run
          (L.setTrials (s'.trials.drop (s'.trials.length - t.trials.length)) hsame)
        dsimp only
        rw [htrials] at hback ⊢
        exact hback

theorem steps_attempt (hc : L.own c.traits) (pos : Position)
    {place place' : Position → Placing Position} (h : ∀ q, L.Steps (place q) (place' q)) :
    L.Steps (attempt (c.relabel L.left) pos place) (attempt (c.relabel L.right) pos place') := by
  have htried := (steps_stay hc pos).bind fun q => h { q with base := q.line }
  refine ⟨TreeFrame.keeps_attempt trivial pos fun q => (h q).left,
    TreeFrame.keeps_attempt trivial pos fun q => (h q).right, fun {s t} hs => ?_⟩
  have hrest (trial : Trial) (q : Position) : L.Steps
      (if trial.overflow then pure none
        else modifyTrial (fun t => { t with broke := t.broke || trial.broke }) >>=
          fun _ => pure (some { q with base := pos.base }))
      (if trial.overflow then pure none
        else modifyTrial (fun t => { t with broke := t.broke || trial.broke }) >>=
          fun _ => pure (some { q with base := pos.base })) :=
    Steps.ite (.pure _) ((steps_modifyTrial _).bind fun _ => .pure _)
  have hplace := htried.run (L.setTrials ({} :: s.trials) hs)
  rw [From, run_attempt, run_attempt, ← L.trials hs]
  rw [From] at hplace
  rcases hp : (stay (c.relabel L.left) pos >>= fun q => place { q with base := q.line }).run
    { s with trials := {} :: s.trials } with ⟨r, s'⟩
  rcases hq : (stay (c.relabel L.right) pos >>= fun q => place' { q with base := q.line }).run
    { t with trials := {} :: s.trials } with ⟨r', t'⟩
  rw [hp, hq] at hplace
  rcases hplace with ⟨hlenient, hgone | hgone⟩ | ⟨heq, hsame⟩
  · refine Or.inl ⟨hlenient, Or.inl ?_⟩
    cases r with
    | ok q => exact exhausted_of_keeps (hrest _ q).left hgone
    | error fault => exact hgone
  · refine Or.inl ⟨hlenient, Or.inr ?_⟩
    cases r' with
    | ok q => exact exhausted_of_keeps (hrest _ q).right hgone
    | error fault => exact hgone
  · obtain rfl : r = r' := heq
    cases r with
    | error fault => exact Or.inr ⟨rfl, hsame⟩
    | ok q =>
        have htrials : s'.trials = t'.trials := L.trials hsame
        have hback := (hrest (s'.trials.headD {}) q).run (L.setTrials s'.trials.tail hsame)
        dsimp only
        rw [htrials] at hback ⊢
        exact hback

end Trials

section Places

theorem steps_choose (hc : ∀ d ∈ c.walk, L.own d.traits) (plan : SplitPlan) (broke : Bool)
    (i : Nat) (previous : Option Chunk) (pos : Position) (tail : Int) :
    L.Steps (choose L.x plan broke i (previous.map (Chunk.relabel L.left)) (c.relabel L.left) pos
        tail)
      (choose L.y plan broke i (previous.map (Chunk.relabel L.right)) (c.relabel L.right) pos
        tail) := by
  have hdemanded (ρ : Relabeling) :
      ((previous.map (Chunk.relabel ρ)).map fun b => b.endsHard || (c.relabel ρ).startsHard) =
        previous.map fun b => b.endsHard || c.startsHard := by
    cases previous <;> simp
  rw [choose.eq_def, choose.eq_def L.y, hdemanded, hdemanded, columnOf_eq, L.style]
  refine Steps.ite (.pure _) ?_
  split
  case h_6 =>
    refine Steps.ite (.pure _) (Steps.ite (.pure _) ?_)
    refine (steps_fits hc pos tail).bind fun fits => Steps.ite (.pure _) ?_
    exact Steps.ite (.pure _) (Steps.ite (.pure _) (.pure _))
  all_goals exact .pure _

/-- What is to be shown of placing a tree. -/
def StepsPlace (L : Lockstep) (c : Chunk) : Prop :=
  (∀ d ∈ c.walk, L.own d.traits) → ∀ pos tail,
    L.Steps (place L.x (c.relabel L.left) pos tail) (place L.y (c.relabel L.right) pos tail)

section Trees

variable (hplace : ∀ c ∈ cs, L.StepsPlace c) (hcs : ∀ c ∈ cs, ∀ d ∈ c.walk, L.own d.traits)
include hplace hcs

theorem steps_placeItems (indent : Indent) (pos : Position) :
    L.Steps (placeItems L.x (cs.map (Chunk.relabel L.left)) indent pos)
      (placeItems L.y (cs.map (Chunk.relabel L.right)) indent pos) := by
  induction cs generalizing pos with
  | nil => exact .pure _
  | cons c cs ih =>
      obtain ⟨hfirst, hrest⟩ := List.forall_mem_cons.mp hplace
      obtain ⟨hc, hcs⟩ := List.forall_mem_cons.mp hcs
      simp only [List.map_cons, placeItems]
      refine (steps_breakTo (hc c (Chunk.mem_walk c)) indent pos).bind fun q => ?_
      exact (steps_guarded hc _ (hfirst hc _ 0)).bind fun q => ih hrest hcs q

theorem steps_placeOpening {o : Option Chunk} (h : o.toList = cs) (pos : Position) :
    L.Steps (placeOpening L.x (o.map (Chunk.relabel L.left)) pos)
      (placeOpening L.y (o.map (Chunk.relabel L.right)) pos) := by
  subst h
  cases o with
  | none => exact .pure _
  | some c =>
      have hown := hcs c (by simp)
      simp only [Option.map_some, placeOpening]
      exact (steps_continueLine (hown c (Chunk.mem_walk c))).bind fun _ =>
        hplace c (by simp) hown pos 0

theorem steps_placeClosing {k : Option Chunk} (h : k.toList = cs) (startsLine : Bool)
    (pos : Position) : L.Steps (placeClosing L.x (k.map (Chunk.relabel L.left)) startsLine pos)
      (placeClosing L.y (k.map (Chunk.relabel L.right)) startsLine pos) := by
  subst h
  cases k with
  | none => exact .pure _
  | some c =>
      have hown := hcs c (by simp)
      have hmark := hown c (Chunk.mem_walk c)
      simp only [Option.map_some, placeClosing]
      refine Steps.ite ?_ ?_
      · exact (steps_breakTo hmark _ pos).bind fun q => hplace c (by simp) hown q 0
      · exact (steps_continueLine hmark).bind fun _ => hplace c (by simp) hown pos 0

theorem steps_placeSequence (start : Indent) (previous : Option Chunk) (pos : Position)
    (tail : Int) :
    L.Steps (placeSequence L.x (cs.map (Chunk.relabel L.left)) start
        (previous.map (Chunk.relabel L.left)) pos tail)
      (placeSequence L.y (cs.map (Chunk.relabel L.right)) start
        (previous.map (Chunk.relabel L.right)) pos tail) := by
  induction cs generalizing previous pos with
  | nil => exact .pure _
  | cons c cs ih =>
      obtain ⟨hfirst, hrest⟩ := List.forall_mem_cons.mp hplace
      obtain ⟨hc, hcs⟩ := List.forall_mem_cons.mp hcs
      have hown := hc c (Chunk.mem_walk c)
      -- Each element is moved to its place in one of several ways, and all goes on alike.
      have helement {α : Type} {move move' : Placing α} {behind : α → Position} (width : Int)
          (hmove : L.Steps move move') := hmove.bind fun a =>
            (hfirst hc (behind a) width).bind fun q => ih hrest hcs (some c) q
      simp only [List.map_cons, placeSequence]
      refine (steps_tail hcs tail 0).bind fun behind => ?_
      cases previous with
      | none => exact helement _ (steps_continueLine hown)
      | some b =>
          simp only [Option.map_some, Chunk.endsHard_relabel, Chunk.startsHard_relabel,
            Chunk.traits_relabel, Relabeling.breakAfter, continuation_relabel]
          refine Steps.ite (helement _ (steps_breakTo hown _ _)) (Steps.ite ?_ ?_)
          · refine (steps_fits hc _ behind).bind fun fits => Steps.ite ?_ ?_
            · exact helement _ (steps_stay hown _)
            · exact helement _ (steps_breakTo hown _ _)
          · exact helement _ (steps_stay hown _)

theorem steps_placeSplit (plan : SplitPlan) (broke : Bool) (i : Nat) (previous : Option Chunk)
    (pos : Position) (tail : Int) :
    L.Steps (placeSplit L.x (cs.map (Chunk.relabel L.left)) plan broke i
        (previous.map (Chunk.relabel L.left)) pos tail)
      (placeSplit L.y (cs.map (Chunk.relabel L.right)) plan broke i
        (previous.map (Chunk.relabel L.right)) pos tail) := by
  induction cs generalizing broke i previous pos with
  | nil => exact .pure _
  | cons c cs ih =>
      obtain ⟨hfirst, hrest⟩ := List.forall_mem_cons.mp hplace
      obtain ⟨hc, hcs⟩ := List.forall_mem_cons.mp hcs
      have hown := hc c (Chunk.mem_walk c)
      simp only [List.map_cons, placeSplit_cons, List.isEmpty_map]
      refine Steps.bind ?_ fun r => ih hrest hcs _ _ (some c) _
      rw [placeElement, placeElement]
      refine (steps_choose hc _ _ _ _ _ _).bind fun choice => ?_
      extract_lets wrapped anew again anew' again'
      have hanew (q : Position) : L.Steps (anew q) (anew' q) :=
        (hfirst hc _ _).bind fun _ => .pure _
      have hagain (tried : Option Position) : L.Steps (again tried) (again' tried) := by
        simp only [again, again']
        clear_value wrapped anew anew'
        cases tried with
        | some q => exact .pure _
        | none =>
            cases wrapped with
            | none => exact (steps_stay hown pos).bind hanew
            | some indent => exact (steps_breakTo hown indent pos).bind hanew
      cases choice with
      | attempt => exact (steps_attempt hown pos fun q => hfirst hc q _).bind hagain
      | wrap | keep => exact hagain none

end Trees

/-- Two trees that differ in their labels are placed in lockstep. -/
theorem steps_place (c : Chunk) : L.StepsPlace c := by
  induction c using Chunk.byParts with
  | token t s =>
      intro _ pos tail
      simp only [Chunk.relabel, place]
      exact steps_step.bind fun _ => steps_token s pos
  | comment t s b =>
      intro hc pos tail
      have hcomment := steps_comment (c := .comment t s b) (hc _ (Chunk.mem_walk _)) b pos
      simp only [Chunk.relabel, place] at hcomment ⊢
      exact steps_step.bind fun _ => hcomment
  | group t context breakFirst cs ih =>
      intro hc pos tail
      have hcs : ∀ e ∈ cs, ∀ d ∈ e.walk, L.own d.traits := fun e he d hd =>
        hc d (Chunk.mem_walk_group he hd)
      have hsequence := steps_placeSequence ih hcs pos.line none pos tail
      have hmeasure := steps_measure hc
      simp only [Chunk.relabel_group] at hmeasure ⊢
      simp only [place, L.style]
      refine steps_step.bind fun _ => (steps_policy context).bind fun policy => ?_
      refine Steps.ite hsequence (hmeasure.bind fun m => Steps.ite hsequence ?_)
      rw [wrapIndent_eq]
      exact (steps_placeSplit ih hcs _ false 0 none pos tail).bind fun q => .pure _
  | block t o k i cs iho ihk ih =>
      intro hc pos tail
      obtain ⟨ho, hcs, hk⟩ := Chunk.forall_mem_walk_block hc
      simp only [Chunk.relabel_block, place, closingStartsLine_relabel]
      refine steps_step.bind fun _ => (steps_placeOpening iho ho rfl pos).bind fun q => ?_
      exact (steps_placeItems ih hcs _ q).bind fun q => steps_placeClosing ihk hk rfl _ _

end Places

end Lockstep

end Placing

end CodeLayout
