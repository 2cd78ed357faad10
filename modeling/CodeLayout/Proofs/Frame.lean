import CodeLayout.Proofs.Chunk.Numbered
import CodeLayout.Proofs.Splitting.Lines

/-!
# What laying out leaves alone

Laying out a tree changes the state in a few ways only, and what it marks are the chunks of this
tree. A frame is a relation between the state before and the state behind a step that each of these
ways satisfies, so that all steps of laying out satisfy it. Behind a fault the relation may be a
weaker one, since trials are then cut short.
-/

namespace CodeLayout

namespace Chunk

variable {d e : Chunk} {cs : List Chunk} {t : Traits}

theorem mem_walk_group {context : WrapContext} {breakFirst : Bool} (he : e ∈ cs)
    (hd : d ∈ e.walk) : d ∈ (group t context breakFirst cs).walk :=
  List.mem_cons_of_mem _ (mem_walkList.mpr ⟨e, he, hd⟩)

theorem forall_mem_walk_block {o k : Option Chunk} {i : Bool} {good : Chunk → Prop}
    (h : ∀ d ∈ (block t o k i cs).walk, good d) :
    (∀ e ∈ o.toList, ∀ d ∈ e.walk, good d) ∧ (∀ e ∈ cs, ∀ d ∈ e.walk, good d) ∧
      ∀ e ∈ k.toList, ∀ d ∈ e.walk, good d := by
  simp only [walk_block, List.forall_mem_cons, List.forall_mem_append] at h
  obtain ⟨-, ⟨ho, hcs⟩, hk⟩ := h
  exact ⟨fun e he d hd => ho d (mem_walkList.mpr ⟨e, he, hd⟩),
    fun e he d hd => hcs d (mem_walkList.mpr ⟨e, he, hd⟩),
    fun e he d hd => hk d (mem_walkList.mpr ⟨e, he, hd⟩)⟩

end Chunk

namespace Placing

/-- A relation between the states before and behind a step that holds of all that is done without
placing a chunk. -/
structure Frame where
  /-- The numbers of the chunks that may be marked and measured. -/
  own : Nat → Prop
  /-- What holds behind a step without a fault. -/
  ok : LayoutState → LayoutState → Prop
  /-- What holds behind a fault. -/
  err : LayoutState → LayoutState → Prop
  refl (s : LayoutState) : ok s s
  trans {s s' s'' : LayoutState} : ok s s' → ok s' s'' → ok s s''
  fail {s s' s'' : LayoutState} : ok s s' → err s' s'' → err s s''
  mark {id : Nat} (s : LayoutState) (f : Placement → Placement) : own id →
    ok s { s with placements := s.placements.modify id f }
  keep {id : Nat} (s : LayoutState) (m : Measure) : own id →
    ok s { s with interrupted := (id, m) :: s.interrupted }
  trial {s : LayoutState} {t : Trial} {ts : List Trial} (u : Trial) : s.trials = t :: ts →
    ok s { s with trials := u :: ts }
  record (s : LayoutState) (d : Diagnostic) : ok s { s with recorded := d :: s.recorded }
  exhaust (s : LayoutState) : ok s { s with
    exhausted := true
    recorded := { level := .remark, problem := .gaveUp s.steps, span := {} } :: s.recorded }

theorem run_bind {α β : Type} (m : Placing α) (k : α → Placing β) (s : LayoutState) :
    (m >>= k).run s = match m.run s with | (r, s') => ExceptT.bindCont k r s' :=
  rfl

theorem run_get {α : Type} (k : LayoutState → Placing α) (s : LayoutState) :
    (get >>= k).run s = (k s).run s :=
  rfl

/-- Once the budget is spent there are no policies, which is recorded the first time. -/
theorem run_policy_ite (x : LayoutContext) (context : WrapContext) (s : LayoutState) :
    (policy x context).run s =
      if x.budget < s.steps then
        (.ok .none, if s.exhausted then s else { s with
          exhausted := true
          recorded := { level := .remark, problem := .gaveUp s.steps, span := {} } :: s.recorded })
      else (.ok (x.style.policy context), s) := by
  rw [policy, run_get]
  by_cases hbudget : x.budget < s.steps
  · rw [if_pos hbudget, if_pos hbudget]
    cases hexhausted : s.exhausted <;> rfl
  · rw [if_neg hbudget, if_neg hbudget]
    rfl

/-- An item that meets a fault is laid out again without wrapping. -/
theorem run_guarded (x : LayoutContext) (c : Chunk) (p : Position) (place : Placing Position)
    (s : LayoutState) : (guarded x c p place).run s =
      match place.run s with
      | (.ok q, s') => (.ok q, s')
      | (.error fault, s') =>
        (remark (.recovered (ascii "wrapping lines") fault) (spanOf x c) >>= fun _ =>
          flatten x p.line c >>= fun _ => pure { p with fresh := false } : Placing Position).run
          { s' with trials := s'.trials.drop (s'.trials.length - s.trials.length) } := by
  have hrun : (guarded x c p place).run s =
      (guarded x c p (fun _ => place.run s : Placing Position)).run s := rfl
  rw [hrun]
  rcases place.run s with ⟨r, s'⟩
  cases r with
  | ok q => rfl
  | error fault =>
    change ExceptT.run ((modify (fun s₁ => { s₁ with
        trials := s₁.trials.drop (s₁.trials.length - s.trials.length) }) >>= fun _ =>
      remark (.recovered (ascii "wrapping lines") fault) (spanOf x c) >>= fun _ =>
        flatten x p.line c >>= fun _ => ExceptT.run (throw { p with fresh := false })) >>=
      fun e => EarlyReturn.runK e (fun r => pure r) fun r => pure r) s' = _
    simp only [bind_assoc]
    rfl

/-- An element on trial is placed with a trial of its own, which ends behind it. -/
theorem run_attempt (c : Chunk) (p : Position) (place : Position → Placing Position)
    (s : LayoutState) : (attempt c p place).run s =
      match (stay c p >>= fun q => place { q with base := q.line }).run
        { s with trials := {} :: s.trials } with
      | (.error fault, s') => (.error fault, s')
      | (.ok q, s') =>
        (if (s'.trials.headD {}).overflow then pure none
          else modifyTrial (fun t => { t with broke := t.broke || (s'.trials.headD {}).broke }) >>=
            fun _ => pure (some { q with base := p.base }) : Placing (Option Position)).run
          { s' with trials := s'.trials.tail } := by
  have hrun : (attempt c p place).run s = ((stay c p >>= fun q =>
      place { q with base := q.line }) >>= fun q => get >>= fun s' =>
        modify (fun s => { s with trials := s.trials.tail }) >>= fun _ =>
          if (s'.trials.headD {}).overflow then pure none
          else modifyTrial (fun t => { t with broke := t.broke || (s'.trials.headD {}).broke }) >>=
            fun _ => pure (some { q with base := p.base }) : Placing (Option Position)).run
        { s with trials := {} :: s.trials } := by
    rw [bind_assoc]
    rfl
  rw [hrun, run_bind]
  rcases (stay c p >>= fun q => place { q with base := q.line }).run
    { s with trials := {} :: s.trials } with ⟨r, s'⟩
  cases r <;> rfl

/-- The parts of a block are laid out one behind the other. -/
theorem flatten_block (x : LayoutContext) (indent : Indent) (t : Traits) (o k : Option Chunk)
    (i : Bool) (cs : List Chunk) : flatten x indent (.block t o k i cs) =
      o.elim (pure ()) (fun c => continueLine c >>= fun _ => flatten x indent c) >>= fun _ =>
      flattenItems x (itemIndent i indent) cs >>= fun _ =>
      k.elim (pure ()) fun c =>
        setPlacement c (fun q => { q with newLine := closingStartsLine o cs, indent }) >>= fun _ =>
          flatten x indent c := by
  cases o <;> cases k <;> rw [flatten] <;> rfl

namespace Frame

/-- Whether a step keeps to a frame. -/
def Keeps {α : Type} (F : Frame) (m : Placing α) : Prop :=
  ∀ s, (∀ a, (m.run s).1 = .ok a → F.ok s (m.run s).2) ∧
    ∀ fault, (m.run s).1 = .error fault → F.err s (m.run s).2

variable {α β : Type} {F : Frame} {x : LayoutContext} {m m' : Placing α} {k : α → Placing β}
  {c : Chunk} {cs : List Chunk}

namespace Keeps

theorem pure (a : α) : F.Keeps (Pure.pure a) :=
  fun s => ⟨fun _ _ => F.refl s, nofun⟩

theorem bind (h : F.Keeps m) (hk : ∀ a, F.Keeps (k a)) : F.Keeps (m >>= k) := by
  intro s
  obtain ⟨hok, herr⟩ := h s
  rw [run_bind]
  rcases hm : m.run s with ⟨r, s₁⟩
  rw [hm] at hok herr
  cases r with
  | error fault => exact ⟨nofun, fun _ _ => herr fault rfl⟩
  | ok a =>
      obtain ⟨hok', herr'⟩ := hk a s₁
      exact ⟨fun b hb => F.trans (hok a rfl) (hok' b hb),
        fun fault hfault => F.fail (hok a rfl) (herr' fault hfault)⟩

theorem ite {p : Prop} [Decidable p] (h : F.Keeps m) (h' : F.Keeps m') :
    F.Keeps (if p then m else m') := by
  split
  · exact h
  · exact h'

theorem get {k : LayoutState → Placing β} (hk : ∀ s, F.Keeps (k s)) :
    F.Keeps (MonadState.get >>= k) :=
  fun s => hk s s

theorem modify {f : LayoutState → LayoutState} (hf : ∀ s, F.ok s (f s)) :
    F.Keeps (modify f : Placing Unit) :=
  fun s => ⟨fun _ _ => hf s, nofun⟩

end Keeps

section Marks

theorem keeps_setPlacement (hc : F.own c.traits.id) (f : Placement → Placement) :
    F.Keeps (setPlacement c f) :=
  Keeps.modify fun s => F.mark s f hc

theorem keeps_modifyTrial (f : Trial → Trial) : F.Keeps (modifyTrial f) := by
  refine Keeps.modify fun s => ?_
  split
  · rename_i t ts htrials
    exact F.trial (f t) htrials
  · exact F.refl s

theorem keeps_remark (problem : Problem) (span : Span) : F.Keeps (remark problem span) :=
  Keeps.modify fun s => F.record s _

theorem keeps_policy (context : WrapContext) : F.Keeps (policy x context) := by
  intro s
  rw [run_policy_ite]
  split_ifs
  · exact ⟨fun _ _ => F.refl s, nofun⟩
  · exact ⟨fun _ _ => F.exhaust s, nofun⟩
  · exact ⟨fun _ _ => F.refl s, nofun⟩

theorem keeps_breakTo (hc : F.own c.traits.id) (indent : Indent) (p : Position) :
    F.Keeps (breakTo x c indent p) := by
  rw [breakTo]
  exact (keeps_modifyTrial _).bind fun _ => (keeps_setPlacement hc _).bind fun _ => Keeps.pure _

theorem keeps_continueLine (hc : F.own c.traits.id) : F.Keeps (continueLine c) :=
  keeps_setPlacement hc _

theorem keeps_stay (hc : F.own c.traits.id) (p : Position) : F.Keeps (stay c p) := by
  rw [stay]
  exact (keeps_setPlacement hc _).bind fun _ => Keeps.pure _

theorem keeps_token (text : Bytes) (p : Position) : F.Keeps (token x text p) := by
  rw [token]
  exact Keeps.ite (Keeps.pure _) ((keeps_modifyTrial _).bind fun _ => Keeps.pure _)

end Marks

section Flatten

theorem keeps_flattenElements (hcs : ∀ c ∈ cs, F.own c.traits.id)
    (hflatten : ∀ c ∈ cs, ∀ indent, F.Keeps (flatten x indent c)) (indent : Indent)
    (previous : Option Chunk) : F.Keeps (flattenElements x indent previous cs) := by
  induction cs generalizing previous with
  | nil => exact Keeps.pure _
  | cons c cs ih =>
      obtain ⟨hc, hcs⟩ := List.forall_mem_cons.mp hcs
      obtain ⟨hfirst, hrest⟩ := List.forall_mem_cons.mp hflatten
      rw [flattenElements]
      refine (keeps_setPlacement hc _).bind fun _ => (hfirst indent).bind fun _ => ?_
      exact ih hcs hrest (some c)

theorem keeps_flattenItems (hcs : ∀ c ∈ cs, F.own c.traits.id)
    (hflatten : ∀ c ∈ cs, ∀ indent, F.Keeps (flatten x indent c)) (indent : Indent) :
    F.Keeps (flattenItems x indent cs) := by
  induction cs with
  | nil => exact Keeps.pure _
  | cons c cs ih =>
      obtain ⟨hc, hcs⟩ := List.forall_mem_cons.mp hcs
      obtain ⟨hfirst, hrest⟩ := List.forall_mem_cons.mp hflatten
      rw [flattenItems]
      exact (keeps_setPlacement hc _).bind fun _ => (hfirst indent).bind fun _ => ih hcs hrest

theorem keeps_flatten (hc : ∀ d ∈ c.walk, F.own d.traits.id) (indent : Indent) :
    F.Keeps (flatten x indent c) := by
  induction c using Chunk.byParts generalizing indent with
  | token t s => exact Keeps.pure _
  | comment t s b => exact Keeps.pure _
  | group t context breakFirst cs ih =>
      have hbelow : ∀ e ∈ cs, ∀ d ∈ e.walk, F.own d.traits.id := fun e he d hd =>
        hc d (Chunk.mem_walk_group he hd)
      rw [flatten]
      exact keeps_flattenElements (fun e he => hbelow e he e (Chunk.mem_walk e))
        (fun e he => ih e he (hbelow e he)) indent none
  | block t o k i cs iho ihk ih =>
      obtain ⟨ho, hcs, hk⟩ := Chunk.forall_mem_walk_block hc
      rw [flatten_block]
      refine Keeps.bind ?_ fun _ => Keeps.bind ?_ fun _ => ?_
      · cases o with
        | none => exact Keeps.pure _
        | some o =>
            have hown := ho o (by simp)
            exact (keeps_continueLine (hown o (Chunk.mem_walk o))).bind fun _ =>
              iho o (by simp) hown indent
      · exact keeps_flattenItems (fun e he => hcs e he e (Chunk.mem_walk e))
          (fun e he => ih e he (hcs e he)) _
      · cases k with
        | none => exact Keeps.pure _
        | some k =>
            have hown := hk k (by simp)
            exact (keeps_setPlacement (hown k (Chunk.mem_walk k)) _).bind fun _ =>
              ihk k (by simp) hown indent

end Flatten

end Frame

/-- A frame that faults keep to. -/
structure FaultFrame extends Frame where
  throw (s : LayoutState) : err s s

namespace FaultFrame

open Placing.Frame

variable {α : Type} {F : FaultFrame} {x : LayoutContext} {c : Chunk} {cs : List Chunk}

theorem keeps_throw (fault : Fault) : F.Keeps (MonadExcept.throw fault : Placing α) :=
  fun s => ⟨nofun, fun _ _ => F.throw s⟩

theorem keeps_comment (hc : F.own c.traits.id) (contents : Option Comment) (p : Position) :
    F.Keeps (comment x c contents p) := by
  cases contents with
  | none => exact keeps_throw _
  | some b =>
      rw [comment]
      refine (keeps_setPlacement hc _).bind fun _ => ?_
      split <;> exact Keeps.pure _

section Room

theorem keeps_keepMeasure (hc : F.own c.traits.id) (m : Measure) : F.Keeps (keepMeasure c m) :=
  Keeps.modify fun s => F.keep s m hc

theorem keeps_measureElements (hc : F.own c.traits.id)
    (hcs : ∀ e ∈ cs, F.Keeps (measureInterrupted e)) (isFirst : Bool) (width : Int) :
    F.Keeps (measureElements c isFirst width cs) := by
  induction cs generalizing isFirst width with
  | nil => exact Keeps.pure _
  | cons e es ih =>
      have he := hcs e List.mem_cons_self
      have hrest := ih fun d hd => hcs d (List.mem_cons_of_mem e hd)
      rw [measureElements]
      -- The measure goes on in the same way whether it was taken before or not.
      cases e.traits.measure <;> refine Keeps.bind ?_ fun m => Keeps.ite ?_ ?_
      case none.refine_1 => exact he
      case some.refine_1 => exact Keeps.pure _
      case none.refine_2 | some.refine_2 =>
        exact (keeps_keepMeasure hc _).bind fun _ => Keeps.pure _
      case none.refine_3 | some.refine_3 =>
        exact (keeps_keepMeasure hc _).bind fun _ => Keeps.ite (Keeps.pure _) (hrest false _)

theorem keeps_measureInterrupted (hc : ∀ d ∈ c.walk, F.own d.traits.id) :
    F.Keeps (measureInterrupted c) := by
  induction c using Chunk.byParts with
  | token t s => exact Keeps.pure _
  | comment t s b =>
      rw [measureInterrupted]
      refine Keeps.get fun state => ?_
      split
      · exact (keeps_keepMeasure (hc _ (Chunk.mem_walk _)) _).bind fun _ => keeps_throw _
      · exact Keeps.pure _
  | group t context breakFirst cs ih =>
      rw [measureInterrupted]
      refine Keeps.get fun state => ?_
      split
      · exact Keeps.pure _
      · have hown := hc _ (Chunk.mem_walk _)
        refine (keeps_keepMeasure hown _).bind fun _ => ?_
        exact keeps_measureElements hown
          (fun e he => ih e he fun d hd => hc d (Chunk.mem_walk_group he hd)) true 0
  | block t o k i cs iho ihk ih =>
      rw [measureInterrupted]
      refine Keeps.get fun state => ?_
      split
      · exact Keeps.pure _
      · have hown := hc _ (Chunk.mem_walk _)
        refine (keeps_keepMeasure hown _).bind fun _ => ?_
        obtain ⟨ho, -, hk⟩ := Chunk.forall_mem_walk_block hc
        cases o with
        | none => exact Keeps.pure _
        | some o =>
            refine (iho o (by simp) (ho o (by simp))).bind fun m => ?_
            refine (keeps_keepMeasure hown _).bind fun _ => ?_
            cases k with
            | none => exact Keeps.pure _
            | some k =>
                refine Keeps.ite (Keeps.pure _) ?_
                refine (ihk k (by simp) (hk k (by simp))).bind fun n => ?_
                exact (keeps_keepMeasure hown _).bind fun _ => Keeps.pure _

theorem keeps_measure (hc : ∀ d ∈ c.walk, F.own d.traits.id) : F.Keeps (measure c) := by
  rw [measure]
  split
  · exact Keeps.pure _
  · exact keeps_measureInterrupted hc

theorem keeps_leadElements (context : WrapContext) (hcs : ∀ c ∈ cs, F.Keeps (lead x c))
    (isFirst : Bool) (width : Int) : F.Keeps (leadElements x context isFirst width cs) := by
  induction cs generalizing isFirst width with
  | nil => exact Keeps.pure _
  | cons e es ih =>
      have hrest := ih fun d hd => hcs d (List.mem_cons_of_mem e hd)
      rw [leadElements]
      refine Keeps.ite (Keeps.pure _) ((hcs e List.mem_cons_self).bind fun own => ?_)
      refine Keeps.ite (Keeps.pure _) ((keeps_policy context).bind fun policy => ?_)
      exact Keeps.ite (Keeps.pure _) (hrest false _)

theorem keeps_lead (hc : ∀ d ∈ c.walk, F.own d.traits.id) : F.Keeps (lead x c) := by
  induction c using Chunk.byParts with
  | token t s => exact Keeps.pure _
  | comment t s b => exact Keeps.pure _
  | group t context breakFirst cs ih =>
      rw [lead]
      exact (keeps_leadElements context (fun e he => ih e he fun d hd =>
        hc d (Chunk.mem_walk_group he hd)) true 0).bind fun _ => Keeps.pure _
  | block t o k i cs iho ihk ih =>
      cases o with
      | none => exact Keeps.pure _
      | some o =>
          obtain ⟨ho, -⟩ := Chunk.forall_mem_walk_block hc
          rw [lead]
          exact (keeps_measure (ho o (by simp))).bind fun _ => Keeps.pure _

theorem keeps_tail (hcs : ∀ d ∈ Chunk.walkList cs, F.own d.traits.id) (parent width : Int) :
    F.Keeps (tail x parent width cs) := by
  induction cs generalizing width with
  | nil => exact Keeps.pure _
  | cons c cs ih =>
      simp only [Chunk.walkList, List.mem_append] at hcs
      rw [tail]
      refine Keeps.ite (Keeps.pure _)
        ((keeps_lead fun d hd => hcs d (Or.inl hd)).bind fun own => ?_)
      exact Keeps.ite (Keeps.pure _) (ih (fun d hd => hcs d (Or.inr hd)) _)

theorem keeps_fits (hc : ∀ d ∈ c.walk, F.own d.traits.id) (p : Position) (tail : Int) :
    F.Keeps (fits x c p tail) := by
  rw [fits]
  exact (keeps_measure hc).bind fun _ => Keeps.pure _

theorem keeps_choose (hc : ∀ d ∈ c.walk, F.own d.traits.id) (plan : SplitPlan) (broke : Bool)
    (i : Nat) (previous : Option Chunk) (p : Position) (tail : Int) :
    F.Keeps (choose x plan broke i previous c p tail) := by
  rw [choose.eq_def]
  refine Keeps.ite (Keeps.pure _) ?_
  split
  case h_6 =>
    refine Keeps.ite (Keeps.pure _) (Keeps.ite (Keeps.pure _) ?_)
    refine (keeps_fits hc p tail).bind fun _ => Keeps.ite (Keeps.pure _) ?_
    exact Keeps.ite (Keeps.pure _) (Keeps.ite (Keeps.pure _) (Keeps.pure _))
  all_goals exact Keeps.pure _

end Room

end FaultFrame

/-- A frame that placing chunks keeps to as well. -/
structure TreeFrame extends FaultFrame where
  count (s : LayoutState) : ok s { s with steps := s.steps + 1 }
  tried {s s' : LayoutState} {t : Trial} : ok { s with trials := t :: s.trials } s' →
    ok s { s' with trials := s'.trials.tail }
  abort {s s' : LayoutState} {t : Trial} : err { s with trials := t :: s.trials } s' → err s s'
  recover {s s' : LayoutState} : err s s' →
    ok s { s' with trials := s'.trials.drop (s'.trials.length - s.trials.length) }

namespace TreeFrame

open Placing.Frame FaultFrame

variable {F : TreeFrame} {x : LayoutContext} {c : Chunk} {cs : List Chunk}

theorem keeps_step : F.Keeps step :=
  Keeps.modify F.count

/-- An item that is placed, or laid out again behind a fault. -/
theorem keeps_guarded (hc : ∀ d ∈ c.walk, F.own d.traits.id) (p : Position)
    {place : Placing Position} (hplace : F.Keeps place) : F.Keeps (guarded x c p place) := by
  intro s
  obtain ⟨hok, herr⟩ := hplace s
  rw [run_guarded]
  rcases hm : place.run s with ⟨r, s₁⟩
  rw [hm] at hok herr
  cases r with
  | ok q => exact ⟨fun _ _ => hok q rfl, nofun⟩
  | error fault =>
      have hagain : F.Keeps (remark (.recovered (ascii "wrapping lines") fault) (spanOf x c) >>=
          fun _ => flatten x p.line c >>= fun _ => pure { p with fresh := false }) :=
        (keeps_remark _ _).bind fun _ => (keeps_flatten hc p.line).bind fun _ => Keeps.pure _
      have hback := F.recover (herr fault rfl)
      obtain ⟨hok', herr'⟩ := hagain
        { s₁ with trials := s₁.trials.drop (s₁.trials.length - s.trials.length) }
      exact ⟨fun q hq => F.trans hback (hok' q hq), fun f hf => F.fail hback (herr' f hf)⟩

theorem keeps_attempt (hc : F.own c.traits.id) (p : Position) {place : Position → Placing Position}
    (hplace : ∀ q, F.Keeps (place q)) : F.Keeps (attempt c p place) := by
  intro s
  obtain ⟨hok, herr⟩ := ((keeps_stay hc p).bind fun q => hplace { q with base := q.line } :
    F.Keeps _) { s with trials := {} :: s.trials }
  rw [run_attempt]
  rcases hm : (stay c p >>= fun q => place { q with base := q.line }).run
    { s with trials := {} :: s.trials } with ⟨r, s₁⟩
  rw [hm] at hok herr
  cases r with
  | error fault => exact ⟨nofun, fun _ _ => F.abort (herr fault rfl)⟩
  | ok q =>
      have hback := F.tried (hok q rfl)
      have hrest : F.Keeps (if (s₁.trials.headD {}).overflow then pure none
          else modifyTrial (fun t => { t with broke := t.broke || (s₁.trials.headD {}).broke }) >>=
            fun _ => pure (some { q with base := p.base })) :=
        Keeps.ite (Keeps.pure _) ((keeps_modifyTrial _).bind fun _ => Keeps.pure _)
      obtain ⟨hok', herr'⟩ := hrest { s₁ with trials := s₁.trials.tail }
      exact ⟨fun q hq => F.trans hback (hok' q hq), fun f hf => F.fail hback (herr' f hf)⟩

/-- What is to be shown of placing a tree. -/
def KeepsPlace (F : TreeFrame) (x : LayoutContext) (c : Chunk) : Prop :=
  (∀ d ∈ c.walk, F.own d.traits.id) → ∀ p tail, F.Keeps (place x c p tail)

section Trees

variable (hplace : ∀ c ∈ cs, F.KeepsPlace x c) (hcs : ∀ c ∈ cs, ∀ d ∈ c.walk, F.own d.traits.id)
include hplace hcs

theorem keeps_placeItems (indent : Indent) (p : Position) :
    F.Keeps (placeItems x cs indent p) := by
  induction cs generalizing p with
  | nil => exact Keeps.pure _
  | cons c cs ih =>
      obtain ⟨hfirst, hrest⟩ := List.forall_mem_cons.mp hplace
      obtain ⟨hc, hcs⟩ := List.forall_mem_cons.mp hcs
      rw [placeItems]
      refine (keeps_breakTo (hc c (Chunk.mem_walk c)) indent p).bind fun q => ?_
      exact (keeps_guarded hc _ (hfirst hc _ 0)).bind fun q => ih hrest hcs q

theorem keeps_placeSequence (start : Indent) (previous : Option Chunk) (p : Position)
    (tail : Int) : F.Keeps (placeSequence x cs start previous p tail) := by
  induction cs generalizing previous p with
  | nil => exact Keeps.pure _
  | cons c cs ih =>
      obtain ⟨hfirst, hrest⟩ := List.forall_mem_cons.mp hplace
      obtain ⟨hc, hcs⟩ := List.forall_mem_cons.mp hcs
      have hown := hc c (Chunk.mem_walk c)
      -- Each element is moved to its place in one of several ways, and all goes on alike.
      have helement {α : Type} {move : Placing α} {behind : α → Position} (width : Int)
          (hmove : F.Keeps move) :
          F.Keeps (move >>= fun a => place x c (behind a) width >>= fun q =>
            placeSequence x cs start (some c) q tail) :=
        hmove.bind fun a => (hfirst hc _ _).bind fun q => ih hrest hcs (some c) q
      rw [placeSequence]
      refine Keeps.bind (keeps_tail (fun d hd => ?_) tail 0) fun behind => ?_
      · obtain ⟨e, he, hd⟩ := Chunk.mem_walkList.mp hd
        exact hcs e he d hd
      · cases previous with
        | none => exact helement _ (keeps_continueLine hown)
        | some b =>
            refine Keeps.ite (helement _ (keeps_breakTo hown _ _)) (Keeps.ite ?_ ?_)
            · refine (keeps_fits hc _ behind).bind fun _ => Keeps.ite ?_ ?_
              · exact helement _ (keeps_stay hown _)
              · exact helement _ (keeps_breakTo hown _ _)
            · exact helement _ (keeps_stay hown _)

theorem keeps_placeSplit (plan : SplitPlan) (broke : Bool) (i : Nat) (previous : Option Chunk)
    (p : Position) (tail : Int) : F.Keeps (placeSplit x cs plan broke i previous p tail) := by
  induction cs generalizing broke i previous p with
  | nil => exact Keeps.pure _
  | cons c cs ih =>
      obtain ⟨hfirst, hrest⟩ := List.forall_mem_cons.mp hplace
      obtain ⟨hc, hcs⟩ := List.forall_mem_cons.mp hcs
      have hown := hc c (Chunk.mem_walk c)
      rw [placeSplit_cons]
      refine Keeps.bind ?_ fun r => ih hrest hcs _ _ _ _
      rw [placeElement]
      refine (keeps_choose hc _ _ _ _ _ _).bind fun choice => ?_
      extract_lets wrapped anew again
      have hanew (q : Position) : F.Keeps (anew q) := (hfirst hc _ _).bind fun _ => Keeps.pure _
      have hagain (tried : Option Position) : F.Keeps (again tried) := by
        simp only [again]
        clear_value wrapped
        cases tried with
        | some q => exact Keeps.pure _
        | none =>
            cases wrapped with
            | none => exact (keeps_stay hown p).bind hanew
            | some indent => exact (keeps_breakTo hown indent p).bind hanew
      cases choice with
      | attempt => exact (keeps_attempt hown p fun q => hfirst hc q _).bind hagain
      | wrap | keep => exact hagain none

theorem keeps_placeOpening {o : Option Chunk} (h : o.toList = cs) (p : Position) :
    F.Keeps (placeOpening x o p) := by
  subst h
  cases o with
  | none => exact Keeps.pure _
  | some c =>
      have hown := hcs c (by simp)
      rw [placeOpening]
      exact (keeps_continueLine (hown c (Chunk.mem_walk c))).bind fun _ =>
        hplace c (by simp) hown p 0

theorem keeps_placeClosing {k : Option Chunk} (h : k.toList = cs) (startsLine : Bool)
    (p : Position) : F.Keeps (placeClosing x k startsLine p) := by
  subst h
  cases k with
  | none => exact Keeps.pure _
  | some c =>
      have hown := hcs c (by simp)
      have hmark := hown c (Chunk.mem_walk c)
      rw [placeClosing]
      refine Keeps.ite ?_ ?_
      · exact (keeps_breakTo hmark _ p).bind fun q => hplace c (by simp) hown q 0
      · exact (keeps_continueLine hmark).bind fun _ => hplace c (by simp) hown p 0

end Trees

/-- Placing a tree keeps to all frames that own it. -/
theorem keeps_place (c : Chunk) : F.KeepsPlace x c := by
  induction c using Chunk.byParts with
  | token t s =>
      intro _ p tail
      rw [place]
      exact keeps_step.bind fun _ => keeps_token s p
  | comment t s b =>
      intro hc p tail
      rw [place]
      exact keeps_step.bind fun _ => keeps_comment (hc _ (Chunk.mem_walk _)) b p
  | group t context breakFirst cs ih =>
      intro hc p tail
      have hcs : ∀ e ∈ cs, ∀ d ∈ e.walk, F.own d.traits.id := fun e he d hd =>
        hc d (Chunk.mem_walk_group he hd)
      have hsequence := keeps_placeSequence ih hcs p.line none p tail
      rw [place]
      refine keeps_step.bind fun _ => (keeps_policy context).bind fun policy => ?_
      refine Keeps.ite hsequence ((keeps_measure hc).bind fun m => Keeps.ite hsequence ?_)
      exact (keeps_placeSplit ih hcs _ false 0 none p tail).bind fun _ => Keeps.pure _
  | block t o k i cs iho ihk ih =>
      intro hc p tail
      obtain ⟨ho, hcs, hk⟩ := Chunk.forall_mem_walk_block hc
      rw [place]
      refine keeps_step.bind fun _ => (keeps_placeOpening iho ho rfl p).bind fun q => ?_
      exact (keeps_placeItems ih hcs _ q).bind fun q => keeps_placeClosing ihk hk rfl _ _

end TreeFrame

end Placing

end CodeLayout
