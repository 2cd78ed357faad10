import CodeLayout.Report

/-!
# Running a step to its end

Parsing and laying out are steps on a state that may meet a fault. `Yields` is total correctness: a
step that is run from a state meets no fault, and its result and last state satisfy a condition.
`Leads` is partial correctness: result and last state satisfy a condition unless the step meets a
fault. `Ensures` is the same where nothing is said of the last state. Each has one rule for each way
of putting steps together.
-/

namespace CodeLayout

/-- Running a step from a state meets no fault, and the result and the state behind it satisfy a
condition. -/
def Yields {σ α : Type} (p : ExceptT Fault (StateM σ) α) (s : σ) (post : α → σ → Prop) : Prop :=
  ∃ a s', p.run s = (Except.ok a, s') ∧ post a s'

namespace Yields

variable {σ α β : Type} {p q : ExceptT Fault (StateM σ) α} {f : α → ExceptT Fault (StateM σ) β}
  {s : σ} {mid mid' : α → σ → Prop} {post : β → σ → Prop}

theorem mono (h : Yields p s mid) (himp : ∀ a s', mid a s' → mid' a s') : Yields p s mid' := by
  obtain ⟨a, s', hrun, ha⟩ := h
  exact ⟨a, s', hrun, himp a s' ha⟩

/-- Running a step twice comes to the same. -/
theorem and (h : Yields p s mid) (h' : Yields p s mid') :
    Yields p s fun a s' => mid a s' ∧ mid' a s' := by
  obtain ⟨a, s', hrun, ha⟩ := h
  obtain ⟨b, s'', hrun', hb⟩ := h'
  rw [hrun] at hrun'
  obtain ⟨⟨rfl⟩, rfl⟩ := Prod.mk.inj hrun'
  exact ⟨a, s', hrun, ha, hb⟩

theorem pure {a : α} (h : mid a s) : Yields (Pure.pure a) s mid :=
  ⟨a, s, rfl, h⟩

theorem bind (h : Yields p s mid) (hf : ∀ a s', mid a s' → Yields (f a) s' post) :
    Yields (p >>= f) s post := by
  obtain ⟨a, s', hrun, ha⟩ := h
  obtain ⟨b, s'', hrun', hb⟩ := hf a s' ha
  refine ⟨b, s'', ?_, hb⟩
  change (match p.run s with | (r, s₁) => (ExceptT.bindCont f r) s₁) = _
  rw [hrun]
  exact hrun'

theorem ite {c : Prop} [Decidable c] (hp : c → Yields p s mid) (hq : ¬c → Yields q s mid) :
    Yields (if c then p else q) s mid := by
  by_cases hc : c
  · rw [if_pos hc]
    exact hp hc
  · rw [if_neg hc]
    exact hq hc

/-- A choice whose results go on in the same way. -/
theorem bind_ite {c : Prop} [Decidable c] (hp : c → Yields p s mid) (hq : ¬c → Yields q s mid)
    (hf : ∀ a s', mid a s' → Yields (f a) s' post) :
    Yields (if c then p >>= f else q >>= f) s post :=
  ite (fun h => (hp h).bind hf) fun h => (hq h).bind hf

/-- A step that only looks at the state. -/
theorem look {a : α} (hp : p.run s = (Except.ok a, s)) (h : Yields (f a) s post) :
    Yields (p >>= f) s post := by
  have hlook : Yields p s fun b s' => b = a ∧ s' = s := ⟨a, s, hp, rfl, rfl⟩
  refine hlook.bind ?_
  rintro _ _ ⟨rfl, rfl⟩
  exact h

theorem get {f : σ → ExceptT Fault (StateM σ) β} (h : Yields (f s) s post) :
    Yields (MonadState.get >>= f) s post :=
  look rfl h

theorem change {change : σ → σ} {f : Unit → ExceptT Fault (StateM σ) β}
    (h : Yields (f ()) (change s) post) : Yields (modify change >>= f) s post := by
  have hchange : Yields (modify change : ExceptT Fault (StateM σ) Unit) s
      fun _ s' => s' = change s := ⟨(), change s, rfl, rfl⟩
  refine hchange.bind ?_
  rintro _ _ rfl
  exact h

end Yields

/-- A step that is followed by others and meets no fault has run from its state to another one, and
the others from there. -/
theorem exists_of_run_bind {σ α β : Type} {p : ExceptT Fault (StateM σ) α}
    {f : α → ExceptT Fault (StateM σ) β} {s s' : σ} {b : β}
    (h : (p >>= f).run s = (Except.ok b, s')) :
    ∃ a s₁, p.run s = (Except.ok a, s₁) ∧ (f a).run s₁ = (Except.ok b, s') := by
  change (match p.run s with | (r, s₁) => (ExceptT.bindCont f r) s₁) = _ at h
  cases hp : p.run s with
  | mk r s₁ =>
      rw [hp] at h
      cases r with
      | error fault => cases (Prod.mk.inj h).1
      | ok a => exact ⟨a, s₁, rfl, h⟩

/-- If running a step from a state meets no fault, the result satisfies a condition. -/
def Ensures {σ α : Type} (p : ExceptT Fault (StateM σ) α) (s : σ) (post : α → Prop) : Prop :=
  ∀ a s', p.run s = (Except.ok a, s') → post a

namespace Ensures

variable {σ α β : Type} {p q : ExceptT Fault (StateM σ) α} {f : α → ExceptT Fault (StateM σ) β}
  {s : σ} {mid mid' : α → Prop} {post : β → Prop}

theorem mono (h : Ensures p s mid) (himp : ∀ a, mid a → mid' a) : Ensures p s mid' :=
  fun a s' hrun => himp a (h a s' hrun)

theorem pure {a : α} (h : mid a) : Ensures (Pure.pure a) s mid := by
  intro b s' hrun
  obtain ⟨⟨rfl⟩, rfl⟩ := Prod.mk.inj hrun
  exact h

theorem throw (fault : Fault) :
    Ensures (MonadExcept.throw fault : ExceptT Fault (StateM σ) α) s mid := by
  intro b s' hrun
  cases (Prod.mk.inj hrun).1

/-- What is run behind a step is run from the state behind it. -/
theorem bind_run (hf : ∀ a s', p.run s = (Except.ok a, s') → Ensures (f a) s' post) :
    Ensures (p >>= f) s post := by
  intro b s' hrun
  obtain ⟨a, s₁, hp, hf'⟩ := exists_of_run_bind hrun
  exact hf a s₁ hp b s' hf'

theorem bind (h : Ensures p s mid) (hf : ∀ a s', mid a → Ensures (f a) s' post) :
    Ensures (p >>= f) s post :=
  bind_run fun a s' hrun => hf a s' (h a s' hrun)

theorem ite {c : Prop} [Decidable c] (hp : c → Ensures p s mid) (hq : ¬c → Ensures q s mid) :
    Ensures (if c then p else q) s mid := by
  by_cases hc : c
  · rw [if_pos hc]
    exact hp hc
  · rw [if_neg hc]
    exact hq hc

/-- A choice whose results go on in the same way. -/
theorem bind_ite {c : Prop} [Decidable c] (hp : c → Ensures p s mid) (hq : ¬c → Ensures q s mid)
    (hf : ∀ a s', mid a → Ensures (f a) s' post) :
    Ensures (if c then p >>= f else q >>= f) s post :=
  ite (fun h => (hp h).bind hf) fun h => (hq h).bind hf

/-- A step that only looks at the state. -/
theorem look {a : α} (hp : p.run s = (Except.ok a, s)) (h : Ensures (f a) s post) :
    Ensures (p >>= f) s post := by
  refine bind_run fun b s₁ hrun => ?_
  rw [hp] at hrun
  obtain ⟨⟨rfl⟩, rfl⟩ := Prod.mk.inj hrun
  exact h

theorem get {f : σ → ExceptT Fault (StateM σ) β} (h : Ensures (f s) s post) :
    Ensures (MonadState.get >>= f) s post :=
  look rfl h

/-- A step that changes the state. -/
theorem change {change : σ → σ} {f : Unit → ExceptT Fault (StateM σ) β}
    (h : Ensures (f ()) (change s) post) : Ensures (modify change >>= f) s post :=
  h

end Ensures

/-- If running a step from a state meets no fault, the result and the state behind it satisfy a
condition. -/
def Leads {σ α : Type} (p : ExceptT Fault (StateM σ) α) (s : σ) (post : α → σ → Prop) : Prop :=
  ∀ a s', p.run s = (Except.ok a, s') → post a s'

namespace Leads

variable {σ α β : Type} {p q : ExceptT Fault (StateM σ) α} {f : α → ExceptT Fault (StateM σ) β}
  {s : σ} {mid mid' : α → σ → Prop} {post : β → σ → Prop}

theorem mono (h : Leads p s mid) (himp : ∀ a s', mid a s' → mid' a s') : Leads p s mid' :=
  fun a s' hrun => himp a s' (h a s' hrun)

/-- What is said of the result only. -/
theorem ensures {done : α → Prop} (h : Leads p s mid) (himp : ∀ a s', mid a s' → done a) :
    Ensures p s done :=
  fun a s' hrun => himp a s' (h a s' hrun)

/-- A result that satisfies a condition, whatever the state behind it is. -/
theorem of_ensures {done : α → Prop} (h : Ensures p s done) (himp : ∀ a s', done a → mid a s') :
    Leads p s mid :=
  fun a s' hrun => himp a s' (h a s' hrun)

theorem pure {a : α} (h : mid a s) : Leads (Pure.pure a) s mid := by
  intro b s' hrun
  obtain ⟨⟨rfl⟩, rfl⟩ := Prod.mk.inj hrun
  exact h

theorem throw (fault : Fault) :
    Leads (MonadExcept.throw fault : ExceptT Fault (StateM σ) α) s mid := by
  intro b s' hrun
  cases (Prod.mk.inj hrun).1

theorem bind (h : Leads p s mid) (hf : ∀ a s', mid a s' → Leads (f a) s' post) :
    Leads (p >>= f) s post := by
  intro b s' hrun
  obtain ⟨a, s₁, hp, hf'⟩ := exists_of_run_bind hrun
  exact hf a s₁ (h a s₁ hp) b s' hf'

theorem ite {c : Prop} [Decidable c] (hp : c → Leads p s mid) (hq : ¬c → Leads q s mid) :
    Leads (if c then p else q) s mid := by
  by_cases hc : c
  · rw [if_pos hc]
    exact hp hc
  · rw [if_neg hc]
    exact hq hc

/-- A choice whose results go on in the same way. -/
theorem bind_ite {c : Prop} [Decidable c] (hp : c → Leads p s mid) (hq : ¬c → Leads q s mid)
    (hf : ∀ a s', mid a s' → Leads (f a) s' post) :
    Leads (if c then p >>= f else q >>= f) s post :=
  ite (fun h => (hp h).bind hf) fun h => (hq h).bind hf

/-- A step that only looks at the state. -/
theorem look {a : α} (hp : p.run s = (Except.ok a, s)) (h : Leads (f a) s post) :
    Leads (p >>= f) s post := by
  have hlook : Leads p s fun b s' => b = a ∧ s' = s := fun b s' hrun => by
    rw [hp] at hrun
    obtain ⟨⟨rfl⟩, rfl⟩ := Prod.mk.inj hrun
    exact ⟨rfl, rfl⟩
  refine hlook.bind ?_
  rintro _ _ ⟨rfl, rfl⟩
  exact h

/-- A step that changes the state. -/
theorem change {change : σ → σ} {f : Unit → ExceptT Fault (StateM σ) β}
    (h : Leads (f ()) (change s) post) : Leads (modify change >>= f) s post :=
  h

end Leads

end CodeLayout
