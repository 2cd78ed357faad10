import CodeLayout.Report
import Mathlib.Data.List.Forall2
import Mathlib.Data.Option.Defs

/-!
# Two runs side by side

Whether a result depends on something is a question about two runs. `Agree` compares two steps that
are run from states that correspond: their results correspond, and so do the states behind them.
`Agree.Fallible` does the same for steps that may meet a fault: either both meet the same one, or
neither does. There is one rule for each way of putting steps together.
-/

namespace CodeLayout

/-- Two steps that are run from corresponding states give corresponding results and end in
corresponding states. -/
def Agree {σ α β : Type} (same : σ → σ → Prop) (rel : α → β → Prop) (p : StateM σ α)
    (q : StateM σ β) : Prop :=
  ∀ s t, same s t → rel (p.run s).1 (q.run t).1 ∧ same (p.run s).2 (q.run t).2

/-- Two results that correspond: of two steps that meet no fault, or the same fault twice. -/
inductive Fault.Parallel {α β : Type} (rel : α → β → Prop) : Except Fault α → Except Fault β → Prop
  | ok {a : α} {b : β} (h : rel a b) : Parallel rel (.ok a) (.ok b)
  | error (fault : Fault) : Parallel rel (.error fault) (.error fault)

/-- What is made of two results that correspond, if neither is a fault. -/
theorem Fault.Parallel.of_map {α β γ δ : Type} {rel : α → β → Prop} {r : Except Fault α}
    {r' : Except Fault β} (h : Fault.Parallel rel r r') {f : α → γ} {g : β → δ} {c : γ} {d : δ}
    (hc : r.map f = .ok c) (hd : r'.map g = .ok d) : ∃ a b, rel a b ∧ c = f a ∧ d = g b := by
  cases h with
  | ok hab => exact ⟨_, _, hab, (Except.ok.inj hc).symm, (Except.ok.inj hd).symm⟩
  | error fault => cases hc

namespace Agree

section Steps

variable {σ α β γ δ ι κ : Type} {same : σ → σ → Prop} {rel : α → β → Prop}
  {res : γ → δ → Prop} {p p' : StateM σ α} {q q' : StateM σ β} {f : α → StateM σ γ}
  {g : β → StateM σ δ}

theorem pure {a : α} {b : β} (h : rel a b) :
    Agree same rel (Pure.pure a : StateM σ α) (Pure.pure b) :=
  fun _ _ hs => ⟨h, hs⟩

theorem bind (h : Agree same rel p q) (hf : ∀ a b, rel a b → Agree same res (f a) (g b)) :
    Agree same res (p >>= f) (q >>= g) := by
  intro s t hs
  obtain ⟨hrel, hsame⟩ := h s t hs
  exact hf _ _ hrel _ _ hsame

theorem map {f : α → γ} {g : β → δ} (h : Agree same rel p q)
    (hf : ∀ a b, rel a b → res (f a) (g b)) : Agree same res (f <$> p) (g <$> q) := by
  intro s t hs
  obtain ⟨hrel, hsame⟩ := h s t hs
  exact ⟨hf _ _ hrel, hsame⟩

theorem ite {c : Prop} [Decidable c] (hp : Agree same rel p q) (hp' : Agree same rel p' q') :
    Agree same rel (if c then p else p') (if c then q else q') := by
  split
  · exact hp
  · exact hp'

theorem foldlM {arg : ι → κ → Prop} {step : α → ι → StateM σ α} {step' : β → κ → StateM σ β}
    (hstep : ∀ a b i j, rel a b → arg i j → Agree same rel (step a i) (step' b j)) {is : List ι}
    {js : List κ} (hargs : List.Forall₂ arg is js) {a : α} {b : β} (hab : rel a b) :
    Agree same rel (is.foldlM step a) (js.foldlM step' b) := by
  induction hargs generalizing a b with
  | nil => exact pure hab
  | cons harg _ ih =>
      rw [List.foldlM_cons, List.foldlM_cons]
      exact (hstep _ _ _ _ hab harg).bind fun _ _ h => ih h

end Steps

/-- Two steps that may meet a fault and agree. -/
def Fallible {σ α β : Type} (same : σ → σ → Prop) (rel : α → β → Prop)
    (p : ExceptT Fault (StateM σ) α) (q : ExceptT Fault (StateM σ) β) : Prop :=
  Agree same (Fault.Parallel rel) p.run q.run

namespace Fallible

variable {σ α β γ δ : Type} {same : σ → σ → Prop} {rel : α → β → Prop} {res : γ → δ → Prop}
  {p p' : ExceptT Fault (StateM σ) α} {q q' : ExceptT Fault (StateM σ) β}
  {f : α → ExceptT Fault (StateM σ) γ} {g : β → ExceptT Fault (StateM σ) δ}

theorem pure {a : α} {b : β} (h : rel a b) :
    Fallible same rel (Pure.pure a) (Pure.pure b) :=
  Agree.pure (.ok h)

theorem throw (fault : Fault) :
    Fallible same rel (throw fault : ExceptT Fault (StateM σ) α) (throw fault) :=
  Agree.pure (.error fault)

/-- What follows two results that correspond: a fault ends both. -/
theorem cont {r : Except Fault α} {r' : Except Fault β} (h : Fault.Parallel rel r r')
    (hf : ∀ a b, rel a b → Fallible same res (f a) (g b)) :
    Agree same (Fault.Parallel res) (ExceptT.bindCont f r) (ExceptT.bindCont g r') := by
  cases h with
  | ok hab => exact hf _ _ hab
  | error fault => exact throw fault

theorem bind (h : Fallible same rel p q)
    (hf : ∀ a b, rel a b → Fallible same res (f a) (g b)) :
    Fallible same res (p >>= f) (q >>= g) :=
  Agree.bind h fun _ _ hboth => cont hboth hf

/-- Steps behind equal results. -/
theorem bind_eq {p q : ExceptT Fault (StateM σ) α} {f : α → ExceptT Fault (StateM σ) γ}
    {g : α → ExceptT Fault (StateM σ) δ} (h : Fallible same Eq p q)
    (hf : ∀ a, Fallible same res (f a) (g a)) : Fallible same res (p >>= f) (q >>= g) := by
  apply h.bind
  rintro a _ rfl
  exact hf a

theorem ite {c : Prop} [Decidable c] (hp : Fallible same rel p q)
    (hp' : Fallible same rel p' q') :
    Fallible same rel (if c then p else p') (if c then q else q') := by
  split
  · exact hp
  · exact hp'

/-- A choice whose results go on in the same way. -/
theorem bind_ite {c : Prop} [Decidable c] (hp : Fallible same rel p q)
    (hp' : Fallible same rel p' q') (hf : ∀ a b, rel a b → Fallible same res (f a) (g b)) :
    Fallible same res (if c then p >>= f else p' >>= f) (if c then q >>= g else q' >>= g) :=
  ite (hp.bind hf) (hp'.bind hf)

/-- A fault that is caught. -/
theorem tryCatch {handle : Fault → ExceptT Fault (StateM σ) α}
    {handle' : Fault → ExceptT Fault (StateM σ) β} (h : Fallible same rel p q)
    (hhandle : ∀ fault, Fallible same rel (handle fault) (handle' fault)) :
    Fallible same rel (tryCatch p handle) (tryCatch q handle') := by
  rw [Fallible, ExceptT.run_tryCatch, ExceptT.run_tryCatch]
  apply Agree.bind h
  intro _ _ hboth
  cases hboth with
  | ok hab => exact pure hab
  | error fault => exact hhandle fault

theorem get {f : σ → ExceptT Fault (StateM σ) γ} {g : σ → ExceptT Fault (StateM σ) δ}
    (h : ∀ s t, same s t → Fallible same res (f s) (g t)) :
    Fallible same res (MonadState.get >>= f) (MonadState.get >>= g) :=
  fun s t hs => h s t hs s t hs

theorem modify {change change' : σ → σ} (h : ∀ s t, same s t → same (change s) (change' t)) :
    Fallible same (fun _ _ => True) (modify change : ExceptT Fault (StateM σ) Unit)
      (modify change') :=
  fun s t hs => ⟨.ok trivial, h s t hs⟩

end Fallible

end Agree

end CodeLayout
