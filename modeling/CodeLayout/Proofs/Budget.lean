import CodeLayout.Proofs.Frame
import Mathlib.Tactic.Linarith

/-!
# The steps of laying out

A step is counted for each chunk that is placed, and an element on trial may be placed twice, at
every level. Once the budget is spent, no group is split any more: what is not yet placed is placed
once. So of the trials only those under way can still be run again, and they are nested in one
another, which bounds the steps by a square.
-/

namespace CodeLayout

namespace Chunk

/-- The number of chunks of a tree. -/
def size (c : Chunk) : Nat :=
  c.walk.length

/-- The number of chunks of several trees. -/
def sizeAll (cs : List Chunk) : Nat :=
  (walkList cs).length

variable {c : Chunk} {cs : List Chunk}

@[simp] theorem sizeAll_nil : sizeAll [] = 0 :=
  rfl

@[simp] theorem sizeAll_cons : sizeAll (c :: cs) = c.size + sizeAll cs := by
  simp [sizeAll, size, walkList]

theorem sizeAll_singleton : sizeAll [c] = c.size := by
  simp

theorem size_group (t : Traits) (context : WrapContext) (breakFirst : Bool) (cs : List Chunk) :
    (group t context breakFirst cs).size = 1 + sizeAll cs := by
  simp [size, sizeAll, walk, Nat.add_comm]

theorem size_block (t : Traits) (o k : Option Chunk) (i : Bool) (cs : List Chunk) :
    (block t o k i cs).size = 1 + (sizeAll o.toList + (sizeAll cs + sizeAll k.toList)) := by
  simp only [size, sizeAll, walk_block, List.length_cons, List.length_append]
  omega

theorem annotateList_snd {tabstop : Int}
    (h : ∀ c ∈ cs, ∀ n, (c.annotate tabstop n).2 = n + c.size) (n : Nat) :
    (annotateList tabstop n cs).2 = n + sizeAll cs := by
  induction cs generalizing n with
  | nil => rfl
  | cons c cs ih =>
      obtain ⟨hc, hcs⟩ := List.forall_mem_cons.mp h
      rw [annotateList, ih hcs, hc, sizeAll_cons, Nat.add_assoc]

/-- Numbering a tree takes a number for each of its chunks. -/
theorem annotate_snd (tabstop : Int) (c : Chunk) (n : Nat) :
    (c.annotate tabstop n).2 = n + c.size := by
  induction c using byParts generalizing n with
  | token t s => rfl
  | comment t s b => rfl
  | group t context breakFirst cs ih =>
      rw [annotate, annotateList_snd ih, size_group, Nat.add_assoc]
  | block t o k i cs iho ihk ih =>
      obtain ⟨o', k', cs', m, m', hopening, hitems, hclosing, -⟩ :=
        annotate_block tabstop n t o k i cs
      have ho := annotateList_snd iho (n + 1)
      have hcs := annotateList_snd ih m
      have hk := annotateList_snd ihk m'
      rw [hopening] at ho
      rw [hitems] at hcs
      rw [hclosing] at hk
      dsimp only at ho hcs hk
      rw [hk, hcs, ho, size_block]
      omega

theorem size_pos (c : Chunk) : 0 < c.size :=
  List.length_pos_of_ne_nil c.walk_ne_nil

end Chunk

namespace Placing

/-- How many steps are counted: at most `rest` if all of the budget is spent before, and else at
most `more` beyond the budget. -/
structure Spends {α : Type} (budget rest more : Nat) (m : Placing α) : Prop where
  le : ∀ s, s.steps ≤ (m.run s).2.steps
  spent : ∀ s, budget ≤ s.steps → (m.run s).2.steps ≤ s.steps + rest
  unspent : ∀ s, s.steps ≤ budget → (m.run s).2.steps ≤ budget + more

/-- The frame of what counts no steps. -/
def sameSteps : FaultFrame where
  own _ := True
  ok s s' := s'.steps = s.steps
  err s s' := s'.steps = s.steps
  refl _ := rfl
  trans h h' := h'.trans h
  throw _ := rfl
  fail h h' := h'.trans h
  mark _ _ _ := rfl
  keep _ _ _ := rfl
  trial _ _ := rfl
  record _ _ := rfl
  exhaust _ := rfl

variable {α β : Type} {x : LayoutContext} {budget rest rest' more more' : Nat} {m : Placing α}
  {k : α → Placing β} {c : Chunk} {cs : List Chunk}

/-- What is done without placing a chunk counts no steps. -/
theorem steps_of_keeps (h : sameSteps.Keeps m) (s : LayoutState) :
    (m.run s).2.steps = s.steps := by
  obtain ⟨hok, herr⟩ := h s
  cases hr : (m.run s).1 with
  | ok a => exact hok a hr
  | error fault => exact herr fault hr

/-- Behind a fault no more steps are counted. -/
theorem steps_bind (m : Placing α) (k : α → Placing β) (s : LayoutState) :
    ((m >>= k).run s).2.steps = (m.run s).2.steps ∨
      ∃ a, ((m >>= k).run s).2 = ((k a).run (m.run s).2).2 := by
  rw [run_bind]
  rcases m.run s with ⟨r, s'⟩
  cases r with
  | ok a => exact Or.inr ⟨a, rfl⟩
  | error fault => exact Or.inl rfl

namespace Spends

theorem of_keeps (h : sameSteps.Keeps m) : Spends budget 0 0 m :=
  ⟨fun s => Nat.le_of_eq (steps_of_keeps h s).symm, fun s _ => Nat.le_of_eq (steps_of_keeps h s),
    fun s hs => Nat.le_trans (Nat.le_of_eq (steps_of_keeps h s)) hs⟩

theorem mono (h : Spends budget rest more m) (hrest : rest ≤ rest') (hmore : more ≤ more') :
    Spends budget rest' more' m :=
  ⟨h.le, fun s hs => Nat.le_trans (h.spent s hs) (Nat.add_le_add_left hrest _),
    fun s hs => Nat.le_trans (h.unspent s hs) (Nat.add_le_add_left hmore _)⟩

/-- Steps behind others. The budget may be spent behind the first ones. -/
theorem bind (h : Spends budget rest more m) (hk : ∀ a, Spends budget rest' more' (k a)) :
    Spends budget (rest + rest') (max more' (more + rest')) (m >>= k) := by
  refine ⟨fun s => ?_, fun s hs => ?_, fun s hs => ?_⟩ <;>
    rcases steps_bind m k s with heq | ⟨a, heq⟩ <;> rw [heq]
  · exact h.le s
  · exact Nat.le_trans (h.le s) ((hk a).le _)
  · have hfirst := h.spent s hs
    omega
  · have hfirst := h.spent s hs
    have hrest := (hk a).spent _ (Nat.le_trans hs (h.le s))
    omega
  · have hfirst := h.unspent s hs
    omega
  · have hfirst := h.unspent s hs
    rcases Nat.le_total (m.run s).2.steps budget with hleft | hspent
    · have hrest := (hk a).unspent _ hleft
      omega
    · have hrest := (hk a).spent _ hspent
      omega

/-- Steps behind what counts none. -/
theorem after (h : sameSteps.Keeps m) (hk : ∀ a, Spends budget rest more (k a)) :
    Spends budget rest more (m >>= k) := by
  refine ⟨fun s => ?_, fun s hs => ?_, fun s hs => ?_⟩ <;>
    have hsame := steps_of_keeps h s <;>
    rcases steps_bind m k s with heq | ⟨a, heq⟩ <;> rw [heq]
  · exact Nat.le_of_eq hsame.symm
  · exact Nat.le_trans (Nat.le_of_eq hsame.symm) ((hk a).le _)
  · omega
  · have hrest := (hk a).spent _ (Nat.le_trans hs (Nat.le_of_eq hsame.symm))
    omega
  · omega
  · exact (hk a).unspent _ (Nat.le_trans (Nat.le_of_eq hsame) hs)

/-- Steps before what counts none. -/
theorem before (h : Spends budget rest more m) (hk : ∀ a, sameSteps.Keeps (k a)) :
    Spends budget rest more (m >>= k) :=
  (h.bind fun a => of_keeps (hk a)).mono (by omega) (by omega)

theorem ite {p : Prop} [Decidable p] {m' : Placing α} (h : Spends budget rest more m)
    (h' : Spends budget rest more m') : Spends budget rest more (if p then m else m') := by
  split
  · exact h
  · exact h'

end Spends

theorem spends_pure (a : α) : Spends budget 0 0 (pure a) :=
  Spends.of_keeps (Frame.Keeps.pure a)

theorem spends_step : Spends budget 1 1 step :=
  ⟨fun _ => Nat.le_succ _, fun _ _ => Nat.le_refl _, fun _ hs => Nat.succ_le_succ hs⟩

/-- What placing a chunk does once its step is counted. -/
def placeCounted (x : LayoutContext) (c : Chunk) (p : Position) (tail : Int) : Placing Position :=
  match c with
  | .token _ text => token x text p
  | .comment t text contents => comment x (.comment t text contents) contents p
  | .block _ opening closing indented items => placeBlock x opening closing indented items p
  | .group t context breakFirst children => do
    let policy ← policy x context
    if policy = .none then placeSequence x children p.line none p tail
    else
      let m ← measure (.group t context breakFirst children)
      if !policy.isForced && !m.hard && p.column + m.width + tail ≤ x.style.width then
        placeSequence x children p.line none p tail
      else
        let plan : SplitPlan := ⟨policy, wrapIndent x context policy p, breakFirst⟩
        let q ← placeSplit x children plan false 0 none p tail
        return { q with base := p.base }

theorem place_eq_step (c : Chunk) (p : Position) (tail : Int) :
    place x c p tail = step >>= fun _ => placeCounted x c p tail := by
  cases c with
  | token t s => rw [place, placeCounted]
  | comment t s b => rw [place, placeCounted]
  | group t context breakFirst cs => rw [place, placeCounted]
  | block t o k i cs => rw [place, placeCounted, placeBlock]

/-- Each placing of a chunk counts one step, before anything else is done. -/
theorem run_place (c : Chunk) (p : Position) (tail : Int) (s : LayoutState) :
    (place x c p tail).run s =
      (placeCounted x c p tail).run { s with steps := s.steps + 1 } := by
  rw [place_eq_step]
  rfl

/-- All other steps are counted by the parts: a leaf counts its own only. -/
theorem steps_place_leaf (h : c.isLeaf) (p : Position) (tail : Int) (s : LayoutState) :
    ((place x c p tail).run s).2.steps = s.steps + 1 := by
  rw [run_place]
  cases c with
  | token t text => exact steps_of_keeps (Frame.keeps_token text p) _
  | comment t text b => exact steps_of_keeps (FaultFrame.keeps_comment trivial b p) _
  | group t context breakFirst cs => exact absurd h Bool.false_ne_true
  | block t o k i cs => exact absurd h Bool.false_ne_true

theorem spends_guarded {p : Position} {place : Placing Position}
    (h : Spends budget rest more place) : Spends budget rest more (guarded x c p place) := by
  have hrun (s : LayoutState) :
      ((guarded x c p place).run s).2.steps = (place.run s).2.steps := by
    rw [run_guarded]
    rcases place.run s with ⟨r, s'⟩
    cases r with
    | ok q => rfl
    | error fault =>
        refine steps_of_keeps ?_ _
        exact (Frame.keeps_remark _ _).bind fun _ =>
          (Frame.keeps_flatten (fun _ _ => trivial) p.line).bind fun _ => Frame.Keeps.pure _
  exact ⟨fun s => (hrun s).symm ▸ h.le s, fun s hs => (hrun s).symm ▸ h.spent s hs,
    fun s hs => (hrun s).symm ▸ h.unspent s hs⟩

theorem spends_attempt {p : Position} {place : Position → Placing Position}
    (h : ∀ q, Spends budget rest more (place q)) : Spends budget rest more (attempt c p place) := by
  rw [attempt]
  refine Spends.after (Frame.Keeps.modify fun _ => rfl) fun _ => ?_
  refine Spends.after (Frame.keeps_stay trivial p) fun q => (h _).before fun q => ?_
  refine Frame.Keeps.get fun s => Frame.Keeps.bind (Frame.Keeps.modify fun _ => rfl) fun _ => ?_
  exact Frame.Keeps.ite (Frame.Keeps.pure _)
    ((Frame.keeps_modifyTrial _).bind fun _ => Frame.Keeps.pure _)

/-- A chunk is placed, and then the policy for it is looked up: once the budget is spent, there is
none. -/
theorem spends_policy {context : WrapContext} {k : Policy → Placing α}
    (hnone : Spends x.budget rest more (k .none))
    (hany : ∀ policy, Spends x.budget rest' more' (k policy)) :
    Spends x.budget (1 + rest) (max (1 + rest) more')
      (step >>= fun _ => policy x context >>= k) := by
  have hrun (s : LayoutState) : ∃ policy s', s'.steps = s.steps + 1 ∧
      ((step >>= fun _ => Placing.policy x context >>= k).run s).2 = ((k policy).run s').2 ∧
        (x.budget ≤ s.steps → policy = .none) := by
    have hstep : (step >>= fun _ => Placing.policy x context >>= k).run s =
        (Placing.policy x context >>= k).run { s with steps := s.steps + 1 } := rfl
    rw [hstep, run_bind, run_policy_ite]
    dsimp only
    split_ifs with hbudget hexhausted
    · exact ⟨.none, _, rfl, rfl, fun _ => rfl⟩
    · exact ⟨.none, _, rfl, rfl, fun _ => rfl⟩
    · exact ⟨_, _, rfl, rfl, fun h => absurd (Nat.lt_succ_of_le h) hbudget⟩
  refine ⟨fun s => ?_, fun s hs => ?_, fun s hs => ?_⟩ <;>
    obtain ⟨policy, s', hsteps, heq, hspent⟩ := hrun s <;> rw [heq]
  · have hle := (hany policy).le s'
    omega
  · have hle := hnone.spent s' (by omega)
    rw [hspent hs]
    omega
  · rcases Nat.lt_or_ge s.steps x.budget with hlt | hge
    · have hle := (hany policy).unspent s' (by omega)
      omega
    · have hle := hnone.spent s' (by omega)
      rw [hspent hge]
      omega

/-- Trees of a number of chunks that are placed one behind the other. -/
def SpendsAll (budget n : Nat) (m : Placing α) : Prop :=
  Spends budget n ((n + 1) ^ 2) m

theorem SpendsAll.nil (a : α) : SpendsAll budget 0 (pure a) :=
  (spends_pure a).mono (Nat.le_refl 0) (Nat.zero_le _)

theorem SpendsAll.append {n n' : Nat} (h : SpendsAll budget n m)
    (hk : ∀ a, SpendsAll budget n' (k a)) : SpendsAll budget (n + n') (m >>= k) := by
  refine (Spends.bind h hk).mono (Nat.le_refl _) (Nat.max_le.mpr ⟨?_, ?_⟩)
  · exact Nat.pow_le_pow_left (by omega) 2
  · nlinarith [Nat.zero_le (n * n')]

/-- What is to be shown of placing a tree. -/
def Bounded (x : LayoutContext) (c : Chunk) : Prop :=
  ∀ p tail, Spends x.budget c.size (c.size ^ 2) (place x c p tail)

theorem Bounded.all (h : Bounded x c) (p : Position) (tail : Int) :
    SpendsAll x.budget c.size (place x c p tail) :=
  (h p tail).mono (Nat.le_refl _) (Nat.pow_le_pow_left (Nat.le_succ _) 2)

/-- An element of a group that is split may be placed on trial and then once more. -/
theorem spends_placeElement (hc : Bounded x c) (plan : SplitPlan) (broke : Bool) (i : Nat)
    (previous : Option Chunk) (p : Position) (tail : Int) :
    Spends x.budget (c.size + c.size) (c.size ^ 2 + c.size)
      (placeElement x plan broke i previous c p tail) := by
  rw [placeElement]
  refine Spends.after (FaultFrame.keeps_choose (fun _ _ => trivial) _ _ _ _ _ _) fun choice => ?_
  extract_lets wrapped anew again
  have hanew (q : Position) : Spends x.budget c.size (c.size ^ 2) (anew q) :=
    (hc _ _).before fun _ => Frame.Keeps.pure _
  have hagain (tried : Option Position) : Spends x.budget c.size (c.size ^ 2) (again tried) := by
    simp only [again]
    clear_value wrapped
    cases tried with
    | some q => exact (spends_pure _).mono (Nat.zero_le _) (Nat.zero_le _)
    | none =>
        cases wrapped with
        | none => exact Spends.after (Frame.keeps_stay trivial p) hanew
        | some indent => exact Spends.after (Frame.keeps_breakTo trivial indent p) hanew
  cases choice with
  | attempt =>
      refine (Spends.bind (spends_attempt fun q => hc q _) hagain).mono (Nat.le_refl _) ?_
      exact Nat.max_le.mpr ⟨Nat.le_add_right _ _, Nat.le_refl _⟩
  | wrap | keep => exact (hagain none).mono (Nat.le_add_left _ _) (Nat.le_add_right _ _)

section Trees

variable (hcs : ∀ c ∈ cs, Bounded x c)
include hcs

theorem spends_placeItems (indent : Indent) (p : Position) :
    SpendsAll x.budget (Chunk.sizeAll cs) (placeItems x cs indent p) := by
  induction cs generalizing p with
  | nil => exact SpendsAll.nil p
  | cons c cs ih =>
      obtain ⟨hc, hcs⟩ := List.forall_mem_cons.mp hcs
      rw [placeItems, Chunk.sizeAll_cons]
      refine Spends.after (Frame.keeps_breakTo trivial indent p) fun q => ?_
      exact SpendsAll.append (spends_guarded (hc.all _ 0)) fun q => ih hcs q

theorem spends_placeSequence (start : Indent) (previous : Option Chunk) (p : Position)
    (tail : Int) :
    SpendsAll x.budget (Chunk.sizeAll cs) (placeSequence x cs start previous p tail) := by
  induction cs generalizing previous p with
  | nil => exact SpendsAll.nil p
  | cons c cs ih =>
      obtain ⟨hc, hcs⟩ := List.forall_mem_cons.mp hcs
      -- Each element is moved to its place in one of several ways, and all goes on alike.
      have helement {γ : Type} {move : Placing γ} {behind : γ → Position} (width : Int)
          (hmove : sameSteps.Keeps move) : SpendsAll x.budget (c.size + Chunk.sizeAll cs)
            (move >>= fun a => place x c (behind a) width >>= fun q =>
              placeSequence x cs start (some c) q tail) :=
        Spends.after hmove fun a => SpendsAll.append (hc.all _ _) fun q => ih hcs (some c) q
      rw [placeSequence, Chunk.sizeAll_cons]
      refine Spends.after (FaultFrame.keeps_tail (fun _ _ => trivial) tail 0) fun behind => ?_
      cases previous with
      | none => exact helement _ (Frame.keeps_continueLine trivial)
      | some b =>
          refine Spends.ite (helement _ (Frame.keeps_breakTo trivial _ _)) (Spends.ite ?_ ?_)
          · refine Spends.after (FaultFrame.keeps_fits (fun _ _ => trivial) _ behind) fun _ => ?_
            refine Spends.ite ?_ ?_
            · exact helement _ (Frame.keeps_stay trivial _)
            · exact helement _ (Frame.keeps_breakTo trivial _ _)
          · exact helement _ (Frame.keeps_stay trivial _)

theorem spends_placeSplit (plan : SplitPlan) (broke : Bool) (i : Nat) (previous : Option Chunk)
    (p : Position) (tail : Int) :
    Spends x.budget (2 * Chunk.sizeAll cs) ((Chunk.sizeAll cs + 1) ^ 2)
      (placeSplit x cs plan broke i previous p tail) := by
  induction cs generalizing broke i previous p with
  | nil => exact SpendsAll.nil p
  | cons c cs ih =>
      obtain ⟨hc, hcs⟩ := List.forall_mem_cons.mp hcs
      rw [placeSplit_cons, Chunk.sizeAll_cons]
      refine (Spends.bind (spends_placeElement hc _ _ _ _ _ _)
        fun r => ih hcs _ _ _ _).mono (by omega) (Nat.max_le.mpr ⟨?_, ?_⟩)
      · exact Nat.pow_le_pow_left (by omega) 2
      · nlinarith [Nat.zero_le (c.size * Chunk.sizeAll cs)]

theorem spends_placeOpening {o : Option Chunk} (h : o.toList = cs) (p : Position) :
    SpendsAll x.budget (Chunk.sizeAll cs) (placeOpening x o p) := by
  subst h
  cases o with
  | none => exact SpendsAll.nil p
  | some c =>
      rw [placeOpening, Option.toList_some, Chunk.sizeAll_singleton]
      exact Spends.after (Frame.keeps_continueLine trivial) fun _ => (hcs c (by simp)).all p 0

theorem spends_placeClosing {o : Option Chunk} (h : o.toList = cs) (startsLine : Bool)
    (p : Position) : SpendsAll x.budget (Chunk.sizeAll cs) (placeClosing x o startsLine p) := by
  subst h
  cases o with
  | none => exact SpendsAll.nil p
  | some c =>
      have hc := (hcs c (by simp)).all
      rw [placeClosing, Option.toList_some, Chunk.sizeAll_singleton]
      refine Spends.ite ?_ ?_
      · exact Spends.after (Frame.keeps_breakTo trivial _ p) fun q => hc q 0
      · exact Spends.after (Frame.keeps_continueLine trivial) fun _ => hc p 0

end Trees

theorem spends_placeBlock {t : Traits} {o k : Option Chunk} {i : Bool}
    (ho : ∀ c ∈ o.toList, Bounded x c) (hcs : ∀ c ∈ cs, Bounded x c)
    (hk : ∀ c ∈ k.toList, Bounded x c) (p : Position) :
    Spends x.budget ((Chunk.block t o k i cs).size - 1) ((Chunk.block t o k i cs).size ^ 2)
      (placeBlock x o k i cs p) := by
  rw [placeBlock, Chunk.size_block, Nat.add_sub_cancel_left, Nat.add_comm 1]
  refine SpendsAll.append (spends_placeOpening ho rfl p) fun q => ?_
  exact SpendsAll.append (spends_placeItems hcs _ q) fun q => spends_placeClosing hk rfl _ _

theorem bounded (c : Chunk) : Bounded x c := by
  induction c using Chunk.byParts with
  | token t s =>
      intro p tail
      rw [place_eq_step]
      exact spends_step.before fun _ => Frame.keeps_token s p
  | comment t s b =>
      intro p tail
      rw [place_eq_step]
      exact spends_step.before fun _ => FaultFrame.keeps_comment trivial b p
  | group t context breakFirst cs ih =>
      intro p tail
      have hsequence := spends_placeSequence ih p.line none p tail
      have hwhole (policy : Policy) (m : Measure) : Spends x.budget (2 * Chunk.sizeAll cs)
          ((Chunk.sizeAll cs + 1) ^ 2)
          (if !policy.isForced && !m.hard && p.column + m.width + tail ≤ x.style.width then
            placeSequence x cs p.line none p tail
          else placeSplit x cs ⟨policy, wrapIndent x context policy p, breakFirst⟩ false 0 none p
            tail >>= fun q => pure { q with base := p.base }) := by
        refine Spends.ite (hsequence.mono (by omega) (Nat.le_refl _)) ?_
        exact (spends_placeSplit ih _ false 0 none p tail).before fun _ => Frame.Keeps.pure _
      rw [place_eq_step, Chunk.size_group]
      have hany (policy : Policy) := Spends.ite (p := policy = .none)
        (hsequence.mono (by omega) (Nat.le_refl _))
        (Spends.after (FaultFrame.keeps_measure (c := .group t context breakFirst cs)
          fun _ _ => trivial) (hwhole policy))
      have hnone (m : Placing Position) : Spends x.budget (Chunk.sizeAll cs) _
          (if Policy.none = .none then placeSequence x cs p.line none p tail else m) := hsequence
      refine (spends_policy (hnone _) hany).mono (Nat.le_refl _) (Nat.max_le.mpr ⟨?_, ?_⟩)
      · exact Nat.le_self_pow (Nat.succ_ne_zero 1) _
      · rw [Nat.add_comm]
  | block t o k i cs iho ihk ih =>
      intro p tail
      have hblock := spends_placeBlock (t := t) (i := i) iho ih ihk p
      have hpos := (Chunk.block t o k i cs).size_pos
      rw [place_eq_step]
      refine (Spends.bind spends_step fun _ => hblock).mono (by omega) (Nat.max_le.mpr ⟨?_, ?_⟩)
      · exact Nat.le_refl _
      · rw [Nat.add_sub_of_le hpos]
        exact Nat.le_self_pow (Nat.succ_ne_zero 1) _

/-- Laying out a whole tree. The root itself is not placed. -/
theorem spends_root (c : Chunk) : Spends x.budget c.size (c.size ^ 2) (root x c) := by
  rw [root]
  refine Spends.after (Frame.keeps_continueLine trivial) fun _ => ?_
  cases c with
  | token t s => exact (spends_pure _).mono (Nat.zero_le _) (Nat.zero_le _)
  | comment t s b => exact (spends_pure _).mono (Nat.zero_le _) (Nat.zero_le _)
  | group t context breakFirst cs =>
      have hblock : Spends x.budget ((Chunk.block t none none false cs).size - 1)
          ((Chunk.block t none none false cs).size ^ 2)
          (placeBlock x none none false cs { fresh := true }) :=
        spends_placeBlock (by simp) (fun c _ => bounded c) (by simp) _
      have hsize : (Chunk.group t context breakFirst cs).size =
          (Chunk.block t none none false cs).size := by
        simp [Chunk.size_group, Chunk.size_block]
      rw [hsize]
      exact hblock.mono (Nat.sub_le _ _) (Nat.le_refl _)
  | block t o k i cs =>
      exact (spends_placeBlock (fun c _ => bounded c) (fun c _ => bounded c)
        (fun c _ => bounded c) _).mono (Nat.sub_le _ _) (Nat.le_refl _)

end Placing

namespace Layout

/-- Laying out a tree counts few steps beyond the budget. -/
theorem steps_ofChunk_le_budget (c : Chunk) (file : SourceFile) (style : Style) :
    (ofChunk c file style).steps ≤ budget c.size + c.size ^ 2 := by
  have hcount : (c.annotate style.tabSize 0).2 = c.size := by
    rw [Chunk.annotate_snd, Nat.zero_add]
  have hsize : (c.annotate style.tabSize 0).1.size = c.size := by
    have hids := congrArg List.length (Chunk.ids_annotate style.tabSize c 0).2
    rw [hcount] at hids
    simpa [Chunk.ids, Chunk.size] using hids
  have hroot := (Placing.spends_root (x := ⟨style, file, budget c.size⟩)
    (c.annotate style.tabSize 0).1).unspent { placements := Array.replicate c.size {} }
    (Nat.zero_le _)
  rw [hsize] at hroot
  simp only [ofChunk, hcount]
  exact hroot

/-- The budget bounds the work: laying out a tree of `n` chunks counts at most `32 n + 1025 + 2 n²`
steps, however the elements of its groups are tried. -/
theorem steps_ofChunk_le (c : Chunk) (file : SourceFile) (style : Style) :
    (ofChunk c file style).steps ≤ 32 * c.walk.length + 1025 + 2 * c.walk.length ^ 2 := by
  have hle : (ofChunk c file style).steps ≤
      32 * c.walk.length + 1024 + c.walk.length ^ 2 := steps_ofChunk_le_budget c file style
  omega

end Layout

end CodeLayout
