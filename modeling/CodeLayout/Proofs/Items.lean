import CodeLayout.Proofs.Budget
import CodeLayout.Proofs.Lockstep

/-!
# The items of a block

The items of a block are laid out by themselves. What comes before an item leaves its chunks alone,
the trials under way and the position behind are settled again before it starts, and a fault in an
item does not get out of it. So two runs that lay out the same item, whatever stands around it, do
so in lockstep: the chunks of the item only have other numbers.
-/

namespace CodeLayout

namespace Chunk

/-- Whether a chunk is a group without a context, which takes no optional breaks. -/
def IsPlainGroup (c : Chunk) : Prop :=
  ∃ t breakFirst cs, c = .group t .plain breakFirst cs

theorem IsPlainGroup.relabel {c : Chunk} (h : c.IsPlainGroup) (ρ : Relabeling) :
    (c.relabel ρ).IsPlainGroup := by
  obtain ⟨t, breakFirst, cs, rfl⟩ := h
  exact ⟨ρ.traits t, breakFirst, cs.map (Chunk.relabel ρ), relabel_group ρ t .plain breakFirst cs⟩

theorem IsPlainGroup.annotate {c : Chunk} (h : c.IsPlainGroup) (tabstop : Int) (n : Nat) :
    (c.annotate tabstop n).1.IsPlainGroup := by
  obtain ⟨t, breakFirst, cs, rfl⟩ := h
  exact ⟨_, breakFirst, (annotateList tabstop (n + 1) cs).1, rfl⟩

section Numbers

variable {tabstop : Int} {d : Chunk} {cs ds : List Chunk} {n : Nat}

theorem annotateList_append (cs ds : List Chunk) (n : Nat) :
    (annotateList tabstop n (cs ++ ds)).1 = (annotateList tabstop n cs).1 ++
      (annotateList tabstop (n + sizeAll cs) ds).1 := by
  induction cs generalizing n with
  | nil => rfl
  | cons c cs ih =>
      simp only [List.cons_append, annotateList, ih, annotate_snd, sizeAll_cons, Nat.add_assoc]

theorem annotateList_cons (c : Chunk) (cs : List Chunk) (n : Nat) :
    (annotateList tabstop n (c :: cs)).1 =
      (c.annotate tabstop n).1 :: (annotateList tabstop (n + c.size) cs).1 := by
  rw [← annotate_snd tabstop]
  rfl

theorem length_annotateList (cs : List Chunk) (n : Nat) :
    (annotateList tabstop n cs).1.length = cs.length := by
  induction cs generalizing n with
  | nil => rfl
  | cons c cs ih => rw [annotateList_cons, List.length_cons, ih, List.length_cons]

theorem sizeAll_append (cs ds : List Chunk) : sizeAll (cs ++ ds) = sizeAll cs + sizeAll ds := by
  induction cs with
  | nil => simp
  | cons c cs ih => rw [List.cons_append, sizeAll_cons, sizeAll_cons, ih, Nat.add_assoc]

/-- The numbers that trees are given follow on each other. -/
theorem id_of_mem_annotateList (hd : d ∈ walkList (annotateList tabstop n cs).1) :
    n ≤ d.traits.id ∧ d.traits.id < n + sizeAll cs := by
  have hids := (ids_annotateList (fun (c : Chunk) (_ : c ∈ cs) => ids_annotate tabstop c) n).2
  have hmem : d.traits.id ∈ ids (walkList (annotateList tabstop n cs).1) := List.mem_map_of_mem hd
  rw [hids, annotateList_snd (fun c _ => annotate_snd tabstop c), List.mem_range'_1] at hmem
  omega

theorem id_of_mem_annotate {c : Chunk} (hd : d ∈ (c.annotate tabstop n).1.walk) :
    n ≤ d.traits.id ∧ d.traits.id < n + c.size := by
  have hmem : d ∈ walkList (annotateList tabstop n [c]).1 := by
    simpa [annotateList, walkList] using hd
  simpa using id_of_mem_annotateList hmem

end Numbers

end Chunk

namespace Placing

section Runs

variable {α β : Type} {m : Placing α} {k : α → Placing β} {a : α} {s : LayoutState}

theorem run_bind_ok (h : (m.run s).1 = .ok a) : (m >>= k).run s = (k a).run (m.run s).2 := by
  rw [run_bind]
  rcases hm : m.run s with ⟨r, s'⟩
  rw [hm] at h
  obtain rfl : r = .ok a := h
  rfl

theorem run_bind_error {fault : Fault} (h : (m.run s).1 = .error fault) :
    (m >>= k).run s = (.error fault, (m.run s).2) := by
  rw [run_bind]
  rcases hm : m.run s with ⟨r, s'⟩
  rw [hm] at h
  obtain rfl : r = .error fault := h
  rfl

/-- What is given back does not change the state. -/
theorem run_bind_pure (m : Placing α) (b : β) (s : LayoutState) :
    ((m >>= fun _ => pure b).run s).2 = (m.run s).2 := by
  rw [run_bind]
  rcases m.run s with ⟨r, s'⟩
  cases r <;> rfl

end Runs

section Faults

/-- The frame of what is no fault. -/
def faultless : Frame where
  own _ := True
  ok _ _ := True
  err _ _ := False
  refl _ := trivial
  trans _ _ := trivial
  fail _ h := h
  mark _ _ _ := trivial
  keep _ _ _ := trivial
  trial _ _ := trivial
  record _ _ := trivial
  exhaust _ := trivial

variable {α : Type} {m : Placing α} {x : LayoutContext} {c : Chunk}

theorem exists_ok_of_faultless (h : faultless.Keeps m) (s : LayoutState) :
    ∃ a, (m.run s).1 = .ok a := by
  obtain ⟨-, herr⟩ := h s
  cases hr : (m.run s).1 with
  | ok a => exact ⟨a, rfl⟩
  | error fault => exact (herr fault hr).elim

/-- No fault gets out of an item. -/
theorem faultless_guarded (p : Position) (place : Placing Position) :
    faultless.Keeps (guarded x c p place) := by
  refine fun s => ⟨fun _ _ => trivial, fun fault hfault => ?_⟩
  have hagain (problem : Problem) : faultless.Keeps (remark problem (spanOf x c) >>= fun _ =>
      flatten x p.line c >>= fun _ => pure { p with fresh := false }) :=
    (Frame.keeps_remark _ _).bind fun _ =>
      (Frame.keeps_flatten (fun _ _ => trivial) p.line).bind fun _ => Frame.Keeps.pure _
  rw [run_guarded] at hfault
  rcases hplace : place.run s with ⟨r, s'⟩
  rw [hplace] at hfault
  cases r with
  | ok q => cases hfault
  | error fault' => exact (hagain _ _).2 fault hfault

end Faults

section Items

variable (x : LayoutContext)

/-- Places an item of a block on a line of its own. -/
def placeItem (c : Chunk) (indent : Indent) (p : Position) : Placing Position :=
  breakTo x c indent p >>= fun q =>
    guarded x c { q with base := indent } (place x c { q with base := indent } 0)

variable {x} {c d : Chunk} {cs ds : List Chunk}

theorem placeItems_append (indent : Indent) (p : Position) :
    placeItems x (cs ++ ds) indent p = placeItems x cs indent p >>= placeItems x ds indent := by
  induction cs generalizing p with
  | nil =>
      rw [placeItems, pure_bind]
      rfl
  | cons c cs ih =>
      simp only [List.cons_append, placeItems, bind_assoc, ih]

theorem placeItems_cons (indent : Indent) (p : Position) :
    placeItems x (c :: cs) indent p = placeItem x c indent p >>= placeItems x cs indent := by
  rw [placeItem, bind_assoc, placeItems]

theorem faultless_placeItem (indent : Indent) (p : Position) :
    faultless.Keeps (placeItem x c indent p) :=
  (Frame.keeps_breakTo trivial indent p).bind fun _ => faultless_guarded _ _

theorem faultless_placeItems (indent : Indent) (p : Position) :
    faultless.Keeps (placeItems x cs indent p) := by
  induction cs generalizing p with
  | nil => exact Frame.Keeps.pure p
  | cons c cs ih =>
      rw [placeItems_cons]
      exact (faultless_placeItem indent p).bind fun q => ih q

/-- A plain group is a sequence whether or not the budget is spent. -/
theorem run_place_plain (t : Traits) (breakFirst : Bool) (cs : List Chunk) (p : Position)
    (tail : Int) (s : LayoutState) :
    (place x (.group t .plain breakFirst cs) p tail).run s =
      (placeSequence x cs p.line none p tail).run
        ((policy x .plain).run { s with steps := s.steps + 1 }).2 := by
  have hpolicy (s : LayoutState) : ((policy x .plain).run s).1 = .ok .none := by
    rw [run_policy_ite]
    split <;> rfl
  rw [place, run_bind_ok (a := ()) rfl, run_bind_ok (hpolicy _), if_pos rfl]
  rfl

/-- Where the sequence around an item started has no part in how the item is laid out. -/
theorem run_placeItem_snd (hc : c.IsPlainGroup) (indent : Indent) (p p' : Position)
    (s : LayoutState) :
    ((placeItem x c indent p).run s).2 = ((placeItem x c indent p').run s).2 := by
  obtain ⟨t, breakFirst, cs, rfl⟩ := hc
  -- The line of the item starts at a position that only keeps the head from before.
  let started (head : Indent) : Position := ⟨columnOf x indent, indent, indent, head, true⟩
  have hstart (p : Position) : (placeItem x (.group t .plain breakFirst cs) indent p).run s =
      (guarded x (.group t .plain breakFirst cs) (started p.head)
        (place x (.group t .plain breakFirst cs) (started p.head) 0)).run
          ((breakTo x (.group t .plain breakFirst cs) indent {}).run s).2 := rfl
  rw [hstart, hstart, run_guarded, run_guarded, run_place_plain, run_place_plain]
  cases cs with
  | nil => rfl
  | cons c cs =>
      have hsequence : placeSequence x (c :: cs) (started p.head).line none (started p.head) 0 =
          placeSequence x (c :: cs) (started p'.head).line none (started p'.head) 0 := by
        simp only [placeSequence, started]
      rw [hsequence]
      split
      · rfl
      · rw [← bind_assoc, run_bind_pure, ← bind_assoc, run_bind_pure]

end Items

section Aside

/-- Nothing is changed outside of the chunks that are laid out, and once a run has given up, this
stays so. -/
structure Aside (own : Nat → Prop) (s s' : LayoutState) : Prop where
  placement {id : Nat} : ¬ own id → s'.placements[id]? = s.placements[id]?
  lookup {id : Nat} : ¬ own id → s'.interrupted.lookup id = s.interrupted.lookup id
  exhausted : s.exhausted = true → s'.exhausted = true

namespace Aside

variable {own : Nat → Prop} {s s' s'' : LayoutState}

theorem refl (s : LayoutState) : Aside own s s :=
  ⟨fun _ => rfl, fun _ => rfl, id⟩

theorem trans (h : Aside own s s') (h' : Aside own s' s'') : Aside own s s'' :=
  ⟨fun hid => (h'.placement hid).trans (h.placement hid),
    fun hid => (h'.lookup hid).trans (h.lookup hid), fun hs => h'.exhausted (h.exhausted hs)⟩

end Aside

/-- The frame of laying out with chunks aside, which are not laid out. The trials under way are the
same behind it, and behind a fault none is lost. -/
def aside (own : Nat → Prop) : TreeFrame where
  own := own
  ok s s' := Aside own s s' ∧ s'.trials.length = s.trials.length
  err s s' := Aside own s s' ∧ s.trials.length ≤ s'.trials.length
  refl s := ⟨.refl s, rfl⟩
  trans h h' := ⟨h.1.trans h'.1, h'.2.trans h.2⟩
  throw s := ⟨.refl s, Nat.le_refl _⟩
  fail h h' := ⟨h.1.trans h'.1, Nat.le_trans (Nat.le_of_eq h.2.symm) h'.2⟩
  mark {id} s f hown := by
    refine ⟨⟨fun {id'} hid => ?_, fun _ => rfl, fun hs => hs⟩, rfl⟩
    rw [Array.getElem?_modify, if_neg fun heq : id = id' => hid (heq ▸ hown)]
  keep {id} s m hown := by
    refine ⟨⟨fun _ => rfl, fun {id'} hid => ?_, fun hs => hs⟩, rfl⟩
    rw [List.lookup_cons, beq_eq_false_iff_ne.mpr fun heq : id' = id => hid (heq ▸ hown)]
  trial u htrials := ⟨⟨fun _ => rfl, fun _ => rfl, fun hs => hs⟩, by rw [htrials]; rfl⟩
  record s d := ⟨⟨fun _ => rfl, fun _ => rfl, fun hs => hs⟩, rfl⟩
  exhaust s := ⟨⟨fun _ => rfl, fun _ => rfl, fun _ => rfl⟩, rfl⟩
  count s := ⟨⟨fun _ => rfl, fun _ => rfl, fun hs => hs⟩, rfl⟩
  tried h := ⟨⟨h.1.placement, h.1.lookup, h.1.exhausted⟩, by simp [h.2]⟩
  abort h := ⟨⟨h.1.placement, h.1.lookup, h.1.exhausted⟩, Nat.le_of_succ_le h.2⟩
  recover h := ⟨⟨h.1.placement, h.1.lookup, h.1.exhausted⟩, by
    rw [List.length_drop]
    have hle := h.2
    omega⟩

variable {α : Type} {m : Placing α} {own : Nat → Prop}

theorem aside_of_keeps (h : (aside own).Keeps m) (s : LayoutState) :
    Aside own s (m.run s).2 := by
  obtain ⟨hok, herr⟩ := h s
  cases hr : (m.run s).1 with
  | ok a => exact (hok a hr).1
  | error fault => exact (herr fault hr).1

end Aside

section Shifted

/-- Two states that are the same on as many chunks behind two numbers, and on the trials. -/
structure SameBehind (n n' len : Nat) (s t : LayoutState) : Prop where
  placement {i : Nat} : i < len → s.placements[n + i]? = t.placements[n' + i]?
  lookup {i : Nat} : i < len → s.interrupted.lookup (n + i) = t.interrupted.lookup (n' + i)
  trials : s.trials = t.trials

/-- Before an item is laid out, nothing is known of its chunks. -/
structure Fresh (n len : Nat) (s : LayoutState) : Prop where
  placement {i : Nat} : i < len → s.placements[n + i]? = some {}
  lookup {i : Nat} : i < len → s.interrupted.lookup (n + i) = none
  trials : s.trials = []

theorem Fresh.part {n len m : Nat} {s : LayoutState} (h : Fresh 0 m s) (hle : n + len ≤ m) :
    Fresh n len s := by
  have hlt {i : Nat} (hi : i < len) : n + i < m := by omega
  exact ⟨fun hi => Nat.zero_add (n + _) ▸ h.placement (hlt hi),
    fun hi => Nat.zero_add (n + _) ▸ h.lookup (hlt hi), h.trials⟩

theorem Fresh.same {n n' len : Nat} {s t : LayoutState} (h : Fresh n len s)
    (h' : Fresh n' len t) : SameBehind n n' len s t :=
  ⟨fun hi => (h.placement hi).trans (h'.placement hi).symm,
    fun hi => (h.lookup hi).trans (h'.lookup hi).symm, h.trials.trans h'.trials.symm⟩

/-- Laying out other chunks leaves an item fresh. -/
theorem Fresh.aside {n len : Nat} {own : Nat → Prop} {s s' : LayoutState} (h : Fresh n len s)
    (hown : ∀ i < len, ¬ own (n + i)) (hs : (aside own).ok s s') : Fresh n len s' := by
  obtain ⟨haside, htrials⟩ := hs
  refine ⟨fun hi => (haside.placement (hown _ hi)).trans (h.placement hi),
    fun hi => (haside.lookup (hown _ hi)).trans (h.lookup hi), ?_⟩
  rw [h.trials] at htrials
  exact List.eq_nil_of_length_eq_zero htrials

/-- A tree that is numbered from two numbers is laid out in lockstep by two runs that do not give
up. -/
def shifted (x y : LayoutContext) (hstyle : x.style = y.style) (n n' len : Nat) : Lockstep where
  left := .shift n
  right := .shift n'
  x := x
  y := y
  own t := t.id < len
  same := SameBehind n n' len
  lenient := true
  style := hstyle
  trials h := h.trials
  setTrials ts h := ⟨h.placement, h.lookup, rfl⟩
  record ds es h := ⟨h.placement, h.lookup, h.trials⟩
  count h := ⟨h.placement, h.lookup, h.trials⟩
  mark {s t τ} f hown h := by
    refine ⟨fun {i} hi => ?_, h.lookup, h.trials⟩
    simp only [Relabeling.shift, Array.getElem?_modify, h.placement hi, Nat.add_left_cancel_iff]
  lookup hown h := h.lookup hown
  keep {s t τ} m hown h := by
    refine ⟨h.placement, fun {i} hi => ?_, h.trials⟩
    simp only [Relabeling.shift, List.lookup_cons, h.lookup hi, beq_eq_decide,
      Nat.add_left_cancel_iff]
  policy {s t} context h := by
    rw [run_policy_ite, run_policy_ite, hstyle]
    by_cases hx : x.budget < s.steps
    · refine Or.inl ⟨rfl, Or.inl ?_⟩
      rw [if_pos hx]
      cases hs : s.exhausted <;> simp [hs]
    · by_cases hy : y.budget < t.steps
      · refine Or.inl ⟨rfl, Or.inr ?_⟩
        rw [if_pos hy]
        cases ht : t.exhausted <;> simp [ht]
      · rw [if_neg hx, if_neg hy]
        exact Or.inr ⟨rfl, h⟩

variable {x y : LayoutContext} {n n' : Nat} {s t : LayoutState} {c : Chunk}

theorem shift_zero : Relabeling.shift 0 = .none := by
  simp [Relabeling.shift, Relabeling.none]

/-- Two runs that lay out an item in lockstep. -/
theorem steps_placeItem {L : Lockstep} (hc : ∀ d ∈ c.walk, L.own d.traits) (indent : Indent)
    (p : Position) : L.Steps (placeItem L.x (c.relabel L.left) indent p)
      (placeItem L.y (c.relabel L.right) indent p) :=
  (Lockstep.steps_breakTo (hc c (Chunk.mem_walk c)) indent p).bind fun _ =>
    Lockstep.steps_guarded hc _ (Lockstep.steps_place c hc _ 0)

end Shifted

section Root

variable {x y : LayoutContext} {t t' : Traits} {o k k' : Option Chunk} {i : Bool} {c : Chunk}
  {cs before after before' after' : List Chunk} {own : Nat → Prop} {s s' : LayoutState}

/-- Lays out a block up to its items. -/
def openRoot (x : LayoutContext) (t : Traits) (o : Option Chunk) : Placing Position :=
  continueLine (.token t []) >>= fun _ => placeOpening x o { fresh := true }

theorem root_block (cs : List Chunk) : root x (.block t o k i cs) =
    openRoot x t o >>= fun q => placeItems x cs (itemIndent i {}) q >>= fun q =>
      placeClosing x k (closingStartsLine o cs) { q with base := {} } := by
  rw [root, openRoot, bind_assoc]
  rfl

theorem openRoot_congr (h : t.id = t'.id) : openRoot x t o = openRoot x t' o := by
  rw [openRoot, openRoot, continueLine, continueLine, setPlacement, setPlacement, Chunk.traits,
    Chunk.traits, h]

theorem keeps_openRoot {F : TreeFrame} (ht : F.own t.id)
    (ho : ∀ d ∈ Chunk.walkList o.toList, F.own d.traits.id) : F.Keeps (openRoot x t o) :=
  (Frame.keeps_continueLine ht).bind fun _ =>
    TreeFrame.keeps_placeOpening (fun c _ => TreeFrame.keeps_place c)
      (fun c hc d hd => ho d (Chunk.mem_walkList.mpr ⟨c, hc, hd⟩)) rfl _

/-- Two runs with the same opening lay it out in lockstep. -/
theorem steps_openRoot {L : Lockstep} (ht : L.own t)
    (ho : ∀ d ∈ Chunk.walkList o.toList, L.own d.traits) :
    L.Steps (openRoot L.x (L.left.traits t) (o.map (Chunk.relabel L.left)))
      (openRoot L.y (L.right.traits t) (o.map (Chunk.relabel L.right))) :=
  (Lockstep.steps_continueLine (c := .token t []) ht).bind fun _ =>
    Lockstep.steps_placeOpening (fun c _ => Lockstep.steps_place c)
      (fun c hc d hd => ho d (Chunk.mem_walkList.mpr ⟨c, hc, hd⟩)) rfl _

/-- Once the opening has given up, the whole run has. -/
theorem exhausted_root (h : ((openRoot x t o).run s).2.exhausted = true) :
    ((root x (.block t o k i cs)).run s).2.exhausted = true := by
  rw [root_block]
  refine Lockstep.exhausted_bind (fun q => Frame.Keeps.bind ?_ fun q => ?_) h
  · exact TreeFrame.keeps_placeItems (F := lasting) (fun c _ => TreeFrame.keeps_place c)
      (fun _ _ _ _ => trivial) _ q
  · exact TreeFrame.keeps_placeClosing (F := lasting) (fun c _ => TreeFrame.keeps_place c)
      (fun _ _ _ _ => trivial) rfl _ _

/-- The numbers before and behind those of an item. -/
def around (n len id : Nat) : Prop :=
  id < n ∨ n + len ≤ id

/-- An item of a root that is not yet laid out, behind the opening and among other items. -/
structure IsItem (n len : Nat) (t : Traits) (o k : Option Chunk) (before after : List Chunk)
    (s : LayoutState) : Prop where
  outer : t.id < n
  opening : ∀ d ∈ Chunk.walkList o.toList, d.traits.id < n
  before : ∀ d ∈ Chunk.walkList before, d.traits.id < n
  after : ∀ d ∈ Chunk.walkList after, n + len ≤ d.traits.id
  closing : ∀ d ∈ Chunk.walkList k.toList, n + len ≤ d.traits.id
  fresh : Fresh 0 (n + len) s

section Item

variable {n len : Nat} (h : IsItem n len t o k before after s)
include h

/-- An item of the root is laid out behind the others, unless the opening of the root is a fault. -/
theorem IsItem.run (c : Chunk) (i : Bool) :
    (∃ fault, ((openRoot x t o).run s).1 = .error fault ∧ ∀ j < len,
        ((root x (.block t o k i (before ++ c :: after))).run s).2.placements[n + j]? = some {}) ∨
      ∃ q p s₁, ((openRoot x t o).run s).1 = .ok q ∧ Fresh n len s₁ ∧
        Aside (around n len) ((placeItem x c (itemIndent i {}) p).run s₁).2
          ((root x (.block t o k i (before ++ c :: after))).run s).2 := by
  have hbelow {cs : List Chunk} (hcs : ∀ d ∈ Chunk.walkList cs, around n len d.traits.id) :
      ∀ c ∈ cs, ∀ d ∈ c.walk, (aside (around n len)).own d.traits.id := fun c hc d hd =>
    hcs d (Chunk.mem_walkList.mpr ⟨c, hc, hd⟩)
  have hitems {cs : List Chunk} (hcs : ∀ d ∈ Chunk.walkList cs, around n len d.traits.id)
      (p : Position) : (aside (around n len)).Keeps (placeItems x cs (itemIndent i {}) p) :=
    TreeFrame.keeps_placeItems (fun c _ => TreeFrame.keeps_place c) (hbelow hcs) _ p
  have hopen : (aside (around n len)).Keeps (openRoot x t o) :=
    keeps_openRoot (Or.inl h.outer) fun d hd => Or.inl (h.opening d hd)
  have hfresh : Fresh n len s := h.fresh.part (Nat.le_refl _)
  have hout (j : Nat) (hj : j < len) : ¬ around n len (n + j) := by
    rw [around]
    omega
  simp only [root_block, placeItems_append, placeItems_cons, bind_assoc]
  cases hopened : ((openRoot x t o).run s).1 with
  | error fault =>
      refine Or.inl ⟨fault, rfl, fun j hj => ?_⟩
      rw [run_bind_error hopened]
      exact ((aside_of_keeps hopen s).placement (hout j hj)).trans (hfresh.placement hj)
  | ok q =>
      have hfaultless : faultless.Keeps (placeItems x before (itemIndent i {}) q) :=
        faultless_placeItems _ q
      obtain ⟨p, hp⟩ := exists_ok_of_faultless hfaultless ((openRoot x t o).run s).2
      obtain ⟨r, hr⟩ := exists_ok_of_faultless
        (faultless_placeItem (x := x) (c := c) (itemIndent i {}) p)
        ((placeItems x before (itemIndent i {}) q).run ((openRoot x t o).run s).2).2
      have hbefore := hitems (fun d hd => Or.inl (h.before d hd)) q
      refine Or.inr ⟨q, p, _, rfl,
        (hfresh.aside hout ((hopen s).1 q hopened)).aside hout ((hbefore _).1 p hp), ?_⟩
      rw [run_bind_ok hopened, run_bind_ok hp, run_bind_ok hr]
      exact aside_of_keeps ((hitems (fun d hd => Or.inr (h.after d hd)) r).bind fun q =>
        TreeFrame.keeps_placeClosing (fun c _ => TreeFrame.keeps_place c)
          (hbelow fun d hd => Or.inr (h.closing d hd)) rfl _ _) _

end Item

/-- Two runs with the same opening lay out the same item in the same way. -/
theorem IsItem.placements_eq {n n' len : Nat} (h : IsItem n len t o k before after s)
    (h' : IsItem n' len t' o k' before' after' s') (hstyle : x.style = y.style)
    (hid : t.id = t'.id) (hplain : c.IsPlainGroup) (hc : ∀ d ∈ c.walk, d.traits.id < len)
    (hleft : ((root x (.block t o k i (before ++ c.relabel (.shift n) :: after))).run
      s).2.exhausted = false)
    (hright : ((root y (.block t' o k' i (before' ++ c.relabel (.shift n') :: after'))).run
      s').2.exhausted = false) {j : Nat} (hj : j < len) :
    ((root x (.block t o k i (before ++ c.relabel (.shift n) :: after))).run
        s).2.placements[n + j]? =
      ((root y (.block t' o k' i (before' ++ c.relabel (.shift n') :: after'))).run
        s').2.placements[n' + j]? := by
  have hopened : ((openRoot x t o).run s).1 = ((openRoot y t' o).run s').1 := by
    have hsame : SameBehind 0 0 (min n n') s s' :=
      (h.fresh.part (by omega)).same (h'.fresh.part (by omega))
    have hzero : o.map (Chunk.relabel (.shift 0)) = o := by
      rw [shift_zero, funext Chunk.relabel_none]
      exact Option.map_id_apply
    have hsteps : (shifted x y hstyle 0 0 (min n n')).Steps
        (openRoot x ((Relabeling.shift 0).traits t) (o.map (Chunk.relabel (.shift 0))))
        (openRoot y ((Relabeling.shift 0).traits t) (o.map (Chunk.relabel (.shift 0)))) :=
      steps_openRoot (Nat.lt_min.mpr ⟨h.outer, hid ▸ h'.outer⟩)
        fun d hd => Nat.lt_min.mpr ⟨h.opening d hd, h'.opening d hd⟩
    have hshift : ((Relabeling.shift 0).traits t).id = t.id := Nat.zero_add t.id
    rw [hzero, openRoot_congr (x := x) hshift, openRoot_congr (x := y) (hshift.trans hid)] at hsteps
    rcases hsteps.run hsame with ⟨-, hgone | hgone⟩ | ⟨heq, -⟩
    · cases (exhausted_root hgone).symm.trans hleft
    · cases (exhausted_root hgone).symm.trans hright
    · exact heq
  rcases h.run (x := x) (c.relabel (.shift n)) i with
      ⟨fault, herr, hfresh⟩ | ⟨q, p, s₁, hok, hs₁, haside⟩ <;>
    rcases h'.run (x := y) (c.relabel (.shift n')) i with
      ⟨fault', herr', hfresh'⟩ | ⟨q', p', s₁', hok', hs₁', haside'⟩
  case inl.inl => exact (hfresh j hj).trans (hfresh' j hj).symm
  case inl.inr => cases (herr.symm.trans hopened).trans hok'
  case inr.inl => cases (hok.symm.trans hopened).trans herr'
  case inr.inr =>
    have hout (m : Nat) : ¬ around m len (m + j) := by
      rw [around]
      omega
    have hsteps := (steps_placeItem (L := shifted x y hstyle n n' len) hc (itemIndent i {}) p).run
      (hs₁.same hs₁')
    rw [haside.placement (hout n), haside'.placement (hout n'),
      run_placeItem_snd (hplain.relabel (.shift n')) (itemIndent i {}) p' p]
    rcases hsteps with ⟨-, hgone | hgone⟩ | ⟨-, hsame⟩
    · cases (haside.exhausted hgone).symm.trans hleft
    · rw [run_placeItem_snd (hplain.relabel (.shift n')) _ p' p] at haside'
      cases (haside'.exhausted hgone).symm.trans hright
    · exact hsame.placement hj

end Root

section Report

/-- Whether it is recorded that a run has given up, if it has. -/
def Known (s : LayoutState) : Prop :=
  s.exhausted = true → ∃ d ∈ s.recorded, ∃ steps, d.problem = .gaveUp steps

/-- That a run gives up is recorded. -/
def recording : TreeFrame where
  own _ := True
  ok s s' := Known s → Known s'
  err s s' := Known s → Known s'
  refl _ := id
  trans h h' hs := h' (h hs)
  throw _ := id
  fail h h' hs := h' (h hs)
  mark _ _ _ := id
  keep _ _ _ := id
  trial _ _ := id
  record s e hs hgone := by
    obtain ⟨d, hd, hproblem⟩ := hs hgone
    exact ⟨d, List.mem_cons_of_mem e hd, hproblem⟩
  exhaust s _ _ := ⟨_, List.mem_cons_self, s.steps, rfl⟩
  count _ := id
  tried h := h
  abort h := h
  recover h := h

variable {x : LayoutContext} {t : Traits} {o k : Option Chunk} {i : Bool} {cs : List Chunk}

/-- A run whose report does not say that it has given up has not. -/
theorem exhausted_root_eq_false {s : LayoutState} (hs : s.exhausted = false)
    (h : ∀ d ∈ ((root x (.block t o k i cs)).run s).2.recorded, ∀ steps,
      d.problem ≠ .gaveUp steps) :
    ((root x (.block t o k i cs)).run s).2.exhausted = false := by
  have hbelow {ds : List Chunk} : ∀ c ∈ ds, ∀ d ∈ c.walk, recording.own d.traits.id :=
    fun _ _ _ _ => trivial
  have hkeeps : recording.Keeps (root x (.block t o k i cs)) := by
    rw [root_block]
    refine (keeps_openRoot trivial fun _ _ => trivial).bind fun q => Frame.Keeps.bind ?_ fun q => ?_
    · exact TreeFrame.keeps_placeItems (fun c _ => TreeFrame.keeps_place c) hbelow _ q
    · exact TreeFrame.keeps_placeClosing (fun c _ => TreeFrame.keeps_place c) hbelow rfl _ _
  have hknown : Known ((root x (.block t o k i cs)).run s).2 := by
    have hstart : Known s := fun hgone => absurd (hs.symm.trans hgone) nofun
    obtain ⟨hok, herr⟩ := hkeeps s
    cases hr : ((root x (.block t o k i cs)).run s).1 with
    | ok a => exact hok a hr hstart
    | error fault => exact herr fault hr hstart
  refine Bool.eq_false_iff.mpr fun hgone => ?_
  obtain ⟨d, hd, steps, hproblem⟩ := hknown hgone
  exact h d hd steps hproblem

end Report

end Placing

section Blocks

open Placing

/-- Whether laying out gave up because the budget was spent. -/
def LaidOut.gaveUp (l : LaidOut) : Bool :=
  l.report.any fun d => d.problem matches .gaveUp _

namespace Layout

/-- Where the chunks of each item of a block go, in the order of the output. -/
def itemPlacements (l : Layout) : List (List Placement) :=
  l.chunk.items.map fun c => c.walk.map l.placement

theorem length_itemPlacements (t : Traits) (o k : Option Chunk) (i : Bool) (items : List Chunk)
    (file : SourceFile) (style : Style) :
    (ofChunk (.block t o k i items) file style).layout.itemPlacements.length = items.length := by
  obtain ⟨o', k', cs, m, m', -, hitems, -, heq⟩ :=
    Chunk.annotate_block style.tabSize 0 t o k i items
  have hcs : (Chunk.annotateList style.tabSize m items).1.length = items.length :=
    Chunk.length_annotateList items m
  rw [hitems] at hcs
  rw [itemPlacements, List.length_map, ofChunk]
  change ((Chunk.block t o k i items).annotate style.tabSize 0).1.items.length = _
  rw [heq, Chunk.items, hcs]

/-- An item of a block whose chunks are numbered. -/
theorem exists_isItem (tabstop : Int) (t : Traits) (o k : Option Chunk) (i : Bool)
    (before after : List Chunk) (c : Chunk) {b : Chunk} {count : Nat}
    (h : (Chunk.block t o k i (before ++ c :: after)).annotate tabstop 0 = (b, count)) :
    ∃ n t' o' k' cs ds,
      b = .block t' o' k' i (cs ++ (c.annotate tabstop 0).1.relabel (.shift n) :: ds) ∧
      cs.length = before.length ∧ t'.id = 0 ∧
      o' = (Chunk.annotateList tabstop 1 o.toList).1.head? ∧
      IsItem n c.size t' o' k' cs ds { placements := Array.replicate count {} } := by
  obtain ⟨o', k', cs, m, m', hopening, hitems, hclosing, heq⟩ :=
    Chunk.annotate_block tabstop 0 t o k i (before ++ c :: after)
  rw [h] at hclosing heq
  have hsize (n : Nat) (cs : List Chunk) :
      (Chunk.annotateList tabstop n cs).2 = n + Chunk.sizeAll cs :=
    Chunk.annotateList_snd (fun c _ => Chunk.annotate_snd tabstop c) n
  have hm : m = 1 + Chunk.sizeAll o.toList := by
    rw [← hsize, ← Nat.zero_add 1, hopening]
  have hm' : m' = m + Chunk.sizeAll before + c.size + Chunk.sizeAll after := by
    have hall := hsize m (before ++ c :: after)
    rw [hitems, Chunk.sizeAll_append, Chunk.sizeAll_cons] at hall
    omega
  have hcount : count = m' + Chunk.sizeAll k.toList := by
    rw [← hsize, hclosing]
  have hcs := congrArg Prod.fst hitems
  rw [Chunk.annotateList_append, Chunk.annotateList_cons,
    ← Nat.add_zero (m + Chunk.sizeAll before), Chunk.annotate_add, Nat.add_zero] at hcs
  refine ⟨m + Chunk.sizeAll before, _, o', k', _, _,
    heq.trans (congrArg (Chunk.block _ o' k' i) hcs.symm),
    Chunk.length_annotateList before m, rfl, ?_, ?_⟩
  · rw [← Nat.zero_add 1, hopening, Option.head?_toList]
  have hnumbers {n : Nat} {cs ds : List Chunk} {d : Chunk}
      (heq : ds = (Chunk.annotateList tabstop n cs).1) (hd : d ∈ Chunk.walkList ds) :
      n ≤ d.traits.id ∧ d.traits.id < n + Chunk.sizeAll cs :=
    Chunk.id_of_mem_annotateList (heq ▸ hd)
  refine ⟨?_, fun d hd => ?_, fun d hd => ?_, fun d hd => ?_, fun d hd => ?_, ?_⟩
  · change 0 < m + _
    omega
  · have hlt := (hnumbers (congrArg Prod.fst hopening).symm hd).2
    omega
  · exact (hnumbers rfl hd).2
  · exact (hnumbers rfl hd).1
  · have hle := (hnumbers (congrArg Prod.fst hclosing).symm hd).1
    omega
  · refine ⟨fun {j} hj => ?_, fun _ => rfl, rfl⟩
    rw [Array.getElem?_replicate, if_pos (by omega)]

/-- The layout of an item of a block in terms of the run. -/
theorem exists_run_item (t : Traits) (o k : Option Chunk) (i : Bool) (before after : List Chunk)
    (c : Chunk) (file : SourceFile) (style : Style)
    (h : (ofChunk (.block t o k i (before ++ c :: after)) file style).gaveUp = false) :
    ∃ (x : LayoutContext) (s : LayoutState) (n : Nat) (t' : Traits) (o' k' : Option Chunk)
      (cs ds : List Chunk),
      let s' := ((root x (.block t' o' k' i
        (cs ++ (c.annotate style.tabSize 0).1.relabel (.shift n) :: ds))).run s).2
      x.style = style ∧ t'.id = 0 ∧
      o' = (Chunk.annotateList style.tabSize 1 o.toList).1.head? ∧
      IsItem n c.size t' o' k' cs ds s ∧ s'.exhausted = false ∧
      (ofChunk (.block t o k i (before ++ c :: after)) file style).layout.itemPlacements[
          before.length]? = some ((c.annotate style.tabSize 0).1.walk.map fun d =>
            s'.placements[n + d.traits.id]?.getD {}) := by
  rcases hb : (Chunk.block t o k i (before ++ c :: after)).annotate style.tabSize 0 with ⟨b, count⟩
  obtain ⟨n, t', o', k', cs, ds, rfl, hlength, hid, ho, hitem⟩ :=
    exists_isItem style.tabSize t o k i before after c hb
  refine ⟨⟨style, file, budget count⟩, { placements := Array.replicate count {} }, n, t', o',
    k', cs, ds, rfl, hid, ho, hitem, ?_, ?_⟩
  · refine exhausted_root_eq_false rfl fun d hd steps hproblem => ?_
    have hreport : d ∈ (ofChunk (.block t o k i (before ++ c :: after)) file style).report := by
      rw [ofChunk, hb]
      exact List.mem_reverse.mpr hd
    have hnever := List.any_eq_false.mp h d hreport
    rw [hproblem] at hnever
    exact hnever rfl
  · rw [itemPlacements, List.getElem?_map, ofChunk, hb]
    let own := (c.annotate style.tabSize 0).1.relabel (.shift n)
    change ((cs ++ own :: ds)[before.length]?).map _ = _
    rw [← hlength, List.getElem?_append_right (Nat.le_refl _), Nat.sub_self,
      List.getElem?_cons_zero, Option.map_some, Chunk.walk_relabel, List.map_map]
    refine congrArg some (List.map_congr_left fun d _ => ?_)
    rw [Function.comp, placement, Chunk.traits_relabel, Array.getD_eq_getD_getElem?]
    rfl

/-- An item is laid out in the same way behind the same opening, whatever is around it. -/
theorem itemPlacements_eq (t : Traits) (o k k' : Option Chunk) (i : Bool)
    (before after before' after' : List Chunk) {c : Chunk} (hc : c.IsPlainGroup)
    (file file' : SourceFile) (style : Style)
    (hleft : (ofChunk (.block t o k i (before ++ c :: after)) file style).gaveUp = false)
    (hright : (ofChunk (.block t o k' i (before' ++ c :: after')) file' style).gaveUp = false) :
    (ofChunk (.block t o k i (before ++ c :: after)) file style).layout.itemPlacements[
        before.length]? =
      (ofChunk (.block t o k' i (before' ++ c :: after')) file' style).layout.itemPlacements[
        before'.length]? := by
  obtain ⟨x, s, n, t₁, o₁, k₁, cs, ds, hx, hid, ho, hitem, hgone, heq⟩ :=
    exists_run_item t o k i before after c file style hleft
  obtain ⟨y, s', n', t₂, o₂, k₂, cs', ds', hy, hid', ho', hitem', hgone', heq'⟩ :=
    exists_run_item t o k' i before' after' c file' style hright
  obtain rfl : o₁ = o₂ := ho.trans ho'.symm
  rw [heq, heq']
  refine congrArg some (List.map_congr_left fun d hd => ?_)
  have hlt {d : Chunk} (hd : d ∈ (c.annotate style.tabSize 0).1.walk) : d.traits.id < c.size :=
    Nat.zero_add c.size ▸ (Chunk.id_of_mem_annotate hd).2
  rw [hitem.placements_eq hitem' (hx.trans hy.symm) (hid.trans hid'.symm)
    (hc.annotate style.tabSize 0) (fun d hd => hlt hd) hgone hgone' (hlt hd)]

/-- The items of a block are laid out by themselves, and a fault in one of them stays there: the
chunks of all other items go to the same places whatever the item is, as long as the budget
lasts. -/
theorem ofChunk_items_independent (t : Traits) (opening closing : Option Chunk) (indented : Bool)
    {items : List Chunk} (hitems : ∀ c ∈ items, c.IsPlainGroup) (file file' : SourceFile)
    (style : Style) (n : Nat) (item : Chunk)
    (hleft : (ofChunk (.block t opening closing indented items) file style).gaveUp = false)
    (hright : (ofChunk (.block t opening closing indented (items.set n item)) file'
      style).gaveUp = false) {j : Nat} (hj : j ≠ n) :
    (ofChunk (.block t opening closing indented items) file style).layout.itemPlacements[j]? =
      (ofChunk (.block t opening closing indented (items.set n item)) file'
        style).layout.itemPlacements[j]? := by
  by_cases hlt : j < items.length
  · have hset : j < (items.set n item).length := by rwa [List.length_set]
    have hsplit {cs : List Chunk} (h : j < cs.length) :
        cs = cs.take j ++ cs[j] :: cs.drop (j + 1) := by simp
    have heq := itemPlacements_eq t opening closing closing indented (items.take j)
      (items.drop (j + 1)) ((items.set n item).take j) ((items.set n item).drop (j + 1))
      (hitems items[j] (List.getElem_mem hlt)) file file' style
    rw [← hsplit hlt, ← List.getElem_set_ne hj.symm hset, ← hsplit hset,
      List.length_take_of_le (Nat.le_of_lt hlt), List.length_take_of_le (Nat.le_of_lt hset)] at heq
    exact heq hleft hright
  · rw [List.getElem?_eq_none, List.getElem?_eq_none]
    · rw [length_itemPlacements, List.length_set]
      exact Nat.not_lt.mp hlt
    · rw [length_itemPlacements]
      exact Nat.not_lt.mp hlt

/-- A call with three arguments. -/
def brokenCall : Chunk :=
  .seq [.token {} (ascii "call("),
    .ofElements .invocationArguments
      [.token {} (ascii "aaaaaa,"), .token { space := true } (ascii "bbbbbb,"),
        .token { space := true } (ascii "cccccc")],
    .token {} (ascii ");")]

/-- A block with a comment without contents in its second item. -/
def brokenItems : List Chunk :=
  [.seq [.token {} (ascii "first();")],
    .seq [.token {} (ascii "b"), .comment { space := true } (ascii "/* x */") none,
      .token {} (ascii ";")],
    brokenCall]

theorem brokenItems_isPlainGroup : ∀ c ∈ brokenItems, c.IsPlainGroup := by
  simp [brokenItems, brokenCall, Chunk.seq, Chunk.ofElements, Chunk.IsPlainGroup]

/-- A fault in the second item does not touch the call behind it, whose last argument still starts
a line. -/
theorem ofChunk_items_independent_fault :
    let style : Style := { Style.default with pageWidth := 20 }
    let file : SourceFile := ⟨ascii "test.java", []⟩
    let broken := ofChunk (.block {} none none false brokenItems) file style
    let whole := ofChunk (.block {} none none false (brokenItems.set 1 (.seq []))) file style
    broken.report.map (fun d => d.problem) = [.recovered (ascii "wrapping lines") .missing] ∧
      whole.report = [] ∧
      broken.layout.itemPlacements[2]? = whole.layout.itemPlacements[2]? ∧
      (broken.layout.itemPlacements[2]?.map fun places => places.map fun p => p.newLine) =
        some [true, false, false, false, false, true, false] := by
  intro style file broken whole
  have hbroken : broken.report.map (fun d => d.problem) =
      [.recovered (ascii "wrapping lines") .missing] := by decide +kernel
  have hwhole : whole.report = [] := by decide +kernel
  refine ⟨hbroken, hwhole, ?_, by decide +kernel⟩
  exact ofChunk_items_independent {} none none false brokenItems_isPlainGroup file file style 1
    (.seq []) (by decide +kernel) (by decide +kernel) (by decide)

end Layout

end Blocks

end CodeLayout
