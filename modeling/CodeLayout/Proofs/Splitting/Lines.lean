import CodeLayout.Layout.Resolve
import CodeLayout.Proofs.Quiet
import CodeLayout.Proofs.Total

/-!
# The lines of a split

A group is split by deciding on its elements one after the other. `splitting` places them in the
same way, and also gives the decisions on them with all that they depend on.

Whether a chunk starts a line is settled when it is moved to its place, and by no other step:
placing a tree settles it for the chunks below the root only. So when a group has been split, the
elements start lines exactly as was decided.
-/

namespace CodeLayout.Placing

/-- A decision on an element of a group that is split. -/
structure Decision where
  /-- The number of elements before the element. -/
  index : Nat
  previous : Option Chunk
  chunk : Chunk
  /-- The position before the element and the space before it. -/
  position : Position
  /-- The width that must follow the element on its last line. -/
  tail : Int
  /-- Whether the element stays on the line. -/
  kept : Bool

namespace Decision

variable (d : Decision)

/-- Whether a line break is demanded before the element. -/
def isDemanded : Bool :=
  (d.previous.map fun b => b.endsHard || d.chunk.startsHard).getD false

/-- The room that the element takes. -/
def measure : Measure :=
  d.chunk.traits.measure.getD {}

/-- Whether the element has a space before it if it is kept. -/
def isSpaced : Bool :=
  !d.position.fresh && 0 < d.measure.width && d.chunk.isSpaced

end Decision

variable (x : LayoutContext)

/-- Places an element of a group that is split. The first result tells whether it was kept. -/
def placeElement (plan : SplitPlan) (broke : Bool) (i : Nat) (previous : Option Chunk) (c : Chunk)
    (p : Position) (tail : Int) : Placing (Bool × Position) := do
  let choice ← choose x plan broke i previous c p tail
  let tried ←
    match choice with
    | .attempt => attempt c p fun q => place x c q tail
    | _ => pure none
  match tried with
  | some q => return (true, q)
  | none =>
    let wrapped := (Choice.indent? plan choice).filter fun _ => !(i = 0 && p.fresh)
    let q ←
      match wrapped with
      | some indent => breakTo x c indent p
      | none => stay c p
    let q ← place x c { q with base := q.line } tail
    return (wrapped.isNone, q)

/-- Places the elements of a group that is split, from the `i`-th on, and gives the decisions on
them. -/
def splitting (plan : SplitPlan) (broke : Bool) (i : Nat) (previous : Option Chunk) (p : Position)
    (tail : Int) : List Chunk → Placing (Position × List Decision)
  | [] => return (p, [])
  | c :: cs => do
    let behind := if cs.isEmpty then tail else 0
    let (kept, q) ← placeElement x plan broke i previous c p behind
    let (r, ds) ← splitting plan (broke || !kept) (i + 1) (some c) q tail cs
    return (r, ⟨i, previous, c, p, behind, kept⟩ :: ds)

theorem placeSplit_cons (c : Chunk) (cs : List Chunk) (plan : SplitPlan) (broke : Bool) (i : Nat)
    (previous : Option Chunk) (p : Position) (tail : Int) :
    placeSplit x (c :: cs) plan broke i previous p tail =
      placeElement x plan broke i previous c p (if cs.isEmpty then tail else 0) >>= fun (kept, q) =>
        placeSplit x cs plan (broke || !kept) (i + 1) (some c) q tail := by
  simp only [placeSplit, placeElement, bind_assoc]
  refine bind_congr fun choice => ?_
  generalize (Choice.indent? plan choice).filter (fun _ => !(decide (i = 0) && p.fresh)) = wrapped
  -- An element that is not on trial, or no longer, is wrapped or stays.
  cases choice with
  | attempt =>
      simp only [bind_assoc]
      refine bind_congr fun tried => ?_
      cases tried with
      | some q => simp only [pure_bind, Bool.not_true, Bool.or_false]
      | none => cases wrapped <;> simp only [bind_assoc, pure_bind] <;> rfl
  | wrap => cases wrapped <;> simp only [bind_assoc, pure_bind] <;> rfl
  | keep => cases wrapped <;> simp only [bind_assoc, pure_bind] <;> rfl

/-- Placing the elements of a group that is split is `splitting` without the decisions. -/
theorem placeSplit_eq_map_splitting (cs : List Chunk) (plan : SplitPlan) (broke : Bool) (i : Nat)
    (previous : Option Chunk) (p : Position) (tail : Int) :
    placeSplit x cs plan broke i previous p tail =
      Prod.fst <$> splitting x plan broke i previous p tail cs := by
  induction cs generalizing broke i previous p with
  | nil => rfl
  | cons c cs ih =>
      simp only [placeSplit_cons, splitting, ih, map_eq_pure_bind, bind_assoc, pure_bind]

/-- Whether decisions are those on the elements of a group, from the `i`-th on, in their order. The
last element alone has anything behind it. -/
def AreOn (cs : List Chunk) (i : Nat) (previous : Option Chunk) (tail : Int) (ds : List Decision) :
    Prop :=
  ds.map (·.chunk) = cs ∧ ∀ j d, ds[j]? = some d →
    d.index = i + j ∧ (d.previous = if j = 0 then previous else cs[j - 1]?) ∧
      d.tail = if j + 1 = cs.length then tail else 0

theorem ensures_splitting_areOn (cs : List Chunk) (plan : SplitPlan) (broke : Bool) (i : Nat)
    (previous : Option Chunk) (p : Position) (tail : Int) (s : LayoutState) :
    Ensures (splitting x plan broke i previous p tail cs) s fun r =>
      AreOn cs i previous tail r.2 := by
  induction cs generalizing broke i previous p s with
  | nil => exact Ensures.pure ⟨rfl, fun j d hd => by simp at hd⟩
  | cons c cs ih =>
      rw [splitting]
      refine Ensures.bind_run fun r s₁ _ => ?_
      refine (ih (broke || !r.1) (i + 1) (some c) r.2 s₁).bind fun r' _ ⟨hchunks, hds⟩ => ?_
      refine Ensures.pure ⟨by rw [List.map_cons, hchunks], fun j d hd => ?_⟩
      cases j with
      | zero =>
          obtain rfl := Option.some.inj hd
          refine ⟨rfl, rfl, ?_⟩
          cases cs <;> rfl
      | succ j =>
          obtain ⟨hindex, hprevious, htail⟩ := hds j d hd
          refine ⟨by omega, ?_, ?_⟩
          · rw [hprevious]
            cases j <;> rfl
          · rw [htail]
            simp

variable {x}

/-- A step that meets no fault and does not change whether the chunk with a number starts a line. -/
def Spares {α : Type} (m : Placing α) (id : Nat) : Prop :=
  ∀ s, Yields m s fun _ s' => s'.placements.size = s.placements.size ∧
    (s'.placements.getD id {}).newLine = (s.placements.getD id {}).newLine

section Spares

variable {α β : Type} {m m' : Placing α} {k : α → Placing β} {id : Nat} {c : Chunk}
  {cs : List Chunk} {all : List Chunk}

namespace Spares

theorem of_quiet {post : α → Prop} (h : Quiet m post) : Spares m id :=
  fun s => (h s).mono fun _ _ ⟨_, heq, _⟩ => ⟨by rw [heq], by rw [heq]⟩

theorem pure (a : α) : Spares (Pure.pure a) id :=
  fun _ => Yields.pure ⟨rfl, rfl⟩

theorem bind (h : Spares m id) (hk : ∀ a, Spares (k a) id) : Spares (m >>= k) id :=
  fun s => (h s).bind fun a s' ⟨hsize, heq⟩ =>
    (hk a s').mono fun _ _ ⟨hsize', heq'⟩ => ⟨hsize'.trans hsize, heq'.trans heq⟩

theorem ite {p : Prop} [Decidable p] (h : Spares m id) (h' : Spares m' id) :
    Spares (if p then m else m') id :=
  fun s => Yields.ite (fun _ => h s) fun _ => h' s

theorem get {k : LayoutState → Placing β} (hk : ∀ s, Spares (k s) id) :
    Spares (MonadState.get >>= k) id :=
  fun s => Yields.get (hk s s)

theorem after {mid : α → Prop} (h : Quiet m mid) (hk : ∀ a, Spares (k a) id) :
    Spares (m >>= k) id :=
  (of_quiet h).bind hk

theorem map (h : Spares m id) (f : α → β) : Spares (f <$> m) id := by
  rw [map_eq_pure_bind]
  exact h.bind fun a => pure (f a)

end Spares

theorem spares_setPlacement (hid : c.traits.id ≠ id) (f : Placement → Placement) :
    Spares (setPlacement c f) id := by
  refine fun s => ⟨(), _, rfl, Array.size_modify, ?_⟩
  simp only [Array.getD_eq_getD_getElem?, Array.getElem?_modify, if_neg hid]

theorem spares_breakTo (hid : c.traits.id ≠ id) (indent : Indent) (p : Position) :
    Spares (breakTo x c indent p) id :=
  Spares.after (quiet_modifyTrial _) fun _ =>
    (spares_setPlacement hid _).bind fun _ => Spares.pure _

theorem spares_stay (hid : c.traits.id ≠ id) (p : Position) : Spares (stay c p) id :=
  (spares_setPlacement hid _).bind fun _ => Spares.pure _

/-- A step that is guarded and meets no fault is run as it is. -/
theorem spares_guarded {p : Position} {m : Placing Position} (h : Spares m id) :
    Spares (guarded x c p m) id := by
  intro s
  obtain ⟨a, s', hrun, hpost⟩ := h s
  refine ⟨a, s', ?_, hpost⟩
  change (guarded x c p (fun _ => m.run s)).run s = _
  rw [hrun]
  rfl

theorem spares_attempt (hid : c.traits.id ≠ id) {p : Position} {place : Position → Placing Position}
    (h : ∀ q, Spares (place q) id) : Spares (attempt c p place) id := by
  rw [attempt]
  refine Spares.after (quiet_modify fun _ => ⟨rfl, rfl⟩) fun _ => ?_
  refine (spares_stay hid p).bind fun q => (h _).bind fun q => Spares.get fun s => ?_
  refine Spares.after (quiet_modify fun _ => ⟨rfl, rfl⟩) fun _ => ?_
  refine Spares.ite (Spares.pure _) ?_
  exact Spares.after (quiet_modifyTrial _) fun _ => Spares.pure _

theorem spares_token (text : Bytes) (p : Position) : Spares (token x text p) id := by
  by_cases htext : text = []
  · rw [token, if_pos (by simp [htext])]
    exact Spares.pure p
  · exact Spares.of_quiet (quiet_token p htext)

/-- A comment gets its lines at the place where it is. -/
theorem spares_comment (b : Comment) (p : Position) : Spares (comment x c (some b) p) id := by
  have hset (f : Placement → Placement) (hf : ∀ q, (f q).newLine = q.newLine) :
      Spares (setPlacement c f) id := by
    refine fun s => ⟨(), _, rfl, Array.size_modify, ?_⟩
    simp only [Array.getD_eq_getD_getElem?, Array.getElem?_modify]
    split
    · cases s.placements[id]? <;> simp [hf]
    · rfl
  rw [comment]
  refine Spares.bind (hset _ fun _ => rfl) fun _ => ?_
  split <;> exact Spares.pure _

theorem spares_placeItems
    (hcs : ∀ c ∈ cs, c.traits.id ≠ id ∧ ∀ p tail, Spares (place x c p tail) id)
    (indent : Indent) (p : Position) : Spares (placeItems x cs indent p) id := by
  induction cs generalizing p with
  | nil => exact Spares.pure p
  | cons c cs ih =>
      obtain ⟨hid, hc⟩ := hcs c List.mem_cons_self
      have hrest := ih fun d hd => hcs d (List.mem_cons_of_mem c hd)
      rw [placeItems]
      refine (spares_breakTo hid indent p).bind fun q => ?_
      exact (spares_guarded (hc _ 0)).bind fun q => hrest q

theorem spares_placeOpening {o : Option Chunk}
    (ho : ∀ c ∈ o.toList, c.traits.id ≠ id ∧ ∀ p tail, Spares (place x c p tail) id)
    (p : Position) : Spares (placeOpening x o p) id := by
  cases o with
  | none => exact Spares.pure p
  | some c =>
      obtain ⟨hid, hc⟩ := ho c (by simp)
      rw [placeOpening]
      exact (spares_setPlacement hid _).bind fun _ => hc p 0

theorem spares_placeClosing {o : Option Chunk}
    (ho : ∀ c ∈ o.toList, c.traits.id ≠ id ∧ ∀ p tail, Spares (place x c p tail) id)
    (startsLine : Bool) (p : Position) : Spares (placeClosing x o startsLine p) id := by
  cases o with
  | none => exact Spares.pure p
  | some c =>
      obtain ⟨hid, hc⟩ := ho c (by simp)
      rw [placeClosing]
      refine Spares.ite ?_ ?_
      · exact (spares_breakTo hid p.base p).bind fun q => hc q 0
      · exact (spares_setPlacement hid _).bind fun _ => hc p 0

/-- What is known of the trees below a root by induction. -/
theorem spares_below {ds : List Chunk}
    (ih : ∀ d ∈ ds, (∀ e ∈ d.walk, e ∈ all) → (∀ e ∈ d.walk.tail, e.traits.id ≠ id) →
      ∀ p tail, Spares (place x d p tail) id)
    (hds : ∀ e ∈ Chunk.walkList ds, e ∈ all) (hid : ∀ e ∈ Chunk.walkList ds, e.traits.id ≠ id) :
    ∀ d ∈ ds, d.traits.id ≠ id ∧ ∀ p tail, Spares (place x d p tail) id := by
  intro d hd
  have hbelow : ∀ e ∈ d.walk, e ∈ Chunk.walkList ds := fun e he =>
    Chunk.mem_walkList.mpr ⟨d, hd, he⟩
  exact ⟨hid d (hbelow d d.mem_walk), ih d hd (fun e he => hds e (hbelow e he))
    fun e he => hid e (hbelow e (List.mem_of_mem_tail he))⟩

section Tree

variable (hall : Chunk.Ready all)
include hall

theorem spares_placeSequence (hmem : ∀ d ∈ Chunk.walkList cs, d ∈ all)
    (hcs : ∀ c ∈ cs, c.traits.id ≠ id ∧ ∀ p tail, Spares (place x c p tail) id) (start : Indent)
    (previous : Option Chunk) (p : Position) (tail : Int) :
    Spares (placeSequence x cs start previous p tail) id := by
  induction cs generalizing previous p with
  | nil => exact Spares.pure p
  | cons c cs ih =>
      simp only [Chunk.walkList, List.mem_append] at hmem
      have htail : ∀ d ∈ Chunk.walkList cs, d ∈ all := fun d hd => hmem d (Or.inr hd)
      have hc : c ∈ all := hmem c (Or.inl c.mem_walk)
      obtain ⟨hid, hplace⟩ := hcs c List.mem_cons_self
      have hfollow : ∀ q behind, Spares (do
          let q ← place x c q behind
          placeSequence x cs start (some c) q tail) id := fun q behind =>
        (hplace q behind).bind fun q =>
          ih htail (fun d hd => hcs d (List.mem_cons_of_mem c hd)) (some c) q
      rw [placeSequence]
      refine Spares.after (quiet_tail hall htail tail 0) fun behind => ?_
      cases previous with
      | none => exact (spares_setPlacement hid _).bind fun _ => hfollow _ behind
      | some b =>
          refine Spares.ite ?_ (Spares.ite ?_ ?_)
          · exact (spares_breakTo hid _ _).bind fun q => hfollow q behind
          · refine Spares.after (quiet_fits hall hc _ behind) fun _ => Spares.ite ?_ ?_
            · exact (spares_stay hid _).bind fun q => hfollow q behind
            · exact (spares_breakTo hid _ _).bind fun q => hfollow q behind
          · exact (spares_stay hid _).bind fun q => hfollow q behind

theorem spares_placeElement (hc : c ∈ all) (hid : c.traits.id ≠ id)
    (hplace : ∀ p tail, Spares (place x c p tail) id) (plan : SplitPlan) (broke : Bool) (i : Nat)
    (previous : Option Chunk) (p : Position) (tail : Int) :
    Spares (placeElement x plan broke i previous c p tail) id := by
  rw [placeElement]
  refine Spares.after (quiet_choose hall hc plan broke i previous p tail) fun choice => ?_
  extract_lets wrapped anew again
  have hanew : ∀ q, Spares (anew q) id := fun q => (hplace _ tail).bind fun q => Spares.pure _
  have hagain : ∀ tried, Spares (again tried) id := by
    intro tried
    cases tried with
    | some q => exact Spares.pure _
    | none =>
        simp only [again]
        clear_value wrapped anew
        cases wrapped with
        | none => exact (spares_stay hid p).bind hanew
        | some indent => exact (spares_breakTo hid indent p).bind hanew
  cases choice with
  | attempt => exact (spares_attempt hid fun q => hplace q tail).bind hagain
  | wrap | keep => exact hagain none

theorem spares_splitting (hmem : ∀ c ∈ cs, c ∈ all)
    (hcs : ∀ c ∈ cs, c.traits.id ≠ id ∧ ∀ p tail, Spares (place x c p tail) id) (plan : SplitPlan)
    (broke : Bool) (i : Nat) (previous : Option Chunk) (p : Position) (tail : Int) :
    Spares (splitting x plan broke i previous p tail cs) id := by
  induction cs generalizing broke i previous p with
  | nil => exact Spares.pure _
  | cons c cs ih =>
      obtain ⟨hid, hplace⟩ := hcs c List.mem_cons_self
      rw [splitting]
      have helement :=
        spares_placeElement hall (hmem c List.mem_cons_self) hid hplace plan broke i previous p
      refine (helement _).bind fun r => ?_
      refine (ih (fun d hd => hmem d (List.mem_cons_of_mem c hd))
        (fun d hd => hcs d (List.mem_cons_of_mem c hd)) _ (i + 1) (some c) r.2).bind fun r => ?_
      exact Spares.pure _

/-- Placing a tree changes only for the chunks below its root whether they start a line. -/
theorem spares_place (hc : ∀ d ∈ c.walk, d ∈ all) (hid : ∀ d ∈ c.walk.tail, d.traits.id ≠ id)
    (p : Position) (tail : Int) : Spares (place x c p tail) id := by
  induction c using Chunk.byParts generalizing p tail with
  | token t s =>
      rw [place]
      exact Spares.after quiet_step fun _ => spares_token s p
  | comment t s b =>
      rw [place]
      refine Spares.after quiet_step fun _ => ?_
      cases b with
      | none => exact absurd (hc _ (Chunk.mem_walk _)) (hall.contents t s)
      | some b => exact spares_comment b p
  | group t context breakFirst cs ih =>
      have hmem : ∀ d ∈ Chunk.walkList cs, d ∈ all := fun d hd => hc d (by simp [Chunk.walk, hd])
      have hbelow := spares_below ih hmem hid
      have hsequence := spares_placeSequence hall hmem hbelow p.line none p tail
      rw [place]
      refine Spares.after quiet_step fun _ => ?_
      refine Spares.after (quiet_policy context) fun policy => Spares.ite hsequence ?_
      refine Spares.after (quiet_measure hall (hc _ (Chunk.mem_walk _))) fun m => ?_
      refine Spares.ite hsequence ?_
      extract_lets plan
      have hown : ∀ d ∈ cs, d ∈ all := fun d hd =>
        hmem d (Chunk.mem_walkList.mpr ⟨d, hd, d.mem_walk⟩)
      rw [placeSplit_eq_map_splitting]
      exact ((spares_splitting hall hown hbelow plan false 0 none p tail).map _).bind
        fun q => Spares.pure _
  | block t o c i cs iho ihc ih =>
      rw [Chunk.walk_block] at hc hid
      rw [List.tail_cons] at hid
      simp only [List.mem_cons, List.mem_append] at hc hid
      have ho := spares_below iho (fun e he => hc e (by simp [he])) fun e he => hid e (by simp [he])
      have hitems :=
        spares_below ih (fun e he => hc e (by simp [he])) fun e he => hid e (by simp [he])
      have hclose :=
        spares_below ihc (fun e he => hc e (by simp [he])) fun e he => hid e (by simp [he])
      rw [place]
      refine Spares.after quiet_step fun _ => ?_
      refine (spares_placeOpening ho p).bind fun q => ?_
      exact (spares_placeItems hitems _ q).bind fun q => spares_placeClosing hclose _ _

end Tree

end Spares

/-- A step that meets no fault and settles whether a chunk starts a line, as its result tells. -/
def Decides {α : Type} (m : Placing α) (c : Chunk) (line : α → Bool) : Prop :=
  ∀ s, c.traits.id < s.placements.size → Yields m s fun a s' =>
    s'.placements.size = s.placements.size ∧
      (s'.placements.getD c.traits.id {}).newLine = line a

section Decides

variable {α β : Type} {m : Placing α} {k : α → Placing β} {c : Chunk} {cs all : List Chunk}
  {line : α → Bool} {line' : β → Bool}

namespace Decides

/-- What comes behind a step either settles the same again or leaves it as it is. -/
theorem bind (h : Decides m c line) (hk : ∀ a, Decides (k a) c line' ∨
      Spares (k a) c.traits.id ∧ ∀ s, Yields (k a) s fun b _ => line' b = line a) :
    Decides (m >>= k) c line' := by
  intro s hs
  refine (h s hs).bind fun a s₁ ⟨hsize, hline⟩ => ?_
  rcases hk a with hagain | ⟨hspares, hline'⟩
  · exact (hagain s₁ (hsize ▸ hs)).mono fun b s' ⟨hsize', hb⟩ => ⟨hsize'.trans hsize, hb⟩
  · refine ((hspares s₁).and (hline' s₁)).mono fun b s' ⟨⟨hsize', heq⟩, hb⟩ => ?_
    exact ⟨hsize'.trans hsize, by rw [heq, hline, hb]⟩

theorem spared {b : Bool} (h : Decides m c fun _ => b) (hk : ∀ a, Spares (k a) c.traits.id) :
    Decides (m >>= k) c fun _ => b :=
  h.bind fun a => Or.inr ⟨hk a, fun s => (hk a s).mono fun _ _ _ => rfl⟩

theorem after {mid : α → Prop} (h : Quiet m mid) (hk : ∀ a, Decides (k a) c line') :
    Decides (m >>= k) c line' := by
  refine fun s hs => (h s).bind fun a s' ⟨_, heq, _⟩ => ?_
  exact heq ▸ hk a s' (by rwa [heq])

end Decides

theorem decides_setPlacement (b : Bool) {f : Placement → Placement} (hf : ∀ q, (f q).newLine = b) :
    Decides (setPlacement c f) c fun _ => b := by
  refine fun s hs => ⟨(), _, rfl, Array.size_modify, ?_⟩
  simp [Array.getD_eq_getD_getElem?, Array.getElem?_modify, Array.getElem?_eq_getElem hs, hf]

theorem decides_breakTo (indent : Indent) (p : Position) :
    Decides (breakTo x c indent p) c fun _ => true :=
  Decides.after (quiet_modifyTrial _) fun _ =>
    (decides_setPlacement true fun _ => rfl).spared fun _ => Spares.pure _

theorem decides_stay (p : Position) : Decides (stay c p) c fun _ => false :=
  (decides_setPlacement false fun _ => rfl).spared fun _ => Spares.pure _

theorem decides_attempt {p : Position} {place : Position → Placing Position}
    (h : ∀ q, Spares (place q) c.traits.id) : Decides (attempt c p place) c fun _ => false := by
  rw [attempt]
  refine Decides.after (quiet_modify fun _ => ⟨rfl, rfl⟩) fun _ => ?_
  refine (decides_stay p).spared fun q => (h _).bind fun q => Spares.get fun s => ?_
  refine Spares.after (quiet_modify fun _ => ⟨rfl, rfl⟩) fun _ => Spares.ite (Spares.pure _) ?_
  exact Spares.after (quiet_modifyTrial _) fun _ => Spares.pure _

/-- An element that is placed starts a line exactly if it is not kept. -/
theorem decides_placeElement (hall : Chunk.Ready all) (hc : c ∈ all)
    (hplace : ∀ p tail, Spares (place x c p tail) c.traits.id) (plan : SplitPlan) (broke : Bool)
    (i : Nat) (previous : Option Chunk) (p : Position) (tail : Int) :
    Decides (placeElement x plan broke i previous c p tail) c fun r => !r.1 := by
  rw [placeElement]
  refine Decides.after (quiet_choose hall hc plan broke i previous p tail) fun choice => ?_
  extract_lets wrapped anew again
  have hanew : ∀ q, Spares (anew q) c.traits.id ∧
      ∀ s, Yields (anew q) s fun r _ => (!r.1) = !wrapped.isNone := fun q =>
    ⟨(hplace _ tail).bind fun q => Spares.pure _,
      fun s => (hplace _ tail s).bind fun q _ _ => Yields.pure rfl⟩
  have hagain : Decides (again none) c fun r => !r.1 := by
    simp only [again]
    clear_value wrapped anew
    cases wrapped with
    | none => exact (decides_stay p).bind fun q => Or.inr (hanew q)
    | some indent => exact (decides_breakTo indent p).bind fun q => Or.inr (hanew q)
  cases choice with
  | attempt =>
      refine (decides_attempt fun q => hplace q tail).bind fun tried => ?_
      cases tried with
      | none => exact Or.inl hagain
      | some q => exact Or.inr ⟨Spares.pure _, fun _ => Yields.pure rfl⟩
  | wrap | keep => exact hagain

/-- The elements of a group that is split start a line exactly if they are not kept. -/
theorem yields_splitting (hall : Chunk.Ready all) (hmem : ∀ d ∈ Chunk.walkList cs, d ∈ all)
    (hnodup : (Chunk.ids (Chunk.walkList cs)).Nodup) (plan : SplitPlan) (broke : Bool) (i : Nat)
    (previous : Option Chunk) (p : Position) (tail : Int) {s : LayoutState}
    (hs : ∀ c ∈ cs, c.traits.id < s.placements.size) :
    Yields (splitting x plan broke i previous p tail cs) s fun r s' =>
      ∀ d ∈ r.2, (s'.placements.getD d.chunk.traits.id {}).newLine = !d.kept := by
  induction cs generalizing broke i previous p s with
  | nil => exact Yields.pure fun d hd => absurd hd List.not_mem_nil
  | cons c cs ih =>
      rw [Chunk.walkList, Chunk.ids_append] at hnodup
      simp only [Chunk.walkList, List.mem_append] at hmem
      have hc : ∀ d ∈ c.walk, d ∈ all := fun d hd => hmem d (Or.inl hd)
      have hcs : ∀ d ∈ Chunk.walkList cs, d ∈ all := fun d hd => hmem d (Or.inr hd)
      -- No chunk below the element and no chunk behind it has its number.
      have hbelow : ∀ d ∈ c.walk.tail, d.traits.id ≠ c.traits.id := by
        have hwalk := List.Nodup.of_append_left hnodup
        rw [c.walk_eq, Chunk.ids, List.map_cons] at hwalk
        exact fun d hd heq => (List.nodup_cons.mp hwalk).1 (List.mem_map.mpr ⟨d, hd, heq⟩)
      have hbehind : ∀ d ∈ Chunk.walkList cs, d.traits.id ≠ c.traits.id := fun d hd heq =>
        List.disjoint_of_nodup_append hnodup (List.mem_map_of_mem c.mem_walk)
          (List.mem_map.mpr ⟨d, hd, heq⟩)
      have hothers : ∀ d ∈ cs, d.traits.id ≠ c.traits.id ∧
          ∀ p tail, Spares (place x d p tail) c.traits.id :=
        spares_below (fun d _ hd hid => spares_place hall hd hid) hcs hbehind
      rw [splitting]
      refine (decides_placeElement hall (hc c c.mem_walk) (spares_place hall hc hbelow) plan broke i
        previous p _ s (hs c List.mem_cons_self)).bind fun r s₁ hdecided => ?_
      obtain ⟨hsize, hline⟩ := hdecided
      have hown : ∀ d ∈ cs, d ∈ all := fun d hd =>
        hcs d (Chunk.mem_walkList.mpr ⟨d, hd, d.mem_walk⟩)
      have hspared := spares_splitting hall hown hothers plan (broke || !r.1) (i + 1)
        (some c) r.2 tail
      have hrest := ih hcs (List.Nodup.of_append_right hnodup) (broke || !r.1) (i + 1) (some c) r.2
        fun d hd => hsize ▸ hs d (List.mem_cons_of_mem c hd)
      refine ((hspared s₁).and hrest).bind fun r' s' hdone => Yields.pure fun d hd => ?_
      obtain ⟨⟨-, heq⟩, hds⟩ := hdone
      rcases List.mem_cons.mp hd with rfl | hd
      · rw [heq, hline]
      · exact hds d hd

end Decides

end CodeLayout.Placing
