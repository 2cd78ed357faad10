import CodeLayout.Output
import CodeLayout.Proofs.Chunk.Neat
import CodeLayout.Proofs.Columns.Writer
import CodeLayout.Proofs.Quiet

/-!
# Laying out and writing agree on columns

Laying out reckons with a column for each chunk, and the writer gets to that column when it goes by
the placements: each space is counted once, and each line break puts both at the indentation of the
new line. This holds for each way to place a chunk, and so for all of them in a row.

`Sets` is the rule for steps of which only what they come to is of account: a step meets no fault,
changes the placements of some chunks only, and whatever a writer meets that goes by these
placements in the end is known of the result. Steps that settle different chunks are put together
one behind the other; a step on trial is forgotten if the same chunks are settled again.
-/

namespace CodeLayout

/-- Whether a writer has the style of a layout and leaves no region alone. -/
structure Writer.Context.Follows (y : Writer.Context) (x : LayoutContext) : Prop where
  style : y.style = x.style
  regions : y.regions = .empty

/-- The placement of a chunk that a writer goes by. -/
def Writer.Context.placement (y : Writer.Context) (c : Chunk) : Placement :=
  y.placements.getD c.traits.id {}

namespace Placing

/-- A step settles the placements of the chunks with some numbers: a writer that goes by them
satisfies a condition, together with the result. -/
def Sets {α : Type} (x : LayoutContext) (m : Placing α) (ids : List Nat)
    (post : α → Writer.Context → Prop) : Prop :=
  ∀ s : LayoutState, (∀ id ∈ ids, id < s.placements.size) →
    Yields m s fun a s' => s'.placements.size = s.placements.size ∧
      (∀ id, id ∉ ids → s'.placements.getD id {} = s.placements.getD id {}) ∧
      ∀ y : Writer.Context, y.Follows x →
        (∀ id ∈ ids, y.placements.getD id {} = s'.placements.getD id {}) → post a y

variable {α β : Type} {x : LayoutContext} {m m' : Placing α} {k : α → Placing β}
  {ids ids' : List Nat} {mid mid' : α → Writer.Context → Prop} {post : β → Writer.Context → Prop}

namespace Sets

theorem pure {a : α} (h : ∀ y, y.Follows x → mid a y) : Sets x (Pure.pure a) [] mid :=
  fun _ _ => Yields.pure ⟨rfl, fun _ _ => rfl, fun y hy _ => h y hy⟩

theorem mono (h : Sets x m ids mid) (himp : ∀ a y, y.Follows x → mid a y → mid' a y) :
    Sets x m ids mid' := by
  refine fun s hs => (h s hs).mono fun a s' ⟨hsize, hframe, hpost⟩ => ⟨hsize, hframe, ?_⟩
  exact fun y hy hplaced => himp a y hy (hpost y hy hplaced)

/-- A step that settles some chunks, and then one that settles others besides, or all of them again.
Of the first result all is known that does not depend on the writer. -/
theorem bind_or_again (h : Sets x m ids mid) (hdisjoint : ids.Disjoint ids')
    (hk : ∀ a, (∃ y, mid a y) → Sets x (k a) ids' (fun b y => mid a y → post b y) ∨
      Sets x (k a) (ids ++ ids') post) : Sets x (m >>= k) (ids ++ ids') post := by
  intro s hs
  refine (h s fun id hid => hs id (List.mem_append_left _ hid)).bind ?_
  intro a s' ⟨hsize, hframe, hmid⟩
  have hsome : ∃ y, mid a y :=
    ⟨⟨x.style, [], .empty, s'.placements⟩, hmid _ ⟨rfl, rfl⟩ fun _ _ => rfl⟩
  have hs' : ∀ id ∈ ids ++ ids', id < s'.placements.size := fun id hid => hsize ▸ hs id hid
  have hkept : ∀ id, id ∉ ids ++ ids' → id ∉ ids := fun id hid hmem =>
    hid (List.mem_append_left _ hmem)
  rcases hk a hsome with hrest | hagain
  · refine (hrest s' fun id hid => hs' id (List.mem_append_right _ hid)).mono ?_
    intro b s'' ⟨hsize', hframe', hpost⟩
    refine ⟨hsize'.trans hsize, fun id hid => ?_, fun y hy hplaced => ?_⟩
    · rw [hframe' id fun hmem => hid (List.mem_append_right _ hmem)]
      exact hframe id (hkept id hid)
    · refine hpost y hy (fun id hid => hplaced id (List.mem_append_right _ hid)) ?_
      refine hmid y hy fun id hid => ?_
      rw [hplaced id (List.mem_append_left _ hid)]
      exact hframe' id (hdisjoint hid)
  · refine (hagain s' hs').mono fun b s'' ⟨hsize', hframe', hpost⟩ => ?_
    exact ⟨hsize'.trans hsize, fun id hid => (hframe' id hid).trans (hframe id (hkept id hid)),
      hpost⟩

theorem bind (h : Sets x m ids mid) (hdisjoint : ids.Disjoint ids')
    (hk : ∀ a, (∃ y, mid a y) → Sets x (k a) ids' fun b y => mid a y → post b y) :
    Sets x (m >>= k) (ids ++ ids') post :=
  h.bind_or_again hdisjoint fun a ha => Or.inl (hk a ha)

/-- A step that settles some chunks, and then one that settles nothing. -/
theorem bind_last (h : Sets x m ids mid)
    (hk : ∀ a, (∃ y, mid a y) → Sets x (k a) [] fun b y => mid a y → post b y) :
    Sets x (m >>= k) ids post := by
  have hbind := h.bind (List.disjoint_nil_right ids) hk
  rwa [List.append_nil] at hbind

theorem ite {p : Prop} [Decidable p] (h : p → Sets x m ids mid) (h' : ¬p → Sets x m' ids mid) :
    Sets x (if p then m else m') ids mid :=
  fun s hs => Yields.ite (fun hp => h hp s hs) fun hp => h' hp s hs

theorem of_quiet {post : α → Prop} (h : Quiet m post) : Sets x m [] fun a _ => post a := by
  refine fun s _ => (h s).mono fun a s' ⟨ha, heq, _⟩ => ?_
  exact ⟨by rw [heq], fun _ _ => by rw [heq], fun _ _ _ => ha⟩

/-- A step behind one that settles nothing. -/
theorem after {mid : α → Prop} (h : Quiet m mid) (hk : ∀ a, mid a → Sets x (k a) ids post) :
    Sets x (m >>= k) ids post := by
  refine fun s hs => (h s).bind fun a s' ⟨ha, heq, _⟩ => ?_
  exact heq ▸ hk a ha s' (by rwa [heq])

theorem get {k : LayoutState → Placing β} (hk : ∀ s, Sets x (k s) ids post) :
    Sets x (MonadState.get >>= k) ids post :=
  fun s hs => Yields.get (hk s s hs)

end Sets

end Placing

/-- What the columns of a tree rely on: it is neat, it has no comments, and all its tokens are
printable. -/
structure Chunk.IsPlain (all : List Chunk) : Prop extends Ready all where
  numbered : (ids all).Nodup
  neat : ∀ d ∈ all, d.IsNeat
  printable : ∀ t s, Chunk.token t s ∈ all → Bytes.IsPrintable s
  code : ∀ t s b, Chunk.comment t s b ∉ all

/-- Whether no indentation of a position is aligned to the left of its levels. -/
structure Position.IsAligned (p : Position) : Prop where
  line : 0 ≤ p.line.align
  base : 0 ≤ p.base.align
  head : 0 ≤ p.head.align

/-- Whether a position is behind a text. -/
structure Position.IsBehind (p : Position) : Prop extends IsAligned p where
  fresh : p.fresh = false

namespace Writer

variable {x : LayoutContext} {y : Context} {c : Chunk} {ds es : List Chunk} {p q r : Position}
  {w : Writer}

/-- A writer stands where a chunk can come that is the first one, or that comes behind a text. -/
def Enters (y : Context) (p : Position) (head : Option Chunk) (w : Writer) : Prop :=
  At y p.column p.fresh w ∧
    ((∃ c ∈ head, c.IsFirst) ∨ (p.fresh = false ∧ Settled y p.column w))

/-- Writing chunks takes a writer from one position to another, behind a text. -/
def Lands (y : Context) (ds : List Chunk) (p q : Position) : Prop :=
  ∀ w w', ds.foldlM (Writer.write y) w = .ok w' → Enters y p ds.head? w → Settled y q.column w'

/-- Writing what is below a chunk takes a writer from one position to another. -/
def Arrives (y : Context) (c : Chunk) (p q : Position) : Prop :=
  ∀ w w', c.walk.foldlM (Writer.write y) w = .ok w' →
    At y p.column p.fresh (w.request c.traits (y.placement c)) →
    (w.started = true ∨ c.isBraceless = false) → Settled y q.column w'

/-- The white space before a chunk takes a writer from one position to another. -/
def Moves (y : Context) (c : Chunk) (p q : Position) : Prop :=
  ∀ w, Enters y p (some c) w → At y q.column q.fresh (w.request c.traits (y.placement c))

theorem Settled.enters (h : Settled y p.column w) (hp : p.fresh = false) (head : Option Chunk) :
    Enters y p head w :=
  ⟨hp ▸ h.toAt, Or.inr ⟨hp, h⟩⟩

/-- Where nothing has been written there is no body without braces. -/
theorem Enters.started (h : Enters y p (some c) w) :
    w.started = true ∨ c.isBraceless = false := by
  obtain ⟨-, ⟨d, hd, hfirst⟩ | ⟨-, hsettled⟩⟩ := h
  · obtain rfl := Option.some.inj hd
    exact Or.inr hfirst.braced
  · exact Or.inl (hsettled.begun rfl).1

theorem Moves.lands (h : Moves y c p q) (ha : Arrives y c q r) : Lands y c.walk p r := by
  intro w w' hwrite henter
  rw [Chunk.head?_walk] at henter
  exact ha w w' hwrite (h w henter) henter.started

theorem lands_nil (y : Context) (p : Position) : Lands y [] p p := by
  intro w w' hwrite henter
  obtain rfl := Except.ok.inj hwrite
  obtain ⟨-, ⟨d, hd, -⟩ | ⟨-, hsettled⟩⟩ := henter
  · cases hd
  · exact hsettled

theorem Lands.append (h : Lands y ds p q) (hds : ds ≠ []) (hq : q.fresh = false)
    (h' : Lands y es q r) : Lands y (ds ++ es) p r := by
  intro w w' hwrite henter
  rw [List.foldlM_append] at hwrite
  obtain ⟨u, hfirst, hrest⟩ := exists_of_bind_eq_ok hwrite
  rw [List.head?_append_of_ne_nil _ hds] at henter
  exact h' u w' hrest ((h w u hfirst henter).enters hq _)

/-- Starting a line before a chunk that comes behind a text. -/
theorem moves_break (hy : y.Follows x) (hproper : x.style.IsProper) (hp : p.fresh = false)
    {indent : Indent} (halign : 0 ≤ indent.align) (hline : (y.placement c).newLine = true)
    (hindent : (y.placement c).indent = indent) :
    Moves y c p { p with column := Placing.columnOf x indent, line := indent, fresh := true } := by
  intro w henter
  have hat := henter.1
  rw [hp] at hat
  have hbreak := hat.request_break (t := c.traits) (hy.style ▸ hproper) hline (hindent ▸ halign)
    (Or.inl (hat.begun rfl).1)
  rwa [hindent, hy.style] at hbreak

/-- Keeping a chunk on its line. -/
theorem moves_stay (hspace : c.isSpaced = c.traits.space)
    (hline : (y.placement c).newLine = false) :
    Moves y c p (if !p.fresh && c.isSpaced then { p with column := p.column + 1 } else p) := by
  intro w henter
  have hstay := henter.1.request_stay (t := c.traits) hline fun _ ht => by
    obtain ⟨-, ⟨d, hd, hfirst⟩ | ⟨-, hsettled⟩⟩ := henter
    · obtain rfl := Option.some.inj hd
      have hunspaced := hspace.symm.trans hfirst.unspaced
      rw [ht] at hunspaced
      cases hunspaced
    · exact hsettled.unspaced
  rw [← hspace] at hstay
  split
  · rename_i hcond
    rwa [if_pos hcond] at hstay
  · rename_i hcond
    rwa [if_neg hcond] at hstay

/-- A chunk without a space that continues a line. -/
theorem moves_continue (hspace : c.traits.space = false)
    (hline : (y.placement c).newLine = false) : Moves y c p p := by
  intro w henter
  have hstay := henter.1.request_stay (t := c.traits) hline fun _ ht => by simp [hspace] at ht
  rwa [hspace, Bool.and_false, if_neg (by simp)] at hstay

end Writer

namespace Placing

variable {x : LayoutContext} {all cs : List Chunk} {c : Chunk} {p : Position}

theorem sets_setPlacement (f : Placement → Placement) :
    Sets x (setPlacement c f) [c.traits.id] fun _ y => ∃ q, y.placement c = f q := by
  intro s hs
  have hlt : c.traits.id < s.placements.size := hs _ List.mem_cons_self
  refine ⟨(), _, rfl, Array.size_modify, fun id hid => ?_, fun y _ hplaced => ?_⟩
  · have hne : c.traits.id ≠ id := fun heq => hid (heq ▸ List.mem_cons_self)
    simp only [Array.getD_eq_getD_getElem?, Array.getElem?_modify, if_neg hne]
  · refine ⟨s.placements[c.traits.id], (hplaced _ List.mem_cons_self).trans ?_⟩
    simp [Array.getD_eq_getD_getElem?, Array.getElem?_modify, Array.getElem?_eq_getElem hlt]

theorem sets_breakTo (indent : Indent) (p : Position) :
    Sets x (breakTo x c indent p) [c.traits.id] fun q y =>
      q = { p with column := columnOf x indent, line := indent, fresh := true } ∧
        (y.placement c).newLine = true ∧ (y.placement c).indent = indent := by
  rw [breakTo]
  refine Sets.after (quiet_modifyTrial _) fun _ _ => ?_
  refine (sets_setPlacement _).bind_last fun _ _ => Sets.pure ?_
  rintro y - ⟨q, hq⟩
  rw [hq]
  exact ⟨rfl, rfl, rfl⟩

theorem sets_continueLine :
    Sets x (continueLine c) [c.traits.id] fun _ y => (y.placement c).newLine = false := by
  refine (sets_setPlacement _).mono ?_
  rintro _ y - ⟨q, hq⟩
  rw [hq]

theorem sets_stay (p : Position) :
    Sets x (stay c p) [c.traits.id] fun q y =>
      q = (if !p.fresh && c.isSpaced then { p with column := p.column + 1 } else p) ∧
        (y.placement c).newLine = false := by
  rw [stay]
  refine (sets_setPlacement _).bind_last fun _ _ => Sets.pure ?_
  rintro y - ⟨q, hq⟩
  rw [hq]
  exact ⟨rfl, rfl⟩

/-- Starting a line moves the writer to its indentation if something has been written. -/
theorem sets_breakTo_moves (hx : x.style.IsProper) (hp : p.IsAligned) (hfresh : p.fresh = false)
    {indent : Indent} (halign : 0 ≤ indent.align) :
    Sets x (breakTo x c indent p) [c.traits.id] fun q y =>
      q.IsAligned ∧ Writer.Moves y c p q := by
  refine (sets_breakTo indent p).mono ?_
  rintro q y hy ⟨rfl, hline, hindent⟩
  exact ⟨⟨halign, hp.base, hp.head⟩, Writer.moves_break hy hx hfresh halign hline hindent⟩

theorem sets_continueLine_moves (hp : p.IsAligned) (hspace : c.traits.space = false) :
    Sets x (continueLine c) [c.traits.id] fun _ y => p.IsAligned ∧ Writer.Moves y c p p :=
  sets_continueLine.mono fun _ _ _ hline => ⟨hp, Writer.moves_continue hspace hline⟩

theorem sets_stay_moves (hp : p.IsAligned) (hneat : c.Neat) :
    Sets x (stay c p) [c.traits.id] fun q y => q.IsAligned ∧ Writer.Moves y c p q := by
  refine (sets_stay p).mono ?_
  rintro q y - ⟨rfl, hline⟩
  refine ⟨?_, Writer.moves_stay hneat.isSpaced_eq hline⟩
  split
  · exact ⟨hp.line, hp.base, hp.head⟩
  · exact hp

/-- Placing a chunk settles what is below it, and takes the writer to the position behind it. -/
def Tracks (x : LayoutContext) (c : Chunk) : Prop :=
  ∀ p tail, p.IsAligned → Sets x (place x c p tail) (Chunk.ids c.walk.tail) fun q y =>
    q.IsBehind ∧ Writer.Arrives y c p q

/-- A chunk is moved to its place, and then placed with all that is below it. -/
theorem Sets.moved {α : Type} {move : Placing α} {place : α → Placing Position}
    (behind : α → Position) (hnodup : (Chunk.ids c.walk).Nodup)
    (hmove : Sets x move [c.traits.id] fun a y =>
      (behind a).IsAligned ∧ Writer.Moves y c p (behind a))
    (hplace : ∀ a, (behind a).IsAligned → Sets x (place a) (Chunk.ids c.walk.tail) fun q y =>
      q.IsBehind ∧ Writer.Arrives y c (behind a) q) :
    Sets x (move >>= place) (Chunk.ids c.walk) fun q y =>
      q.IsBehind ∧ Writer.Lands y c.walk p q := by
  have hids : Chunk.ids c.walk = [c.traits.id] ++ Chunk.ids c.walk.tail := by
    rw [c.walk_eq]
    rfl
  rw [hids] at hnodup ⊢
  refine hmove.bind (List.disjoint_of_nodup_append hnodup) fun a ⟨_, haligned, _⟩ => ?_
  exact (hplace a haligned).mono fun q y _ ⟨hq, harrives⟩ ⟨_, hmoves⟩ =>
    ⟨hq, hmoves.lands harrives⟩

/-- What follows a chunk that is at its place. -/
theorem Sets.element {α β : Type} {move : Placing α} {place : α → Placing Position}
    {k : Position → Placing β} {ids : List Nat} {post : β → Writer.Context → Prop}
    (behind : α → Position) (hnodup : (Chunk.ids c.walk ++ ids).Nodup)
    (hmove : Sets x move [c.traits.id] fun a y =>
      (behind a).IsAligned ∧ Writer.Moves y c p (behind a))
    (hplace : ∀ a, (behind a).IsAligned → Sets x (place a) (Chunk.ids c.walk.tail) fun q y =>
      q.IsBehind ∧ Writer.Arrives y c (behind a) q)
    (hk : ∀ q : Position, q.IsBehind → Sets x (k q) ids fun b y =>
      Writer.Lands y c.walk p q → post b y) :
    Sets x (move >>= fun a => place a >>= k) (Chunk.ids c.walk ++ ids) post := by
  rw [← bind_assoc]
  refine (Sets.moved behind (List.Nodup.of_append_left hnodup) hmove hplace).bind
    (List.disjoint_of_nodup_append hnodup) fun q ⟨_, hq, _⟩ => ?_
  exact (hk q hq).mono fun b y _ hpost ⟨_, hlands⟩ => hpost hlands

end Placing

end CodeLayout
