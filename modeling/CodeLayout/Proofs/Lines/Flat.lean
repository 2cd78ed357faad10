import CodeLayout.Proofs.Chunk.Neat
import CodeLayout.Proofs.Columns.Placing

/-!
# Placing on one line

A chunk of groups and printable tokens that demands no line break is as wide as its texts and the
spaces between them. If there is room for it, and for what must follow it, it is placed on one line:
looking ahead never finds more columns than are there, so each group in it finds room as well.
-/

namespace CodeLayout

/-- Whether no line break is demanded at a chunk by its own marks. -/
structure Traits.IsSoft (t : Traits) : Prop where
  behind : t.breakAfter ≠ .mandatory
  before : t.breakBefore = false

namespace Chunk

mutual

/-- The width of a chunk on one line: its texts with the spaces between them. -/
def flatWidth : Chunk → Int
  | .token _ s => s.length
  | .group _ _ _ cs => flatRow true cs
  | .comment .. | .block .. => 0

/-- The width of elements on one line, with a space before the first of them unless it comes
first. -/
def flatRow (isFirst : Bool) : List Chunk → Int
  | [] => 0
  | c :: cs => (if !isFirst && c.isSpaced then 1 else 0) + flatWidth c + flatRow false cs

end

/-- A chunk that can be on one line: groups that are not empty, of printable tokens that are not
empty. None of them demands a line break, and no group is split if it fits. -/
inductive Flows (style : Style) : Chunk → Prop
  | token {t : Traits} {s : Bytes} : s ≠ [] → Bytes.IsPrintable s → t.IsSoft →
      Flows style (.token t s)
  | group {t : Traits} {context : WrapContext} {breakFirst : Bool} {cs : List Chunk} : cs ≠ [] →
      (∀ c ∈ cs, Flows style c) → (style.policy context).isForced = false → t.IsSoft →
      Flows style (.group t context breakFirst cs)

variable {style : Style} {c : Chunk} {cs : List Chunk}

theorem lastEndsHard_eq_false (h : ∀ c ∈ cs, c.endsHard = false) : lastEndsHard cs = false := by
  induction cs with
  | nil => rfl
  | cons c cs ih =>
      cases cs with
      | nil => exact h c List.mem_cons_self
      | cons d ds => exact ih fun e he => h e (List.mem_cons_of_mem c he)

theorem firstStartsHard_eq_false (h : ∀ c ∈ cs, c.startsHard = false) :
    firstStartsHard cs = false := by
  cases cs with
  | nil => rfl
  | cons c cs => exact h c List.mem_cons_self

namespace Flows

theorem endsHard (h : Flows style c) : c.endsHard = false := by
  induction h with
  | token _ _ hsoft => simpa [Chunk.endsHard] using hsoft.behind
  | group _ _ _ hsoft ih => simpa [Chunk.endsHard, hsoft.behind] using lastEndsHard_eq_false ih

theorem startsHard (h : Flows style c) : c.startsHard = false := by
  induction h with
  | token _ _ hsoft => exact hsoft.before
  | group _ _ _ hsoft ih => simpa [Chunk.startsHard, hsoft.before] using firstStartsHard_eq_false ih

end Flows

theorem flatRow_nonneg (h : ∀ c ∈ cs, 0 < c.flatWidth) (isFirst : Bool) :
    0 ≤ flatRow isFirst cs := by
  induction cs generalizing isFirst with
  | nil => exact Int.le_refl 0
  | cons c cs ih =>
      have hc := h c List.mem_cons_self
      have hrest := ih (fun d hd => h d (List.mem_cons_of_mem c hd)) false
      rw [flatRow]
      split <;> omega

/-- A chunk that can be on one line is not empty there. -/
theorem Flows.flatWidth_pos (h : Flows style c) : 0 < c.flatWidth := by
  induction h with
  | token hne _ _ => simpa [flatWidth, Int.natCast_pos, List.length_pos_iff] using hne
  | @group t context breakFirst cs hne _ _ _ ih =>
      obtain ⟨d, ds, rfl⟩ := List.exists_cons_of_ne_nil hne
      have hd := ih d List.mem_cons_self
      have hds := flatRow_nonneg (fun e he => ih e (List.mem_cons_of_mem d he)) false
      simp only [flatWidth, flatRow, Bool.not_true, Bool.false_and, Bool.false_eq_true, if_false]
      omega

section Annotate

variable {tabstop : Int} {n : Nat}

theorem flatRow_annotateList (h : ∀ c ∈ cs, ∀ n, (c.annotate tabstop n).1.flatWidth = c.flatWidth)
    (isFirst : Bool) (n : Nat) :
    flatRow isFirst (annotateList tabstop n cs).1 = flatRow isFirst cs := by
  induction cs generalizing isFirst n with
  | nil => rfl
  | cons c cs ih =>
      simp only [annotateList, flatRow, isSpaced_annotate, h c List.mem_cons_self]
      rw [ih fun d hd => h d (List.mem_cons_of_mem c hd)]

/-- Numbering and measuring changes no width. -/
theorem flatWidth_annotate (c : Chunk) (n : Nat) :
    (c.annotate tabstop n).1.flatWidth = c.flatWidth := by
  induction c using byParts generalizing n with
  | token t s => rfl
  | comment t s b => rfl
  | group t context breakFirst cs ih => exact flatRow_annotateList ih true (n + 1)
  | block t o k i cs =>
      obtain ⟨o', k', cs', _, _, -, -, -, heq⟩ := annotate_block tabstop n t o k i cs
      rw [heq]
      rfl

theorem Flows.annotate (h : Flows style c) (n : Nat) : Flows style (c.annotate tabstop n).1 := by
  induction h generalizing n with
  | token hne hprintable hsoft => exact .token hne hprintable ⟨hsoft.behind, hsoft.before⟩
  | group hne _ hforced hsoft ih =>
      refine .group (mt annotateList_eq_nil.mp hne) (fun d hd => ?_) hforced
        ⟨hsoft.behind, hsoft.before⟩
      obtain ⟨c, hc, m, rfl⟩ := mem_annotateList hd
      exact ih c hc m

/-- Whether a chunk is measured as wide as it is on one line. -/
def IsFlat (c : Chunk) : Prop :=
  c.traits.measure = some ⟨c.flatWidth, false⟩

theorem measureRow_flat (hcs : ∀ c ∈ cs, Flows style c) (hflat : ∀ c ∈ cs, c.IsFlat)
    (isFirst : Bool) (width : Int) :
    measureRow isFirst width cs = some ⟨width + flatRow isFirst cs, false⟩ := by
  induction cs generalizing isFirst width with
  | nil => simp [measureRow, flatRow]
  | cons c cs ih =>
      have hc := hcs c List.mem_cons_self
      have hpos := hc.flatWidth_pos
      rw [measureRow, hflat c List.mem_cons_self]
      simp only [hc.startsHard, hc.endsHard, hpos, Bool.and_false, Bool.false_eq_true, if_false,
        Bool.or_false, decide_true, Bool.and_true]
      rw [ih (fun d hd => hcs d (List.mem_cons_of_mem c hd))
        fun d hd => hflat d (List.mem_cons_of_mem c hd), flatRow]
      congr 2
      omega

/-- A chunk that can be on one line is measured as it is there. -/
theorem isFlat_annotate (h : Flows style c) (n : Nat) :
    ∀ d ∈ (c.annotate tabstop n).1.walk, d.IsFlat := by
  induction h generalizing n with
  | token hne hprintable hsoft =>
      intro d hd
      rw [List.mem_singleton.mp hd]
      change some (Measure.mk (Width.firstLine 0 tabstop _).1 false) = _
      rw [Width.firstLine_printable 0 tabstop hprintable]
      rfl
  | @group t context breakFirst cs hne hcs hforced hsoft ih =>
      have hbelow : ∀ c ∈ (annotateList tabstop (n + 1) cs).1, ∀ d ∈ c.walk, d.IsFlat := by
        intro c hc
        obtain ⟨e, he, m, rfl⟩ := mem_annotateList hc
        exact ih e he m
      have hflows : ∀ c ∈ (annotateList tabstop (n + 1) cs).1, Flows style c := by
        intro c hc
        obtain ⟨e, he, m, rfl⟩ := mem_annotateList hc
        exact (hcs e he).annotate m
      intro d hd
      rcases List.mem_cons.mp hd with rfl | hd
      · change measureRow true 0 _ = _
        rw [measureRow_flat hflows fun c hc => hbelow c hc c c.mem_walk, Int.zero_add]
        rfl
      · obtain ⟨c, hc, hd⟩ := mem_walkList.mp hd
        exact hbelow c hc d hd

end Annotate

end Chunk

namespace Placing

variable {x : LayoutContext} {c : Chunk} {cs : List Chunk} {p : Position}

/-- Chunks of a tree that can be on one line, and that are measured so. -/
structure AreFlat (x : LayoutContext) (cs : List Chunk) : Prop where
  flows : ∀ c ∈ cs, c.Flows x.style
  flat : ∀ d ∈ Chunk.walkList cs, d.IsFlat

theorem AreFlat.head (h : AreFlat x (c :: cs)) : c.IsFlat :=
  h.flat c (List.mem_append_left _ c.mem_walk)

theorem AreFlat.below (h : AreFlat x (c :: cs)) : ∀ d ∈ c.walk, d.IsFlat :=
  fun d hd => h.flat d (List.mem_append_left _ hd)

theorem AreFlat.rest (h : AreFlat x (c :: cs)) : AreFlat x cs :=
  ⟨fun d hd => h.flows d (List.mem_cons_of_mem c hd),
    fun d hd => h.flat d (List.mem_append_right _ hd)⟩

section Room

theorem measure_eq (h : c.IsFlat) : measure c = pure ⟨c.flatWidth, false⟩ := by
  unfold measure
  rw [show c.traits.measure = _ from h]

/-- A chunk for which there is room fits. -/
theorem fits_eq_true (h : c.IsFlat) (hpos : 0 < c.flatWidth) {tail : Int}
    (hroom : (if !p.fresh && c.isSpaced then p.column + 1 else p.column) + c.flatWidth + tail ≤
      x.style.width) : fits x c p tail = pure true := by
  simp only [fits, measure_eq h, pure_bind, hpos, decide_true, Bool.and_true, Bool.false_eq_true,
    if_false, hroom]

/-- A part of a chunk that must stay on a line is no wider than the chunk. -/
theorem quiet_leadElements_flat (context : WrapContext) (hflows : ∀ c ∈ cs, c.Flows x.style)
    (hcs : ∀ c ∈ cs, Quiet (lead x c) fun r => 0 ≤ r.1 ∧ r.1 ≤ c.flatWidth) (isFirst : Bool)
    (width : Int) : Quiet (leadElements x context isFirst width cs) fun r =>
      width ≤ r.1 ∧ r.1 ≤ width + Chunk.flatRow isFirst cs := by
  induction cs generalizing isFirst width with
  | nil => exact Quiet.pure ⟨Int.le_refl _, by simp [Chunk.flatRow]⟩
  | cons e es ih =>
      have hrow := Chunk.flatRow_nonneg
        (fun d hd => (hflows d (List.mem_cons_of_mem e hd)).flatWidth_pos) false
      have hrest := ih (fun d hd => hflows d (List.mem_cons_of_mem e hd))
        fun d hd => hcs d (List.mem_cons_of_mem e hd)
      rw [leadElements, if_neg (by simp [(hflows e List.mem_cons_self).startsHard])]
      refine (hcs e List.mem_cons_self).bind fun own hown => ?_
      have hspace : width ≤ (if !isFirst && e.isSpaced then width + 1 else width) ∧
          (if !isFirst && e.isSpaced then width + 1 else width) + e.flatWidth +
            Chunk.flatRow false es = width + Chunk.flatRow isFirst (e :: es) := by
        rw [Chunk.flatRow]
        split <;> omega
      have hstop : width ≤ (if !isFirst && e.isSpaced then width + 1 else width) + own.1 ∧
          (if !isFirst && e.isSpaced then width + 1 else width) + own.1 ≤
            width + Chunk.flatRow isFirst (e :: es) := by omega
      refine Quiet.ite (fun _ => Quiet.pure hstop) fun _ => ?_
      refine (quiet_policy context).bind fun policy _ => ?_
      refine Quiet.ite (fun _ => Quiet.pure hstop) fun _ => ?_
      exact (hrest false _).mono fun r hr => by omega

theorem quiet_lead_flat (h : c.Flows x.style) :
    Quiet (lead x c) fun r => 0 ≤ r.1 ∧ r.1 ≤ c.flatWidth := by
  induction h with
  | @token t s _ hprintable _ =>
      rw [lead, Width.firstLine_printable 0 _ hprintable]
      exact Quiet.pure ⟨Int.natCast_nonneg _, Int.le_refl _⟩
  | group _ hcs _ _ ih =>
      rw [lead]
      refine (quiet_leadElements_flat _ hcs ih true 0).bind fun r hr => Quiet.pure ?_
      simpa [Chunk.flatWidth] using hr

/-- What must follow on a line is no wider than what comes there, if all is on one line. -/
theorem quiet_tail_flat (hflows : ∀ c ∈ cs, c.Flows x.style) {parent : Int} (hparent : 0 ≤ parent)
    (width : Int) : Quiet (tail x parent width cs) fun r =>
      width ≤ r ∧ r ≤ width + Chunk.flatRow false cs + parent := by
  induction cs generalizing width with
  | nil => exact Quiet.pure (by simp [Chunk.flatRow]; omega)
  | cons c cs ih =>
      have hc := hflows c List.mem_cons_self
      have hrow := Chunk.flatRow_nonneg
        (fun d hd => (hflows d (List.mem_cons_of_mem c hd)).flatWidth_pos) false
      rw [tail, if_neg (by simp [hc.startsHard])]
      refine (quiet_lead_flat hc).bind fun own hown => ?_
      have hspace : 0 ≤ (if 0 < own.1 && c.isSpaced then (1 : Int) else 0) ∧
          (if 0 < own.1 && c.isSpaced then (1 : Int) else 0) + c.flatWidth +
            Chunk.flatRow false cs ≤ Chunk.flatRow false (c :: cs) := by
        rw [Chunk.flatRow, Bool.not_false, Bool.true_and]
        cases c.isSpaced <;> simp
        split <;> omega
      refine Quiet.ite (fun _ => Quiet.pure (by omega)) fun _ => ?_
      exact (ih (fun d hd => hflows d (List.mem_cons_of_mem c hd)) _).mono fun r hr => by omega

end Room

section Place

/-- Whether chunks stay on the line. -/
def Stay (y : Writer.Context) (cs : List Chunk) : Prop :=
  ∀ d ∈ cs, (y.placement d).newLine = false

/-- Where there is room for a chunk, it is placed on the line with all that is below it. -/
def Stays (x : LayoutContext) (c : Chunk) : Prop :=
  ∀ p tail, 0 ≤ tail → p.column + c.flatWidth + tail ≤ x.style.width →
    Sets x (place x c p tail) (Chunk.ids c.walk.tail) fun q y =>
      q.column = p.column + c.flatWidth ∧ q.fresh = false ∧ Stay y c.walk.tail

/-- An element that stays on the line, and what follows it. -/
theorem Sets.staying {α β : Type} {move : Placing α} {there : Position} {width : Int}
    {k : Position → Placing β} {ds : List Chunk} {good : β → Prop} (behind : α → Position)
    (hc : Stays x c) (hnodup : (Chunk.ids c.walk ++ Chunk.ids ds).Nodup)
    (hmove : Sets x move [c.traits.id] fun a y =>
      behind a = there ∧ (y.placement c).newLine = false)
    (hwidth : 0 ≤ width) (hroom : there.column + c.flatWidth + width ≤ x.style.width)
    (hk : ∀ q : Position, q.column = there.column + c.flatWidth → q.fresh = false →
      Sets x (k q) (Chunk.ids ds) fun b y => good b ∧ Stay y ds) :
    Sets x (move >>= fun a => place x c (behind a) width >>= k)
      (Chunk.ids c.walk ++ Chunk.ids ds) fun b y => good b ∧ Stay y (c.walk ++ ds) := by
  have hids : Chunk.ids c.walk = [c.traits.id] ++ Chunk.ids c.walk.tail := by
    rw [c.walk_eq]
    rfl
  rw [hids, List.append_assoc] at hnodup ⊢
  refine hmove.bind (List.disjoint_of_nodup_append hnodup) fun a ⟨_, ha, _⟩ => ?_
  rw [ha]
  refine (hc there width hwidth hroom).bind
    (List.disjoint_of_nodup_append (List.Nodup.of_append_right hnodup))
    fun q ⟨_, hq, hfresh, _⟩ => ?_
  refine (hk q hq hfresh).mono fun b y _ ⟨hb, hds⟩ ⟨_, _, hbelow⟩ ⟨_, hline⟩ => ⟨hb, ?_⟩
  rw [c.walk_eq]
  exact List.forall_mem_append.mpr ⟨List.forall_mem_cons.mpr ⟨hline, hbelow⟩, hds⟩

/-- Elements behind another one on the line. -/
theorem sets_placeSequence_flat (hcs : ∀ c ∈ cs, Stays x c) (hflat : AreFlat x cs)
    (hnodup : (Chunk.ids (Chunk.walkList cs)).Nodup) (start : Indent) {b : Chunk}
    (hb : b.endsHard = false) (hfresh : p.fresh = false) {tail : Int} (htail : 0 ≤ tail)
    (hroom : p.column + Chunk.flatRow false cs + tail ≤ x.style.width) :
    Sets x (placeSequence x cs start (some b) p tail) (Chunk.ids (Chunk.walkList cs)) fun q y =>
      (q.column = p.column + Chunk.flatRow false cs ∧ q.fresh = false) ∧
        Stay y (Chunk.walkList cs) := by
  induction cs generalizing b p with
  | nil => exact Sets.pure fun y _ => ⟨⟨by simp [Chunk.flatRow], hfresh⟩, nofun⟩
  | cons c cs ih =>
      have hc := hflat.flows c List.mem_cons_self
      rw [Chunk.walkList, Chunk.ids_append] at hnodup ⊢
      rw [Chunk.flatRow, Bool.not_false, Bool.true_and] at hroom
      rw [placeSequence]
      refine Sets.after (quiet_tail_flat hflat.rest.flows htail 0) fun behind hbehind => ?_
      have hdemanded : ¬(b.endsHard || c.startsHard) = true := by simp [hb, hc.startsHard]
      -- The element is kept behind its space.
      let p' : Position := { p with head := start }
      have hspace :
          (if !p'.fresh && c.isSpaced then { p' with column := p'.column + 1 } else p').column =
            p.column + if c.isSpaced then 1 else 0 := by
        change Position.column (if !p.fresh && c.isSpaced then _ else _) = _
        rw [hfresh]
        cases c.isSpaced <;> simp [p']
      have hstay : Sets x (stay c p' >>= fun q => place x c q behind >>= fun q =>
          placeSequence x cs start (some c) q tail)
          (Chunk.ids c.walk ++ Chunk.ids (Chunk.walkList cs)) fun q y =>
            (q.column = p.column + Chunk.flatRow false (c :: cs) ∧ q.fresh = false) ∧
              Stay y (c.walk ++ Chunk.walkList cs) := by
        refine Sets.staying id (hcs c List.mem_cons_self) hnodup (sets_stay p') (by omega)
          (by rw [hspace]; omega) fun q hq hfresh => ?_
        rw [hspace] at hq
        refine (ih (fun d hd => hcs d (List.mem_cons_of_mem c hd)) hflat.rest
          (List.Nodup.of_append_right hnodup) hc.endsHard hfresh (by omega)).mono ?_
        intro r y _ ⟨⟨hr, hfresh⟩, hrest⟩
        refine ⟨⟨?_, hfresh⟩, hrest⟩
        rw [hr, hq, Chunk.flatRow, Bool.not_false, Bool.true_and]
        omega
      refine Sets.ite (fun h => absurd h hdemanded) fun _ => Sets.ite (fun _ => ?_) fun _ => hstay
      have hfits : fits x c p' behind = pure true := by
        refine fits_eq_true hflat.head hc.flatWidth_pos ?_
        rw [show p'.fresh = false from hfresh, show p'.column = p.column from rfl]
        revert hroom
        cases c.isSpaced <;> simp <;> omega
      change Sets x (fits x c p' behind >>= _) _ _
      rw [hfits, pure_bind]
      exact hstay

/-- Elements of which the first one comes first in its group. -/
theorem sets_placeSequence_first (hne : cs ≠ []) (hcs : ∀ c ∈ cs, Stays x c) (hflat : AreFlat x cs)
    (hnodup : (Chunk.ids (Chunk.walkList cs)).Nodup) (start : Indent) {tail : Int}
    (htail : 0 ≤ tail) (hroom : p.column + Chunk.flatRow true cs + tail ≤ x.style.width) :
    Sets x (placeSequence x cs start none p tail) (Chunk.ids (Chunk.walkList cs)) fun q y =>
      (q.column = p.column + Chunk.flatRow true cs ∧ q.fresh = false) ∧
        Stay y (Chunk.walkList cs) := by
  obtain ⟨c, cs, rfl⟩ := List.exists_cons_of_ne_nil hne
  have hc := hflat.flows c List.mem_cons_self
  rw [Chunk.walkList, Chunk.ids_append] at hnodup ⊢
  simp only [Chunk.flatRow, Bool.not_true, Bool.false_and, Bool.false_eq_true, if_false, zero_add]
    at hroom ⊢
  rw [placeSequence]
  refine Sets.after (quiet_tail_flat hflat.rest.flows htail 0) fun behind hbehind => ?_
  refine Sets.staying (fun _ => { p with head := start }) (hcs c List.mem_cons_self) hnodup
    (sets_continueLine.mono fun _ _ _ hline => ⟨rfl, hline⟩) (by omega) ?_ fun q hq hfresh => ?_
  · change p.column + c.flatWidth + behind ≤ x.style.width
    omega
  · change q.column = p.column + c.flatWidth at hq
    refine (sets_placeSequence_flat (fun d hd => hcs d (List.mem_cons_of_mem c hd)) hflat.rest
      (List.Nodup.of_append_right hnodup) start hc.endsHard hfresh htail (by omega)).mono ?_
    intro r y _ ⟨⟨hr, hfresh⟩, hrest⟩
    exact ⟨⟨by omega, hfresh⟩, hrest⟩

/-- A chunk for which there is room is placed on the line. -/
theorem stays (hflows : c.Flows x.style) (hflat : ∀ d ∈ c.walk, d.IsFlat)
    (hnodup : (Chunk.ids c.walk).Nodup) : Stays x c := by
  induction hflows with
  | @token t s hne hprintable hsoft =>
      intro p tail htail hroom
      rw [place]
      refine Sets.after quiet_step fun _ _ => (Sets.of_quiet (quiet_token p hne)).mono ?_
      rintro _ y - rfl
      exact ⟨Width.advance_printable p.column x.style.tabSize hprintable, rfl, nofun⟩
  | @group t context breakFirst cs hne hcs hforced hsoft ih =>
      intro p tail htail hroom
      have hbelow : AreFlat x cs := ⟨hcs, fun d hd => hflat d (List.mem_cons_of_mem _ hd)⟩
      replace hnodup := List.Nodup.of_cons hnodup
      have hstays : ∀ c ∈ cs, Stays x c := fun c hc => ih c hc
        (fun d hd => hbelow.flat d (Chunk.mem_walkList.mpr ⟨c, hc, hd⟩))
        (hnodup.sublist ((Chunk.walk_sublist_walkList hc).map _))
      have hsequence := (sets_placeSequence_first hne hstays hbelow hnodup p.line htail hroom).mono
        fun q y _ ⟨⟨hq, hfresh⟩, hstay⟩ => (⟨hq, hfresh, hstay⟩ :
          q.column = p.column + (Chunk.group t context breakFirst cs).flatWidth ∧ q.fresh = false ∧
            Stay y (Chunk.group t context breakFirst cs).walk.tail)
      rw [place]
      refine Sets.after quiet_step fun _ _ => ?_
      refine Sets.after (quiet_policy context) fun policy hpolicy => ?_
      refine Sets.ite (fun _ => hsequence) fun hsome => ?_
      obtain rfl := hpolicy.resolve_left hsome
      rw [measure_eq (hflat _ (Chunk.mem_walk _)), pure_bind]
      refine Sets.ite (fun _ => hsequence) fun hlong => absurd ?_ hlong
      simpa [hforced] using hroom

end Place

/-- Measuring agrees with placing. A chunk that can be on one line is measured without a line break,
and where there is room for it and for what must follow it, it is placed on the line, with no line
break in it, and ends where its width says. -/
theorem place_flat (hflows : c.Flows x.style) (n : Nat) :
    measure (c.annotate x.style.tabSize n).1 = pure ⟨c.flatWidth, false⟩ ∧
      ∀ (p : Position) (tail : Int), 0 ≤ tail → p.column + c.flatWidth + tail ≤ x.style.width →
        ∀ s : LayoutState,
          (∀ d ∈ (c.annotate x.style.tabSize n).1.walk, d.traits.id < s.placements.size) →
          Yields (place x (c.annotate x.style.tabSize n).1 p tail) s fun q s' =>
            q.column = p.column + c.flatWidth ∧
              ∀ d ∈ (c.annotate x.style.tabSize n).1.walk.tail,
                (s'.placements.getD d.traits.id {}).newLine = false := by
  have hflat : ∀ d ∈ (c.annotate x.style.tabSize n).1.walk, d.IsFlat :=
    Chunk.isFlat_annotate hflows n
  have hwidth : (c.annotate x.style.tabSize n).1.flatWidth = c.flatWidth :=
    Chunk.flatWidth_annotate c n
  have hnodup : (Chunk.ids (c.annotate x.style.tabSize n).1.walk).Nodup := by
    rw [(Chunk.ids_annotate x.style.tabSize c n).2]
    exact List.nodup_range'
  refine ⟨hwidth ▸ measure_eq (hflat _ (Chunk.mem_walk _)), fun p tail htail hroom s hs => ?_⟩
  rw [← hwidth] at hroom ⊢
  refine (stays (hflows.annotate n) hflat hnodup p tail htail hroom s fun id hid => ?_).mono ?_
  · obtain ⟨d, hd, rfl⟩ := List.mem_map.mp hid
    exact hs d (List.mem_of_mem_tail hd)
  · intro q s' ⟨_, _, hpost⟩
    obtain ⟨hq, _, hstay⟩ := hpost ⟨x.style, [], .empty, s'.placements⟩ ⟨rfl, rfl⟩ fun _ _ => rfl
    exact ⟨hq, hstay⟩

/-- Arguments behind optional line breaks, with a group among them. -/
def nestedArguments : Chunk :=
  .group {} .invocationArguments true
    [.token { breakAfter := .optional } (ascii "a,"),
      .group { space := true } .binaryExpression false
        [.token {} (ascii "b"), .token { space := true } (ascii "+ c")]]

theorem place_flat_arguments :
    nestedArguments.flatWidth = 8 ∧
      Yields (place ⟨.default, ⟨[], []⟩, 64⟩ (nestedArguments.annotate Style.default.tabSize 0).1
          { column := 111 } 1) { placements := Array.replicate 5 {} } fun q s' =>
        q.column = 119 ∧ ∀ d ∈ (nestedArguments.annotate Style.default.tabSize 0).1.walk.tail,
          (s'.placements.getD d.traits.id {}).newLine = false := by
  have hinner : Chunk.Flows Style.default (.group { space := true } .binaryExpression false
      [.token {} (ascii "b"), .token { space := true } (ascii "+ c")]) := by
    refine .group (by simp) ?_ (by decide) ⟨by decide, rfl⟩
    simp only [List.forall_mem_cons, List.not_mem_nil, false_implies, implies_true, and_true]
    exact ⟨.token (by decide) (by decide) ⟨by decide, rfl⟩,
      .token (by decide) (by decide) ⟨by decide, rfl⟩⟩
  have hflows : nestedArguments.Flows Style.default := by
    refine .group (by simp) ?_ (by decide) ⟨by decide, rfl⟩
    simp only [List.forall_mem_cons, List.not_mem_nil, false_implies, implies_true, and_true]
    exact ⟨.token (by decide) (by decide) ⟨by decide, rfl⟩, hinner⟩
  exact ⟨by decide, (place_flat (x := ⟨.default, ⟨[], []⟩, 64⟩) hflows 0).2 { column := 111 } 1
    (by decide) (by decide) { placements := Array.replicate 5 {} } (by decide)⟩

end Placing

end CodeLayout
