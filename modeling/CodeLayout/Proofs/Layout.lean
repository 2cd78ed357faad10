import CodeLayout.Proofs.Quiet

/-!
# Laying out comments

A tree whose comments all have contents is laid out without a fault, and every comment in it gets
its lines for the column at which it stands. `Places` is the rule for steps: a step meets no fault,
places the comments of some chunks, and undoes no comment that was placed before.
-/

namespace CodeLayout

/-- Whether a placement has the lines of a comment, laid out at some position. -/
def Placement.Shows (x : LayoutContext) (c : Comment) (q : Placement) : Prop :=
  ∃ p : Position, q.rendered = some (c.render p.column x.style.commentWidth) ∧
    q.hanging = Placing.alignedAt x p

namespace Placing

/-- Whether a chunk has its lines if it is a comment. -/
def IsPlaced (x : LayoutContext) (s : LayoutState) (d : Chunk) : Prop :=
  ∀ t text c, d = .comment t text (some c) →
    ∃ q, s.placements[t.id]? = some q ∧ q.Shows x c

/-- A later state: comments that have their lines keep them, and all that is recorded besides is
that laying out gave up. -/
structure Later (x : LayoutContext) (all : List Chunk) (s s' : LayoutState) : Prop where
  size : s'.placements.size = s.placements.size
  placed : ∀ d ∈ all, IsPlaced x s d → IsPlaced x s' d
  calm : Calm s s'

/-- A step meets no fault and gives some of the comments of a tree their lines. -/
def Places {α : Type} (x : LayoutContext) (all : List Chunk) (m : Placing α) (cs : List Chunk) :
    Prop :=
  ∀ s, (∀ d ∈ all, d.traits.id < s.placements.size) →
    Yields m s fun _ s' => Later x all s s' ∧ ∀ d ∈ all, d ∈ cs → IsPlaced x s' d

variable {α β : Type} {x : LayoutContext} {all cs ds : List Chunk} {c : Chunk} {m : Placing α}
  {k : α → Placing β}

theorem Later.refl (s : LayoutState) : Later x all s s :=
  ⟨rfl, fun _ _ h => h, Calm.refl s⟩

theorem Later.trans {s s' s'' : LayoutState} (h : Later x all s s') (h' : Later x all s' s'') :
    Later x all s s'' :=
  ⟨h'.size.trans h.size, fun d hd hs => h'.placed d hd (h.placed d hd hs), h.calm.trans h'.calm⟩

theorem Later.of_eq {s s' : LayoutState} (h : s'.placements = s.placements) (hcalm : Calm s s') :
    Later x all s s' :=
  ⟨by rw [h], fun d _ hs t text c hc => by rw [h]; exact hs t text c hc, hcalm⟩

namespace Places

theorem pure {a : α} : Places x all (Pure.pure a) [] :=
  fun s _ => Yields.pure ⟨Later.refl s, by simp⟩

theorem mono (h : Places x all m cs) (hsub : ∀ d ∈ ds, d ∈ cs) : Places x all m ds :=
  fun s hs => (h s hs).mono fun _ _ ⟨hlater, hplaced⟩ =>
    ⟨hlater, fun d hd hmem => hplaced d hd (hsub d hmem)⟩

theorem bind (h : Places x all m cs) (hk : ∀ a, Places x all (k a) ds) :
    Places x all (m >>= k) (cs ++ ds) := by
  intro s hs
  refine (h s hs).bind fun a s' ⟨hlater, hplaced⟩ => ?_
  refine (hk a s' fun d hd => hlater.size ▸ hs d hd).mono fun b s'' ⟨hlater', hplaced'⟩ => ?_
  refine ⟨hlater.trans hlater', fun d hd hmem => ?_⟩
  rcases List.mem_append.mp hmem with hmem | hmem
  · exact hlater'.placed d hd (hplaced d hd hmem)
  · exact hplaced' d hd hmem

/-- A step that places nothing, followed by others. -/
theorem quiet (h : Places x all m []) (hk : ∀ a, Places x all (k a) cs) :
    Places x all (m >>= k) cs :=
  h.bind hk

theorem ite {p : Prop} [Decidable p] {m' : Placing α} (h : p → Places x all m cs)
    (h' : ¬p → Places x all m' cs) : Places x all (if p then m else m') cs :=
  fun s hs => Yields.ite (fun hp => h hp s hs) fun hp => h' hp s hs

theorem of_quiet {mid : α → Prop} (h : Quiet m mid) : Places x all m [] :=
  fun s _ => (h s).mono fun _ _ ⟨_, heq, hcalm⟩ => ⟨Later.of_eq heq hcalm, by simp⟩

/-- What is placed behind a step that places nothing. -/
theorem after {mid : α → Prop} (h : Quiet m mid) (hk : ∀ a, mid a → Places x all (k a) cs) :
    Places x all (m >>= k) cs := by
  refine fun s hs => (h s).bind fun a s' ⟨ha, heq, hcalm⟩ => ?_
  exact (hk a ha s' (by rwa [heq])).mono fun _ _ ⟨hlater, hplaced⟩ =>
    ⟨(Later.of_eq heq hcalm).trans hlater, hplaced⟩

theorem get {k : LayoutState → Placing β} (hk : ∀ s, Places x all (k s) cs) :
    Places x all (MonadState.get >>= k) cs :=
  fun s hs => Yields.get (hk s s hs)

/-- Chunks that are no comments need no lines. -/
theorem cons (h : Places x all m cs) (hc : ∀ t s b, c ≠ .comment t s b) :
    Places x all m (c :: cs) := by
  refine fun s hs => (h s hs).mono fun _ _ ⟨hlater, hplaced⟩ => ⟨hlater, fun d hd hmem => ?_⟩
  rcases List.mem_cons.mp hmem with rfl | hmem
  · exact fun t text c heq => absurd heq (hc t text (some c))
  · exact hplaced d hd hmem

end Places

/-- A change of a placement that keeps the lines of a comment. -/
theorem places_setPlacement {f : Placement → Placement}
    (hf : ∀ q, (f q).rendered = q.rendered ∧ (f q).hanging = q.hanging) :
    Places x all (setPlacement c f) [] := by
  intro s _
  refine ⟨(), _, rfl, ⟨by simp, fun d _ hs t text b hb => ?_, Calm.refl _⟩, by simp⟩
  obtain ⟨q, hget, p, hrendered, hhanging⟩ := hs t text b hb
  simp only [Array.getElem?_modify, hget]
  split
  · exact ⟨f q, rfl, p, (hf q).1.trans hrendered, (hf q).2.trans hhanging⟩
  · exact ⟨q, rfl, p, hrendered, hhanging⟩

theorem places_breakTo (indent : Indent) (p : Position) :
    Places x all (breakTo x c indent p) [] := by
  rw [breakTo]
  refine Places.after (quiet_modifyTrial _) fun _ _ => ?_
  refine Places.quiet (places_setPlacement fun _ => ⟨rfl, rfl⟩) fun _ => ?_
  exact Places.pure

theorem places_continueLine : Places x all (continueLine c) [] :=
  places_setPlacement fun _ => ⟨rfl, rfl⟩

theorem places_stay (p : Position) : Places x all (stay c p) [] := by
  rw [stay]
  refine Places.quiet (places_setPlacement fun _ => ⟨rfl, rfl⟩) fun _ => ?_
  exact Places.pure

theorem places_token (text : Bytes) (p : Position) : Places x all (token x text p) [] := by
  by_cases htext : text = []
  · rw [token, if_pos (by simp [htext])]
    exact Places.pure
  · exact Places.of_quiet (quiet_token p htext)

theorem places_comment (hall : Chunk.Ready all) {t : Traits} {text : Bytes}
    {contents : Option Comment} (hc : .comment t text contents ∈ all) (p : Position) :
    Places x all (comment x (.comment t text contents) contents p)
      [.comment t text contents] := by
  cases contents with
  | none => exact absurd hc (hall.contents t text)
  | some b =>
      have hset : Places x all (setPlacement (.comment t text (some b)) fun q => { q with
          rendered := some (b.render p.column x.style.commentWidth)
          hanging := alignedAt x p }) [.comment t text (some b)] := by
        intro s hs
        have hlt : t.id < s.placements.size := hs _ hc
        -- The comment itself has its lines now.
        have hown : IsPlaced x { s with placements := s.placements.modify t.id fun q => { q with
            rendered := some (b.render p.column x.style.commentWidth)
            hanging := alignedAt x p } } (.comment t text (some b)) := by
          rintro _ _ _ ⟨rfl, rfl, rfl⟩
          simp only [Array.getElem?_modify, if_true, Array.getElem?_eq_getElem hlt]
          exact ⟨_, rfl, p, rfl, rfl⟩
        refine ⟨(), _, rfl, ⟨Array.size_modify, fun d hd hplaced => ?_, Calm.refl _⟩,
          fun d _ hmem => ?_⟩
        · by_cases hid : d.traits.id = t.id
          · rw [hall.distinct d hd _ hc hid]
            exact hown
          · rintro t' text' b' rfl
            obtain ⟨q, hget, hshows⟩ := hplaced t' text' b' rfl
            refine ⟨q, ?_, hshows⟩
            rw [← hget]
            exact Array.getElem?_modify.trans (if_neg (Ne.symm hid))
        · rw [List.mem_singleton.mp hmem]
          exact hown
      rw [comment]
      refine Places.mono (hset.bind fun _ => (?_ : Places x all _ [])) (by simp)
      split <;> exact Places.pure

/-- A step that is guarded and meets no fault is run as it is. -/
theorem places_guarded {p : Position} {m : Placing Position} (h : Places x all m cs) :
    Places x all (guarded x c p m) cs := by
  intro s hs
  obtain ⟨a, s', hrun, hpost⟩ := h s hs
  refine ⟨a, s', ?_, hpost⟩
  change (guarded x c p (fun _ => m.run s)).run s = _
  rw [hrun]
  rfl

theorem places_attempt {p : Position} {place : Position → Placing Position}
    (h : ∀ q, Places x all (place q) cs) : Places x all (attempt c p place) cs := by
  rw [attempt]
  refine Places.after (quiet_modify fun _ => ⟨rfl, rfl⟩) fun _ _ => ?_
  refine (places_stay p).quiet fun q => ?_
  refine Places.mono ((h _).bind fun q => (?_ : Places x all _ [])) (by simp)
  refine Places.get fun s => ?_
  refine Places.after (quiet_modify fun _ => ⟨rfl, rfl⟩) fun _ _ => ?_
  refine Places.ite (fun _ => Places.pure) fun _ => ?_
  exact Places.after (quiet_modifyTrial _) fun _ _ => Places.pure

theorem places_placeItems (hcs : ∀ c ∈ cs, ∀ p tail, Places x all (place x c p tail) c.walk)
    (indent : Indent) (p : Position) :
    Places x all (placeItems x cs indent p) (Chunk.walkList cs) := by
  induction cs generalizing p with
  | nil => exact Places.pure
  | cons c cs ih =>
      have hrest := ih fun d hd => hcs d (List.mem_cons_of_mem c hd)
      rw [placeItems, Chunk.walkList]
      refine (places_breakTo indent p).quiet fun q => ?_
      exact (places_guarded (hcs c List.mem_cons_self _ 0)).bind fun q => hrest q

theorem places_placeOpening {o : Option Chunk}
    (ho : ∀ c ∈ o.toList, ∀ p tail, Places x all (place x c p tail) c.walk) (p : Position) :
    Places x all (placeOpening x o p) (Chunk.walkList o.toList) := by
  cases o with
  | none => exact Places.pure
  | some c =>
      rw [placeOpening, Option.toList_some, Chunk.walkList, Chunk.walkList, List.append_nil]
      exact places_continueLine.quiet fun _ => ho c (by simp) p 0

theorem places_placeClosing {o : Option Chunk}
    (ho : ∀ c ∈ o.toList, ∀ p tail, Places x all (place x c p tail) c.walk) (startsLine : Bool)
    (p : Position) : Places x all (placeClosing x o startsLine p) (Chunk.walkList o.toList) := by
  cases o with
  | none => exact Places.pure
  | some c =>
      rw [placeClosing, Option.toList_some, Chunk.walkList, Chunk.walkList, List.append_nil]
      refine Places.ite (fun _ => ?_) fun _ => ?_
      · exact (places_breakTo p.base p).quiet fun q => ho c (by simp) q 0
      · exact places_continueLine.quiet fun _ => ho c (by simp) p 0

section Tree

variable (hall : Chunk.Ready all)
include hall

theorem places_placeSequence (hcs : ∀ c ∈ cs, ∀ p tail, Places x all (place x c p tail) c.walk)
    (hmem : ∀ d ∈ Chunk.walkList cs, d ∈ all) (start : Indent) (previous : Option Chunk)
    (p : Position) (tail : Int) :
    Places x all (placeSequence x cs start previous p tail) (Chunk.walkList cs) := by
  induction cs generalizing previous p with
  | nil => exact Places.pure
  | cons c cs ih =>
      simp only [Chunk.walkList, List.mem_append] at hmem
      have htail : ∀ d ∈ Chunk.walkList cs, d ∈ all := fun d hd => hmem d (Or.inr hd)
      have hc : c ∈ all := hmem c (Or.inl c.mem_walk)
      have hplace : ∀ q behind, Places x all (do
          let q ← place x c q behind
          placeSequence x cs start (some c) q tail) (Chunk.walkList (c :: cs)) := by
        intro q behind
        rw [Chunk.walkList]
        exact (hcs c List.mem_cons_self q behind).bind fun q =>
          ih (fun d hd => hcs d (List.mem_cons_of_mem c hd)) htail (some c) q
      rw [placeSequence]
      refine Places.after (quiet_tail hall htail tail 0) fun behind _ => ?_
      cases previous with
      | none => exact places_continueLine.quiet fun _ => hplace _ behind
      | some b =>
          refine Places.ite (fun _ => ?_) fun _ => Places.ite (fun _ => ?_) fun _ => ?_
          · exact (places_breakTo _ _).quiet fun q => hplace q behind
          · refine Places.after (quiet_fits hall hc _ behind) fun _ _ => ?_
            refine Places.ite (fun _ => ?_) fun _ => ?_
            · exact (places_stay _).quiet fun q => hplace q behind
            · exact (places_breakTo _ _).quiet fun q => hplace q behind
          · exact (places_stay _).quiet fun q => hplace q behind

theorem places_placeSplit (hcs : ∀ c ∈ cs, ∀ p tail, Places x all (place x c p tail) c.walk)
    (hmem : ∀ d ∈ Chunk.walkList cs, d ∈ all) (plan : SplitPlan) (broke : Bool) (i : Nat)
    (previous : Option Chunk) (p : Position) (tail : Int) :
    Places x all (placeSplit x cs plan broke i previous p tail) (Chunk.walkList cs) := by
  induction cs generalizing broke i previous p with
  | nil => exact Places.pure
  | cons c cs ih =>
      simp only [Chunk.walkList, List.mem_append] at hmem
      have htail : ∀ d ∈ Chunk.walkList cs, d ∈ all := fun d hd => hmem d (Or.inr hd)
      have hc : c ∈ all := hmem c (Or.inl c.mem_walk)
      have hown := hcs c List.mem_cons_self
      have hrest := ih (fun d hd => hcs d (List.mem_cons_of_mem c hd)) htail
      rw [placeSplit, Chunk.walkList]
      refine Places.after (quiet_choose hall hc plan broke i previous p _) fun choice _ => ?_
      extract_lets wrapped anew again
      -- Without a trial that went well, the element is placed for good.
      have hanew : ∀ q, Places x all (anew q) (c.walk ++ Chunk.walkList cs) := fun q =>
        (hown _ _).bind fun q => hrest _ (i + 1) (some c) q
      have hagain : Places x all (again none) (c.walk ++ Chunk.walkList cs) := by
        simp only [again]
        clear_value wrapped anew
        cases wrapped with
        | none => exact (places_stay p).quiet hanew
        | some indent => exact (places_breakTo indent p).quiet hanew
      have htried : ∀ tried, Places x all (again tried) (Chunk.walkList cs) := by
        intro tried
        cases tried with
        | none => exact hagain.mono fun d hd => List.mem_append_right _ hd
        | some q => exact hrest broke (i + 1) (some c) q
      cases choice with
      | attempt => exact (places_attempt fun q => hown q _).bind htried
      | wrap | keep => exact hagain

theorem places_place (hc : ∀ d ∈ c.walk, d ∈ all) (p : Position) (tail : Int) :
    Places x all (place x c p tail) c.walk := by
  induction c using Chunk.byParts generalizing p tail with
  | token t s =>
      rw [place, Chunk.walk]
      refine Places.cons ?_ (by rintro _ _ _ ⟨⟩)
      exact Places.after quiet_step fun _ _ => places_token s p
  | comment t s b =>
      rw [place, Chunk.walk]
      have hmem : .comment t s b ∈ all := hc _ (by simp [Chunk.walk])
      exact Places.after quiet_step fun _ _ => places_comment hall hmem p
  | group t context breakFirst cs ih =>
      have hmem : ∀ d ∈ Chunk.walkList cs, d ∈ all := fun d hd => hc d (by simp [Chunk.walk, hd])
      have hcs : ∀ c ∈ cs, ∀ p tail, Places x all (place x c p tail) c.walk := fun c hc p tail =>
        ih c hc (fun d hd => hmem d (Chunk.mem_walkList.mpr ⟨c, hc, hd⟩)) p tail
      have hsequence := places_placeSequence hall hcs hmem p.line none p tail
      rw [place, Chunk.walk]
      refine Places.cons ?_ (by rintro _ _ _ ⟨⟩)
      refine Places.after quiet_step fun _ _ => ?_
      refine Places.after (quiet_policy context) fun policy _ => ?_
      refine Places.ite (fun _ => hsequence) fun _ => ?_
      refine Places.after (quiet_measure hall (hc _ (Chunk.mem_walk _))) fun m _ => ?_
      refine Places.ite (fun _ => hsequence) fun _ => ?_
      have hsplit := places_placeSplit hall hcs hmem
        ⟨policy, wrapIndent x context policy p, breakFirst⟩ false 0 none p tail
      exact Places.mono (hsplit.bind fun q => (Places.pure : Places x all _ [])) (by simp)
  | block t o c i cs iho ihc ih =>
      rw [Chunk.walk_block] at hc ⊢
      have hmem : ∀ ds : List Chunk, (∀ d ∈ Chunk.walkList ds, d ∈ all) →
          (∀ d ∈ ds, (∀ e ∈ d.walk, e ∈ all) → ∀ p tail, Places x all (place x d p tail) d.walk) →
          ∀ d ∈ ds, ∀ p tail, Places x all (place x d p tail) d.walk :=
        fun ds hds hih d hd => hih d hd fun e he => hds e (Chunk.mem_walkList.mpr ⟨d, hd, he⟩)
      have ho := hmem o.toList (fun d hd => hc d (by simp [hd])) iho
      have hcs := hmem cs (fun d hd => hc d (by simp [hd])) ih
      have hclose := hmem c.toList (fun d hd => hc d (by simp [hd])) ihc
      rw [place]
      refine Places.cons ?_ (by rintro _ _ _ ⟨⟩)
      refine Places.after quiet_step fun _ _ => ?_
      rw [List.append_assoc]
      refine (places_placeOpening ho p).bind fun q => ?_
      refine (places_placeItems hcs _ q).bind fun q => ?_
      exact places_placeClosing hclose _ _

/-- Laying out a block gives all comments in it their lines. -/
theorem places_root {t : Traits} {o c : Option Chunk} {i : Bool}
    (hmem : ∀ d ∈ (Chunk.block t o c i cs).walk, d ∈ all) :
    Places x all (root x (.block t o c i cs)) (Chunk.block t o c i cs).walk := by
  rw [Chunk.walk_block] at hmem ⊢
  have hplace : ∀ ds : List Chunk, (∀ d ∈ Chunk.walkList ds, d ∈ all) →
      ∀ d ∈ ds, ∀ p tail, Places x all (place x d p tail) d.walk :=
    fun ds hds d hd => places_place hall fun e he => hds e (Chunk.mem_walkList.mpr ⟨d, hd, he⟩)
  have ho := hplace o.toList fun d hd => hmem d (by simp [hd])
  have hcs := hplace cs fun d hd => hmem d (by simp [hd])
  have hclose := hplace c.toList fun d hd => hmem d (by simp [hd])
  rw [root]
  refine places_continueLine.quiet fun _ => ?_
  refine Places.cons ?_ (by rintro _ _ _ ⟨⟩)
  rw [List.append_assoc]
  refine (places_placeOpening ho _).bind fun q => ?_
  refine (places_placeItems hcs _ q).bind fun q => ?_
  exact places_placeClosing hclose _ _

end Tree

end Placing

/-- The context in which a tree is laid out. -/
def Layout.context (c : Chunk) (file : SourceFile) (style : Style) : LayoutContext where
  style
  file
  budget := budget (c.annotate style.tabSize 0).2

section Tree

variable {t : Traits} {o c : Option Chunk} {i : Bool} {cs : List Chunk} (file : SourceFile)
  (style : Style)
  (h : ∀ start stop text, Leaf.comment start stop text none ∉ (Chunk.block t o c i cs).content)
include h

/-- The root of a tree whose comments have contents is placed with all that is below it. -/
theorem Layout.places_ofChunk : Placing.Places (context (.block t o c i cs) file style)
    (Chunk.annotate style.tabSize 0 (.block t o c i cs)).1.walk
    (Placing.root (context (.block t o c i cs) file style)
      (Chunk.annotate style.tabSize 0 (.block t o c i cs)).1)
    (Chunk.annotate style.tabSize 0 (.block t o c i cs)).1.walk := by
  obtain ⟨o', c', cs', k, m, -, -, -, heq⟩ := Chunk.annotate_block style.tabSize 0 t o c i cs
  have hready := Chunk.ready_annotate style.tabSize h
  rw [heq] at hready ⊢
  exact Placing.places_root hready fun d hd => hd

/-- Every comment of a block that is laid out has its lines for some position. -/
theorem Layout.ofChunk_shows : ∀ t' text b, .comment t' text (some b) ∈
        (ofChunk (.block t o c i cs) file style).layout.chunk.walk →
      ((ofChunk (.block t o c i cs) file style).layout.placements.getD t'.id {}).Shows
        (context (.block t o c i cs) file style) b := by
  intro t' text b hmem
  change _ ∈ (Chunk.annotate style.tabSize 0 (.block t o c i cs)).1.walk at hmem
  obtain ⟨_, s, hrun, -, hplaced⟩ := places_ofChunk file style h
    { placements := Array.replicate (Chunk.annotate style.tabSize 0 (.block t o c i cs)).2 {} }
    fun d hd => by simpa using Chunk.id_lt hd
  obtain ⟨q, hget, hshows⟩ := hplaced _ hmem hmem t' text b rfl
  have hplacements : (ofChunk (.block t o c i cs) file style).layout.placements = s.placements :=
    congrArg (fun r => r.2.placements) hrun
  rw [hplacements, Array.getD_eq_getD_getElem?, hget]
  exact hshows

/-- Laying out a block meets no fault, and all that may be recorded is that it gave up. -/
theorem Layout.ofChunk_ok : (∃ p, (ofChunk (.block t o c i cs) file style).position = .ok p) ∧
    ∀ d ∈ (ofChunk (.block t o c i cs) file style).report, ∃ n, d.problem = .gaveUp n := by
  obtain ⟨p, s, hrun, hlater, -⟩ := places_ofChunk file style h
    { placements := Array.replicate (Chunk.annotate style.tabSize 0 (.block t o c i cs)).2 {} }
    fun d hd => by simpa using Chunk.id_lt hd
  have hposition : (ofChunk (.block t o c i cs) file style).position = .ok p :=
    congrArg (fun r => r.1) hrun
  have hreport : (ofChunk (.block t o c i cs) file style).report = s.recorded.reverse :=
    congrArg (fun r => r.2.recorded.reverse) hrun
  refine ⟨⟨p, hposition⟩, fun d hd => ?_⟩
  rw [hreport, List.mem_reverse] at hd
  exact (hlater.calm d hd).resolve_left List.not_mem_nil

end Tree

end CodeLayout
