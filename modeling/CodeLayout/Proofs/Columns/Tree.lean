import CodeLayout.Proofs.Columns.Placing

/-!
# The columns of a tree

Placing tracks the writer over the elements of a group, whether they are split or not, and over the
items and the braces of a block. So the position behind a whole tree is that of the writer.
-/

namespace CodeLayout.Placing

variable {x : LayoutContext} {all cs : List Chunk} {c : Chunk} {p : Position}

/-- Keeping an element on trial. The trial is good for nothing if the line gets too long. -/
theorem sets_attempt {place : Position → Placing Position} (hneat : c.Neat)
    (hnodup : (Chunk.ids c.walk).Nodup) (hp : p.IsAligned)
    (hplace : ∀ q, q.IsAligned → Sets x (place q) (Chunk.ids c.walk.tail) fun r y =>
      r.IsBehind ∧ Writer.Arrives y c q r) :
    Sets x (attempt c p place) (Chunk.ids c.walk) fun o y =>
      ∀ q, o = some q → q.IsBehind ∧ Writer.Lands y c.walk p q := by
  rw [attempt]
  refine Sets.after (quiet_modify fun _ => ⟨rfl, rfl⟩) fun _ _ => ?_
  rw [← List.append_nil (Chunk.ids c.walk)] at hnodup ⊢
  refine Sets.element id hnodup (sets_stay_moves hp hneat)
    (fun q hq => hplace _ ⟨hq.line, hq.line, hq.head⟩) fun r hr => ?_
  refine Sets.get fun s => ?_
  refine Sets.after (quiet_modify fun _ => ⟨rfl, rfl⟩) fun _ _ => ?_
  refine Sets.ite (fun _ => Sets.pure (by rintro _ _ _ _ ⟨⟩)) fun _ => ?_
  refine Sets.after (quiet_modifyTrial _) fun _ _ => Sets.pure ?_
  rintro y - hlands _ ⟨⟩
  exact ⟨⟨⟨hr.line, hp.base, hr.head⟩, hr.fresh⟩, hlands⟩

theorem aligned_wrapIndent (context : WrapContext) (policy : Policy) (hp : p.IsAligned) :
    0 ≤ (wrapIndent x context policy p).align := by
  unfold wrapIndent
  extract_lets start
  have hstart : 0 ≤ start.align := by
    simp only [start]
    split
    · exact hp.head
    · exact hp.head
    · exact hp.head
    · exact hp.line
  cases policy.indent with
  | onColumn => exact le_max_right _ _
  | byOne => exact hstart
  | continuation => exact hstart

/-- A step that is guarded and meets no fault comes to what it comes to by itself. -/
theorem sets_guarded {m : Placing Position} {ids : List Nat}
    {post : Position → Writer.Context → Prop} (h : Sets x m ids post) :
    Sets x (guarded x c p m) ids post := by
  intro s hs
  obtain ⟨a, s', hrun, hpost⟩ := h s hs
  refine ⟨a, s', ?_, hpost⟩
  change (guarded x c p (fun _ => m.run s)).run s = _
  rw [hrun]
  rfl

section Tree

variable (hx : x.style.IsProper) (hall : Chunk.IsPlain all)

include hall

theorem neat_of_sublist (hsub : c.walk.Sublist all) : c.Neat :=
  fun d hd => hall.neat d (hsub.subset hd)

theorem nodup_of_sublist (hsub : cs.Sublist all) : (Chunk.ids cs).Nodup :=
  hall.numbered.sublist (hsub.map _)

include hx in
theorem sets_placeSequence (hcs : ∀ c ∈ cs, Tracks x c) (hsub : (Chunk.walkList cs).Sublist all)
    {start : Indent} (hstart : 0 ≤ start.align) (previous : Option Chunk)
    (hp : p.IsAligned) (hfirst : previous = none → ∀ c ∈ cs.head?, c.IsFirst)
    (hbehind : previous ≠ none → p.fresh = false) (hend : cs ≠ [] ∨ p.fresh = false) (tail : Int) :
    Sets x (placeSequence x cs start previous p tail) (Chunk.ids (Chunk.walkList cs)) fun q y =>
      q.IsBehind ∧ Writer.Lands y (Chunk.walkList cs) p q := by
  induction cs generalizing previous p with
  | nil =>
      rw [placeSequence]
      exact Sets.pure fun y _ => ⟨⟨hp, hend.resolve_left (by simp)⟩, Writer.lands_nil y p⟩
  | cons c cs ih =>
      rw [Chunk.walkList] at hsub ⊢
      have hown : c.walk.Sublist all := (List.sublist_append_left _ _).trans hsub
      have hrest : (Chunk.walkList cs).Sublist all := (List.sublist_append_right _ _).trans hsub
      have hneat : c.Neat := neat_of_sublist hall hown
      have hnodup := nodup_of_sublist hall hsub
      rw [Chunk.ids_append] at hnodup ⊢
      rw [placeSequence]
      refine Sets.after (quiet_tail hall.toReady (fun d hd => hrest.subset hd) tail 0)
        fun behind _ => ?_
      extract_lets rest
      have hp' : Position.IsAligned { p with head := start } := ⟨hp.line, hp.base, hstart⟩
      -- However the element is moved to its place, the others follow.
      have hfollow : ∀ {α : Type} {move : Placing α} (f : α → Position),
          Sets x move [c.traits.id] (fun a y =>
            (f a).IsAligned ∧ Writer.Moves y c { p with head := start } (f a)) →
          Sets x (move >>= fun a => rest (f a))
            (Chunk.ids c.walk ++ Chunk.ids (Chunk.walkList cs)) fun q y =>
              q.IsBehind ∧ Writer.Lands y (c.walk ++ Chunk.walkList cs) p q := by
        intro α move f hmove
        refine Sets.element f hnodup hmove (fun a ha => hcs c List.mem_cons_self _ _ ha)
          fun q hq => ?_
        refine (ih (fun d hd => hcs d (List.mem_cons_of_mem c hd)) hrest (some c) hq.toIsAligned
          nofun (fun _ => hq.fresh) (Or.inr hq.fresh)).mono ?_
        intro r y _ ⟨hr, hlands⟩ hown
        exact ⟨hr, Writer.Lands.append (p := p) hown c.walk_ne_nil hq.fresh hlands⟩
      cases previous with
      | none =>
          have hspace : c.traits.space = false :=
            hneat.isSpaced_eq.symm.trans (hfirst rfl c rfl).unspaced
          exact hfollow (fun _ => _) (sets_continueLine_moves hp' hspace)
      | some b =>
          have hfresh := hbehind (by simp)
          have halign : 0 ≤ (continuation x b start).align := by
            rw [continuation]
            split <;> exact hstart
          have hbreak := hfollow id (sets_breakTo_moves hx hp' hfresh (c := c) halign)
          have hstay := hfollow id (sets_stay_moves hp' hneat)
          refine Sets.ite (fun _ => hbreak) fun _ => Sets.ite (fun _ => ?_) fun _ => hstay
          refine Sets.after (quiet_fits hall.toReady (hown.subset c.mem_walk) _ behind)
            fun _ _ => ?_
          exact Sets.ite (fun _ => hstay) fun _ => hbreak

include hx in
theorem sets_placeSplit (hcs : ∀ c ∈ cs, Tracks x c) (hsub : (Chunk.walkList cs).Sublist all)
    {plan : SplitPlan} (hplan : 0 ≤ plan.indent.align) (broke : Bool) (i : Nat)
    (previous : Option Chunk) (hp : p.IsAligned) (hbehind : i ≠ 0 → p.fresh = false)
    (hend : cs ≠ [] ∨ p.fresh = false) (tail : Int) :
    Sets x (placeSplit x cs plan broke i previous p tail) (Chunk.ids (Chunk.walkList cs)) fun q y =>
      q.IsBehind ∧ Writer.Lands y (Chunk.walkList cs) p q := by
  induction cs generalizing broke i previous p with
  | nil =>
      rw [placeSplit]
      exact Sets.pure fun y _ => ⟨⟨hp, hend.resolve_left (by simp)⟩, Writer.lands_nil y p⟩
  | cons c cs ih =>
      rw [Chunk.walkList] at hsub ⊢
      have hown : c.walk.Sublist all := (List.sublist_append_left _ _).trans hsub
      have hrest : (Chunk.walkList cs).Sublist all := (List.sublist_append_right _ _).trans hsub
      have hneat : c.Neat := neat_of_sublist hall hown
      have hnodup := nodup_of_sublist hall hsub
      have hmem : c ∈ all := hown.subset c.mem_walk
      rw [Chunk.ids_append] at hnodup ⊢
      rw [placeSplit]
      refine Sets.after (quiet_choose hall.toReady hmem plan broke i previous p _)
        fun choice hchoice => ?_
      extract_lets wrapped anew again
      have hwrapped : ∀ indent, wrapped = some indent → p.fresh = false ∧ 0 ≤ indent.align := by
        intro indent heq
        obtain ⟨hindent, hcond⟩ := Option.filter_eq_some_iff.mp heq
        refine ⟨?_, (hchoice indent hindent).symm ▸ hplan⟩
        by_cases hi : i = 0
        · simpa [hi] using hcond
        · exact hbehind hi
      -- What follows an element that is at its place.
      have hbehind' : ∀ (broke : Bool) (q : Position), q.IsBehind →
          Sets x (placeSplit x cs plan broke (i + 1) (some c) q tail)
            (Chunk.ids (Chunk.walkList cs)) fun r y => Writer.Lands y c.walk p q →
              r.IsBehind ∧ Writer.Lands y (c.walk ++ Chunk.walkList cs) p r := by
        intro broke q hq
        refine (ih (fun d hd => hcs d (List.mem_cons_of_mem c hd)) hrest broke (i + 1) (some c)
          hq.toIsAligned (fun _ => hq.fresh) (Or.inr hq.fresh)).mono ?_
        rintro r y - ⟨hr, hlands⟩ hown
        exact ⟨hr, hown.append c.walk_ne_nil hq.fresh hlands⟩
      have hanew : ∀ {move : Placing Position}, Sets x move [c.traits.id] (fun q y =>
          q.IsAligned ∧ Writer.Moves y c p q) → Sets x (move >>= anew)
            (Chunk.ids c.walk ++ Chunk.ids (Chunk.walkList cs)) fun q y =>
              q.IsBehind ∧ Writer.Lands y (c.walk ++ Chunk.walkList cs) p q := by
        intro move hmove
        exact Sets.element id hnodup hmove (fun q hq => hcs c List.mem_cons_self _ _
          ⟨hq.line, hq.line, hq.head⟩) (hbehind' _)
      -- Without a trial that went well, the element is placed for good.
      have hagain : Sets x (again none) (Chunk.ids c.walk ++ Chunk.ids (Chunk.walkList cs))
          fun q y => q.IsBehind ∧ Writer.Lands y (c.walk ++ Chunk.walkList cs) p q := by
        simp only [again]
        clear_value wrapped
        cases wrapped with
        | none => exact hanew (sets_stay_moves hp hneat)
        | some indent =>
            obtain ⟨hfresh, halign⟩ := hwrapped indent rfl
            exact hanew (sets_breakTo_moves hx hp hfresh halign)
      cases choice with
      | attempt =>
          refine Sets.bind_or_again (sets_attempt hneat (List.Nodup.of_append_left hnodup) hp
            fun q hq => hcs c List.mem_cons_self q _ hq)
            (List.disjoint_of_nodup_append hnodup) fun tried htried => ?_
          obtain ⟨y, hy⟩ := htried
          cases tried with
          | none => exact Or.inr hagain
          | some q =>
              obtain ⟨hq, -⟩ := hy q rfl
              exact Or.inl ((hbehind' broke q hq).mono fun r y _ hr htried => hr (htried q rfl).2)
      | wrap | keep => exact hagain

include hx in
/-- Placing items takes the writer behind the last of them. Before the first of them something has
been written, or it starts where nothing is indented. -/
theorem sets_placeItems (hcs : ∀ c ∈ cs, Tracks x c) (hsub : (Chunk.walkList cs).Sublist all)
    {indent : Indent} (halign : 0 ≤ indent.align) (hp : p.IsAligned)
    (hend : cs ≠ [] ∨ p.fresh = false) :
    Sets x (placeItems x cs indent p) (Chunk.ids (Chunk.walkList cs)) fun q y =>
      q.IsBehind ∧ ∀ w w', (Chunk.walkList cs).foldlM (Writer.write y) w = .ok w' →
        Writer.At y p.column p.fresh w → (cs = [] → Writer.Settled y p.column w) →
        (w.started = true ∨ columnOf x indent = 0 ∧ ∀ c ∈ cs.head?, c.isBraceless = false) →
        Writer.Settled y q.column w' := by
  induction cs generalizing p with
  | nil =>
      rw [placeItems]
      refine Sets.pure fun y _ => ⟨⟨hp, hend.resolve_left (by simp)⟩, fun w w' hwrite _ hw _ => ?_⟩
      obtain rfl := Except.ok.inj hwrite
      exact hw rfl
  | cons c cs ih =>
      rw [Chunk.walkList] at hsub ⊢
      have hrest : (Chunk.walkList cs).Sublist all := (List.sublist_append_right _ _).trans hsub
      have hnodup := nodup_of_sublist hall hsub
      have hids : Chunk.ids (c.walk ++ Chunk.walkList cs) =
          [c.traits.id] ++ (Chunk.ids c.walk.tail ++ Chunk.ids (Chunk.walkList cs)) := by
        rw [Chunk.ids_append, c.walk_eq]
        rfl
      rw [hids] at hnodup ⊢
      rw [placeItems]
      refine (sets_breakTo indent p).bind (List.disjoint_of_nodup_append hnodup)
        fun q ⟨_, hq, _⟩ => ?_
      have hq' : Position.IsAligned { q with base := indent } := by
        rw [hq]
        exact ⟨halign, halign, hp.head⟩
      refine (sets_guarded (hcs c List.mem_cons_self _ 0 hq')).bind
        (List.disjoint_of_nodup_append (List.Nodup.of_append_right hnodup)) fun r ⟨_, hr, _⟩ => ?_
      refine (ih (fun d hd => hcs d (List.mem_cons_of_mem c hd)) hrest hr.toIsAligned
        (Or.inr hr.fresh)).mono ?_
      intro r' y hy ⟨hr', hitems⟩ ⟨_, harrives⟩ ⟨_, hline, hindent⟩
      refine ⟨hr', fun w w' hwrite hat _ hstart => ?_⟩
      rw [List.foldlM_append] at hwrite
      obtain ⟨u, hfirst, hwrite⟩ := exists_of_bind_eq_ok hwrite
      have hbreak := hat.request_break (t := c.traits) (hy.style ▸ hx) hline (hindent ▸ halign) (by
        rw [hindent, hy.style]
        exact hstart.imp_right And.left)
      rw [hindent, hy.style] at hbreak
      have hu : Writer.Settled y r.column u := by
        refine harrives w u hfirst ?_ (hstart.imp_right fun h => h.2 c rfl)
        rw [hq]
        exact hbreak
      exact hitems u w' hwrite (hr.fresh ▸ hu.toAt) (fun _ => hu) (Or.inl (hu.begun rfl).1)

include hx in
theorem sets_placeClosing {close : Option Chunk} (hclose : ∀ d ∈ close.toList, Tracks x d)
    (hfirst : ∀ d ∈ close.toList, d.IsFirst) (hsub : (Chunk.walkList close.toList).Sublist all)
    (startsLine : Bool) (hp : p.IsBehind) :
    Sets x (placeClosing x close startsLine p) (Chunk.ids (Chunk.walkList close.toList)) fun q y =>
      q.IsBehind ∧ Writer.Lands y (Chunk.walkList close.toList) p q := by
  cases close with
  | none =>
      rw [placeClosing]
      exact Sets.pure fun y _ => ⟨hp, Writer.lands_nil y p⟩
  | some c =>
      rw [Option.toList_some, Chunk.walkList, Chunk.walkList, List.append_nil] at hsub ⊢
      have hneat := neat_of_sublist hall hsub
      have hnodup := nodup_of_sublist hall hsub
      have htracks := hclose c (by simp)
      rw [placeClosing]
      refine Sets.ite (fun _ => ?_) fun _ => ?_
      · exact Sets.moved id hnodup (sets_breakTo_moves hx hp.toIsAligned hp.fresh hp.base)
          fun q hq => htracks q 0 hq
      · have hspace : c.traits.space = false :=
          hneat.isSpaced_eq.symm.trans (hfirst c (by simp)).unspaced
        exact Sets.moved (fun _ => p) hnodup (sets_continueLine_moves hp.toIsAligned hspace)
          fun _ hq => htracks p 0 hq

theorem sets_placeOpening (hc : Tracks x c) (hfirst : c.IsFirst) (hsub : c.walk.Sublist all)
    (hp : p.IsAligned) :
    Sets x (placeOpening x (some c) p) (Chunk.ids c.walk) fun q y =>
      q.IsBehind ∧ Writer.Lands y c.walk p q := by
  have hspace : c.traits.space = false :=
    (neat_of_sublist hall hsub).isSpaced_eq.symm.trans hfirst.unspaced
  rw [placeOpening]
  exact Sets.moved (fun _ => p) (nodup_of_sublist hall hsub) (sets_continueLine_moves hp hspace)
    fun _ hq => hc p 0 hq

section Block

variable {o close : Option Chunk} {indented : Bool} (startsLine : Bool)
  (hitems : ∀ d ∈ cs, Tracks x d) (hclose : ∀ d ∈ close.toList, Tracks x d)
  (hfirst : ∀ d ∈ o.toList ++ close.toList, d.IsFirst)

include hx hitems hclose hfirst

/-- The items of a block and its closing brace. -/
theorem sets_placeBody (hsub : (Chunk.walkList cs ++ Chunk.walkList close.toList).Sublist all)
    {indent base : Indent} (halign : 0 ≤ indent.align) (hbase : 0 ≤ base.align) (hp : p.IsAligned)
    (hend : cs ≠ [] ∨ p.fresh = false) :
    Sets x (placeItems x cs indent p >>= fun q => placeClosing x close startsLine { q with base })
      (Chunk.ids (Chunk.walkList cs ++ Chunk.walkList close.toList)) fun q y =>
      q.IsBehind ∧ ∀ w w',
        (Chunk.walkList cs ++ Chunk.walkList close.toList).foldlM (Writer.write y) w = .ok w' →
        Writer.At y p.column p.fresh w → (cs = [] → Writer.Settled y p.column w) →
        (w.started = true ∨ columnOf x indent = 0 ∧ ∀ c ∈ cs.head?, c.isBraceless = false) →
        Writer.Settled y q.column w' := by
  have hnodup := nodup_of_sublist hall hsub
  rw [Chunk.ids_append] at hnodup ⊢
  refine (sets_placeItems hx hall hitems ((List.sublist_append_left _ _).trans hsub) halign hp
    hend).bind (List.disjoint_of_nodup_append hnodup) fun q ⟨_, hq, _⟩ => ?_
  refine (sets_placeClosing (p := { q with base }) hx hall hclose
    (fun d hd => hfirst d (List.mem_append_right _ hd))
    ((List.sublist_append_right _ _).trans hsub) startsLine
    ⟨⟨hq.line, hbase, hq.head⟩, hq.fresh⟩).mono ?_
  intro r y _ ⟨hr, hlands⟩ ⟨_, hreach⟩
  refine ⟨hr, fun w w' hwrite hat hown hstart => ?_⟩
  rw [List.foldlM_append] at hwrite
  obtain ⟨u, hbody, hbrace⟩ := exists_of_bind_eq_ok hwrite
  have hu := hreach w u hbody hat hown hstart
  exact hlands u w' hbrace (hu.enters hq.fresh _)

/-- A block takes the writer behind it. If it has no braces then something has been written, or its
items start where nothing is indented. -/
theorem sets_placeBlock (hopening : ∀ d ∈ o.toList, Tracks x d)
    (hsub : (Chunk.walkList o.toList ++ Chunk.walkList cs ++
      Chunk.walkList close.toList).Sublist all)
    (hp : p.IsAligned) (hfull : o.isSome = true ∨ cs ≠ []) :
    Sets x (placeBlock x o close indented cs p)
      (Chunk.ids (Chunk.walkList o.toList ++ Chunk.walkList cs ++ Chunk.walkList close.toList))
      fun q y => q.IsBehind ∧ ∀ w w',
        (Chunk.walkList o.toList ++ Chunk.walkList cs ++ Chunk.walkList close.toList).foldlM
          (Writer.write y) w = .ok w' →
        Writer.At y p.column p.fresh w →
        (o.isSome = true ∨ w.started = true ∨
          columnOf x (itemIndent indented p.base) = 0 ∧ ∀ c ∈ cs.head?, c.isBraceless = false) →
        Writer.Settled y q.column w' := by
  have halign : 0 ≤ (itemIndent indented p.base).align := by
    rw [itemIndent]
    split <;> exact hp.base
  rw [List.append_assoc] at hsub ⊢
  have hbody := (List.sublist_append_right _ _).trans hsub
  rw [placeBlock]
  cases o with
  | none =>
      have hcs : cs ≠ [] := hfull.resolve_left (by simp)
      refine (sets_placeBody hx hall (closingStartsLine none cs) hitems hclose hfirst hbody halign
        hp.base hp (Or.inl hcs)).mono ?_
      rintro q y - ⟨hq, hreach⟩
      exact ⟨hq, fun w w' hwrite hat hstart =>
        hreach w w' hwrite hat (fun hnil => absurd hnil hcs) (hstart.resolve_left (by simp))⟩
  | some c =>
      rw [Option.toList_some, Chunk.walkList, Chunk.walkList, List.append_nil] at hsub ⊢
      have hnodup := nodup_of_sublist hall hsub
      rw [Chunk.ids_append] at hnodup ⊢
      have hc := hfirst c (by simp)
      refine (sets_placeOpening hall (hopening c (by simp)) hc
        ((List.sublist_append_left _ _).trans hsub) hp).bind
        (List.disjoint_of_nodup_append hnodup) fun q hopened => ?_
      obtain ⟨_, hq, -⟩ := hopened
      refine (sets_placeBody hx hall (closingStartsLine (some c) cs) hitems hclose hfirst hbody
        halign hp.base hq.toIsAligned (Or.inr hq.fresh)).mono ?_
      rintro r y - ⟨hr, hreach⟩ ⟨-, hlands⟩
      refine ⟨hr, fun w w' hwrite hat _ => ?_⟩
      rw [List.foldlM_append] at hwrite
      obtain ⟨u, hbrace, hwrite⟩ := exists_of_bind_eq_ok hwrite
      have hu := hlands w u hbrace (by
        rw [Chunk.head?_walk]
        exact ⟨hat, Or.inl ⟨c, rfl, hc⟩⟩)
      exact hreach u w' hwrite (hq.fresh ▸ hu.toAt) (fun _ => hu) (Or.inl (hu.begun rfl).1)

end Block

include hx in
/-- Placing tracks the writer over every tree. -/
theorem tracks_place (hsub : c.walk.Sublist all) : Tracks x c := by
  have hneat := hall.neat c (hsub.subset c.mem_walk)
  induction c using Chunk.byParts with
  | token t s =>
      intro p tail hp
      have hprint := hall.printable t s (hsub.subset (Chunk.mem_walk _))
      rw [place]
      refine Sets.after quiet_step fun _ _ => ?_
      refine (Sets.of_quiet (quiet_token p hneat)).mono ?_
      rintro _ y hy rfl
      refine ⟨⟨⟨hp.line, hp.base, hp.head⟩, rfl⟩, fun w w' hwrite hat _ => ?_⟩
      obtain ⟨u, hleaf, hlast⟩ := exists_of_bind_eq_ok hwrite
      obtain rfl := Except.ok.inj hlast
      have hsettled := hat.leaf hy.regions hneat hprint hleaf
      rwa [hy.style] at hsettled
  | comment t s b => exact absurd (hsub.subset (Chunk.mem_walk _)) (hall.code t s b)
  | group t context breakFirst cs ih =>
      intro p tail hp
      have hcs : (Chunk.walkList cs).Sublist all := (List.sublist_cons_self _ _).trans hsub
      have htracks : ∀ d ∈ cs, Tracks x d := fun d hd =>
        ih d hd ((Chunk.walk_sublist_walkList hd).trans hcs)
          (hall.neat d (hcs.subset (Chunk.mem_walkList.mpr ⟨d, hd, d.mem_walk⟩)))
      obtain ⟨hne, hfirst⟩ := hneat
      -- The group is entered by its first element.
      have harrives : ∀ y q, Writer.Lands y (Chunk.walkList cs) p q →
          Writer.Arrives y (.group t context breakFirst cs) p q := by
        intro y q hlands w w' hwrite hat _
        obtain ⟨d, ds, rfl⟩ := List.exists_cons_of_ne_nil hne
        refine hlands _ w' hwrite ⟨hat, Or.inl ⟨d, ?_, hfirst d rfl⟩⟩
        rw [Chunk.walkList, List.head?_append_of_ne_nil _ d.walk_ne_nil, Chunk.head?_walk]
        rfl
      have hsequence := (sets_placeSequence hx hall htracks hcs hp.line none hp
        (fun _ => hfirst) (by simp) (Or.inl hne) tail).mono fun q y _ ⟨hq, hlands⟩ =>
          And.intro hq (harrives y q hlands)
      rw [place]
      refine Sets.after quiet_step fun _ _ => ?_
      refine Sets.after (quiet_policy context) fun policy _ => ?_
      refine Sets.ite (fun _ => hsequence) fun _ => ?_
      refine Sets.after (quiet_measure hall.toReady (hsub.subset (Chunk.mem_walk _))) fun m _ => ?_
      refine Sets.ite (fun _ => hsequence) fun _ => ?_
      refine (sets_placeSplit hx hall htracks hcs (aligned_wrapIndent context policy hp) false 0
        none hp (by simp) (Or.inl hne) tail).bind_last fun q ⟨_, hq, _⟩ => Sets.pure ?_
      exact fun y _ ⟨_, hlands⟩ => ⟨⟨⟨hq.line, hp.base, hq.head⟩, hq.fresh⟩, harrives y q hlands⟩
  | block t o close indented cs iho ihc ih =>
      intro p tail hp
      rw [Chunk.walk_block] at hsub
      have hbelow := (List.sublist_cons_self _ _).trans hsub
      have htracks : ∀ ds : List Chunk, (Chunk.walkList ds).Sublist all →
          (∀ d ∈ ds, d.walk.Sublist all → d.IsNeat → Tracks x d) → ∀ d ∈ ds, Tracks x d :=
        fun ds hds hih d hd => hih d hd ((Chunk.walk_sublist_walkList hd).trans hds)
          (hall.neat d (hds.subset (Chunk.mem_walkList.mpr ⟨d, hd, d.mem_walk⟩)))
      have hfront := (List.sublist_append_left _ _).trans hbelow
      have hopening := htracks o.toList ((List.sublist_append_left _ _).trans hfront) iho
      have hitems := htracks cs ((List.sublist_append_right _ _).trans hfront) ih
      have hclose := htracks close.toList ((List.sublist_append_right _ _).trans hbelow) ihc
      obtain ⟨hfirst, hfull⟩ := hneat
      rw [place, Chunk.walk_block, List.tail_cons]
      refine Sets.after quiet_step fun _ _ => ?_
      refine (sets_placeBlock hx hall hitems hclose hfirst hopening hbelow hp hfull).mono ?_
      intro q y _ ⟨hq, hreach⟩
      refine ⟨hq, fun w w' hwrite hat hstart => ?_⟩
      rw [Chunk.walk_block] at hwrite
      refine hreach _ w' hwrite hat ?_
      rw [Writer.started_request]
      cases o with
      | none => exact Or.inr (Or.inl (hstart.resolve_right (by simp [Chunk.isBraceless])))
      | some o => exact Or.inl rfl

end Tree

/-- Laying out a whole tree takes a writer that starts to the position behind it, unless nothing is
written at all. -/
theorem sets_root (hx : x.style.IsProper) {t : Traits} (ht : t.space = false)
    (hall : Chunk.IsPlain (Chunk.walkList cs)) (hfirst : ∀ d ∈ cs.head?, d.isBraceless = false)
    (hnodup : (Chunk.ids (Chunk.block t none none false cs).walk).Nodup) :
    Sets x (root x (.block t none none false cs))
      (Chunk.ids (Chunk.block t none none false cs).walk) fun q y => ∀ w',
        (Chunk.block t none none false cs).walk.foldlM (Writer.write y) (Writer.anchor {} 0) =
          .ok w' →
        w'.started = false ∧ w'.written = [] ∧ q.column = 0 ∨ Writer.Settled y q.column w' := by
  have hwalk : (Chunk.block t none none false cs).walk =
      [.block t none none false cs] ++ Chunk.walkList cs := by
    simp [Chunk.walk]
  rw [hwalk, Chunk.ids_append] at hnodup ⊢
  rw [root]
  refine (sets_continueLine (c := .block t none none false cs)).bind
    (List.disjoint_of_nodup_append hnodup) fun _ _ => ?_
  have hstart : Position.IsAligned { fresh := true } := ⟨le_refl _, le_refl _, le_refl _⟩
  -- The white space before the root is none.
  have hrequest : ∀ {y : Writer.Context},
      (y.placement (.block t none none false cs)).newLine = false →
      (Writer.anchor {} 0).request t (y.placement (.block t none none false cs)) =
        Writer.anchor {} 0 := by
    intro y hline
    rw [Writer.request, if_neg (by simp [hline]), if_neg (by simp [ht])]
  by_cases hcs : cs = []
  · subst hcs
    refine Sets.pure fun y _ hline w' hwrite => Or.inl ?_
    obtain rfl := Except.ok.inj hwrite
    exact ⟨congrArg Writer.started (hrequest hline), congrArg Writer.written (hrequest hline), rfl⟩
  · have hitems : ∀ d ∈ cs, Tracks x d := fun d hd =>
      tracks_place hx hall (Chunk.walk_sublist_walkList hd)
    have hnone : ∀ d ∈ (none : Option Chunk).toList, Tracks x d := by
      rintro d ⟨⟩
    have hblock : Sets x (placeBlock x none none false cs { fresh := true }) _ _ :=
      sets_placeBlock hx hall hitems hnone (by rintro d ⟨⟩) hnone (by simp [Chunk.walkList]) hstart
        (Or.inr hcs)
    simp only [Option.toList_none, Chunk.walkList, List.nil_append, List.append_nil] at hblock
    refine hblock.mono fun q y _ hplaced hline w' hwrite => Or.inr ?_
    obtain ⟨hq, hreach⟩ := hplaced
    have hwrite' : (Chunk.walkList cs).foldlM (Writer.write y)
        ((Writer.anchor {} 0).request t (y.placement (.block t none none false cs))) = .ok w' :=
      hwrite
    rw [hrequest hline] at hwrite'
    refine hreach _ w' hwrite' (Writer.at_start y 0) (Or.inr (Or.inr ⟨?_, hfirst⟩))
    simp [columnOf, itemIndent, Style.levelColumns, Style.columnsBy, Style.indents]

end CodeLayout.Placing
