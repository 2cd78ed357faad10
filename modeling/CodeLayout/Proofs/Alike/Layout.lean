import CodeLayout.Proofs.Alike.Chunk
import CodeLayout.Proofs.Layout

/-!
# Layout without places

Where in the input a chunk comes from has no part in its layout: a tree and its bare form are laid
out in lockstep. Only what is recorded on the way may differ, for it names places of the input.
-/

namespace CodeLayout

namespace Chunk

section Flags

theorem id_bare (c : Chunk) : c.bare.traits.id = c.traits.id := by
  rw [traits_bare, Traits.bare]

theorem breakAfter_bare (c : Chunk) : c.bare.traits.breakAfter = c.traits.breakAfter := by
  rw [traits_bare, Traits.bare]

theorem measure_bare (c : Chunk) : c.bare.traits.measure = c.traits.measure := by
  rw [traits_bare, Traits.bare]

mutual

theorem endsHard_bare (c : Chunk) : c.bare.endsHard = c.endsHard := by
  match c with
  | .token t s => rfl
  | .comment t s c => rfl
  | .group t x b cs => simp only [bare, endsHard, Traits.bare, lastEndsHard_bare cs]
  | .block t o none i cs =>
      simp only [bare_block, endsHard, Option.map_none, Option.isSome_map, Traits.bare]
  | .block t o (some c) i cs =>
      simp only [bare_block, endsHard, Option.map_some, Option.isSome_map, Traits.bare,
        endsHard_bare c]

theorem lastEndsHard_bare (cs : List Chunk) : lastEndsHard (bareList cs) = lastEndsHard cs := by
  match cs with
  | [] => rfl
  | [c] => exact endsHard_bare c
  | _ :: c :: cs => exact lastEndsHard_bare (c :: cs)

end

theorem startsHard_bare (c : Chunk) : c.bare.startsHard = c.startsHard := by
  match c with
  | .token t s => rfl
  | .comment t s c => rfl
  | .group t x b [] => rfl
  | .group t x b (c :: cs) =>
      simp only [bare, bareList, startsHard, firstStartsHard, Traits.bare, startsHard_bare c]
  | .block t none c i cs => rw [bare_block]; rfl
  | .block t (some o) c i cs =>
      rw [bare_block, Option.map_some, startsHard, startsHard]
      simp only [Traits.bare, startsHard_bare o]

theorem isSpaced_bare (c : Chunk) : c.bare.isSpaced = c.isSpaced := by
  match c with
  | .token t s => rfl
  | .comment t s c => rfl
  | .group t x b [] => rfl
  | .group t x b (c :: cs) =>
      simp only [bare, bareList, isSpaced, firstSpaced, Traits.bare, isSpaced_bare c]
  | .block t none c i cs => rw [bare_block]; rfl
  | .block t (some o) c i cs =>
      rw [bare_block, Option.map_some, isSpaced, isSpaced]
      simp only [Traits.bare, isSpaced_bare o]

mutual

theorem settles_bare (c : Chunk) : c.bare.settles = c.settles := by
  match c with
  | .token t s => rfl
  | .comment t s c => rfl
  | .group t x b cs => simp only [bare, settles, Traits.bare, lastSettles_bare cs]
  | .block t o c i cs =>
      rw [bare_block, settles, settles, Option.isNone_map]
      rfl

theorem lastSettles_bare (cs : List Chunk) : lastSettles (bareList cs) = lastSettles cs := by
  match cs with
  | [] => rfl
  | [c] => exact settles_bare c
  | _ :: c :: cs => exact lastSettles_bare (c :: cs)

end

end Flags

section Measures

theorem isEmpty_bareList (cs : List Chunk) : (bareList cs).isEmpty = cs.isEmpty := by
  rw [bareList_eq_map, List.isEmpty_map]

theorem measureRow_bare (isFirst : Bool) (width : Int) (cs : List Chunk) :
    measureRow isFirst width (bareList cs) = measureRow isFirst width cs := by
  induction cs generalizing isFirst width with
  | nil => rfl
  | cons c cs ih =>
      simp only [bareList, measureRow, measure_bare, startsHard_bare, isSpaced_bare, endsHard_bare,
        isEmpty_bareList, ih]

mutual

/-- Numbers and measures have nothing to do with places. -/
theorem annotate_bare (tabstop : Int) (n : Nat) (c : Chunk) :
    c.bare.annotate tabstop n = ((c.annotate tabstop n).1.bare, (c.annotate tabstop n).2) := by
  match c with
  | .token t s => rfl
  | .comment t s c => rfl
  | .group t x b cs =>
      simp only [bare, annotate, annotateList_bare, measureRow_bare]
      rfl
  | .block t none none i cs =>
      simp only [bare, annotate, annotateList_bare, measureBlock]
      rfl
  | .block t (some o) none i cs =>
      simp only [bare, annotate, annotate_bare _ _ o, annotateList_bare, measureBlock,
        measure_bare]
      rfl
  | .block t none (some c) i cs =>
      simp only [bare, annotate, annotate_bare _ _ c, annotateList_bare, measureBlock]
      rfl
  | .block t (some o) (some c) i cs =>
      simp only [bare, annotate, annotate_bare _ _ o, annotate_bare _ _ c, annotateList_bare,
        measureBlock, measure_bare, endsHard_bare, isEmpty_bareList]
      rfl

theorem annotateList_bare (tabstop : Int) (n : Nat) (cs : List Chunk) :
    annotateList tabstop n (bareList cs) =
      (bareList (annotateList tabstop n cs).1, (annotateList tabstop n cs).2) := by
  match cs with
  | [] => rfl
  | c :: cs => simp only [bareList, annotateList, annotate_bare, annotateList_bare]

end

end Measures

end Chunk

/-- The states differ in what was recorded only. -/
def LayoutState.Same (s t : LayoutState) : Prop :=
  ∃ r, t = { s with recorded := r }

namespace Placing

/-- Two steps of laying out that are in lockstep. -/
abbrev Same {α : Type} (p q : Placing α) : Prop :=
  Agree.Fallible LayoutState.Same Eq p q

variable {α β : Type} {p q : Placing α} {x : LayoutContext} {file : SourceFile} {c : Chunk}
  {cs : List Chunk}

namespace Same

theorem pure (a : α) : Same (Pure.pure a : Placing α) (Pure.pure a) :=
  Agree.Fallible.pure rfl

theorem bind {f g : α → Placing β} (h : Same p q) (hf : ∀ a, Same (f a) (g a)) :
    Same (p >>= f) (q >>= g) :=
  Agree.Fallible.bind_eq h hf

theorem ite {b : Prop} [Decidable b] {p' q' : Placing α} (h : Same p q) (h' : Same p' q') :
    Same (if b then p else p') (if b then q else q') :=
  Agree.Fallible.ite h h'

/-- A look at the state that sees nothing of what was recorded. -/
theorem get {f g : LayoutState → Placing α}
    (hf : ∀ s r, Same (f s) (g { s with recorded := r })) :
    Same (MonadState.get >>= f) (MonadState.get >>= g) := by
  apply Agree.Fallible.get
  rintro s _ ⟨r, rfl⟩
  exact hf s r

theorem modify {f g : LayoutState → LayoutState}
    (h : ∀ s r, (f s).Same (g { s with recorded := r })) :
    Same (modify f : Placing Unit) (modify g) := by
  rintro s _ ⟨r, rfl⟩
  exact ⟨.ok rfl, h s r⟩

end Same

section Primitives

theorem same_setPlacement (f : Placement → Placement) :
    Same (setPlacement c f) (setPlacement c.bare f) := by
  apply Same.modify
  intro s r
  rw [Chunk.id_bare]
  exact ⟨r, rfl⟩

theorem same_modifyTrial (f : Trial → Trial) : Same (modifyTrial f) (modifyTrial f) := by
  apply Same.modify
  intro s r
  cases hs : s.trials with
  | nil => exact ⟨r, by simp [hs]⟩
  | cons t ts => exact ⟨r, by simp⟩

theorem same_remark (problem : Problem) (span span' : Span) :
    Same (remark problem span) (remark problem span') :=
  Same.modify fun _ _ => ⟨_, rfl⟩

theorem same_step : Same step step :=
  Same.modify fun _ r => ⟨r, rfl⟩

theorem same_keepMeasure (m : Measure) : Same (keepMeasure c m) (keepMeasure c.bare m) := by
  apply Same.modify
  intro s r
  rw [Chunk.id_bare]
  exact ⟨r, rfl⟩

theorem same_policy (context : WrapContext) :
    Same (policy x context) (policy { x with file } context) := by
  rw [policy, policy]
  apply Same.get
  intro s r
  apply Same.ite
  · apply Same.ite
    · apply Same.bind (p := set _) (q := set _)
      · rintro s _ ⟨r, rfl⟩
        exact ⟨.ok rfl, _, rfl⟩
      intro _
      exact (same_remark _ _ _).bind fun _ => .pure _
    · exact .pure _
  · exact .pure _

theorem same_breakTo (indent : Indent) (p : Position) :
    Same (breakTo x c indent p) (breakTo { x with file } c.bare indent p) := by
  rw [breakTo, breakTo]
  apply (same_modifyTrial _).bind
  intro _
  apply (same_setPlacement _).bind
  intro _
  exact .pure _

theorem same_continueLine : Same (continueLine c) (continueLine c.bare) :=
  same_setPlacement _

theorem same_stay (p : Position) : Same (stay c p) (stay c.bare p) := by
  rw [stay, stay, Chunk.isSpaced_bare]
  apply (same_setPlacement _).bind
  intro _
  exact .pure _

theorem same_token (text : Bytes) (p : Position) :
    Same (token x text p) (token { x with file } text p) := by
  rw [token, token]
  apply Same.ite (.pure p)
  apply (same_modifyTrial _).bind
  intro _
  exact .pure _

theorem same_comment (contents : Option Comment) (p : Position) :
    Same (comment x c contents p) (comment { x with file } c.bare contents p) := by
  cases contents with
  | none => exact Agree.Fallible.throw _
  | some comment =>
      apply (same_setPlacement _).bind
      intro _
      -- Where the comment ends is the same.
      have hbehind : ∀ r, columnBehind { x with file } p.column r = columnBehind x p.column r :=
        fun _ => rfl
      rw [hbehind]
      generalize columnBehind x p.column _ = column
      cases column <;> exact .pure _

end Primitives

section Room

theorem same_measureElements
    (hcs : ∀ e ∈ cs, Same (measureInterrupted e) (measureInterrupted e.bare)) (isFirst : Bool)
    (width : Int) : Same (measureElements c isFirst width cs)
      (measureElements c.bare isFirst width (Chunk.bareList cs)) := by
  induction cs generalizing isFirst width with
  | nil => exact .pure _
  | cons e es ih =>
      rw [List.forall_mem_cons] at hcs
      obtain ⟨he, hes⟩ := hcs
      rw [Chunk.bareList, measureElements, measureElements, Chunk.measure_bare,
        Chunk.startsHard_bare, Chunk.isSpaced_bare, Chunk.endsHard_bare, Chunk.isEmpty_bareList]
      have hrest : ∀ m : Measure, Same
          (if (!isFirst && e.startsHard) = true then do
            keepMeasure c ⟨width, true⟩
            return ⟨width, true⟩
          else
            let gap : Int := if !isFirst && 0 < m.width && e.isSpaced then 1 else 0
            let width := width + gap + m.width
            let hard := m.hard || (!es.isEmpty && e.endsHard)
            do
              keepMeasure c ⟨width, hard⟩
              if hard then return ⟨width, true⟩ else measureElements c false width es)
          (if (!isFirst && e.startsHard) = true then do
            keepMeasure c.bare ⟨width, true⟩
            return ⟨width, true⟩
          else
            let gap : Int := if !isFirst && 0 < m.width && e.isSpaced then 1 else 0
            let width := width + gap + m.width
            let hard := m.hard || (!es.isEmpty && e.endsHard)
            do
              keepMeasure c.bare ⟨width, hard⟩
              if hard then return ⟨width, true⟩
              else measureElements c.bare false width (Chunk.bareList es)) := by
        intro m
        apply Same.ite
        · exact (same_keepMeasure _).bind fun _ => .pure _
        · apply (same_keepMeasure _).bind
          intro _
          exact Same.ite (.pure _) (ih hes false _)
      cases e.traits.measure with
      | some m => exact hrest m
      | none => exact he.bind hrest

theorem same_measureInterrupted (c : Chunk) :
    Same (measureInterrupted c) (measureInterrupted c.bare) := by
  induction c using Chunk.byParts with
  | token t s => exact .pure _
  | comment t text contents =>
      rw [Chunk.bare, measureInterrupted, measureInterrupted]
      apply Same.get
      intro s r
      dsimp only [Traits.bare]
      cases contents with
      | some b => exact .pure _
      | none =>
          cases s.interrupted.lookup t.id with
          | some m => exact .pure _
          | none =>
              apply (same_keepMeasure (c := .comment t text none) _).bind
              intro _
              exact Agree.Fallible.throw _
  | group t context breakFirst cs ih =>
      rw [Chunk.bare, measureInterrupted, measureInterrupted]
      apply Same.get
      intro s r
      dsimp only [Traits.bare]
      cases s.interrupted.lookup t.id with
      | some m => exact .pure m
      | none =>
          apply (same_keepMeasure (c := .group t context breakFirst cs) _).bind
          intro _
          exact same_measureElements (c := .group t context breakFirst cs) ih true 0
  | block t opening closing indented items iho ihc _ =>
      have hkeep := fun m => same_keepMeasure (c := .block t opening closing indented items) m
      rw [Chunk.bare_block] at hkeep ⊢
      rw [measureInterrupted, measureInterrupted]
      apply Same.get
      intro s r
      dsimp only [Traits.bare] at hkeep ⊢
      cases s.interrupted.lookup t.id with
      | some m => exact .pure m
      | none =>
          apply (hkeep _).bind
          intro _
          cases opening with
          | none => exact .pure _
          | some o =>
              apply (iho o (by simp)).bind
              intro m
              rw [List.isEmpty_map, Option.isNone_map, Chunk.endsHard_bare]
              apply (hkeep _).bind
              intro _
              cases closing with
              | none => exact .pure _
              | some close =>
                  apply Same.ite (.pure _)
                  apply (ihc close (by simp)).bind
                  intro n
                  apply (hkeep _).bind
                  intro _
                  exact .pure _

theorem same_measure (c : Chunk) : Same (measure c) (measure c.bare) := by
  rw [measure, measure, Chunk.measure_bare]
  cases c.traits.measure with
  | some m => exact .pure m
  | none => exact same_measureInterrupted c

theorem same_leadElements (hcs : ∀ e ∈ cs, Same (lead x e) (lead { x with file } e.bare))
    (context : WrapContext) (isFirst : Bool) (width : Int) :
    Same (leadElements x context isFirst width cs)
      (leadElements { x with file } context isFirst width (Chunk.bareList cs)) := by
  induction cs generalizing isFirst width with
  | nil => exact .pure _
  | cons e es ih =>
      rw [List.forall_mem_cons] at hcs
      obtain ⟨he, hes⟩ := hcs
      rw [Chunk.bareList, leadElements, leadElements, Chunk.startsHard_bare, Chunk.isSpaced_bare,
        Chunk.endsHard_bare]
      apply Same.ite (.pure _)
      apply he.bind
      rintro ⟨own, stops⟩
      apply Same.ite (.pure _)
      apply (same_policy context).bind
      intro policy
      exact Same.ite (.pure _) (ih hes false _)

theorem same_lead (c : Chunk) : Same (lead x c) (lead { x with file } c.bare) := by
  induction c using Chunk.byParts with
  | token t s => exact .pure _
  | comment t text contents => exact .pure _
  | group t context breakFirst cs ih =>
      have hends := Chunk.endsHard_bare (.group t context breakFirst cs)
      rw [Chunk.bare] at hends ⊢
      rw [lead, lead, hends]
      apply (same_leadElements ih context true 0).bind
      rintro ⟨width, stops⟩
      exact .pure _
  | block t o c i cs _ _ _ =>
      rw [Chunk.bare_block]
      cases o with
      | none => exact .pure _
      | some o =>
          rw [Option.map_some, lead, lead]
          exact (same_measure o).bind fun _ => .pure _

theorem same_tail (parent width : Int) (cs : List Chunk) :
    Same (tail x parent width cs) (tail { x with file } parent width (Chunk.bareList cs)) := by
  induction cs generalizing width with
  | nil => exact .pure _
  | cons c cs ih =>
      rw [Chunk.bareList, tail, tail, Chunk.startsHard_bare, Chunk.isSpaced_bare]
      apply Same.ite (.pure _)
      apply (same_lead c).bind
      rintro ⟨own, stops⟩
      exact Same.ite (.pure _) (ih _)

theorem same_fits (c : Chunk) (p : Position) (tail : Int) :
    Same (fits x c p tail) (fits { x with file } c.bare p tail) := by
  rw [fits, fits, Chunk.isSpaced_bare]
  apply (same_measure c).bind
  intro m
  exact .pure _

end Room

section Fallback

theorem continuation_bare (b : Chunk) (indent : Indent) :
    continuation { x with file } b.bare indent = continuation x b indent := by
  rw [continuation, continuation, Chunk.settles_bare]

theorem closingStartsLine_bare (o : Option Chunk) (items : List Chunk) :
    closingStartsLine (o.map Chunk.bare) (Chunk.bareList items) = closingStartsLine o items := by
  cases o with
  | none => rw [Option.map_none, closingStartsLine, closingStartsLine, Chunk.isEmpty_bareList]
  | some o =>
      simp only [Option.map_some, closingStartsLine, Chunk.isEmpty_bareList, Chunk.endsHard_bare]

theorem same_flattenElements (hcs : ∀ e ∈ cs, ∀ indent,
    Same (flatten x indent e) (flatten { x with file } indent e.bare)) (indent : Indent)
    (previous : Option Chunk) : Same (flattenElements x indent previous cs)
      (flattenElements { x with file } indent (previous.map Chunk.bare) (Chunk.bareList cs)) := by
  induction cs generalizing previous with
  | nil => exact .pure _
  | cons c cs ih =>
      rw [List.forall_mem_cons] at hcs
      obtain ⟨hc, hcs⟩ := hcs
      have hrest : ∀ f, Same
          (do setPlacement c f; flatten x indent c; flattenElements x indent (some c) cs)
          (do
            setPlacement c.bare f
            flatten { x with file } indent c.bare
            flattenElements { x with file } indent (some c.bare) (Chunk.bareList cs)) := by
        intro f
        apply (same_setPlacement f).bind
        intro _
        exact (hc indent).bind fun _ => ih hcs (some c)
      cases previous with
      | none => exact hrest _
      | some b =>
          rw [Chunk.bareList, flattenElements, flattenElements, Option.map_some,
            Option.filter_some, Option.filter_some, Chunk.endsHard_bare, Chunk.startsHard_bare]
          by_cases hends : (b.endsHard || c.startsHard) = true
          · rw [if_pos hends, if_pos hends]
            dsimp only
            rw [continuation_bare]
            exact hrest _
          · rw [if_neg hends, if_neg hends]
            exact hrest _

theorem same_flattenItems (hcs : ∀ e ∈ cs, ∀ indent,
    Same (flatten x indent e) (flatten { x with file } indent e.bare)) (indent : Indent) :
    Same (flattenItems x indent cs)
      (flattenItems { x with file } indent (Chunk.bareList cs)) := by
  induction cs with
  | nil => exact .pure _
  | cons c cs ih =>
      rw [List.forall_mem_cons] at hcs
      obtain ⟨hc, hcs⟩ := hcs
      rw [Chunk.bareList, flattenItems, flattenItems]
      apply (same_setPlacement _).bind
      intro _
      exact (hc indent).bind fun _ => ih hcs

theorem same_flatten (indent : Indent) (c : Chunk) :
    Same (flatten x indent c) (flatten { x with file } indent c.bare) := by
  induction c using Chunk.byParts generalizing indent with
  | token t s => exact .pure _
  | comment t text contents => exact .pure _
  | group t context breakFirst cs ih =>
      rw [Chunk.bare, flatten, flatten]
      exact same_flattenElements ih indent none
  | block t opening closing indented items iho ihc ih =>
      have hstarts := closingStartsLine_bare opening items
      rw [Chunk.bare_block, ← Chunk.bareList_eq_map]
      rw [flatten.eq_def, flatten.eq_def { x with file }]
      dsimp only
      rw [hstarts]
      rcases opening with - | o
      on_goal 2 =>
        apply (same_continueLine (c := o)).bind
        intro _
        refine (iho o (by simp) indent).bind fun _ => ?_
      -- What comes behind the opening brace is the same with one and without.
      all_goals
        apply (same_flattenItems ih _).bind
        intro _
        cases closing with
        | none => exact .pure _
        | some c => exact (same_setPlacement _).bind fun _ => ihc c (by simp) indent

/-- A fault is recorded with a place of the input, but what is done about it is the same. -/
theorem same_guarded (pos : Position) {place place' : Placing Position}
    (h : Same place place') :
    Same (guarded x c pos place) (guarded { x with file } c.bare pos place') := by
  rw [guarded, guarded]
  apply Same.get
  intro s r
  apply Same.bind
  · apply Agree.Fallible.tryCatch
    · exact h.bind fun _ => .pure _
    · intro fault
      apply Same.bind (Same.modify fun _ r => ⟨r, rfl⟩)
      intro _
      apply (same_remark _ _ _).bind
      intro _
      exact (same_flatten _ c).bind fun _ => .pure _
  · intro e
    cases e <;> exact .pure _

theorem same_attempt (pos : Position) {place place' : Position → Placing Position}
    (h : ∀ q, Same (place q) (place' q)) :
    Same (attempt c pos place) (attempt c.bare pos place') := by
  rw [attempt, attempt]
  apply Same.bind (Same.modify fun _ r => ⟨r, rfl⟩)
  intro _
  apply (same_stay pos).bind
  intro q
  apply (h _).bind
  intro q
  apply Same.get
  intro s r
  apply Same.bind (Same.modify fun _ r => ⟨r, rfl⟩)
  intro _
  apply Same.ite (.pure _)
  exact (same_modifyTrial _).bind fun _ => .pure _

end Fallback

section Places

theorem same_choose (plan : SplitPlan) (broke : Bool) (i : Nat) (previous : Option Chunk)
    (pos : Position) (tail : Int) : Same (choose x plan broke i previous c pos tail)
      (choose { x with file } plan broke i (previous.map Chunk.bare) c.bare pos tail) := by
  have hdemands : ((previous.map Chunk.bare).map fun b => b.endsHard || c.bare.startsHard) =
      previous.map fun b => b.endsHard || c.startsHard := by
    rw [Option.map_map, Chunk.startsHard_bare]
    exact congrArg (previous.map ·) (funext fun b => by
      rw [Function.comp_apply, Chunk.endsHard_bare])
  rw [choose.eq_def, choose.eq_def { x with file }, hdemands]
  apply Same.ite (.pure _)
  split
  case h_6 =>
    apply Same.ite (.pure _)
    apply Same.ite (.pure _)
    apply (same_fits c pos tail).bind
    intro fits
    apply Same.ite (.pure _)
    apply Same.ite (.pure _)
    exact Same.ite (.pure _) (.pure _)
  all_goals exact .pure _

/-- Chunks that are placed in lockstep with their bare forms. -/
def Follows (x : LayoutContext) (file : SourceFile) (c : Chunk) : Prop :=
  ∀ pos tail, Same (place x c pos tail) (place { x with file } c.bare pos tail)

theorem same_placeItems (hcs : ∀ c ∈ cs, Follows x file c) (indent : Indent) (pos : Position) :
    Same (placeItems x cs indent pos)
      (placeItems { x with file } (Chunk.bareList cs) indent pos) := by
  induction cs generalizing pos with
  | nil => exact .pure _
  | cons c cs ih =>
      rw [List.forall_mem_cons] at hcs
      obtain ⟨hc, hcs⟩ := hcs
      rw [Chunk.bareList, placeItems, placeItems]
      apply (same_breakTo _ _).bind
      intro q
      apply (same_guarded _ (hc _ _)).bind
      intro q
      exact ih hcs q

theorem same_placeOpening {o : Option Chunk} (ho : ∀ c ∈ o.toList, Follows x file c)
    (pos : Position) :
    Same (placeOpening x o pos) (placeOpening { x with file } (o.map Chunk.bare) pos) := by
  cases o with
  | none => exact .pure _
  | some c =>
      rw [Option.map_some, placeOpening, placeOpening]
      exact same_continueLine.bind fun _ => ho c (by simp) pos 0

theorem same_placeClosing {o : Option Chunk} (ho : ∀ c ∈ o.toList, Follows x file c)
    (startsLine : Bool) (pos : Position) : Same (placeClosing x o startsLine pos)
      (placeClosing { x with file } (o.map Chunk.bare) startsLine pos) := by
  cases o with
  | none => exact .pure _
  | some c =>
      have hc := ho c (by simp)
      rw [Option.map_some, placeClosing, placeClosing]
      apply Same.ite
      · exact (same_breakTo _ _).bind fun q => hc q 0
      · exact same_continueLine.bind fun _ => hc pos 0

theorem same_placeSequence (hcs : ∀ c ∈ cs, Follows x file c) (start : Indent)
    (previous : Option Chunk) (pos : Position) (tail : Int) :
    Same (placeSequence x cs start previous pos tail)
      (placeSequence { x with file } (Chunk.bareList cs) start (previous.map Chunk.bare) pos
        tail) := by
  induction cs generalizing previous pos with
  | nil => exact .pure _
  | cons c cs ih =>
      rw [List.forall_mem_cons] at hcs
      obtain ⟨hc, hcs⟩ := hcs
      have hplace : ∀ behind q, Same
          (do
            let q ← place x c q behind
            placeSequence x cs start (some c) q tail)
          (do
            let q ← place { x with file } c.bare q behind
            placeSequence { x with file } (Chunk.bareList cs) start (some c.bare) q tail) := by
        intro behind q
        apply (hc q behind).bind
        intro q
        exact ih hcs (some c) q
      rw [Chunk.bareList, placeSequence, placeSequence]
      apply (same_tail tail 0 cs).bind
      intro behind
      cases previous with
      | none => exact same_continueLine.bind fun _ => hplace behind _
      | some b =>
          rw [Option.map_some]
          dsimp only
          rw [Chunk.endsHard_bare, Chunk.startsHard_bare, Chunk.breakAfter_bare, continuation_bare]
          apply Same.ite
          · exact (same_breakTo _ _).bind (hplace behind)
          apply Same.ite
          · apply (same_fits c _ behind).bind
            intro fits
            apply Same.ite
            · exact (same_stay _).bind (hplace behind)
            · exact (same_breakTo _ _).bind (hplace behind)
          · exact (same_stay _).bind (hplace behind)

theorem same_placeSplit (hcs : ∀ c ∈ cs, Follows x file c) (plan : SplitPlan) (broke : Bool)
    (i : Nat) (previous : Option Chunk) (pos : Position) (tail : Int) :
    Same (placeSplit x cs plan broke i previous pos tail)
      (placeSplit { x with file } (Chunk.bareList cs) plan broke i (previous.map Chunk.bare) pos
        tail) := by
  induction cs generalizing broke i previous pos with
  | nil => exact .pure _
  | cons c cs ih =>
      rw [List.forall_mem_cons] at hcs
      obtain ⟨hc, hcs⟩ := hcs
      rw [Chunk.bareList, placeSplit, placeSplit, Chunk.isEmpty_bareList]
      apply (same_choose _ _ _ _ _ _).bind
      intro choice
      extract_lets wrapped anew again anew' again'
      -- Without a trial that went well, the element is placed for good.
      have hanew : ∀ q, Same (anew q) (anew' q) := fun q =>
        (hc _ _).bind fun q => ih hcs _ (i + 1) (some c) q
      have hagain : ∀ tried, Same (again tried) (again' tried) := by
        intro tried
        simp only [again, again']
        clear_value wrapped anew anew'
        cases tried with
        | some q => exact ih hcs broke (i + 1) (some c) q
        | none =>
            cases wrapped with
            | none => exact (same_stay pos).bind hanew
            | some indent => exact (same_breakTo indent pos).bind hanew
      cases choice with
      | attempt => exact (same_attempt pos fun q => hc q _).bind hagain
      | wrap | keep => exact hagain none

theorem follows_place (c : Chunk) : Follows x file c := by
  induction c using Chunk.byParts with
  | token t s =>
      intro pos tail
      rw [Chunk.bare, place, place]
      exact same_step.bind fun _ => same_token s pos
  | comment t text contents =>
      intro pos tail
      rw [Chunk.bare, place, place]
      exact same_step.bind fun _ => same_comment (c := .comment t text contents) contents pos
  | group t context breakFirst cs ih =>
      intro pos tail
      have hsequence := same_placeSequence ih pos.line none pos tail
      have hmeasure := same_measure (.group t context breakFirst cs)
      rw [Chunk.bare] at hmeasure ⊢
      rw [place, place]
      apply same_step.bind
      intro _
      apply (same_policy context).bind
      intro policy
      apply Same.ite hsequence
      apply hmeasure.bind
      intro m
      apply Same.ite hsequence
      apply (same_placeSplit ih _ false 0 none pos tail).bind
      intro q
      exact .pure _
  | block t opening closing indented items iho ihc ih =>
      intro pos tail
      have hstarts := closingStartsLine_bare opening items
      rw [Chunk.bare_block, ← Chunk.bareList_eq_map, place, place, hstarts]
      apply same_step.bind
      intro _
      apply (same_placeOpening iho pos).bind
      intro q
      apply (same_placeItems ih _ q).bind
      intro q
      exact same_placeClosing ihc _ _

theorem same_root (x : LayoutContext) (file : SourceFile) (c : Chunk) :
    Same (root x c) (root { x with file } c.bare) := by
  rw [root, root]
  apply same_continueLine.bind
  intro _
  cases c with
  | token t s => exact .pure _
  | comment t text contents => exact .pure _
  | group t context breakFirst cs =>
      rw [Chunk.bare]
      apply (same_placeItems (fun c _ => follows_place c) _ _).bind
      intro q
      exact .pure _
  | block t opening closing indented items =>
      rw [Chunk.bare_block, ← Chunk.bareList_eq_map]
      dsimp only
      rw [placeBlock, placeBlock, closingStartsLine_bare]
      apply (same_placeOpening (fun c _ => follows_place c) _).bind
      intro q
      apply (same_placeItems (fun c _ => follows_place c) _ q).bind
      intro q
      exact same_placeClosing (fun c _ => follows_place c) _ _

end Places

end Placing

namespace Layout

/-- The placements that laying out a tree comes to. -/
theorem placements_ofChunk (c : Chunk) (file : SourceFile) (style : Style) :
    (ofChunk c file style).layout.placements =
      ((Placing.root (context c file style) (c.annotate style.tabSize 0).1).run.run
        { placements := Array.replicate (c.annotate style.tabSize 0).2 {} }).2.placements :=
  rfl

/-- Laying out a tree comes to the same as laying out its bare form. -/
theorem placements_bare (c : Chunk) (file file' : SourceFile) (style : Style) :
    (ofChunk c.bare file' style).layout.placements =
      (ofChunk c file style).layout.placements := by
  rw [placements_ofChunk, placements_ofChunk, context, Chunk.annotate_bare]
  obtain ⟨-, r, hstate⟩ := Placing.same_root (context c file style) file'
    (c.annotate style.tabSize 0).1
    { placements := Array.replicate (c.annotate style.tabSize 0).2 {} } _ ⟨[], rfl⟩
  have hplacements := congrArg LayoutState.placements hstate
  exact hplacements

/-- Trees that differ in places only are laid out alike, whatever files they are from. -/
theorem ofChunk_alike {c d : Chunk} (h : c.Alike d) (file file' : SourceFile) (style : Style) :
    (ofChunk c file style).layout.chunk.Alike (ofChunk d file' style).layout.chunk ∧
      (ofChunk c file style).layout.placements = (ofChunk d file' style).layout.placements := by
  constructor
  · have hc := Chunk.annotate_bare style.tabSize 0 c
    have hd := Chunk.annotate_bare style.tabSize 0 d
    rw [h, hd, Prod.mk.injEq] at hc
    exact hc.1.symm
  · rw [← placements_bare c file file style, h, placements_bare d file' file style]

end Layout

end CodeLayout
