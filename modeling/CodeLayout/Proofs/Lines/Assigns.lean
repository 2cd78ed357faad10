import CodeLayout.Proofs.Quiet

/-!
# Steps that assign lines

Which chunks start a line, and at what indentation, is decided by steps that may meet a fault.
`Assigns` is the rule for them: whatever happens, a step changes this for some chunks only, and if
it meets no fault, a condition holds of the result and of what these chunks get in the end. Steps
for different chunks are put together one behind the other; a step on trial, or one that met a
fault, is forgotten if the same chunks are assigned again.
-/

namespace CodeLayout

/-- The indentation of the line that a chunk starts, if it starts one. -/
def Placement.line? (q : Placement) : Option Indent :=
  if q.newLine then some q.indent else none

/-- The indentation of the line that the chunk with a number starts, if it starts one. -/
def LayoutState.line? (s : LayoutState) (id : Nat) : Option Indent :=
  (s.placements.getD id {}).line?

theorem Placement.newLine_eq_isSome (q : Placement) : q.newLine = q.line?.isSome := by
  rw [line?]
  cases q.newLine <;> rfl

theorem Placement.line?_eq_some {q : Placement} (h : q.newLine = true) :
    q.line? = some q.indent := by
  rw [line?, if_pos h]

namespace Placing

/-- A step assigns lines to the chunks with some numbers. The result and what these chunks get in
the end satisfy a condition unless the step meets a fault. -/
def Assigns {α : Type} (m : Placing α) (ids : List Nat)
    (post : α → (Nat → Option Indent) → Prop) : Prop :=
  ∀ s : LayoutState, (∀ id ∈ ids, id < s.placements.size) →
    (m.run s).2.placements.size = s.placements.size ∧
    (∀ id, id ∉ ids → (m.run s).2.line? id = s.line? id) ∧
    ∀ a, (m.run s).1 = .ok a → ∀ line : Nat → Option Indent,
      (∀ id ∈ ids, line id = (m.run s).2.line? id) → post a line

/-- A step leaves all lines as they are. -/
def Idle {α : Type} (m : Placing α) : Prop :=
  Assigns m [] fun _ _ => True

variable {α β : Type} {m m' : Placing α} {k : α → Placing β} {ids ids' : List Nat}
  {mid mid' : α → (Nat → Option Indent) → Prop} {post : β → (Nat → Option Indent) → Prop}

namespace Assigns

theorem pure {a : α} (h : ∀ line, mid a line) : Assigns (Pure.pure a) [] mid :=
  fun _ _ => ⟨rfl, fun _ _ => rfl, fun _ ha line _ => Except.ok.inj ha ▸ h line⟩

theorem mono (h : Assigns m ids mid) (himp : ∀ a line, mid a line → mid' a line) :
    Assigns m ids mid' := by
  refine fun s hs => ?_
  obtain ⟨hsize, hframe, hpost⟩ := h s hs
  exact ⟨hsize, hframe, fun a ha line hline => himp a line (hpost a ha line hline)⟩

/-- A step that assigns lines to some chunks, and then one that assigns lines to others besides, or
to all of them again. -/
theorem bind_or_again (h : Assigns m ids mid) (hdisjoint : ids.Disjoint ids')
    (hk : ∀ a, Assigns (k a) ids' (fun b line => mid a line → post b line) ∨
      Assigns (k a) (ids ++ ids') post) : Assigns (m >>= k) (ids ++ ids') post := by
  intro s hs
  obtain ⟨hsize, hframe, hmid⟩ := h s fun id hid => hs id (List.mem_append_left _ hid)
  have hkept : ∀ id, id ∉ ids ++ ids' → id ∉ ids := fun id hid hmem =>
    hid (List.mem_append_left _ hmem)
  have hrun : (m >>= k).run s = ExceptT.bindCont k (m.run s).1 (m.run s).2 := rfl
  rw [hrun]
  rcases hm : m.run s with ⟨r, s₁⟩
  rw [hm] at hsize hframe hmid
  have hs₁ : ∀ id ∈ ids ++ ids', id < s₁.placements.size := fun id hid => hsize ▸ hs id hid
  cases r with
  | error fault => exact ⟨hsize, fun id hid => hframe id (hkept id hid), fun a ha => by cases ha⟩
  | ok a =>
      change ((k a).run s₁).2.placements.size = _ ∧ _
      rcases hk a with hrest | hagain
      · obtain ⟨hsize', hframe', hpost⟩ :=
          hrest s₁ fun id hid => hs₁ id (List.mem_append_right _ hid)
        refine ⟨hsize'.trans hsize, fun id hid => ?_, fun b hb line hline => ?_⟩
        · exact (hframe' id fun hmem => hid (List.mem_append_right _ hmem)).trans
            (hframe id (hkept id hid))
        · refine hpost b hb line (fun id hid => hline id (List.mem_append_right _ hid)) ?_
          refine hmid a rfl line fun id hid => ?_
          rw [hline id (List.mem_append_left _ hid)]
          exact hframe' id (hdisjoint hid)
      · obtain ⟨hsize', hframe', hpost⟩ := hagain s₁ hs₁
        exact ⟨hsize'.trans hsize,
          fun id hid => (hframe' id hid).trans (hframe id (hkept id hid)), hpost⟩

theorem bind (h : Assigns m ids mid) (hdisjoint : ids.Disjoint ids')
    (hk : ∀ a, Assigns (k a) ids' fun b line => mid a line → post b line) :
    Assigns (m >>= k) (ids ++ ids') post :=
  h.bind_or_again hdisjoint fun a => Or.inl (hk a)

/-- A step that assigns lines, and then one that leaves them as they are or assigns them again. -/
theorem retry (h : Assigns m ids mid)
    (hk : ∀ a, Assigns (k a) [] (fun b line => mid a line → post b line) ∨
      Assigns (k a) ids post) : Assigns (m >>= k) ids post := by
  rw [← List.append_nil ids]
  refine h.bind_or_again (List.disjoint_nil_right ids) fun a => ?_
  rw [List.append_nil]
  exact hk a

theorem ite {p : Prop} [Decidable p] (h : p → Assigns m ids mid) (h' : ¬p → Assigns m' ids mid) :
    Assigns (if p then m else m') ids mid := by
  by_cases hp : p
  · rw [if_pos hp]
    exact h hp
  · rw [if_neg hp]
    exact h' hp

theorem get {k : LayoutState → Placing β} (hk : ∀ s, Assigns (k s) ids post) :
    Assigns (MonadState.get >>= k) ids post :=
  fun s hs => hk s s hs

/-- A step that is run, and if it meets a fault, one that assigns lines to the same chunks. -/
theorem recover {handler : Fault → Placing α} (h : Assigns m ids mid)
    (hhandler : ∀ fault, Assigns (handler fault) ids mid) :
    Assigns (tryCatch m handler) ids mid := by
  intro s hs
  obtain ⟨hsize, hframe, hpost⟩ := h s hs
  have hrun : (tryCatch m handler).run s =
      (tryCatch (fun _ => m.run s : Placing α) handler).run s := rfl
  rw [hrun]
  rcases hm : m.run s with ⟨r, s₁⟩
  rw [hm] at hsize hframe hpost
  cases r with
  | ok a => exact ⟨hsize, hframe, hpost⟩
  | error fault =>
      obtain ⟨hsize', hframe', hpost'⟩ := hhandler fault s₁ fun id hid => hsize ▸ hs id hid
      exact ⟨hsize'.trans hsize, fun id hid => (hframe' id hid).trans (hframe id hid), hpost'⟩

end Assigns

namespace Idle

theorem pure (a : α) : Idle (Pure.pure a) :=
  Assigns.pure fun _ => trivial

theorem of_quiet {good : α → Prop} (h : Quiet m good) : Idle m := by
  intro s _
  obtain ⟨a, s', hrun, -, heq, -⟩ := h s
  rw [hrun]
  refine ⟨by rw [heq], fun id _ => ?_, fun _ _ _ _ => trivial⟩
  rw [LayoutState.line?, heq, LayoutState.line?]

theorem throw (fault : Fault) : Idle (MonadExcept.throw fault : Placing α) :=
  fun _ _ => ⟨rfl, fun _ _ => rfl, nofun⟩

/-- A step behind one that leaves all lines as they are. -/
theorem after (h : Idle m) (hk : ∀ a, Assigns (k a) ids post) : Assigns (m >>= k) ids post :=
  Assigns.bind h (List.disjoint_nil_left ids) fun a => (hk a).mono fun _ _ hb _ => hb

theorem ite {p : Prop} [Decidable p] (h : Idle m) (h' : Idle m') :
    Idle (if p then m else m') :=
  Assigns.ite (fun _ => h) fun _ => h'

end Idle

/-- A step that assigns lines, and then one that leaves them as they are. -/
theorem Assigns.kept {good : (Nat → Option Indent) → Prop}
    (h : Assigns m ids fun _ line => good line)
    (hk : ∀ a, Idle (k a)) : Assigns (m >>= k) ids fun _ line => good line := by
  have hbind := h.bind (List.disjoint_nil_right ids) fun a =>
    (hk a).mono fun _ _ _ (hline : good _) => hline
  rwa [List.append_nil] at hbind

section Marks

variable {x : LayoutContext} {c : Chunk} {p : Position}

theorem assigns_setPlacement {f : Placement → Placement} (indent : Option Indent)
    (hf : ∀ q, (f q).line? = indent) :
    Assigns (setPlacement c f) [c.traits.id] fun _ line => line c.traits.id = indent := by
  intro s hs
  have hlt : c.traits.id < s.placements.size := hs _ List.mem_cons_self
  refine ⟨Array.size_modify, fun id hid => ?_, fun _ _ line hline => ?_⟩
  · have hne : c.traits.id ≠ id := fun heq => hid (heq ▸ List.mem_cons_self)
    change (Array.getD (s.placements.modify c.traits.id f) id {}).line? = _
    rw [LayoutState.line?, Array.getD_eq_getD_getElem?, Array.getElem?_modify, if_neg hne,
      Array.getD_eq_getD_getElem?]
  · refine (hline _ List.mem_cons_self).trans ?_
    change (Array.getD (s.placements.modify c.traits.id f) c.traits.id {}).line? = _
    rw [Array.getD_eq_getD_getElem?, Array.getElem?_modify, if_pos rfl,
      Array.getElem?_eq_getElem hlt]
    exact hf _

/-- A change of a placement that has nothing to do with lines. -/
theorem idle_setPlacement {f : Placement → Placement} (hf : ∀ q, (f q).line? = q.line?) :
    Idle (setPlacement c f) := by
  refine fun s _ => ⟨Array.size_modify, fun id _ => ?_, fun _ _ _ _ => trivial⟩
  change (Array.getD (s.placements.modify c.traits.id f) id {}).line? = _
  rw [LayoutState.line?, Array.getD_eq_getD_getElem?, Array.getElem?_modify,
    Array.getD_eq_getD_getElem?]
  split
  · cases s.placements[id]? with
    | none => rfl
    | some q => exact hf q
  · rfl

theorem idle_modifyTrial (f : Trial → Trial) : Idle (modifyTrial f) :=
  Idle.of_quiet (quiet_modifyTrial f)

theorem idle_remark (problem : Problem) (span : Span) : Idle (remark problem span) :=
  fun _ _ => ⟨rfl, fun _ _ => rfl, fun _ _ _ _ => trivial⟩

theorem assigns_breakTo (indent : Indent) :
    Assigns (breakTo x c indent p) [c.traits.id] fun _ line => line c.traits.id = some indent := by
  rw [breakTo]
  refine (idle_modifyTrial _).after fun _ => ?_
  exact Assigns.kept (assigns_setPlacement (some indent) fun _ => rfl) fun _ => Idle.pure _

theorem assigns_continueLine :
    Assigns (continueLine c) [c.traits.id] fun _ line => line c.traits.id = none :=
  assigns_setPlacement none fun _ => rfl

theorem assigns_stay :
    Assigns (stay c p) [c.traits.id] fun _ line => line c.traits.id = none := by
  rw [stay]
  exact Assigns.kept (assigns_setPlacement none fun _ => rfl) fun _ => Idle.pure _

end Marks

section Room

variable {x : LayoutContext} {c : Chunk} {cs : List Chunk}

theorem idle_policy (context : WrapContext) : Idle (policy x context) :=
  Idle.of_quiet (quiet_policy context)

theorem idle_keepMeasure (m : Measure) : Idle (keepMeasure c m) :=
  Idle.of_quiet (quiet_modify fun _ => ⟨rfl, rfl⟩)

theorem idle_measureElements (hcs : ∀ e ∈ cs, Idle (measureInterrupted e)) (isFirst : Bool)
    (width : Int) : Idle (measureElements c isFirst width cs) := by
  induction cs generalizing isFirst width with
  | nil => exact Idle.pure _
  | cons e es ih =>
      have he := hcs e List.mem_cons_self
      have hrest := ih fun d hd => hcs d (List.mem_cons_of_mem e hd)
      rw [measureElements]
      -- The measure goes on in the same way whether it was taken before or not.
      cases e.traits.measure <;> refine Idle.after ?_ fun m => Idle.ite ?_ ?_
      case none.refine_1 => exact he
      case some.refine_1 => exact Idle.pure _
      case none.refine_2 | some.refine_2 => exact (idle_keepMeasure _).after fun _ => Idle.pure _
      case none.refine_3 | some.refine_3 =>
        exact (idle_keepMeasure _).after fun _ => Idle.ite (Idle.pure _) (hrest false _)

theorem idle_measureInterrupted (c : Chunk) : Idle (measureInterrupted c) := by
  induction c using Chunk.byParts with
  | token t s => exact Idle.pure _
  | comment t s b =>
      rw [measureInterrupted]
      refine Assigns.get fun state => ?_
      split
      · exact (idle_keepMeasure _).after fun _ => Idle.throw _
      · exact Idle.pure _
  | group t context breakFirst cs ih =>
      rw [measureInterrupted]
      refine Assigns.get fun state => ?_
      split
      · exact Idle.pure _
      · exact (idle_keepMeasure _).after fun _ => idle_measureElements ih true 0
  | block t o c i cs iho ihc ih =>
      rw [measureInterrupted]
      refine Assigns.get fun state => ?_
      split
      · exact Idle.pure _
      · refine (idle_keepMeasure _).after fun _ => ?_
        cases o with
        | none => exact Idle.pure _
        | some o =>
            refine Idle.after (iho o (by simp)) fun m => (idle_keepMeasure _).after fun _ => ?_
            cases c with
            | none => exact Idle.pure _
            | some c =>
                refine Idle.ite (Idle.pure _) (Idle.after (ihc c (by simp)) fun n => ?_)
                exact (idle_keepMeasure _).after fun _ => Idle.pure _

theorem idle_measure (c : Chunk) : Idle (measure c) := by
  rw [measure]
  split
  · exact Idle.pure _
  · exact idle_measureInterrupted c

theorem idle_leadElements (context : WrapContext) (hcs : ∀ c ∈ cs, Idle (lead x c))
    (isFirst : Bool) (width : Int) : Idle (leadElements x context isFirst width cs) := by
  induction cs generalizing isFirst width with
  | nil => exact Idle.pure _
  | cons e es ih =>
      have hrest := ih fun d hd => hcs d (List.mem_cons_of_mem e hd)
      rw [leadElements]
      refine Idle.ite (Idle.pure _) ((hcs e List.mem_cons_self).after fun own => ?_)
      refine Idle.ite (Idle.pure _) ((idle_policy context).after fun policy => ?_)
      exact Idle.ite (Idle.pure _) (hrest false _)

theorem idle_lead (c : Chunk) : Idle (lead x c) := by
  induction c using Chunk.byParts with
  | token t s => exact Idle.pure _
  | comment t s b => exact Idle.pure _
  | group t context breakFirst cs ih =>
      rw [lead]
      exact (idle_leadElements context ih true 0).after fun _ => Idle.pure _
  | block t o c i cs iho ihc ih =>
      cases o with
      | none => exact Idle.pure _
      | some o =>
          rw [lead]
          exact (idle_measure o).after fun _ => Idle.pure _

theorem idle_tail (parent width : Int) : Idle (tail x parent width cs) := by
  induction cs generalizing width with
  | nil => exact Idle.pure _
  | cons c cs ih =>
      rw [tail]
      refine Idle.ite (Idle.pure _) ((idle_lead c).after fun own => ?_)
      exact Idle.ite (Idle.pure _) (ih _)

theorem idle_fits (c : Chunk) (p : Position) (tail : Int) : Idle (fits x c p tail) := by
  rw [fits]
  exact (idle_measure c).after fun _ => Idle.pure _

theorem idle_token (text : Bytes) (p : Position) : Idle (token x text p) := by
  rw [token]
  exact Idle.ite (Idle.pure _) ((idle_modifyTrial _).after fun _ => Idle.pure _)

/-- A comment gets its lines at the place where it is. -/
theorem idle_comment (contents : Option Comment) (p : Position) :
    Idle (comment x c contents p) := by
  cases contents with
  | none => exact Idle.throw _
  | some b =>
      rw [comment]
      refine Idle.after (idle_setPlacement fun _ => rfl) fun _ => ?_
      split <;> exact Idle.pure _

end Room

end Placing

end CodeLayout
