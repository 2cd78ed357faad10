import CodeLayout.Proofs.Frame
import CodeLayout.Proofs.Lines.Assigns

/-!
# Line breaks that are demanded

Wherever a chunk demands a line break between two elements of a group, the second one starts a line,
and each item of a block starts one anyway. Each way to lay out a group or a block sees to this for
its own elements or items, and whether the chunks below an element start lines is settled when the
element is placed the last time, be it as usual, behind a trial, or by laying out an item again
behind a fault.
-/

namespace CodeLayout

namespace Chunk

/-- The elements of a group. -/
def elements : Chunk → List Chunk
  | .group _ _ _ cs => cs
  | _ => []

/-- The numbers of the chunks below a chunk are those of the chunk and of what is below it. -/
theorem ids_walk (c : Chunk) : ids c.walk = [c.traits.id] ++ ids c.walk.tail := by
  rw [walk_eq]
  rfl

end Chunk

namespace Placing

/-- Whether the elements of a row behind `previous` start a line wherever a line break is demanded
before them. -/
def Heeds (line : Nat → Option Indent) : Option Chunk → List Chunk → Prop
  | _, [] => True
  | previous, c :: cs =>
      (∀ b ∈ previous, (b.endsHard || c.startsHard) = true → (line c.traits.id).isSome = true) ∧
        Heeds line (some c) cs

/-- Whether this is so for the elements of all groups of a tree, and all items of its blocks start a
line. -/
def HeedsAll (line : Nat → Option Indent) (c : Chunk) : Prop :=
  ∀ d ∈ c.walk, Heeds line none d.elements ∧ ∀ e ∈ d.items, (line e.traits.id).isSome = true

variable {x : LayoutContext} {line : Nat → Option Indent} {c : Chunk} {cs : List Chunk}
  {p : Position}

theorem Heeds.getElem? (previous : Option Chunk) (h : Heeds line previous cs) {i : Nat}
    {b d : Chunk} (hb : cs[i]? = some b) (hd : cs[i + 1]? = some d)
    (hdemanded : (b.endsHard || d.startsHard) = true) : (line d.traits.id).isSome = true := by
  induction cs generalizing previous i with
  | nil => cases hb
  | cons c cs ih =>
      cases i with
      | succ i => exact ih (some c) h.2 hb hd
      | zero =>
          obtain rfl := Option.some.inj hb
          cases cs with
          | nil => cases hd
          | cons e es =>
              obtain rfl := Option.some.inj hd
              exact h.2.1 c rfl hdemanded

/-- Where all elements start a line no line break is missing. -/
theorem heeds_of_forall (h : ∀ c ∈ cs, (line c.traits.id).isSome = true)
    (previous : Option Chunk) : Heeds line previous cs := by
  induction cs generalizing previous with
  | nil => trivial
  | cons c cs ih =>
      exact ⟨fun _ _ _ => h c List.mem_cons_self,
        ih (fun d hd => h d (List.mem_cons_of_mem c hd)) (some c)⟩

theorem heedsAll_leaf (h : c.isLeaf = true) : HeedsAll line c := by
  intro d hd
  cases c with
  | token t s =>
      rw [List.mem_singleton.mp hd]
      exact ⟨trivial, nofun⟩
  | comment t s b =>
      rw [List.mem_singleton.mp hd]
      exact ⟨trivial, nofun⟩
  | group t context breakFirst cs => cases h
  | block t o k i cs => cases h

theorem heedsAll_group {t : Traits} {context : WrapContext} {breakFirst : Bool}
    (h : Heeds line none cs) (hbelow : ∀ d ∈ cs, HeedsAll line d) :
    HeedsAll line (.group t context breakFirst cs) := by
  intro d hd
  rcases List.mem_cons.mp hd with rfl | hd
  · exact ⟨h, nofun⟩
  · obtain ⟨e, he, hd⟩ := Chunk.mem_walkList.mp hd
    exact hbelow e he d hd

theorem heedsAll_block {t : Traits} {o k : Option Chunk} {i : Bool}
    (ho : ∀ d ∈ o.toList, HeedsAll line d)
    (hcs : ∀ d ∈ cs, (line d.traits.id).isSome = true ∧ HeedsAll line d)
    (hk : ∀ d ∈ k.toList, HeedsAll line d) : HeedsAll line (.block t o k i cs) := by
  intro d hd
  rw [Chunk.walk_block] at hd
  simp only [List.mem_cons, List.mem_append, Chunk.mem_walkList] at hd
  rcases hd with rfl | ⟨⟨e, he, hd⟩ | ⟨e, he, hd⟩⟩ | ⟨e, he, hd⟩
  · exact ⟨trivial, fun e he => (hcs e he).1⟩
  · exact ho e he d hd
  · exact (hcs e he).2 d hd
  · exact hk e he d hd

section Rows

variable {α β γ : Type} {move : Placing α} {place : α → Placing γ} {k : γ → Placing β}
  {ids : List Nat} {start : Option Indent} {post : β → (Nat → Option Indent) → Prop}

/-- A chunk is moved to its place, and then what is below it is placed. -/
theorem Assigns.moved (hnodup : (Chunk.ids c.walk).Nodup)
    (hmove : Assigns move [c.traits.id] fun _ line => line c.traits.id = start)
    (hplace : ∀ a, Assigns (place a) (Chunk.ids c.walk.tail) fun _ line => HeedsAll line c) :
    Assigns (move >>= place) (Chunk.ids c.walk) fun _ line =>
      line c.traits.id = start ∧ HeedsAll line c := by
  rw [c.ids_walk] at hnodup ⊢
  refine hmove.bind (List.disjoint_of_nodup_append hnodup) fun a => ?_
  exact (hplace a).mono fun _ _ hbelow hline => ⟨hline, hbelow⟩

/-- What follows a chunk that is at its place. -/
theorem Assigns.element (hnodup : (Chunk.ids c.walk ++ ids).Nodup)
    (hmove : Assigns move [c.traits.id] fun _ line => line c.traits.id = start)
    (hplace : ∀ a, Assigns (place a) (Chunk.ids c.walk.tail) fun _ line => HeedsAll line c)
    (hk : ∀ q, Assigns (k q) ids fun b line =>
      line c.traits.id = start → HeedsAll line c → post b line) :
    Assigns (move >>= fun a => place a >>= k) (Chunk.ids c.walk ++ ids) post := by
  rw [← bind_assoc]
  refine (Assigns.moved (List.Nodup.of_append_left hnodup) hmove hplace).bind
    (List.disjoint_of_nodup_append hnodup) fun q => ?_
  exact (hk q).mono fun _ _ hb ⟨hline, hbelow⟩ => hb hline hbelow

/-- A brace is moved to its place, and then what is below it is placed. -/
theorem Assigns.brace (hnodup : (Chunk.ids (Chunk.walkList (some c).toList)).Nodup)
    (hmove : Assigns move [c.traits.id] fun _ line => line c.traits.id = start)
    (hplace : (Chunk.ids c.walk).Nodup → ∀ a,
      Assigns (place a) (Chunk.ids c.walk.tail) fun _ line => HeedsAll line c) :
    Assigns (move >>= place) (Chunk.ids (Chunk.walkList (some c).toList)) fun _ line =>
      ∀ d ∈ (some c).toList, HeedsAll line d := by
  have hwalk : Chunk.walkList (some c).toList = c.walk := List.append_nil c.walk
  rw [hwalk] at hnodup ⊢
  exact (Assigns.moved hnodup hmove (hplace hnodup)).mono fun _ _ ⟨_, hbelow⟩ =>
    List.forall_mem_singleton.mpr hbelow

/-- The parts of a block are placed one behind the other. -/
theorem Assigns.block {m : Placing α} {items : α → Placing γ} {close : γ → Placing β} {t : Traits}
    {o k : Option Chunk} {i : Bool} (hnodup : (Chunk.ids (Chunk.block t o k i cs).walk).Nodup)
    (hopening : (Chunk.ids (Chunk.walkList o.toList)).Nodup →
      Assigns m (Chunk.ids (Chunk.walkList o.toList)) fun _ line => ∀ d ∈ o.toList, HeedsAll line d)
    (hitems : (Chunk.ids (Chunk.walkList cs)).Nodup → ∀ a,
      Assigns (items a) (Chunk.ids (Chunk.walkList cs)) fun _ line =>
        ∀ d ∈ cs, (line d.traits.id).isSome = true ∧ HeedsAll line d)
    (hclosing : (Chunk.ids (Chunk.walkList k.toList)).Nodup → ∀ a,
      Assigns (close a) (Chunk.ids (Chunk.walkList k.toList)) fun _ line =>
        ∀ d ∈ k.toList, HeedsAll line d) :
    Assigns (m >>= fun a => items a >>= close) (Chunk.ids (Chunk.block t o k i cs).walk.tail)
      fun _ line => HeedsAll line (.block t o k i cs) := by
  rw [Chunk.walk_block] at hnodup ⊢
  replace hnodup := List.Nodup.of_cons hnodup
  rw [List.tail_cons, List.append_assoc, Chunk.ids_append, Chunk.ids_append]
  rw [← Chunk.ids, List.append_assoc, Chunk.ids_append, Chunk.ids_append] at hnodup
  have hrest := List.Nodup.of_append_right hnodup
  refine (hopening (List.Nodup.of_append_left hnodup)).bind
    (List.disjoint_of_nodup_append hnodup) fun a => ?_
  refine (hitems (List.Nodup.of_append_left hrest) a).bind
    (List.disjoint_of_nodup_append hrest) fun b => ?_
  exact (hclosing (List.Nodup.of_append_right hrest) b).mono fun _ line hk hcs ho =>
    heedsAll_block ho hcs hk

end Rows

section Flatten

/-- What is to be shown of the trees below a chunk that is laid out without wrapping. -/
def Flattens (x : LayoutContext) (c : Chunk) : Prop :=
  (Chunk.ids c.walk).Nodup → ∀ indent,
    Assigns (flatten x indent c) (Chunk.ids c.walk.tail) fun _ line => HeedsAll line c

theorem assigns_flattenElements (hcs : ∀ c ∈ cs, Flattens x c)
    (hnodup : (Chunk.ids (Chunk.walkList cs)).Nodup) (indent : Indent) (previous : Option Chunk) :
    Assigns (flattenElements x indent previous cs) (Chunk.ids (Chunk.walkList cs)) fun _ line =>
      Heeds line previous cs ∧ ∀ d ∈ cs, HeedsAll line d := by
  induction cs generalizing previous with
  | nil => exact Assigns.pure fun _ => ⟨trivial, by simp⟩
  | cons c cs ih =>
      rw [Chunk.walkList, Chunk.ids_append] at hnodup ⊢
      rw [flattenElements]
      refine Assigns.element hnodup (assigns_setPlacement ((previous.filter fun b =>
        b.endsHard || c.startsHard).map (continuation x · indent)) fun q => ?_)
        (fun _ => hcs c List.mem_cons_self (List.Nodup.of_append_left hnodup) indent) fun _ => ?_
      · cases previous.filter _ <;> rfl
      · refine (ih (fun d hd => hcs d (List.mem_cons_of_mem c hd))
          (List.Nodup.of_append_right hnodup) (some c)).mono ?_
        rintro _ line ⟨hrow, hbelow⟩ hline hfirst
        refine ⟨⟨fun b hb hdemanded => ?_, hrow⟩, List.forall_mem_cons.mpr ⟨hfirst, hbelow⟩⟩
        rw [hline, Option.mem_def.mp hb]
        simp [hdemanded]

theorem assigns_flattenItems (hcs : ∀ c ∈ cs, Flattens x c)
    (hnodup : (Chunk.ids (Chunk.walkList cs)).Nodup) (indent : Indent) :
    Assigns (flattenItems x indent cs) (Chunk.ids (Chunk.walkList cs)) fun _ line =>
      ∀ d ∈ cs, (line d.traits.id).isSome = true ∧ HeedsAll line d := by
  induction cs with
  | nil => exact Assigns.pure fun _ => nofun
  | cons c cs ih =>
      rw [Chunk.walkList, Chunk.ids_append] at hnodup ⊢
      rw [flattenItems]
      refine Assigns.element hnodup (assigns_setPlacement (some indent) fun _ => rfl)
        (fun _ => hcs c List.mem_cons_self (List.Nodup.of_append_left hnodup) indent) fun _ => ?_
      refine (ih (fun d hd => hcs d (List.mem_cons_of_mem c hd))
        (List.Nodup.of_append_right hnodup)).mono fun _ line hrest hline hfirst => ?_
      exact List.forall_mem_cons.mpr ⟨⟨by rw [hline]; rfl, hfirst⟩, hrest⟩

theorem flattens (c : Chunk) : Flattens x c := by
  induction c using Chunk.byParts with
  | token t s => exact fun _ _ => Assigns.pure fun _ => heedsAll_leaf rfl
  | comment t s b => exact fun _ _ => Assigns.pure fun _ => heedsAll_leaf rfl
  | group t context breakFirst cs ih =>
      intro hnodup indent
      rw [flatten]
      exact (assigns_flattenElements ih (List.Nodup.of_cons hnodup) indent none).mono
        fun _ line h => heedsAll_group h.1 h.2
  | block t o k i cs iho ihk ih =>
      intro hnodup indent
      rw [flatten_block]
      refine Assigns.block hnodup (fun ho => ?_) (fun hcs _ => assigns_flattenItems ih hcs _)
        fun hk _ => ?_
      · cases o with
        | none => exact Assigns.pure fun _ => List.forall_mem_nil _
        | some c =>
            exact Assigns.brace ho assigns_continueLine fun hc _ => iho c (by simp) hc indent
      · cases k with
        | none => exact Assigns.pure fun _ => List.forall_mem_nil _
        | some c =>
            refine Assigns.brace hk (assigns_setPlacement
              (if closingStartsLine o cs then some indent else none) fun _ => rfl) fun hc _ => ?_
            exact ihk c (by simp) hc indent

end Flatten

section Items

/-- What is below an item of a block is settled by the item itself, or if it meets a fault, by
laying it out again. -/
theorem assigns_guarded {place : Placing Position} (hnodup : (Chunk.ids c.walk).Nodup)
    (hplace : Assigns place (Chunk.ids c.walk.tail) fun _ line => HeedsAll line c) :
    Assigns (guarded x c p place) (Chunk.ids c.walk.tail) fun _ line => HeedsAll line c := by
  rw [guarded]
  refine Assigns.get fun s => Assigns.kept (Assigns.recover ?_ fun fault => ?_) fun e => ?_
  · exact hplace.kept fun _ => Idle.pure _
  · refine Idle.after (Idle.of_quiet (quiet_modify fun _ => ⟨rfl, rfl⟩)) fun _ => ?_
    exact (idle_remark _ _).after fun _ => (flattens c hnodup p.line).kept fun _ => Idle.pure _
  · cases e <;> exact Idle.pure _

/-- An element on trial stays on its line. -/
theorem assigns_attempt {place : Position → Placing Position} (hnodup : (Chunk.ids c.walk).Nodup)
    (hplace : ∀ q, Assigns (place q) (Chunk.ids c.walk.tail) fun _ line => HeedsAll line c) :
    Assigns (attempt c p place) (Chunk.ids c.walk) fun _ line =>
      line c.traits.id = none ∧ HeedsAll line c := by
  rw [attempt]
  refine Idle.after (Idle.of_quiet (quiet_modify fun _ => ⟨rfl, rfl⟩)) fun _ => ?_
  rw [← bind_assoc]
  refine (Assigns.moved hnodup assigns_stay fun q => hplace _).kept fun q => ?_
  refine Assigns.get fun s => ?_
  refine Idle.after (Idle.of_quiet (quiet_modify fun _ => ⟨rfl, rfl⟩)) fun _ => ?_
  exact Idle.ite (Idle.pure _) ((idle_modifyTrial _).after fun _ => Idle.pure _)

end Items

/-- What is to be shown of placing the trees below a chunk. -/
def Obeys (x : LayoutContext) (c : Chunk) : Prop :=
  (Chunk.ids c.walk).Nodup → ∀ p tail,
    Assigns (place x c p tail) (Chunk.ids c.walk.tail) fun _ line => HeedsAll line c

section Block

theorem assigns_placeOpening {o : Option Chunk} (ho : ∀ c ∈ o.toList, Obeys x c)
    (hnodup : (Chunk.ids (Chunk.walkList o.toList)).Nodup) (p : Position) :
    Assigns (placeOpening x o p) (Chunk.ids (Chunk.walkList o.toList)) fun _ line =>
      ∀ d ∈ o.toList, HeedsAll line d := by
  cases o with
  | none => exact Assigns.pure fun _ => nofun
  | some c =>
      rw [placeOpening]
      exact Assigns.brace hnodup assigns_continueLine fun hc _ => ho c (by simp) hc p 0

theorem assigns_placeClosing {k : Option Chunk} (hk : ∀ c ∈ k.toList, Obeys x c)
    (hnodup : (Chunk.ids (Chunk.walkList k.toList)).Nodup) (startsLine : Bool) (p : Position) :
    Assigns (placeClosing x k startsLine p) (Chunk.ids (Chunk.walkList k.toList)) fun _ line =>
      ∀ d ∈ k.toList, HeedsAll line d := by
  cases k with
  | none => exact Assigns.pure fun _ => nofun
  | some c =>
      rw [placeClosing]
      refine Assigns.ite (fun _ => ?_) fun _ => ?_
      · exact Assigns.brace hnodup (assigns_breakTo p.base) fun hc q => hk c (by simp) hc q 0
      · exact Assigns.brace hnodup assigns_continueLine fun hc _ => hk c (by simp) hc p 0

/-- All items of a block start a line. -/
theorem assigns_placeItems (hcs : ∀ c ∈ cs, Obeys x c)
    (hnodup : (Chunk.ids (Chunk.walkList cs)).Nodup) (indent : Indent) (p : Position) :
    Assigns (placeItems x cs indent p) (Chunk.ids (Chunk.walkList cs)) fun _ line =>
      ∀ d ∈ cs, (line d.traits.id).isSome = true ∧ HeedsAll line d := by
  induction cs generalizing p with
  | nil => exact Assigns.pure fun _ => nofun
  | cons c cs ih =>
      rw [Chunk.walkList, Chunk.ids_append] at hnodup ⊢
      have hc := List.Nodup.of_append_left hnodup
      rw [placeItems]
      refine Assigns.element hnodup (assigns_breakTo indent)
        (fun q => assigns_guarded hc (hcs c List.mem_cons_self hc _ 0)) fun q => ?_
      refine (ih (fun d hd => hcs d (List.mem_cons_of_mem c hd))
        (List.Nodup.of_append_right hnodup) q).mono fun _ line hrest hline hfirst => ?_
      exact List.forall_mem_cons.mpr ⟨⟨by rw [hline]; rfl, hfirst⟩, hrest⟩

theorem assigns_placeBlock {t : Traits} {o k : Option Chunk} {i : Bool}
    (ho : ∀ c ∈ o.toList, Obeys x c) (hcs : ∀ c ∈ cs, Obeys x c) (hk : ∀ c ∈ k.toList, Obeys x c)
    (hnodup : (Chunk.ids (Chunk.block t o k i cs).walk).Nodup) (p : Position) :
    Assigns (placeBlock x o k i cs p) (Chunk.ids (Chunk.block t o k i cs).walk.tail)
      fun _ line => HeedsAll line (.block t o k i cs) := by
  rw [placeBlock]
  exact Assigns.block hnodup (assigns_placeOpening ho · p) (assigns_placeItems hcs · _)
    fun hnodup q => assigns_placeClosing hk hnodup _ _

end Block

section Group

theorem assigns_placeSequence (hcs : ∀ c ∈ cs, Obeys x c)
    (hnodup : (Chunk.ids (Chunk.walkList cs)).Nodup) (start : Indent) (previous : Option Chunk)
    (p : Position) (tail : Int) :
    Assigns (placeSequence x cs start previous p tail) (Chunk.ids (Chunk.walkList cs)) fun _ line =>
      Heeds line previous cs ∧ ∀ d ∈ cs, HeedsAll line d := by
  induction cs generalizing previous p with
  | nil => exact Assigns.pure fun _ => ⟨trivial, List.forall_mem_nil _⟩
  | cons c cs ih =>
      rw [Chunk.walkList, Chunk.ids_append] at hnodup ⊢
      have hplace := hcs c List.mem_cons_self (List.Nodup.of_append_left hnodup)
      have hrest := ih (fun d hd => hcs d (List.mem_cons_of_mem c hd))
        (List.Nodup.of_append_right hnodup) (some c)
      -- Each element is moved to its place in one of several ways, and all goes on alike.
      have helement {α : Type} {move : Placing α} {behind : α → Position} {line? : Option Indent}
          (hmove : Assigns move [c.traits.id] fun _ line => line c.traits.id = line?)
          (hline : ∀ b ∈ previous, (b.endsHard || c.startsHard) = true → line?.isSome = true)
          (width : Int) :
          Assigns (move >>= fun a => place x c (behind a) width >>= fun q =>
              placeSequence x cs start (some c) q tail)
            (Chunk.ids c.walk ++ Chunk.ids (Chunk.walkList cs)) fun _ line =>
              Heeds line previous (c :: cs) ∧ ∀ d ∈ c :: cs, HeedsAll line d := by
        refine Assigns.element hnodup hmove (fun a => hplace _ _) fun q => ?_
        refine (hrest q).mono fun _ line hbehind hstart hfirst => ?_
        refine ⟨⟨fun b hb hdemanded => ?_, hbehind.1⟩,
          List.forall_mem_cons.mpr ⟨hfirst, hbehind.2⟩⟩
        rw [hstart]
        exact hline b hb hdemanded
      rw [placeSequence]
      refine (idle_tail tail 0).after fun behind => ?_
      cases previous with
      | none => exact helement assigns_continueLine (fun _ hb => absurd hb (by simp)) _
      | some b =>
          have hstays (h : ¬(b.endsHard || c.startsHard) = true) : ∀ d ∈ some b,
              (d.endsHard || c.startsHard) = true → (none : Option Indent).isSome = true := by
            rintro d ⟨rfl⟩ hd
            exact absurd hd h
          refine Assigns.ite (fun _ => ?_) fun hfree => Assigns.ite (fun _ => ?_) fun _ => ?_
          · exact helement (assigns_breakTo _) (fun _ _ _ => rfl) _
          · refine (idle_fits c _ behind).after fun _ => Assigns.ite (fun _ => ?_) fun _ => ?_
            · exact helement assigns_stay (hstays hfree) _
            · exact helement (assigns_breakTo _) (fun _ _ _ => rfl) _
          · exact helement assigns_stay (hstays hfree) _

variable {plan : SplitPlan} {broke : Bool} {i : Nat} {previous : Option Chunk} {tail : Int}

/-- Before an element a line is started where that is demanded. -/
theorem assigns_choose : Assigns (choose x plan broke i previous c p tail) [] fun choice _ =>
    ∀ b ∈ previous, (b.endsHard || c.startsHard) = true → choice = .wrap plan.indent := by
  rw [choose.eq_def]
  refine Assigns.ite (fun _ => Assigns.pure fun _ _ _ _ => rfl) fun hfree => ?_
  -- No line break is demanded in any of the other cases.
  have hother {m : Placing Choice} (h : Idle m) : Assigns m [] fun choice _ =>
      ∀ b ∈ previous, (b.endsHard || c.startsHard) = true → choice = .wrap plan.indent := by
    refine h.mono fun _ _ _ b hb hdemanded => absurd ?_ hfree
    rw [Option.mem_def.mp hb]
    exact hdemanded
  split
  case h_6 =>
    refine hother (Idle.ite (Idle.pure _) (Idle.ite (Idle.pure _) ?_))
    refine (idle_fits c p tail).after fun _ => Idle.ite (Idle.pure _) (Idle.ite (Idle.pure _) ?_)
    exact Idle.ite (Idle.pure _) (Idle.pure _)
  all_goals exact hother (Idle.pure _)

/-- An element that is placed starts a line as was chosen for it, unless it stays where it was
tried. -/
theorem assigns_placeElement {chosen : Choice → Prop} (hc : Obeys x c)
    (hnodup : (Chunk.ids c.walk).Nodup)
    (hchoose : Assigns (choose x plan broke i previous c p tail) [] fun choice _ => chosen choice) :
    Assigns (placeElement x plan broke i previous c p tail) (Chunk.ids c.walk) fun _ line =>
      (∃ choice, chosen choice ∧ (line c.traits.id =
          ((Choice.indent? plan choice).filter fun _ => !(i = 0 && p.fresh)) ∨
        choice = .attempt ∧ line c.traits.id = none)) ∧ HeedsAll line c := by
  rw [placeElement]
  refine Assigns.bind hchoose (List.disjoint_nil_left _) fun choice => ?_
  extract_lets wrapped anew again
  have hanew {move : Placing Position} {start : Option Indent}
      (hmove : Assigns move [c.traits.id] fun _ line => line c.traits.id = start) :
      Assigns (move >>= anew) (Chunk.ids c.walk) fun _ line =>
        line c.traits.id = start ∧ HeedsAll line c := by
    simp only [anew]
    rw [← bind_assoc]
    exact (Assigns.moved hnodup hmove fun q => hc hnodup _ _).kept fun _ => Idle.pure _
  have hagain : Assigns (again none) (Chunk.ids c.walk) fun _ line =>
      line c.traits.id = wrapped ∧ HeedsAll line c := by
    simp only [again]
    clear_value wrapped
    cases wrapped with
    | none => exact hanew assigns_stay
    | some indent => exact hanew (assigns_breakTo indent)
  have hchosen : Assigns (again none) (Chunk.ids c.walk) fun _ line => chosen choice →
      (∃ choice, chosen choice ∧ (line c.traits.id =
          ((Choice.indent? plan choice).filter fun _ => !(i = 0 && p.fresh)) ∨
        choice = .attempt ∧ line c.traits.id = none)) ∧ HeedsAll line c :=
    hagain.mono fun _ line h hchosen => ⟨⟨choice, hchosen, Or.inl h.1⟩, h.2⟩
  cases choice with
  | wrap | keep => exact hchosen
  | attempt =>
      refine Assigns.retry (assigns_attempt hnodup fun q => hc hnodup q tail) fun tried => ?_
      cases tried with
      | none => exact Or.inr hchosen
      | some q =>
          refine Or.inl (Assigns.pure fun line htried hattempt => ?_)
          exact ⟨⟨.attempt, hattempt, Or.inr ⟨rfl, htried.1⟩⟩, htried.2⟩

theorem assigns_placeSplit (hcs : ∀ c ∈ cs, Obeys x c)
    (hnodup : (Chunk.ids (Chunk.walkList cs)).Nodup) (plan : SplitPlan) (broke : Bool) (i : Nat)
    (previous : Option Chunk) (hi : i = 0 → previous = none) (p : Position) (tail : Int) :
    Assigns (placeSplit x cs plan broke i previous p tail) (Chunk.ids (Chunk.walkList cs))
      fun _ line => Heeds line previous cs ∧ ∀ d ∈ cs, HeedsAll line d := by
  induction cs generalizing broke i previous p with
  | nil => exact Assigns.pure fun _ => ⟨trivial, List.forall_mem_nil _⟩
  | cons c cs ih =>
      rw [Chunk.walkList, Chunk.ids_append] at hnodup ⊢
      rw [placeSplit_cons]
      refine (assigns_placeElement (hcs c List.mem_cons_self) (List.Nodup.of_append_left hnodup)
        assigns_choose).bind (List.disjoint_of_nodup_append hnodup) fun r => ?_
      refine (ih (fun d hd => hcs d (List.mem_cons_of_mem c hd)) (List.Nodup.of_append_right hnodup)
        (broke || !r.1) (i + 1) (some c) (fun h => absurd h i.succ_ne_zero) r.2).mono ?_
      rintro _ line ⟨hrow, hbelow⟩ ⟨⟨choice, hchosen, hline⟩, hfirst⟩
      refine ⟨⟨fun b hb hdemanded => ?_, hrow⟩, List.forall_mem_cons.mpr ⟨hfirst, hbelow⟩⟩
      -- Only the first element may stay where it is, and nothing is before it.
      have hlater : i ≠ 0 := fun h => by
        rw [hi h] at hb
        cases hb
      obtain rfl := hchosen b hb hdemanded
      obtain hline | ⟨hattempt, -⟩ := hline
      · rw [hline]
        simp [Choice.indent?, hlater]
      · cases hattempt

theorem assigns_placeGroup {t : Traits} {context : WrapContext} {breakFirst : Bool}
    (hcs : ∀ c ∈ cs, Obeys x c) : Obeys x (.group t context breakFirst cs) := by
  intro hnodup p tail
  replace hnodup := List.Nodup.of_cons hnodup
  have hsequence := assigns_placeSequence hcs hnodup p.line none p tail
  have hgroup {m : Placing Position} (h : Assigns m (Chunk.ids (Chunk.walkList cs)) fun _ line =>
      Heeds line none cs ∧ ∀ d ∈ cs, HeedsAll line d) :
      Assigns m (Chunk.ids (Chunk.walkList cs)) fun _ line =>
        HeedsAll line (.group t context breakFirst cs) :=
    h.mono fun _ _ ⟨hrow, hbelow⟩ => heedsAll_group hrow hbelow
  rw [place]
  refine Idle.after (Idle.of_quiet quiet_step) fun _ => (idle_policy context).after fun policy => ?_
  refine Assigns.ite (fun _ => hgroup hsequence) fun _ => (idle_measure _).after fun m => ?_
  refine Assigns.ite (fun _ => hgroup hsequence) fun _ => ?_
  exact (hgroup (assigns_placeSplit hcs hnodup _ false 0 none (fun _ => rfl) p tail)).kept
    fun _ => Idle.pure _

end Group

/-- Placing a tree settles the lines below its root, and no line break is lost. -/
theorem obeys (c : Chunk) : Obeys x c := by
  induction c using Chunk.byParts with
  | token t s =>
      intro _ p tail
      rw [place]
      refine Idle.after (Idle.of_quiet quiet_step) fun _ => ?_
      exact (idle_token s p).mono fun _ _ _ => heedsAll_leaf rfl
  | comment t s b =>
      intro _ p tail
      rw [place]
      refine Idle.after (Idle.of_quiet quiet_step) fun _ => ?_
      exact (idle_comment b p).mono fun _ _ _ => heedsAll_leaf rfl
  | group t context breakFirst cs ih => exact assigns_placeGroup ih
  | block t o k i cs iho ihk ih =>
      intro hnodup p tail
      rw [place]
      refine Idle.after (Idle.of_quiet quiet_step) fun _ => ?_
      exact assigns_placeBlock iho ih ihk hnodup p

/-- The elements of a group at the root start a line as items do. -/
theorem assigns_root (hnodup : (Chunk.ids c.walk).Nodup) :
    Assigns (root x c) (Chunk.ids c.walk) fun _ line => HeedsAll line c := by
  rw [root]
  refine (Assigns.moved hnodup assigns_continueLine fun _ => ?_).mono fun _ _ ⟨_, hbelow⟩ => hbelow
  cases c with
  | token t s => exact Assigns.pure fun _ => heedsAll_leaf rfl
  | comment t s b => exact Assigns.pure fun _ => heedsAll_leaf rfl
  | block t o k i cs =>
      exact assigns_placeBlock (fun c _ => obeys c) (fun c _ => obeys c)
        (fun c _ => obeys c) hnodup _
  | group t context breakFirst cs =>
      change Assigns (placeBlock x none none false cs _) _ _
      rw [placeBlock]
      refine (Idle.pure _).after fun q => Assigns.kept ?_ fun _ => Idle.pure _
      refine (assigns_placeItems (fun c _ => obeys c) (List.Nodup.of_cons hnodup) _ _).mono ?_
      intro _ line hitems
      exact heedsAll_group (heeds_of_forall (fun d hd => (hitems d hd).1) none) fun d hd =>
        (hitems d hd).2

end Placing

/-- No line break is lost: when a tree has been laid out, each element of a group starts a line that
comes behind an element that must end one, or that must start one itself. -/
theorem Layout.ofChunk_newLine_of_demanded (c : Chunk) (file : SourceFile) (style : Style)
    {p : Position} (h : (ofChunk c file style).position = .ok p) {t : Traits}
    {context : WrapContext} {breakFirst : Bool} {cs : List Chunk}
    (hgroup : .group t context breakFirst cs ∈ (ofChunk c file style).layout.chunk.walk) {i : Nat}
    {b d : Chunk} (hb : cs[i]? = some b) (hd : cs[i + 1]? = some d)
    (hdemanded : (b.endsHard || d.startsHard) = true) :
    ((ofChunk c file style).layout.placement d).newLine = true := by
  have hroot := Placing.assigns_root (x := ⟨style, file, budget (c.annotate style.tabSize 0).2⟩)
    (Chunk.nodup_ids_annotate style.tabSize c)
    { placements := Array.replicate (c.annotate style.tabSize 0).2 {} }
    fun id hid => by
      obtain ⟨d, hd, rfl⟩ := List.mem_map.mp hid
      simpa using Chunk.id_lt hd
  have hheeds := hroot.2.2 p h
    (fun id => ((ofChunk c file style).layout.placements.getD id {}).line?)
    (fun _ _ => rfl) _ hgroup
  rw [placement, Placement.newLine_eq_isSome]
  exact hheeds.1.getElem? none hb hd hdemanded

/-- An item with a line break that is demanded before a comment without contents. -/
def Chunk.unfinished : Chunk :=
  .block {} none none true [.group {} .plain false
    [.token { breakAfter := .mandatory } (ascii "a;"), .comment {} (ascii "// b") none]]

theorem Layout.ofChunk_newLine_unfinished :
    let l := ofChunk .unfinished ⟨[], []⟩ .default
    l.report.map (·.problem) = [.recovered (ascii "wrapping lines") .missing] ∧
      (l.layout.placement (.comment { id := 3 } (ascii "// b") none)).newLine = true :=
  ⟨by decide +kernel, ofChunk_newLine_of_demanded .unfinished _ .default rfl
    (.tail _ (.head _)) (i := 0) rfl rfl (by decide)⟩

end CodeLayout
