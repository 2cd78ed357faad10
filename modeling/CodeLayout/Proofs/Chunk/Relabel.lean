import CodeLayout.Proofs.Chunk.Numbered

/-!
# Chunks that are relabeled

Where a chunk comes from and which number it has are labels: what is around a chunk goes by its
other traits. A tree whose labels are changed throughout keeps all that is made of these.
-/

namespace CodeLayout

/-- A change of the labels of chunks: of their numbers and of their places in the input. -/
structure Relabeling where
  traits : Traits → Traits
  space (t : Traits) : (traits t).space = t.space
  breakAfter (t : Traits) : (traits t).breakAfter = t.breakAfter
  breakBefore (t : Traits) : (traits t).breakBefore = t.breakBefore
  lead (t : Traits) : (traits t).lead = t.lead
  measure (t : Traits) : (traits t).measure = t.measure

attribute [simp] Relabeling.space Relabeling.breakAfter Relabeling.breakBefore Relabeling.lead
  Relabeling.measure

namespace Chunk

section Trees

variable (ρ : Relabeling)

mutual

/-- A tree with its labels changed. -/
def relabel : Chunk → Chunk
  | .token t s => .token (ρ.traits t) s
  | .comment t s c => .comment (ρ.traits t) s c
  | .group t x b cs => .group (ρ.traits t) x b (relabelList cs)
  | .block t o c i cs =>
    .block (ρ.traits t)
      (match o with
        | some o => some (relabel o)
        | none => none)
      (match c with
        | some c => some (relabel c)
        | none => none) i (relabelList cs)

/-- Trees with their labels changed. -/
def relabelList : List Chunk → List Chunk
  | [] => []
  | c :: cs => relabel c :: relabelList cs

end

theorem relabelList_eq_map (cs : List Chunk) : relabelList ρ cs = cs.map (relabel ρ) := by
  induction cs with
  | nil => rfl
  | cons c cs ih => rw [relabelList, ih, List.map_cons]

theorem relabel_group (t : Traits) (x : WrapContext) (b : Bool) (cs : List Chunk) :
    (group t x b cs).relabel ρ = group (ρ.traits t) x b (cs.map (relabel ρ)) := by
  rw [relabel, relabelList_eq_map]

theorem relabel_block (t : Traits) (o c : Option Chunk) (i : Bool) (cs : List Chunk) :
    (block t o c i cs).relabel ρ =
      block (ρ.traits t) (o.map (relabel ρ)) (c.map (relabel ρ)) i (cs.map (relabel ρ)) := by
  cases o <;> cases c <;> rw [relabel, relabelList_eq_map] <;> rfl

@[simp] theorem traits_relabel (c : Chunk) : (c.relabel ρ).traits = ρ.traits c.traits := by
  cases c with
  | block t o c i cs =>
      rw [relabel_block]
      rfl
  | _ => rfl

theorem walkList_map {cs : List Chunk}
    (h : ∀ c ∈ cs, (c.relabel ρ).walk = c.walk.map (relabel ρ)) :
    walkList (cs.map (relabel ρ)) = (walkList cs).map (relabel ρ) := by
  induction cs with
  | nil => rfl
  | cons c cs ih =>
      obtain ⟨hc, hcs⟩ := List.forall_mem_cons.mp h
      rw [List.map_cons, walkList, walkList, hc, ih hcs, List.map_append]

/-- The chunks of a tree whose labels are changed. -/
theorem walk_relabel (c : Chunk) : (c.relabel ρ).walk = c.walk.map (relabel ρ) := by
  induction c using byParts with
  | token t s => rfl
  | comment t s b => rfl
  | group t x b cs ih =>
      rw [walk, List.map_cons, relabel_group, walk, walkList_map ρ ih]
  | block t o k i cs iho ihk ih =>
      rw [walk_block, List.map_cons, List.map_append, List.map_append, ← walkList_map ρ iho,
        ← walkList_map ρ ih, ← walkList_map ρ ihk, relabel_block, walk_block, Option.toList_map,
        Option.toList_map]

end Trees

section Flags

variable (ρ : Relabeling)

mutual

@[simp] theorem endsHard_relabel (c : Chunk) : (c.relabel ρ).endsHard = c.endsHard := by
  match c with
  | .token t s => simp [relabel, endsHard]
  | .comment t s c => simp [relabel, endsHard]
  | .group t x b cs => simp [relabel, endsHard, lastEndsHard_relabelList cs]
  | .block t o none i cs => simp [relabel_block, endsHard]
  | .block t o (some c) i cs => simp [relabel_block, endsHard, endsHard_relabel c]

theorem lastEndsHard_relabelList (cs : List Chunk) :
    lastEndsHard (relabelList ρ cs) = lastEndsHard cs := by
  match cs with
  | [] => rfl
  | [c] => exact endsHard_relabel c
  | _ :: c :: cs => exact lastEndsHard_relabelList (c :: cs)

end

@[simp] theorem startsHard_relabel (c : Chunk) : (c.relabel ρ).startsHard = c.startsHard := by
  match c with
  | .token t s => simp [relabel, startsHard]
  | .comment t s c => simp [relabel, startsHard]
  | .group t x b [] => simp [relabel, relabelList, startsHard, firstStartsHard]
  | .group t x b (c :: cs) =>
      simp [relabel, relabelList, startsHard, firstStartsHard, startsHard_relabel c]
  | .block t none c i cs => simp [relabel_block, startsHard]
  | .block t (some o) c i cs => simp [relabel_block, startsHard, startsHard_relabel o]

@[simp] theorem isSpaced_relabel (c : Chunk) : (c.relabel ρ).isSpaced = c.isSpaced := by
  match c with
  | .token t s => simp [relabel, isSpaced]
  | .comment t s c => simp [relabel, isSpaced]
  | .group t x b [] => simp [relabel, relabelList, isSpaced, firstSpaced]
  | .group t x b (c :: cs) =>
      simp [relabel, relabelList, isSpaced, firstSpaced, isSpaced_relabel c]
  | .block t none c i cs => simp [relabel_block, isSpaced]
  | .block t (some o) c i cs => simp [relabel_block, isSpaced, isSpaced_relabel o]

mutual

@[simp] theorem settles_relabel (c : Chunk) : (c.relabel ρ).settles = c.settles := by
  match c with
  | .token t s => simp [relabel, settles]
  | .comment t s c => simp [relabel, settles]
  | .group t x b cs => simp [relabel, settles, lastSettles_relabelList cs]
  | .block t o c i cs => simp [relabel_block, settles]

theorem lastSettles_relabelList (cs : List Chunk) :
    lastSettles (relabelList ρ cs) = lastSettles cs := by
  match cs with
  | [] => rfl
  | [c] => exact settles_relabel c
  | _ :: c :: cs => exact lastSettles_relabelList (c :: cs)

end

theorem measureRow_relabel (isFirst : Bool) (width : Int) (cs : List Chunk) :
    measureRow isFirst width (cs.map (relabel ρ)) = measureRow isFirst width cs := by
  induction cs generalizing isFirst width with
  | nil => rfl
  | cons c cs ih => simp [measureRow, ih]

end Flags

end Chunk

/-- The numbers of chunks are counted from another number on. -/
def Relabeling.shift (n : Nat) : Relabeling where
  traits t := { t with id := n + t.id }
  space _ := rfl
  breakAfter _ := rfl
  breakBefore _ := rfl
  lead _ := rfl
  measure _ := rfl

namespace Chunk

/-- The number that a tree is numbered from is a label. -/
theorem annotateList_add {tabstop : Int} {n : Nat} {cs : List Chunk}
    (h : ∀ c ∈ cs, ∀ m, c.annotate tabstop (n + m) =
      ((c.annotate tabstop m).1.relabel (.shift n), n + (c.annotate tabstop m).2)) (m : Nat) :
    annotateList tabstop (n + m) cs =
      ((annotateList tabstop m cs).1.map (relabel (.shift n)),
        n + (annotateList tabstop m cs).2) := by
  induction cs generalizing m with
  | nil => rfl
  | cons c cs ih =>
      obtain ⟨hc, hcs⟩ := List.forall_mem_cons.mp h
      simp only [annotateList, hc, ih hcs, List.map_cons]

theorem annotate_add (tabstop : Int) (n : Nat) (c : Chunk) (m : Nat) :
    c.annotate tabstop (n + m) =
      ((c.annotate tabstop m).1.relabel (.shift n), n + (c.annotate tabstop m).2) := by
  induction c using byParts generalizing m with
  | token t s => rfl
  | comment t s b => rfl
  | group t x b cs ih =>
      simp only [annotate, Nat.add_assoc, annotateList_add ih, measureRow_relabel, relabel_group]
      rfl
  | block t o k i cs iho ihk ih =>
      have hitems := annotateList_add ih
      cases o <;> cases k
      case none.none =>
        simp only [annotate, Nat.add_assoc, hitems, relabel_block, List.isEmpty_map]
        rfl
      case none.some k =>
        have hk := ihk k (by simp)
        simp only [annotate, Nat.add_assoc, hitems, hk, relabel_block, List.isEmpty_map]
        rfl
      case some.none o =>
        have ho := iho o (by simp)
        simp only [annotate, Nat.add_assoc, hitems, ho, relabel_block, List.isEmpty_map]
        simp [measureBlock, Relabeling.shift]
      case some.some o k =>
        have ho := iho o (by simp)
        have hk := ihk k (by simp)
        simp only [annotate, Nat.add_assoc, hitems, ho, hk, relabel_block, List.isEmpty_map]
        simp [measureBlock, Relabeling.shift]

end Chunk

end CodeLayout
