import CodeLayout.Syntax.Types
import Mathlib.Data.List.ReduceOption

/-!
# What a forest covers

A forest covers a stretch of tokens if its leaves are these tokens in order. There is one way to
fall short: a list of resources drops the modifiers in front of a resource that turns out not to be
a declaration. `Node.isLossy` finds such lists in a tree, and `Node.Covers` says that a forest has
all tokens of a stretch exactly when it holds none of them.
-/

namespace CodeLayout

namespace Cursor

/-- The cursor behind the token with an index in the stream. -/
def behind (c : Cursor) (id : Nat) : Cursor :=
  { c with pos := c.lexemes.toList.countP fun l => l.id ≤ id }

/-- Whether an annotation or the word `final` is at the cursor. -/
def startsModifiers (c : Cursor) : Bool :=
  c.isAnnot 0 || c.isAt 0 "final"

/-- The tokens with their indices from one position of the stream up to another. -/
def stretch (ls : Array Lexeme) (i j : Nat) : List (Nat × Token) :=
  ((ls.toList.drop i).take (j - i)).map fun l => (l.id, l.token)

theorem stretch_self (ls : Array Lexeme) (i : Nat) : stretch ls i i = [] := by
  simp [stretch]

theorem stretch_append (ls : Array Lexeme) {i j k : Nat} (hij : i ≤ j) (hjk : j ≤ k) :
    stretch ls i k = stretch ls i j ++ stretch ls j k := by
  have hk : k - i = (j - i) + (k - j) := by omega
  have hj : i + (j - i) = j := by omega
  simp only [stretch, ← List.map_append]
  rw [hk, List.take_add, List.drop_drop, hj]

theorem stretch_succ {ls : Array Lexeme} {i : Nat} {l : Lexeme} (h : ls[i]? = some l) :
    stretch ls i (i + 1) = [(l.id, l.token)] := by
  have hl : ls.toList[i]? = some l := by simpa using h
  obtain ⟨hi, hget⟩ := List.getElem?_eq_some_iff.mp hl
  simp only [stretch, Nat.add_sub_cancel_left]
  rw [List.drop_eq_getElem_cons hi, hget]
  simp

end Cursor

namespace Node

/-- Whether modifiers are behind a mark of a list of resources but not in the resource there. Only
a declaration keeps its modifiers. -/
def missesModifiers (c : Cursor) (resource : Option Node) : Bool :=
  c.startsModifiers && !resource.any (isKind .varDecl)

/-- Whether modifiers are missing behind one of the marks of a list of resources. The children of
the list come in pairs of a mark and the resource behind it. -/
def dropsModifiers (ls : Array Lexeme) : List Node → Bool
  | [.leaf id t] => t.text != ascii ")" && missesModifiers (Cursor.behind ⟨ls, 0⟩ id) none
  | .leaf id t :: n :: rest =>
    (t.text != ascii ")" && missesModifiers (Cursor.behind ⟨ls, 0⟩ id) (some n)) ||
      dropsModifiers ls rest
  | _ => false

mutual

/-- Whether a tree has a list of resources that dropped modifiers. -/
def isLossy (ls : Array Lexeme) : Node → Bool
  | .leaf _ _ => false
  | .branch kind _ _ children =>
    (kind = .resources && dropsModifiers ls children) || anyLossy ls children

/-- Whether one of the trees of a list has a list of resources that dropped modifiers. -/
def anyLossy (ls : Array Lexeme) : List Node → Bool
  | [] => false
  | n :: ns => isLossy ls n || anyLossy ls ns

end

@[simp] theorem leavesList_append (ns ms : List Node) :
    leavesList (ns ++ ms) = leavesList ns ++ leavesList ms := by
  induction ns with
  | nil => rfl
  | cons n ns ih => simp [leavesList, ih]

@[simp] theorem anyLossy_append (ls : Array Lexeme) (ns ms : List Node) :
    anyLossy ls (ns ++ ms) = (anyLossy ls ns || anyLossy ls ms) := by
  induction ns with
  | nil => simp [anyLossy]
  | cons n ns ih => simp [anyLossy, ih, Bool.or_assoc]

theorem leavesList_singleton (n : Node) : leavesList [n] = n.leaves := by
  simp [leavesList]

theorem anyLossy_singleton (ls : Array Lexeme) (n : Node) : anyLossy ls [n] = n.isLossy ls := by
  simp [anyLossy]

/-- A node without children has no leaves. -/
theorem leaves_of_isEmpty {n : Node} (h : n.isEmpty = true) : n.leaves = [] := by
  cases n with
  | leaf id t => simp [isEmpty] at h
  | branch k a b cs =>
      simp only [isEmpty, List.isEmpty_iff] at h
      simp [leaves, h, leavesList]

theorem isLossy_of_isEmpty {ls : Array Lexeme} {n : Node} (h : n.isEmpty = true) :
    n.isLossy ls = false := by
  cases n with
  | leaf id t => rfl
  | branch k a b cs =>
      simp only [isEmpty, List.isEmpty_iff] at h
      simp [isLossy, h, anyLossy, dropsModifiers]

theorem leavesList_filter (ns : List Node) :
    leavesList (ns.filter fun n => !n.isEmpty) = leavesList ns := by
  induction ns with
  | nil => rfl
  | cons n ns ih =>
      by_cases h : n.isEmpty = true
      · simp [h, leavesList, leaves_of_isEmpty h, ih]
      · simp [h, leavesList, ih]

theorem anyLossy_filter (ls : Array Lexeme) (ns : List Node) :
    anyLossy ls (ns.filter fun n => !n.isEmpty) = anyLossy ls ns := by
  induction ns with
  | nil => rfl
  | cons n ns ih =>
      by_cases h : n.isEmpty = true
      · simp [h, anyLossy, isLossy_of_isEmpty h, ih]
      · simp [h, anyLossy, ih]

/-- The children of a made branch are the given nodes that are there and hold something. -/
theorem children_make (kind : NodeKind) (cs : List (Option Node)) :
    (make kind cs).children = cs.reduceOption.filter fun n => !n.isEmpty := by
  simp only [make, children]
  induction cs with
  | nil => rfl
  | cons c cs ih =>
      cases c with
      | none => simpa using ih
      | some n =>
          rw [List.reduceOption_cons_of_some, List.filter_cons, List.filterMap_cons]
          by_cases h : n.isEmpty = true
          · simpa [Option.filter, h] using ih
          · simpa [Option.filter, h] using ih

theorem leaves_make (kind : NodeKind) (cs : List (Option Node)) :
    (make kind cs).leaves = leavesList cs.reduceOption := by
  rw [← leavesList_filter, ← children_make kind]
  rfl

theorem isLossy_make {ls : Array Lexeme} {kind : NodeKind} (hk : kind ≠ .resources)
    (cs : List (Option Node)) : (make kind cs).isLossy ls = anyLossy ls cs.reduceOption := by
  rw [← anyLossy_filter, ← children_make kind]
  simp [make, isLossy, children, hk]

theorem append_eq_append_iff_of_sublist {α : Type} {l l' a b : List α} (h : l.Sublist a)
    (h' : l'.Sublist b) : l ++ l' = a ++ b ↔ l = a ∧ l' = b := by
  constructor
  · intro heq
    have hlen := congrArg List.length heq
    simp only [List.length_append] at hlen
    have h₁ := h.length_le
    have h₂ := h'.length_le
    exact ⟨h.eq_of_length (by omega), h'.eq_of_length (by omega)⟩
  · rintro ⟨rfl, rfl⟩
    rfl

/-- A forest covers a stretch of tokens: its leaves are some of them in order, with the first among
them, and they are all of them exactly when the forest is not lossy. -/
structure Covers (ls : Array Lexeme) (seg : List (Nat × Token)) (ns : List Node) : Prop where
  sublist : (leavesList ns).Sublist seg
  head_eq : (leavesList ns).head? = seg.head?
  eq_iff : leavesList ns = seg ↔ anyLossy ls ns = false

namespace Covers

variable {ls : Array Lexeme} {seg seg' : List (Nat × Token)} {ns ms : List Node}

theorem nil : Covers ls [] [] :=
  ⟨List.Sublist.refl _, rfl, by simp [leavesList, anyLossy]⟩

theorem leaf (id : Nat) (t : Token) : Covers ls [(id, t)] [.leaf id t] :=
  ⟨List.Sublist.refl _, rfl, by simp [leavesList, anyLossy, leaves, isLossy]⟩

theorem append (h : Covers ls seg ns) (h' : Covers ls seg' ms) :
    Covers ls (seg ++ seg') (ns ++ ms) := by
  refine ⟨?_, ?_, ?_⟩
  · rw [leavesList_append]
    exact h.sublist.append h'.sublist
  · rw [leavesList_append, List.head?_append, List.head?_append, h.head_eq, h'.head_eq]
  · rw [leavesList_append, anyLossy_append, Bool.or_eq_false_iff, ← h.eq_iff, ← h'.eq_iff,
      append_eq_append_iff_of_sublist h.sublist h'.sublist]

theorem make {kind : NodeKind} {cs : List (Option Node)} (hk : kind ≠ .resources)
    (h : Covers ls seg cs.reduceOption) : Covers ls seg [Node.make kind cs] := by
  have hl : leavesList [Node.make kind cs] = leavesList cs.reduceOption := by
    rw [leavesList_singleton, leaves_make]
  have ha : anyLossy ls [Node.make kind cs] = anyLossy ls cs.reduceOption := by
    rw [anyLossy_singleton, isLossy_make hk]
  exact ⟨hl ▸ h.sublist, hl ▸ h.head_eq, by rw [hl, ha]; exact h.eq_iff⟩

/-- Where no node is, no token was passed. -/
theorem eq_nil (h : Covers ls seg []) : seg = [] := by
  exact (h.eq_iff.mpr rfl).symm

/-- A node that covers some token has children. -/
theorem isEmpty_eq_false {n : Node} (h : Covers ls seg [n]) (hseg : seg ≠ []) :
    n.isEmpty = false := by
  by_contra hne
  have hl := leaves_of_isEmpty (Bool.not_eq_false _ ▸ hne)
  have hh := h.head_eq
  rw [leavesList_singleton, hl] at hh
  exact hseg (List.head?_eq_none_iff.mp hh.symm)

end Covers

end Node

end CodeLayout
