import CodeLayout.Proofs.Syntax.Covers
import CodeLayout.Proofs.Total
import CodeLayout.Syntax.Expression

/-!
# Consuming tokens into nodes

What a parser has done is told by three relations between the cursor before it and the cursor behind
it: `Reads` says that the nodes cover the tokens between the two, `Moves` that there is such a
token, and `Offers` that there is one if there is a node. The loops keep them. The parsers that only
look at the tokens ahead leave the state as it is.
-/

namespace CodeLayout

namespace Parser

variable {α : Type} {s : ParserState} {post : α → ParserState → Prop}

theorem Yields.cursor {f : Cursor → Parser α} (h : Yields (f s.cursor) s post) :
    Yields (Parser.cursor >>= f) s post :=
  Yields.look rfl h

theorem Yields.isAt {t : String} {f : Bool → Parser α}
    (h : Yields (f (s.cursor.isAt 0 t)) s post) : Yields (Parser.isAt t >>= f) s post :=
  Yields.look rfl h

theorem Yields.isName {f : Bool → Parser α} (h : Yields (f (s.cursor.isName 0)) s post) :
    Yields (Parser.isName >>= f) s post :=
  Yields.look rfl h

theorem Yields.bound {f : Nat → Parser α} (h : Yields (f s.cursor.bound) s post) :
    Yields (Parser.bound >>= f) s post :=
  Yields.look rfl h

theorem Yields.before {t : String} {f : Bool → Parser α}
    (h : Yields (f (!s.cursor.isAt 0 t && !s.cursor.isDone)) s post) :
    Yields (Parser.before t >>= f) s post :=
  Yields.look rfl h

theorem Yields.peekOperator {f : Bytes × Nat → Parser α}
    (h : ∀ op k, s.cursor.operator = (op, k) → Yields (f (op, k)) s post) :
    Yields (Grammar.peekOperator >>= f) s post :=
  Yields.look rfl (h _ _ rfl)

end Parser

namespace Cursor

/-- How many tokens are not consumed. -/
def left (c : Cursor) : Nat :=
  c.lexemes.size - c.pos

/-- A cursor over the same tokens that is not behind another. -/
structure Later (c c' : Cursor) : Prop where
  lexemes : c'.lexemes = c.lexemes
  le : c.pos ≤ c'.pos

/-- The nodes cover the tokens between two cursors. -/
structure Reads (c c' : Cursor) (ns : List (Option Node)) : Prop extends Later c c' where
  covers : Node.Covers c.lexemes (stretch c.lexemes c.pos c'.pos) ns.reduceOption

/-- The nodes cover the tokens between two cursors, and there are such tokens. -/
structure Moves (c c' : Cursor) (ns : List (Option Node)) : Prop extends Reads c c' ns where
  lt : c'.left < c.left

/-- A node that was read, if there is one, and is no declaration. -/
def Offers (c c' : Cursor) : Option Node → Prop
  | none => Reads c c' []
  | some n => Moves c c' [some n] ∧ n.isKind .varDecl = false

/-- A node that was read, and is no declaration. -/
structure Gives (c c' : Cursor) (n : Option Node) : Prop where
  offers : Offers c c' n
  ne_none : n ≠ none

variable {c c' c'' : Cursor} {ns ms : List (Option Node)} {n : Option Node}

theorem Later.refl (c : Cursor) : Later c c :=
  ⟨rfl, Nat.le_refl _⟩

theorem Later.trans (h : Later c c') (h' : Later c' c'') : Later c c'' :=
  ⟨h'.lexemes.trans h.lexemes, Nat.le_trans h.le h'.le⟩

theorem Later.left_le (h : Later c c') : c'.left ≤ c.left := by
  have hle := h.le
  simp only [left, h.lexemes]
  omega

theorem Later.pos_lt (h : Later c c') (hlt : c'.left < c.left) : c.pos < c'.pos := by
  simp only [left, h.lexemes] at hlt
  omega

theorem Reads.refl (c : Cursor) : Reads c c [] :=
  ⟨Later.refl c, by rw [stretch_self]; exact Node.Covers.nil⟩

theorem Reads.none (c : Cursor) : Reads c c [none] :=
  ⟨Later.refl c, (Reads.refl c).covers⟩

theorem Reads.append (h : Reads c c' ns) (h' : Reads c' c'' ms) : Reads c c'' (ns ++ ms) := by
  refine ⟨h.toLater.trans h'.toLater, ?_⟩
  have hcov := h'.covers
  rw [h.lexemes] at hcov
  rw [stretch_append c.lexemes h.le h'.le, List.reduceOption_append]
  exact h.covers.append hcov

theorem Reads.make {kind : NodeKind} (hk : kind ≠ .resources) (h : Reads c c' ns) :
    Reads c c' [some (Node.make kind ns)] :=
  ⟨h.toLater, h.covers.make hk⟩

/-- Nothing is read into no node. -/
theorem Reads.of_none (h : Reads c c' []) : Reads c c' [Option.none] :=
  ⟨h.toLater, h.covers⟩

theorem Reads.to_nil (h : Reads c c' [Option.none]) : Reads c c' [] :=
  ⟨h.toLater, h.covers⟩

theorem Reads.moves (h : Reads c c' ns) (hlt : c'.left < c.left) : Moves c c' ns :=
  ⟨h, hlt⟩

theorem Moves.append (h : Moves c c' ns) (h' : Reads c' c'' ms) : Moves c c'' (ns ++ ms) :=
  ⟨h.toReads.append h', Nat.lt_of_le_of_lt h'.left_le h.lt⟩

theorem Reads.append_moves (h : Reads c c' ns) (h' : Moves c' c'' ms) : Moves c c'' (ns ++ ms) :=
  ⟨h.append h'.toReads, Nat.lt_of_lt_of_le h'.lt h.left_le⟩

theorem Moves.make {kind : NodeKind} (hk : kind ≠ .resources) (h : Moves c c' ns) :
    Moves c c' [some (Node.make kind ns)] :=
  ⟨h.toReads.make hk, h.lt⟩

theorem Offers.reads (h : Offers c c' n) : Reads c c' [n] := by
  cases n with
  | none => exact Reads.of_none h
  | some e => exact h.1.toReads

theorem Offers.moves {e : Node} (h : Offers c c' (some e)) : Moves c c' [some e] :=
  h.1

theorem Moves.offers {e : Node} (h : Moves c c' [some e]) (he : e.isKind .varDecl = false) :
    Offers c c' (some e) :=
  ⟨h, he⟩

/-- A branch of a kind other than a declaration is given by what moves into it. -/
theorem Moves.gives_make {kind : NodeKind} (hk : kind ≠ .resources) (hd : kind ≠ .varDecl)
    (h : Moves c c' ns) : Gives c c' (some (Node.make kind ns)) := by
  refine ⟨(h.make hk).offers ?_, nofun⟩
  simp [Node.isKind, Node.kind?, Node.make, hd]

theorem Gives.moves (h : Gives c c' n) : Moves c c' [n] := by
  cases n with
  | none => exact absurd rfl h.ne_none
  | some e => exact h.offers.1

/-- What is offered where nothing was read before. -/
theorem Reads.offers (h : Reads c c' []) (h' : Offers c' c'' n) : Offers c c'' n := by
  cases n with
  | none => exact h.append h'
  | some e => exact ⟨h.append_moves h'.1, h'.2⟩

/-- Nothing is consumed into no node. -/
theorem Reads.left_eq (h : Reads c c' []) : c'.left = c.left := by
  have hnil := h.covers.eq_nil
  have hle := h.le
  simp only [stretch, List.map_eq_nil_iff, List.take_eq_nil_iff, List.drop_eq_nil_iff,
    Array.length_toList] at hnil
  simp only [left, h.lexemes]
  omega

theorem Moves.stretch_ne_nil (h : Moves c c' ns) : stretch c.lexemes c.pos c'.pos ≠ [] := by
  have hlt := h.lt
  have hpos := h.toLater.pos_lt hlt
  simp only [left, h.lexemes] at hlt
  simp only [stretch, ne_eq, List.map_eq_nil_iff, List.take_eq_nil_iff, List.drop_eq_nil_iff,
    Array.length_toList]
  omega

/-- A node that was read from some token holds one. -/
theorem Moves.isEmpty_eq_false {e : Node} (h : Moves c c' [some e]) : e.isEmpty = false :=
  h.covers.isEmpty_eq_false h.stretch_ne_nil

theorem Moves.ne_none (h : Moves c c' [n]) : n ≠ Option.none := by
  rintro rfl
  exact h.stretch_ne_nil h.covers.eq_nil

/-- A cursor does not move where nothing is read and something is left. -/
theorem Reads.eq_of_nil (h : Reads c c' []) (hpos : 0 < c.left) : c' = c := by
  have hleft := h.left_eq
  have hle := h.le
  obtain ⟨ls, i⟩ := c
  obtain ⟨ls', j⟩ := c'
  obtain rfl : ls' = ls := h.lexemes
  simp only [left] at hleft hpos hle
  obtain rfl : j = i := by omega
  rfl

theorem get?_zero (c : Cursor) : c.get? 0 = c.lexemes[c.pos]? := by
  have hpos : ¬(c.pos : Int) < 0 := by omega
  simp only [get?, if_neg hpos, Int.add_zero, Int.toNat_natCast]

theorem left_pos_of_get? {l : Lexeme} (h : c.get? 0 = some l) : 0 < c.left := by
  rw [get?_zero] at h
  have hlt := (Array.getElem?_eq_some_iff.mp h).1
  simp only [left]
  omega

theorem get?_zero_of_left_pos (h : 0 < c.left) : ∃ l, c.get? 0 = some l := by
  have hlt : c.pos < c.lexemes.size := by
    simp only [left] at h
    omega
  exact ⟨c.lexemes[c.pos], by rw [get?_zero, Array.getElem?_eq_getElem hlt]⟩

theorem left_pos_of_text (h : c.text 0 ≠ []) : 0 < c.left := by
  cases hl : c.get? 0 with
  | none => simp [text, hl] at h
  | some l => exact left_pos_of_get? hl

/-- There is a token where the cursor is at a text. -/
theorem left_pos_of_isAt {t : String} (h : c.isAt 0 t = true) (ht : ascii t ≠ []) :
    0 < c.left := by
  refine left_pos_of_text ?_
  rw [beq_iff_eq.mp h]
  exact ht

theorem left_pos_of_isWord (h : c.isWord 0 = true) : 0 < c.left := by
  cases hl : c.get? 0 with
  | none => simp [isWord, kind, hl] at h
  | some l => exact left_pos_of_get? hl

theorem left_pos_of_isName (h : c.isName 0 = true) : 0 < c.left := by
  simp only [isName, Bool.and_eq_true] at h
  exact left_pos_of_isWord h.1

theorem isDone_eq_false_iff : c.isDone = false ↔ 0 < c.left := by
  simp only [isDone, left, decide_eq_false_iff_not]
  omega

end Cursor

end CodeLayout
