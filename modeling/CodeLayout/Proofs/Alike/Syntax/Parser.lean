import CodeLayout.Proofs.Agree
import CodeLayout.Proofs.Alike.Node
import CodeLayout.Proofs.Alike.Syntax.Lookahead
import CodeLayout.Proofs.Syntax.Loops

/-!
# Reading alike tokens

Parsers that are run at alike cursors do the same: they consume as many tokens and give nodes that
are alike. This is shown here for what parsers are put together from.
-/

namespace CodeLayout

variable [SideBySide]

/-- Parsers that stand at alike cursors. What they have recorded does not count. -/
structure ParserState.Alike (s t : ParserState) : Prop where
  cursor : s.cursor.Alike t.cursor
  noLambda : t.noLambda = s.noLambda

/-- A node that may be missing is alike another. -/
abbrev Node.OptAlike : Option Node → Option Node → Prop :=
  Option.Rel Node.Alike

/-- What a step of a loop gives is alike: its nodes, and whether it asks for more. -/
def Node.StepAlike (r r' : List (Option Node) × Bool) : Prop :=
  Node.Alikes r.1 r'.1 ∧ r.2 = r'.2

namespace Parser

open Node

/-- Two parsers that agree at alike cursors. -/
abbrev Agree {α β : Type} (rel : α → β → Prop) (p : Parser α) (q : Parser β) : Prop :=
  Agree.Fallible ParserState.Alike rel p q

/-- A parser that does the same at alike cursors. -/
abbrev Uniform {α : Type} (rel : α → α → Prop) (p : Parser α) : Prop :=
  Agree rel p p

variable {α β γ δ : Type} {rel : α → β → Prop}

section Looking

theorem Agree.cursor {f : Cursor → Parser α} {g : Cursor → Parser β}
    (h : ∀ c d, c.Alike d → Agree rel (f c) (g d)) :
    Agree rel (Parser.cursor >>= f) (Parser.cursor >>= g) :=
  fun s t hs => h _ _ hs.cursor s t hs

/-- A parser that gives what a function finds at the cursor. -/
theorem uniform_look {p : Parser γ} (m : Cursor → γ)
    (hp : ∀ s, p.run s = (Except.ok (m s.cursor), s)) (hm : ∀ c d, c.Alike d → m d = m c) :
    Uniform Eq p := by
  intro s t hs
  change Fault.Parallel Eq (p.run s).1 (p.run t).1 ∧ (p.run s).2.Alike (p.run t).2
  rw [hp, hp, hm _ _ hs.cursor]
  exact ⟨.ok rfl, hs⟩

theorem uniform_isAt (text : String) : Uniform Eq (isAt text) :=
  uniform_look (fun c => c.isAt 0 text) (fun _ => rfl) fun _ _ h => by rw [h.isAt]

/-- A choice by the text at the cursor. -/
theorem Agree.ifAt (text : String) {p p' : Parser α} {q q' : Parser β} (hp : Agree rel p q)
    (hp' : Agree rel p' q') :
    Agree rel (do if ← isAt text then p else p') (do if ← isAt text then q else q') := by
  apply (uniform_isAt text).bind_eq
  intro b
  exact hp.ite hp'

/-- A choice by the text at the cursor whose results go on in the same way. -/
theorem Agree.bindIfAt (text : String) {res : γ → δ → Prop} {p p' : Parser γ} {q q' : Parser δ}
    {f : γ → Parser α} {g : δ → Parser β} (hp : Agree res p q) (hp' : Agree res p' q')
    (hf : ∀ a b, res a b → Agree rel (f a) (g b)) :
    Agree rel (do if ← isAt text then p >>= f else p' >>= f)
      (do if ← isAt text then q >>= g else q' >>= g) :=
  Agree.ifAt text (hp.bind hf) (hp'.bind hf)

theorem uniform_isName : Uniform Eq isName :=
  uniform_look (fun c => c.isName 0) (fun _ => rfl) fun _ _ h => by rw [h.isName]

theorem uniform_bound : Uniform Eq bound :=
  uniform_look Cursor.bound (fun _ => rfl) fun _ _ h => h.bound

theorem uniform_before (text : String) : Uniform Eq (before text) :=
  uniform_look (fun c => !c.isAt 0 text && !c.isDone) (fun _ => rfl) fun _ _ h => by
    rw [h.isAt, h.isDone]

theorem uniform_peekOperator : Uniform Eq Grammar.peekOperator :=
  uniform_look Cursor.operator (fun _ => rfl) fun _ _ h => h.operator

end Looking

section Primitives

theorem uniform_none : Uniform OptAlike (pure none) :=
  Agree.Fallible.pure .none

theorem uniform_nil : Uniform Alikes (pure []) :=
  Agree.Fallible.pure .nil

theorem uniform_unexpected (want place : Bytes) :
    Uniform (fun _ _ => True) (unexpected want place) :=
  Agree.Fallible.modify fun _ _ hs => ⟨hs.cursor, hs.noLambda⟩

/-- What is read behind something that was recorded. -/
theorem Agree.unexpected (want place : Bytes) {p : Parser α} {q : Parser β} (h : Agree rel p q) :
    Agree rel (do unexpected want place; p) (do unexpected want place; q) := by
  apply (uniform_unexpected want place).bind
  intro _ _ _
  exact h

theorem uniform_noLambda (noLambda : Bool) :
    Uniform (fun _ _ => True) (modify fun s => { s with noLambda }) :=
  Agree.Fallible.modify fun _ _ hs => ⟨hs.cursor, rfl⟩

theorem uniform_next : Uniform OptAlike next := by
  intro s t hs
  change Fault.Parallel _ (next.run s).1 (next.run t).1 ∧ (next.run s).2.Alike (next.run t).2
  rcases hs.cursor.get?_cases 0 with ⟨hc, hd⟩ | ⟨l, m, hc, hd, hkind, htext⟩
  · rw [next_run_none hc, next_run_none hd]
    exact ⟨.ok .none, hs⟩
  · rw [next_run hc, next_run hd]
    have hleaf := Node.Alike.leaf (hs.cursor.meets 0 l m hc hd) hkind htext
    exact ⟨.ok (.some hleaf), hs.cursor.advance, hs.noLambda⟩

theorem uniform_accept (text : String) : Uniform OptAlike (accept text) := by
  apply (uniform_isAt text).bind_eq
  intro b
  exact uniform_next.ite uniform_none

theorem uniform_acceptName : Uniform OptAlike acceptName := by
  apply uniform_isName.bind_eq
  intro b
  exact uniform_next.ite uniform_none

theorem uniform_expect (text place : String) : Uniform OptAlike (expect text place) := by
  apply (uniform_accept text).bind
  intro n m h
  cases h with
  | some h => exact Agree.Fallible.pure (.some h)
  | none => exact Agree.unexpected _ _ uniform_none

theorem Agree.node {kind : NodeKind} (hk : kind.isInner = true) {cs ds : List (Option Node)}
    (h : Alikes cs ds) : Agree OptAlike (node kind cs) (node kind ds) :=
  Agree.Fallible.pure (.some (.make hk h))

theorem uniform_tokens (n : Nat) : Uniform Alikes (tokens n) := by
  induction n with
  | zero => exact uniform_nil
  | succ n ih =>
      apply uniform_next.bind
      intro t t' ht
      apply ih.bind
      intro ts ts' hts
      exact Agree.Fallible.pure (.cons ht hts)

end Primitives

section At

/-- Two parsers that agree at alike cursors with a text at them. -/
def AgreeAt (text : String) (rel : α → β → Prop) (p : Parser α) (q : Parser β) : Prop :=
  ∀ s t, s.Alike t → s.cursor.isAt 0 text = true →
    Fault.Parallel rel (p.run s).1 (q.run t).1 ∧ (p.run s).2.Alike (q.run t).2

/-- Two leaves that are there and are alike. -/
inductive LeafAlike : Option Node → Option Node → Prop
  | some {i j : Nat} {t u : Token} (h : (Node.leaf i t).Alike (.leaf j u)) :
      LeafAlike (some (.leaf i t)) (some (.leaf j u))

variable {text : String}

theorem AgreeAt.bind {res : γ → δ → Prop} {p : Parser γ} {q : Parser δ} {f : γ → Parser α}
    {g : δ → Parser β} (h : AgreeAt text res p q)
    (hf : ∀ a b, res a b → Agree rel (f a) (g b)) : AgreeAt text rel (p >>= f) (q >>= g) := by
  intro s t hs hat
  obtain ⟨hres, hsame⟩ := h s t hs hat
  exact Agree.Fallible.cont hres hf _ _ hsame

/-- There is a token to be consumed where a text is at the cursor. -/
theorem agreeAt_next (htext : ascii text ≠ []) : AgreeAt text LeafAlike next next := by
  intro s t hs hat
  obtain ⟨l, hl⟩ := Cursor.get?_zero_of_left_pos (Cursor.left_pos_of_isAt hat htext)
  rcases hs.cursor.get?_cases 0 with ⟨hc, -⟩ | ⟨l, m, hc, hd, hkind, hsame⟩
  · rw [hc] at hl
    cases hl
  · rw [next_run hc, next_run hd]
    have hleaf := Node.Alike.leaf (hs.cursor.meets 0 l m hc hd) hkind hsame
    exact ⟨.ok (.some hleaf), hs.cursor.advance, hs.noLambda⟩

theorem AgreeAt.ifAt {p p' : Parser α} {q q' : Parser β} (hp : AgreeAt text rel p q)
    (hp' : Agree rel p' q') :
    Agree rel (do if ← isAt text then p else p') (do if ← isAt text then q else q') := by
  intro s t hs
  have hrun : ∀ {ε : Type} {r r' : Parser ε} (s : ParserState),
      (do if ← isAt text then r else r' : Parser ε) s =
        (if s.cursor.isAt 0 text then r else r' : Parser ε) s := fun _ => rfl
  change Fault.Parallel rel ((do if ← isAt text then p else p' : Parser α) s).1
      ((do if ← isAt text then q else q' : Parser β) t).1 ∧
    ((do if ← isAt text then p else p' : Parser α) s).2.Alike
      ((do if ← isAt text then q else q' : Parser β) t).2
  rw [hrun, hrun, hs.cursor.isAt]
  split
  · rename_i hat
    exact hp s t hs hat
  · exact hp' s t hs

end At

section Loops

variable {more : Parser Bool} {step : Parser (List (Option Node) × Bool)}

theorem uniform_collectFrom (hmore : Uniform Eq more) (hstep : Uniform StepAlike step)
    (fuel : Nat) (last : Option Nat) : Uniform Alikes (collectFrom fuel last more step) := by
  induction fuel generalizing last with
  | zero => exact Agree.Fallible.throw _
  | succ fuel ih =>
      apply hmore.bind_eq
      intro b
      apply Agree.Fallible.ite _ uniform_nil
      apply Agree.cursor
      intro c d hcd
      rw [hcd.pos]
      apply Agree.Fallible.ite (Agree.Fallible.throw _)
      apply hstep.bind
      rintro ⟨ns, again⟩ ⟨ms, _⟩ ⟨hns, rfl⟩
      apply Agree.Fallible.ite
      · apply (ih _).bind
        intro rest rest' hrest
        exact Agree.Fallible.pure (Alikes.append hns hrest)
      · exact Agree.Fallible.pure hns

theorem uniform_collect (hmore : Uniform Eq more) (hstep : Uniform StepAlike step) :
    Uniform Alikes (collect more step) := by
  apply uniform_bound.bind_eq
  intro fuel
  exact uniform_collectFrom hmore hstep fuel none

theorem uniform_many {one : Parser (Option Node)} (hmore : Uniform Eq more)
    (hone : Uniform OptAlike one) : Uniform Alikes (many more one) := by
  apply uniform_collect hmore
  apply hone.bind
  intro n m hnm
  exact Agree.Fallible.pure ⟨.cons hnm .nil, rfl⟩

theorem uniform_separated {element : Parser (Option Node)} (hmore : Uniform Eq more)
    (helement : Uniform OptAlike element) (separator : String) :
    Uniform Alikes (separated more element separator) := by
  apply uniform_collect hmore
  apply helement.bind
  intro n m hnm
  cases hnm with
  | none => exact Agree.Fallible.pure ⟨.nil, rfl⟩
  | some hnm =>
      apply (uniform_accept separator).bind
      intro mark mark' hmark
      cases hmark with
      | none => exact Agree.Fallible.pure ⟨.cons (.some hnm) .nil, rfl⟩
      | some hmark =>
          exact Agree.Fallible.pure ⟨.cons (.some hnm) (.cons (.some hmark) .nil), rfl⟩

theorem uniform_dims : Uniform Alikes dims := by
  apply uniform_collect
  · exact uniform_look (fun c => c.isAt 0 "[" && c.isAt 1 "]") (fun _ => rfl)
      fun _ _ h => by rw [h.isAt]
  · apply uniform_next.bind
    intro n m hnm
    apply uniform_next.bind
    intro n' m' hnm'
    exact Agree.Fallible.pure ⟨.cons hnm (.cons hnm' .nil), rfl⟩

end Loops

end Parser

end CodeLayout
