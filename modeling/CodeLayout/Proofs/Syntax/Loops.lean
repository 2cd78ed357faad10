import CodeLayout.Proofs.Syntax.Reads

/-!
# Primitive parsers and loops

A loop meets no fault if it comes round only behind a token that was not consumed before, since the
tokens that are left bound how often that happens. What holds of one step is carried to the whole
loop by `Yields.collectFrom`.
-/

namespace CodeLayout

namespace Parser

open Cursor

variable {s : ParserState}

section Primitives

theorem run_cursor_bind {α : Type} (k : Cursor → Parser α) :
    (cursor >>= k).run s = (k s.cursor).run s :=
  rfl

theorem next_run {l : Lexeme} (h : s.cursor.get? 0 = some l) :
    next.run s = (Except.ok (some (Node.leaf l.id l.token)),
      { s with cursor := { s.cursor with pos := s.cursor.pos + 1 } }) := by
  rw [next, run_cursor_bind, h]
  rfl

theorem next_run_none (h : s.cursor.get? 0 = none) : next.run s = (Except.ok none, s) := by
  rw [next, run_cursor_bind, h]
  rfl

/-- The leaf that is consumed. -/
theorem moves_leaf {c : Cursor} {l : Lexeme} (h : c.get? 0 = some l) :
    Moves c { c with pos := c.pos + 1 } [some (Node.leaf l.id l.token)] := by
  have hget : c.lexemes[c.pos]? = some l := by rw [← get?_zero, h]
  have hlt := left_pos_of_get? h
  refine ⟨⟨⟨rfl, Nat.le_succ _⟩, ?_⟩, ?_⟩
  · rw [stretch_succ hget]
    exact Node.Covers.leaf l.id l.token
  · simp only [left] at hlt ⊢
    omega

theorem Yields.next : Yields next s fun n s' => Offers s.cursor s'.cursor n := by
  cases hl : s.cursor.get? 0 with
  | none => exact ⟨none, s, next_run_none hl, Reads.refl _⟩
  | some l => exact ⟨_, _, next_run hl, (moves_leaf hl).offers rfl⟩

theorem Yields.next_moves (h : 0 < s.cursor.left) :
    Yields Parser.next s fun n s' => Moves s.cursor s'.cursor [n] := by
  obtain ⟨l, hl⟩ := get?_zero_of_left_pos h
  exact ⟨_, _, next_run hl, moves_leaf hl⟩

theorem Yields.next_reads : Yields Parser.next s fun n s' =>
    Reads s.cursor s'.cursor [n] ∧ (0 < s.cursor.left → s'.cursor.left < s.cursor.left) := by
  by_cases hpos : 0 < s.cursor.left
  · exact (Yields.next_moves hpos).mono fun _ _ h => ⟨h.toReads, fun _ => h.lt⟩
  · exact Yields.next.mono fun _ _ h => ⟨h.reads, fun h => absurd h hpos⟩

/-- A token that was asked for by its text: the leaf at the cursor, or nothing. -/
def Marks (c c' : Cursor) (t : String) : Option Node → Prop
  | none => c' = c
  | some n => ∃ l, c.get? 0 = some l ∧ l.token.text = ascii t ∧ n = .leaf l.id l.token ∧
      c' = { c with pos := c.pos + 1 }

theorem Marks.offers {c c' : Cursor} {t : String} {n : Option Node} (h : Marks c c' t n) :
    Offers c c' n := by
  cases n with
  | none =>
      cases h
      exact Reads.refl c
  | some n =>
      obtain ⟨l, hl, -, rfl, rfl⟩ := h
      exact (moves_leaf hl).offers rfl

theorem Yields.accept_marks (t : String) :
    Yields (Parser.accept t) s fun n s' => Marks s.cursor s'.cursor t n := by
  refine Yields.isAt (Yields.ite (fun hat => ?_) fun _ => Yields.pure rfl)
  cases hl : s.cursor.get? 0 with
  | none => exact ⟨none, s, next_run_none hl, rfl⟩
  | some l =>
      refine ⟨_, _, next_run hl, l, hl, ?_, rfl, rfl⟩
      simpa [Cursor.isAt, text, hl] using hat

theorem Yields.expect_marks (t place : String) :
    Yields (Parser.expect t place) s fun n s' => Marks s.cursor s'.cursor t n := by
  refine (Yields.accept_marks t).bind fun n s₁ h₁ => ?_
  cases n with
  | none => exact Yields.change (Yields.pure h₁)
  | some e => exact Yields.pure h₁

theorem Yields.accept (t : String) :
    Yields (Parser.accept t) s fun n s' => Offers s.cursor s'.cursor n :=
  (Yields.accept_marks t).mono fun _ _ h => h.offers

theorem Yields.acceptName :
    Yields Parser.acceptName s fun n s' => Offers s.cursor s'.cursor n := by
  refine Yields.isName (Yields.ite (fun _ => Yields.next) fun _ => ?_)
  exact Yields.pure (Reads.refl _)

/-- What is recorded does not matter for what follows. -/
theorem Yields.unexpected {α : Type} {want place : Bytes} {f : Unit → Parser α}
    {post : α → ParserState → Prop}
    (h : ∀ recorded, Yields (f ()) { s with recorded := recorded } post) :
    Yields (Parser.unexpected want place >>= f) s post :=
  Yields.change (h _)

theorem Yields.expect (t place : String) :
    Yields (Parser.expect t place) s fun n s' => Offers s.cursor s'.cursor n :=
  (Yields.expect_marks t place).mono fun _ _ h => h.offers

theorem Yields.node {kind : NodeKind} {ns : List (Option Node)}
    {post : Option Node → ParserState → Prop} (h : post (some (Node.make kind ns)) s) :
    Yields (Parser.node kind ns) s post :=
  Yields.pure h

theorem Yields.tokens (k : Nat) :
    Yields (Parser.tokens k) s fun ns s' => Reads s.cursor s'.cursor ns := by
  induction k generalizing s with
  | zero => exact Yields.pure (Reads.refl _)
  | succ k ih =>
      refine Yields.next.bind fun n s₁ h₁ => ?_
      refine (ih (s := s₁)).bind fun ns s₂ h₂ => ?_
      exact Yields.pure (h₁.reads.append h₂)

theorem Yields.tokens_moves {k : Nat} (hk : 0 < k) (h : 0 < s.cursor.left) :
    Yields (Parser.tokens k) s fun ns s' => Moves s.cursor s'.cursor ns := by
  obtain ⟨k, rfl⟩ : ∃ j, k = j + 1 := ⟨k - 1, by omega⟩
  refine (Yields.next_moves h).bind fun n s₁ h₁ => ?_
  refine (Yields.tokens k (s := s₁)).bind fun ns s₂ h₂ => ?_
  exact Yields.pure (h₁.append h₂)

section Choices

variable {α : Type} {c : Prop} [Decidable c] {post : α → ParserState → Prop}

/-- A choice between nodes that are read. -/
theorem Yields.either {p q : Parser (Option Node)} {f : Option Node → Parser α}
    (hp : c → Yields p s fun n s' => Reads s.cursor s'.cursor [n])
    (hq : ¬c → Yields q s fun n s' => Reads s.cursor s'.cursor [n])
    (hf : ∀ n s', Reads s.cursor s'.cursor [n] → Yields (f n) s' post) :
    Yields (if c then p >>= f else q >>= f) s post :=
  Yields.bind_ite hp hq hf

end Choices

theorem yields_none : Yields (pure none) s fun n s' => Reads s.cursor s'.cursor [n] :=
  Yields.pure (Reads.none _)

theorem yields_nil : Yields (pure []) s fun ns s' => Reads s.cursor s'.cursor ns :=
  Yields.pure (Reads.refl _)

end Primitives

section Loops

variable {more : Parser Bool} {step : Parser (List (Option Node) × Bool)} {m : Cursor → Bool}

/-- A loop keeps an invariant between the cursor before it, its nodes, and the cursor behind it if
the invariant holds where the loop ends, and each step puts its nodes in front. -/
theorem Yields.collectFrom (hmore : ∀ s, more.run s = (Except.ok (m s.cursor), s)) {c₀ : Cursor}
    {inv : Cursor → List (Option Node) → Cursor → Prop}
    (hstop : ∀ c, Later c₀ c → m c = false → inv c [] c)
    (hstep : ∀ s, Later c₀ s.cursor → m s.cursor = true → Yields step s fun r s' =>
      Later s.cursor s'.cursor ∧
        if r.2 then s'.cursor.left < s.cursor.left ∧
            ∀ ns c, inv s'.cursor ns c → inv s.cursor (r.1 ++ ns) c
          else inv s.cursor r.1 s'.cursor)
    {fuel : Nat} {last : Option Nat} (hs : Later c₀ s.cursor) (hfuel : s.cursor.left < fuel)
    (hlast : ∀ p, last = some p → p < s.cursor.pos) :
    Yields (collectFrom fuel last more step) s fun ns s' => inv s.cursor ns s'.cursor := by
  induction fuel generalizing s last with
  | zero => omega
  | succ fuel ih =>
      refine Yields.look (hmore s) (Yields.ite (fun hm => ?_) fun hm => ?_)
      · have hne : last ≠ some s.cursor.pos := fun h => Nat.lt_irrefl _ (hlast _ h)
        refine Yields.cursor ?_
        refine Yields.ite (fun h => absurd h hne) fun _ => ?_
        refine (hstep s hs hm).bind ?_
        rintro ⟨nodes, again⟩ s₁ ⟨hlater, hnodes⟩
        refine Yields.ite (fun hagain => ?_) fun hagain => ?_
        · simp only [hagain, if_true] at hnodes
          obtain ⟨hlt, hinv⟩ := hnodes
          refine (ih (hs.trans hlater) (by omega) ?_).bind fun ns s₂ h₂ => ?_
          · intro p hp
            have hpos := hlater.pos_lt hlt
            simp only [Option.some.injEq] at hp
            omega
          · exact Yields.pure (hinv ns _ h₂)
        · simp only [hagain] at hnodes
          exact Yields.pure hnodes
      · exact Yields.pure (hstop _ hs (by simpa using hm))

theorem Yields.collect_inv (hmore : ∀ s, more.run s = (Except.ok (m s.cursor), s))
    (inv : Cursor → List (Option Node) → Cursor → Prop)
    (hstop : ∀ c, Later s.cursor c → m c = false → inv c [] c)
    (hstep : ∀ s₁, Later s.cursor s₁.cursor → m s₁.cursor = true → Yields step s₁ fun r s' =>
      Later s₁.cursor s'.cursor ∧
        if r.2 then s'.cursor.left < s₁.cursor.left ∧
            ∀ ns c, inv s'.cursor ns c → inv s₁.cursor (r.1 ++ ns) c
          else inv s₁.cursor r.1 s'.cursor) :
    Yields (Parser.collect more step) s fun ns s' => inv s.cursor ns s'.cursor := by
  refine Yields.bound (Yields.collectFrom hmore hstop hstep (Later.refl _) ?_ nofun)
  simp only [left, Cursor.bound]
  omega

/-- A loop whose steps read their nodes, and consume a token before it comes round. It ends where
its condition fails or where a step does not ask for more. If each step consumes a token, the loop
does so unless it ends at once. -/
theorem Yields.collect_exit (m : Cursor → Bool)
    (hmore : ∀ s, more.run s = (Except.ok (m s.cursor), s)) (exit : Cursor → Prop) (firm : Prop)
    (hexit : ∀ c, m c = false → exit c)
    (hstep : ∀ s₁, Later s.cursor s₁.cursor → m s₁.cursor = true → Yields step s₁ fun r s' =>
      Reads s₁.cursor s'.cursor r.1 ∧ (r.2 = true ∨ firm → s'.cursor.left < s₁.cursor.left) ∧
        (r.2 = false → exit s'.cursor)) :
    Yields (Parser.collect more step) s fun ns s' => Reads s.cursor s'.cursor ns ∧
      (firm → m s.cursor = true → s'.cursor.left < s.cursor.left) ∧ exit s'.cursor := by
  refine Yields.collect_inv hmore
    (fun c ns c' => Reads c c' ns ∧ (firm → m c = true → c'.left < c.left) ∧ exit c') ?_ ?_
  · intro c _ hm
    exact ⟨Reads.refl c, fun _ h => by simp [hm] at h, hexit c hm⟩
  · intro s₁ hlater hm
    refine (hstep s₁ hlater hm).mono ?_
    rintro ⟨nodes, again⟩ s' ⟨hreads, hlt, hend⟩
    refine ⟨hreads.toLater, ?_⟩
    cases again with
    | false => exact ⟨hreads, fun hf _ => hlt (Or.inr hf), hend rfl⟩
    | true =>
        have hless := hlt (Or.inl rfl)
        refine ⟨hless, ?_⟩
        rintro ns c ⟨hrest, -, hc⟩
        exact ⟨hreads.append hrest, fun _ _ => Nat.lt_of_le_of_lt hrest.left_le hless, hc⟩

theorem Yields.collect (m : Cursor → Bool)
    (hmore : ∀ s, more.run s = (Except.ok (m s.cursor), s))
    (hstep : ∀ s₁, Later s.cursor s₁.cursor → m s₁.cursor = true → Yields step s₁ fun r s' =>
      Reads s₁.cursor s'.cursor r.1 ∧ (r.2 = true → s'.cursor.left < s₁.cursor.left)) :
    Yields (Parser.collect more step) s fun ns s' => Reads s.cursor s'.cursor ns := by
  refine (Yields.collect_exit m hmore (fun _ => True) False (fun _ _ => trivial) ?_).mono
    fun ns s' h => h.1
  intro s₁ hlater hm
  refine (hstep s₁ hlater hm).mono ?_
  rintro r s' ⟨hreads, hlt⟩
  exact ⟨hreads, fun h => hlt (h.resolve_right id), fun _ => trivial⟩

/-- A parser that is repeated as long as a condition holds must consume a token each time. -/
theorem Yields.many {one : Parser (Option Node)} (m : Cursor → Bool)
    (hmore : ∀ s, more.run s = (Except.ok (m s.cursor), s))
    (hone : ∀ s₁, Later s.cursor s₁.cursor → m s₁.cursor = true →
      Yields one s₁ fun n s' => Moves s₁.cursor s'.cursor [n]) :
    Yields (Parser.many more one) s fun ns s' => Reads s.cursor s'.cursor ns ∧
      (m s.cursor = true → s'.cursor.left < s.cursor.left) ∧ m s'.cursor = false := by
  refine (Yields.collect_exit m hmore (fun c => m c = false) True (fun _ h => h) ?_).mono
    fun ns s' h => ⟨h.1, h.2.1 trivial, h.2.2⟩
  intro s₁ hlater hm
  refine (hone s₁ hlater hm).bind fun n s₂ h₂ => ?_
  exact Yields.pure ⟨h₂.toReads, fun _ => h₂.lt, nofun⟩

/-- A list with separators comes round only behind a separator. -/
theorem Yields.separated_firm {element : Parser (Option Node)} {separator : String}
    (m : Cursor → Bool) (hmore : ∀ s, more.run s = (Except.ok (m s.cursor), s)) (firm : Prop)
    (helement : ∀ s₁, Later s.cursor s₁.cursor → m s₁.cursor = true → Yields element s₁ fun n s' =>
      Reads s₁.cursor s'.cursor [n] ∧ (firm → s'.cursor.left < s₁.cursor.left)) :
    Yields (Parser.separated more element separator) s fun ns s' =>
      Reads s.cursor s'.cursor ns ∧
        (firm → m s.cursor = true → s'.cursor.left < s.cursor.left) := by
  refine (Yields.collect_exit m hmore (fun _ => True) firm (fun _ _ => trivial) ?_).mono
    fun ns s' h => ⟨h.1, h.2.1⟩
  intro s₁ hlater hm
  refine (helement s₁ hlater hm).bind ?_
  rintro n s₂ ⟨h₂, hlt⟩
  cases n with
  | none => exact Yields.pure ⟨h₂.to_nil, by simpa using hlt, fun _ => trivial⟩
  | some e =>
      refine (Yields.accept separator).bind fun mark s₃ h₃ => ?_
      cases mark with
      | none =>
          have hread := h₂.append h₃.reads.to_nil
          have hle := h₃.reads.left_le
          refine Yields.pure ⟨hread, fun h => ?_, fun _ => trivial⟩
          exact Nat.lt_of_le_of_lt hle (hlt (h.resolve_left nofun))
      | some t =>
          have hless := Nat.lt_of_lt_of_le h₃.moves.lt h₂.left_le
          exact Yields.pure ⟨h₂.append h₃.reads, fun _ => hless, fun _ => trivial⟩

theorem Yields.separated {element : Parser (Option Node)} {separator : String} (m : Cursor → Bool)
    (hmore : ∀ s, more.run s = (Except.ok (m s.cursor), s))
    (helement : ∀ s₁, Later s.cursor s₁.cursor → m s₁.cursor = true →
      Yields element s₁ fun n s' => Reads s₁.cursor s'.cursor [n]) :
    Yields (Parser.separated more element separator) s fun ns s' =>
      Reads s.cursor s'.cursor ns := by
  refine (Yields.separated_firm m hmore False ?_).mono fun ns s' h => h.1
  intro s₁ hlater hm
  exact (helement s₁ hlater hm).mono fun n s' h => ⟨h, False.elim⟩

theorem Yields.dims : Yields Parser.dims s fun ns s' => Reads s.cursor s'.cursor ns := by
  refine Yields.collect (fun c => c.isAt 0 "[" && c.isAt 1 "]") (fun _ => rfl) ?_
  intro s₁ _ hm
  simp only [Bool.and_eq_true] at hm
  have hpos := left_pos_of_isAt hm.1 (by decide)
  refine (Yields.next_moves hpos).bind fun n s₂ h₂ => ?_
  refine Yields.next.bind fun n' s₃ h₃ => ?_
  have hmoves := h₂.append h₃.reads
  exact Yields.pure ⟨hmoves.toReads, fun _ => hmoves.lt⟩

end Loops

end Parser

end CodeLayout
