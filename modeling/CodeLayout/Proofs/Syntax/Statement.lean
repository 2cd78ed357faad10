import CodeLayout.Proofs.Syntax.Resources

/-!
# What statements read

What cannot be parsed is read token by token up to a place where a statement may end, so that every
statement consumes a token if there is one.
-/

namespace CodeLayout.Grammar

open CodeLayout.Cursor CodeLayout.Parser

variable {g : Grammar} {budget : Nat} {s : ParserState}

theorem yields_block (hg : Sound g budget) (hs : Fits budget 0 s.cursor)
    (hpos : 0 < s.cursor.left) :
    Yields (block g) s fun n s' => Moves s.cursor s'.cursor [n] := by
  refine (Yields.next_moves hpos).bind fun opening s₁ h₁ => ?_
  have hs₁ := h₁.fits hs
  refine (Yields.many (fun c => !c.isAt 0 "\x7d" && !c.isDone) (fun _ => rfl)
    fun s₂ hlater hm => yields_statement_moves hg (hlater.fits hs₁) hm).bind fun items s₂ h₂ => ?_
  refine (Yields.expect "\x7d" "block").bind fun closing s₃ h₃ => ?_
  exact Yields.node (((h₁.append h₂.1).append h₃.reads).make (by decide))

theorem yields_optionalBlock (hg : Sound g budget) (hs : Fits budget 1 s.cursor) :
    Yields (optionalBlock g) s fun n s' => Reads s.cursor s'.cursor [n] := by
  refine Yields.isAt (Yields.ite (fun hat => ?_) fun _ => yields_none)
  exact (hg.block hs (left_pos_of_isAt hat (by decide))).mono fun _ _ h => h.toReads

theorem yields_requiredBlock (hg : Sound g budget) (hs : Fits budget 1 s.cursor)
    (place : String) :
    Yields (requiredBlock g place) s fun n s' => Reads s.cursor s'.cursor [n] := by
  refine Yields.isAt (Yields.ite (fun hat => ?_) fun _ => Yields.unexpected fun _ => ?_)
  · exact (hg.block hs (left_pos_of_isAt hat (by decide))).mono fun _ _ h => h.toReads
  · exact Yields.pure (Reads.none _)

theorem yields_rawFrom (hg : Sound g budget) {fuel depth : Nat} {taken : Bool}
    (hs : Fits budget 1 s.cursor) (hfuel : s.cursor.left < fuel) :
    Yields (rawFrom g fuel depth taken) s fun ns s' => Reads s.cursor s'.cursor ns ∧
      (0 < s.cursor.left → taken = false ∨ s.cursor.isAt 0 "\x7d" = false →
        s'.cursor.left < s.cursor.left) := by
  induction fuel generalizing s depth taken with
  | zero => omega
  | succ fuel ih =>
      -- Whatever is consumed first, the rest is read behind it.
      have hround : ∀ {n : Option Node} {s₁ : ParserState} {depth : Nat},
          Moves s.cursor s₁.cursor [n] →
          Yields (do return n :: (← rawFrom g fuel depth true)) s₁ fun ns s' =>
            Reads s.cursor s'.cursor ns ∧
              (0 < s.cursor.left → taken = false ∨ s.cursor.isAt 0 "\x7d" = false →
                s'.cursor.left < s.cursor.left) := by
        intro n s₁ depth h₁
        have hs₁ := h₁.toReads.fits hs
        have hlt := h₁.lt
        refine (ih hs₁ (by omega)).bind fun rest s₂ h₂ => ?_
        have hall := h₁.append h₂.1
        exact Yields.pure ⟨hall.toReads, fun _ _ => hall.lt⟩
      refine Yields.cursor (Yields.ite (fun hdone => ?_) fun hdone => ?_)
      · refine Yields.pure ⟨Reads.refl _, fun hpos => ?_⟩
        rw [← isDone_eq_false_iff, hdone] at hpos
        cases hpos
      have hpos : 0 < s.cursor.left := by
        rw [← isDone_eq_false_iff]
        simpa using hdone
      have hnext : Yields (do return [← next]) s fun ns s' => Reads s.cursor s'.cursor ns ∧
          (0 < s.cursor.left → taken = false ∨ s.cursor.isAt 0 "\x7d" = false →
            s'.cursor.left < s.cursor.left) := by
        refine (Yields.next_moves hpos).bind fun t s₁ h₁ => ?_
        exact Yields.pure ⟨h₁.toReads, fun _ _ => h₁.lt⟩
      refine Yields.ite (fun _ => hnext) fun _ => ?_
      refine Yields.ite (fun hclose => ?_) fun _ => ?_
      · refine Yields.ite (fun htaken => ?_) fun _ => hnext
        refine Yields.pure ⟨Reads.refl _, fun _ h => ?_⟩
        simp [htaken, hclose] at h
      refine Yields.ite (fun _ => ?_) fun _ => ?_
      · refine (hg.block hs hpos).bind fun b s₁ h₁ => ?_
        refine Yields.ite (fun _ => ?_) fun _ => hround h₁
        exact Yields.pure ⟨h₁.toReads, fun _ _ => h₁.lt⟩
      · exact (Yields.next_moves hpos).bind fun t s₁ h₁ => hround h₁

/-- What could not be parsed is read behind what was read before. -/
theorem yields_raw (hg : Sound g budget) {c : Cursor} {lead : List (Option Node)}
    (hs : Fits budget 1 s.cursor) (h : Reads c s.cursor lead) :
    Yields (raw g lead) s fun n s' => Reads c s'.cursor [n] ∧
      s'.cursor.left ≤ s.cursor.left ∧
      (0 < s.cursor.left → lead = [] ∨ s.cursor.isAt 0 "\x7d" = false →
        s'.cursor.left < s.cursor.left) := by
  refine Yields.bound ((yields_rawFrom hg hs (left_lt_bound _)).bind fun rest s₁ h₁ => ?_)
  refine Yields.node ⟨(h.append h₁.1).make (by decide), h₁.1.left_le,
    fun hpos hlead => h₁.2 hpos ?_⟩
  rcases hlead with rfl | hclose
  · exact Or.inl rfl
  · exact Or.inr hclose

theorem yields_body (hg : Sound g budget) (hs : Fits budget 3 s.cursor) (place : String) :
    Yields (body g place) s fun n s' => Reads s.cursor s'.cursor [n] := by
  refine Yields.before (Yields.ite (fun _ => ?_) fun _ => Yields.unexpected fun _ => ?_)
  · exact (hg.statement hs).mono fun _ _ h => h.1
  · exact Yields.pure (Reads.none _)

section Loops

variable {c : Cursor} {opening mods t start : Option Node}

theorem yields_exprList (hg : Sound g budget) (hs : Fits budget 2 s.cursor) (stop : String) :
    Yields (exprList g stop) s fun n s' => Reads s.cursor s'.cursor [n] := by
  refine (Yields.separated (fun c => !c.isAt 0 stop && !c.isDone) (fun _ => rfl)
    fun s₁ hlater _ => (hg.expr (hlater.fits hs)).mono fun _ _ h => h.reads).bind
    fun es s₁ h₁ => ?_
  exact Yields.node (h₁.make (by decide))

theorem yields_forEach (hg : Sound g budget) (hs : Fits budget 2 s.cursor) {c₁ : Cursor}
    (ho : Reads c c₁ [opening]) (h : Reads c₁ s.cursor [mods, t]) :
    Yields (forEach g opening mods t) s fun n s' => Reads c s'.cursor [n] := by
  refine Yields.next.bind fun name s₁ h₁ => ?_
  refine Yields.next.bind fun colon s₂ h₂ => ?_
  have hs₂ := h₂.reads.fits (h₁.reads.fits hs)
  refine (hg.expr hs₂).bind fun e s₃ h₃ => ?_
  refine (Yields.expect ")" _).bind fun closing s₄ h₄ => ?_
  have hparam : Reads c₁ s₁.cursor [some (Node.make .param [mods, t, name])] :=
    (h.append h₁.reads).make (by decide)
  exact Yields.node
    (((((ho.append hparam).append h₂.reads).append h₃.reads).append h₄.reads).make (by decide))

theorem yields_forParts (hg : Sound g budget) (hs : Fits budget 2 s.cursor)
    (h : Reads c s.cursor [opening, start]) :
    Yields (forParts g opening start) s fun n s' => Reads c s'.cursor [n] := by
  refine (Yields.expect ";" _).bind fun first s₁ h₁ => ?_
  have hs₁ := h₁.reads.fits hs
  refine Yields.isAt (Yields.either (fun _ => yields_none)
    (fun _ => (hg.expr hs₁).mono fun _ _ h => h.reads) fun cond s₂ h₂ => ?_)
  refine (Yields.expect ";" _).bind fun second s₃ h₃ => ?_
  have hs₃ := h₃.reads.fits (h₂.fits hs₁)
  refine Yields.isAt (Yields.either (fun _ => yields_none)
    (fun _ => yields_exprList hg hs₃ _) fun update s₄ h₄ => ?_)
  refine (Yields.expect ")" _).bind fun closing s₅ h₅ => ?_
  have hall := ((((h.append h₁.reads).append h₂).append h₃.reads).append h₄).append h₅.reads
  exact Yields.node (hall.make (by decide))

theorem yields_forControl (hg : Sound g budget) (hs : Fits budget 2 s.cursor)
    (ho : Reads c s.cursor [opening]) :
    Yields (forControl g opening) s fun n s' => Reads c s'.cursor [n] := by
  have hs₀ := hs.mono (Nat.zero_le 2)
  refine (yields_modifiers hg hs₀ false).bind ?_
  rintro mods s₁ ⟨h₁, hend, -⟩
  have hs₁ := h₁.reads.fits hs
  refine Yields.cursor (Yields.ite (fun htyped => ?_) fun _ => ?_)
  · refine (yields_type_moves hg (h₁.reads.fits hs₀) h₁.reads hend htyped).bind fun t s₂ h₂ => ?_
    have hs₂ := h₂.toReads.fits hs
    refine Yields.cursor (Yields.ite (fun _ => ?_) fun _ => ?_)
    · exact yields_forEach hg hs₂ ho h₂.toReads
    · refine (yields_varDecl hg (hs₂.mono (by decide)) h₂ false).bind fun decl s₃ h₃ => ?_
      exact yields_forParts hg (h₃.1.toReads.fits hs) (ho.append h₃.1.toReads)
  refine Yields.ite (fun _ => yields_forParts hg hs₁ (ho.append h₁.reads)) fun hnone => ?_
  have hnil : mods = none := by simpa using hnone
  subst hnil
  refine Yields.isAt (Yields.ite (fun _ => ?_) fun _ => ?_)
  · exact yields_forParts hg hs₁ (ho.append h₁.reads)
  · refine (yields_exprList hg hs₁ _).bind fun es s₂ h₂ => ?_
    exact yields_forParts hg (h₂.fits hs₁) (ho.append (h₁.reads.to_nil.append h₂))

end Loops

section Words

variable (hg : Sound g budget) (hs : Fits budget 0 s.cursor) (hpos : 0 < s.cursor.left)

include hg hs hpos

theorem yields_whileStmt : Yields (whileStmt g) s fun n s' => Moves s.cursor s'.cursor [n] := by
  refine (Yields.next_moves hpos).bind fun word s₁ h₁ => ?_
  have hs₁ := h₁.fits hs
  refine (yields_paren hg (hs₁.mono (by decide)) _).bind fun cond s₂ h₂ => ?_
  refine (yields_body hg (h₂.fits hs₁) _).bind fun inner s₃ h₃ => ?_
  exact Yields.node (((h₁.append h₂).append h₃).make (by decide))

theorem yields_ifStmt : Yields (ifStmt g) s fun n s' => Moves s.cursor s'.cursor [n] := by
  refine (Yields.next_moves hpos).bind fun word s₁ h₁ => ?_
  have hs₁ := h₁.fits hs
  refine (yields_paren hg (hs₁.mono (by decide)) _).bind fun cond s₂ h₂ => ?_
  have hs₂ := h₂.fits hs₁
  refine (yields_body hg hs₂ _).bind fun yes s₃ h₃ => ?_
  have hmoves := (h₁.append h₂).append h₃
  refine (Yields.accept "else").bind fun otherwise s₄ h₄ => ?_
  cases otherwise with
  | none => exact Yields.node ((hmoves.append h₄.reads.to_nil).make (by decide))
  | some e =>
      have hs₄ := h₄.reads.fits (h₃.fits hs₂)
      refine (yields_body hg hs₄ _).bind fun no s₅ h₅ => ?_
      exact Yields.node (((hmoves.append h₄.reads).append h₅).make (by decide))

theorem yields_doStmt : Yields (doStmt g) s fun n s' => Moves s.cursor s'.cursor [n] := by
  refine (Yields.next_moves hpos).bind fun word s₁ h₁ => ?_
  have hs₁ := h₁.fits hs
  refine (yields_body hg hs₁ _).bind fun inner s₂ h₂ => ?_
  refine (Yields.expect "while" _).bind fun while_ s₃ h₃ => ?_
  have hs₃ := h₃.reads.fits (h₂.fits hs₁)
  refine Yields.either (fun _ => yields_paren hg (hs₃.mono (by decide)) _) (fun _ => yields_none)
    fun cond s₄ h₄ => ?_
  refine (Yields.expect ";" _).bind fun ending s₅ h₅ => ?_
  exact Yields.node
    (((((h₁.append h₂).append h₃.reads).append h₄).append h₅.reads).make (by decide))

theorem yields_forStmt : Yields (forStmt g) s fun n s' => Moves s.cursor s'.cursor [n] := by
  refine (Yields.next_moves hpos).bind fun word s₁ h₁ => ?_
  have hs₁ := h₁.fits hs
  refine (Yields.expect "(" _).bind fun opening s₂ h₂ => ?_
  have hs₂ := h₂.reads.fits hs₁
  cases opening with
  | none =>
      refine (yields_body hg hs₂ _).bind fun inner s₃ h₃ => ?_
      exact Yields.node ((h₁.append (h₂.reads.to_nil.append h₃)).make (by decide))
  | some o =>
      refine (yields_forControl hg (hs₂.mono (by decide)) h₂.reads).bind fun control s₃ h₃ => ?_
      refine (yields_body hg (h₃.fits hs₁) _).bind fun inner s₄ h₄ => ?_
      exact Yields.node (((h₁.append h₃).append h₄).make (by decide))

omit hpos in
theorem yields_caughtTypes :
    Yields (caughtTypes g) s fun ns s' => Reads s.cursor s'.cursor ns := by
  refine Yields.collect (fun c => (c.skipType 0).isSome) (fun _ => rfl) fun s₁ hlater _ => ?_
  refine (yields_type hg (hlater.fits hs)).bind fun t s₂ h₂ => ?_
  refine (Yields.accept "|").bind fun bar s₃ h₃ => ?_
  cases bar with
  | none => exact Yields.pure ⟨h₂.1.append h₃.reads.to_nil, nofun⟩
  | some b =>
      have hmoves := h₂.1.append_moves h₃.moves
      exact Yields.pure ⟨hmoves.toReads, fun _ => hmoves.lt⟩

theorem yields_catchClause :
    Yields (catchClause g) s fun n s' => Moves s.cursor s'.cursor [n] := by
  refine (Yields.next_moves hpos).bind fun word s₁ h₁ => ?_
  refine (Yields.expect "(" _).bind fun opening s₂ h₂ => ?_
  have hlead := h₁.append h₂.reads
  have hs₂ := hlead.fits hs
  refine (yields_modifiers hg (hs₂.mono (by decide)) false).bind fun mods s₃ h₃ => ?_
  have hs₃ := h₃.1.reads.fits hs₂
  refine (yields_caughtTypes hg (hs₃.mono (by decide))).bind fun types s₄ h₄ => ?_
  refine Yields.acceptName.bind fun name s₅ h₅ => ?_
  have hparam : Reads s₂.cursor s₅.cursor [some (Node.make .param ([mods] ++ types ++ [name]))] :=
    ((h₃.1.reads.append h₄).append h₅.reads).make (by decide)
  refine (Yields.expect ")" _).bind fun closing s₆ h₆ => ?_
  have hs₆ := h₆.reads.fits (hparam.fits hs₂)
  refine (yields_optionalBlock hg (hs₆.mono (by decide))).bind fun inner s₇ h₇ => ?_
  exact Yields.node (((hlead.append hparam).append (h₆.reads.append h₇)).make (by decide))

omit hpos in
theorem yields_finallyClause :
    Yields (finallyClause g) s fun n s' => Reads s.cursor s'.cursor [n] := by
  refine Yields.isAt (Yields.ite (fun hat => ?_) fun _ => yields_none)
  refine (Yields.next_moves (left_pos_of_isAt hat (by decide))).bind fun word s₁ h₁ => ?_
  have hs₁ := h₁.fits hs
  refine (yields_optionalBlock hg (hs₁.mono (by decide))).bind fun inner s₂ h₂ => ?_
  exact Yields.node ((h₁.toReads.append h₂).make (by decide))

theorem yields_tryStmt : Yields (tryStmt g) s fun n s' => Moves s.cursor s'.cursor [n] := by
  refine (Yields.next_moves hpos).bind fun word s₁ h₁ => ?_
  have hs₁ := h₁.fits hs
  refine Yields.isAt (Yields.either (fun hat => ?_) (fun _ => yields_none) fun rs s₂ h₂ => ?_)
  · exact (yields_resources hg (hs₁.mono (by decide)) hat).mono fun _ _ h => h.toReads
  have hs₂ := h₂.fits hs₁
  refine (yields_requiredBlock hg (hs₂.mono (by decide)) _).bind fun inner s₃ h₃ => ?_
  have hs₃ := h₃.fits hs₂
  refine (Yields.many (fun c => c.isAt 0 "catch") (fun _ => rfl) fun s₄ hlater hat => ?_).bind
    fun handlers s₄ h₄ => ?_
  · exact yields_catchClause hg ((hlater.fits hs₃).mono (by decide))
      (left_pos_of_isAt hat (by decide))
  · have hs₄ := h₄.1.fits hs₃
    refine (yields_finallyClause hg (hs₄.mono (by decide))).bind fun last s₅ h₅ => ?_
    exact Yields.node
      (((((h₁.append h₂).append h₃).append h₄.1).append h₅).make (by decide))

theorem yields_returnStmt : Yields (returnStmt g) s fun n s' => Moves s.cursor s'.cursor [n] := by
  refine (Yields.next_moves hpos).bind fun word s₁ h₁ => ?_
  have hs₁ := h₁.fits hs
  refine Yields.isAt (Yields.either (fun _ => yields_none)
    (fun _ => (hg.expr (hs₁.mono (by decide))).mono fun _ _ h => h.reads) fun value s₂ h₂ => ?_)
  refine (Yields.expect ";" _).bind fun ending s₃ h₃ => ?_
  exact Yields.node (((h₁.append h₂).append h₃.reads).make (by decide))

theorem yields_throwStmt : Yields (throwStmt g) s fun n s' => Moves s.cursor s'.cursor [n] := by
  refine (Yields.next_moves hpos).bind fun word s₁ h₁ => ?_
  have hs₁ := h₁.fits hs
  refine (hg.expr (hs₁.mono (by decide))).bind fun value s₂ h₂ => ?_
  refine (Yields.expect ";" _).bind fun ending s₃ h₃ => ?_
  exact Yields.node (((h₁.append h₂.reads).append h₃.reads).make (by decide))

omit hg hs in
theorem yields_jump : Yields jump s fun n s' => Moves s.cursor s'.cursor [n] := by
  refine (Yields.next_moves hpos).bind fun word s₁ h₁ => ?_
  refine Yields.acceptName.bind fun label s₂ h₂ => ?_
  refine (Yields.expect ";" _).bind fun ending s₃ h₃ => ?_
  exact Yields.node (((h₁.append h₂.reads).append h₃.reads).make (by decide))

theorem yields_assertStmt : Yields (assertStmt g) s fun n s' => Moves s.cursor s'.cursor [n] := by
  refine (Yields.next_moves hpos).bind fun word s₁ h₁ => ?_
  have hs₁ := h₁.fits hs
  refine (hg.expr (hs₁.mono (by decide))).bind fun cond s₂ h₂ => ?_
  refine (Yields.accept ":").bind fun colon s₃ h₃ => ?_
  have hs₃ := h₃.reads.fits (h₂.reads.fits hs₁)
  refine Yields.either (fun _ => (hg.expr (hs₃.mono (by decide))).mono fun _ _ h => h.reads)
    (fun _ => yields_none) fun detail s₄ h₄ => ?_
  refine (Yields.expect ";" _).bind fun ending s₅ h₅ => ?_
  have hall := (((h₁.append h₂.reads).append h₃.reads).append h₄).append h₅.reads
  exact Yields.node (hall.make (by decide))

theorem yields_synchronizedStmt :
    Yields (synchronizedStmt g) s fun n s' => Moves s.cursor s'.cursor [n] := by
  refine (Yields.next_moves hpos).bind fun word s₁ h₁ => ?_
  have hs₁ := h₁.fits hs
  refine (yields_paren hg (hs₁.mono (by decide)) _).bind fun lock s₂ h₂ => ?_
  have hs₂ := h₂.fits hs₁
  refine (yields_requiredBlock hg (hs₂.mono (by decide)) _).bind fun inner s₃ h₃ => ?_
  exact Yields.node (((h₁.append h₂).append h₃).make (by decide))

theorem yields_yieldStmt : Yields (yieldStmt g) s fun n s' => Moves s.cursor s'.cursor [n] := by
  refine (Yields.next_moves hpos).bind fun word s₁ h₁ => ?_
  have hs₁ := h₁.fits hs
  refine (hg.expr (hs₁.mono (by decide))).bind fun value s₂ h₂ => ?_
  refine (Yields.expect ";" _).bind fun ending s₃ h₃ => ?_
  exact Yields.node (((h₁.append h₂.reads).append h₃.reads).make (by decide))

theorem yields_labeled : Yields (labeled g) s fun n s' => Moves s.cursor s'.cursor [n] := by
  refine (Yields.next_moves hpos).bind fun label s₁ h₁ => ?_
  refine Yields.next.bind fun colon s₂ h₂ => ?_
  have hmoves := h₁.append h₂.reads
  refine (hg.statement (hmoves.fits hs)).bind fun inner s₃ h₃ => ?_
  exact Yields.node ((hmoves.append h₃.1).make (by decide))

end Words

/-- An expression statement consumes a token if there is one, as what cannot be parsed is taken. -/
theorem yields_exprStmt (hg : Sound g budget) (hs : Fits budget 2 s.cursor) :
    Yields (exprStmt g) s fun n s' => Reads s.cursor s'.cursor [n] ∧
      (0 < s.cursor.left → s'.cursor.left < s.cursor.left) := by
  refine Yields.cursor ((hg.expr hs).bind fun e s₁ h₁ => ?_)
  have hs₁ := (h₁.reads.fits hs).mono (by decide : 1 ≤ 2)
  cases e with
  | none =>
      have hleft := Reads.left_eq h₁
      have hraw : ∀ recorded, Yields (raw g []) { s₁ with recorded := recorded } fun n s' =>
          Reads s.cursor s'.cursor [n] ∧
            (0 < s.cursor.left → s'.cursor.left < s.cursor.left) := by
        intro recorded
        refine (yields_raw (s := { s₁ with recorded := recorded }) hg hs₁ h₁).mono fun n s' h => ?_
        exact ⟨h.1, fun hpos => hleft ▸ h.2.2 (hleft ▸ hpos) (Or.inl rfl)⟩
      refine Yields.cursor (Yields.ite (fun _ => Yields.unexpected hraw) fun _ => ?_)
      exact hraw s₁.recorded
  | some e =>
      have hmoves := h₁.moves
      refine Yields.isAt (Yields.ite (fun _ => ?_) fun _ => Yields.unexpected fun r => ?_)
      · refine Yields.next.bind fun semi s₂ h₂ => ?_
        have hall := hmoves.append h₂.reads
        exact Yields.node ⟨hall.toReads.make (by decide), fun _ => hall.lt⟩
      · refine Yields.before (Yields.ite (fun _ => ?_) fun _ => ?_)
        · refine (yields_raw (s := { s₁ with recorded := r }) hg hs₁ hmoves.toReads).mono
            fun n s' h => ?_
          exact ⟨h.1, fun _ => Nat.lt_of_le_of_lt h.2.1 hmoves.lt⟩
        · exact Yields.node ⟨hmoves.toReads.make (by decide), fun _ => hmoves.lt⟩

end CodeLayout.Grammar
