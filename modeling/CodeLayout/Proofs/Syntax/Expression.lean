import CodeLayout.Proofs.Syntax.Types

/-!
# What expressions read
-/

namespace CodeLayout.Grammar

open CodeLayout.Cursor CodeLayout.Parser

variable {g : Grammar} {budget : Nat} {s : ParserState}

section Operands

theorem yields_operator {k : Nat} (hk : 0 < k) (hpos : 0 < s.cursor.left) :
    Yields (operator k) s fun n s' => Moves s.cursor s'.cursor [n] := by
  refine (Yields.tokens_moves hk hpos).bind fun ns s₁ h₁ => ?_
  exact Yields.node (h₁.make (by decide))

theorem yields_paramTokens : Yields paramTokens s fun ns s' => Reads s.cursor s'.cursor ns := by
  refine (Yields.accept "...").bind fun dots s₁ h₁ => ?_
  refine Yields.isName (Yields.isAt ?_)
  refine Yields.either (fun _ => Yields.next.mono fun _ _ h => h.reads) (fun _ => yields_none)
    fun name s₂ h₂ => ?_
  refine Yields.dims.bind fun ds s₃ h₃ => ?_
  exact Yields.pure ((h₁.reads.append h₂).append h₃)

theorem yields_rawParamFrom (hg : Sound g budget) {fuel : Nat} {depth : Int}
    (hs : Fits budget 1 s.cursor) (hfuel : s.cursor.left < fuel) :
    Yields (rawParamFrom g fuel depth) s fun ns s' => Reads s.cursor s'.cursor ns := by
  induction fuel generalizing s depth with
  | zero => omega
  | succ fuel ih =>
      refine Yields.cursor (Yields.ite (fun _ => Yields.pure (Reads.refl _)) fun hgo => ?_)
      have hpos : 0 < s.cursor.left := by
        rw [← isDone_eq_false_iff]
        simp only [Bool.or_eq_true, not_or, Bool.not_eq_true] at hgo
        exact hgo.1
      refine Yields.ite (fun _ => ?_) fun _ => ?_
      · refine (hg.block hs hpos).bind fun b s₁ h₁ => ?_
        have hlt := h₁.lt
        refine (ih (h₁.fits hs |>.mono (by decide)) (by omega)).bind fun rest s₂ h₂ => ?_
        exact Yields.pure (h₁.toReads.append h₂)
      · refine (Yields.next_moves hpos).bind fun t s₁ h₁ => ?_
        have hlt := h₁.lt
        refine (ih (h₁.fits hs |>.mono (by decide)) (by omega)).bind fun rest s₂ h₂ => ?_
        exact Yields.pure (h₁.toReads.append h₂)

theorem left_lt_bound (c : Cursor) : c.left < c.bound := by
  simp only [left, Cursor.bound]
  omega

theorem yields_param (hg : Sound g budget) (hs : Fits budget 1 s.cursor) (lambda : Bool) :
    Yields (param g lambda) s fun n s' => Reads s.cursor s'.cursor [n] := by
  refine (yields_modifiers hg (hs.mono (by decide)) false).bind fun mods s₁ h₁ => ?_
  have hmods := h₁.1.reads
  have hs₁ := hmods.fits hs
  refine Yields.cursor (Yields.ite (fun _ => ?_) fun _ => ?_)
  · refine Yields.next.bind fun name s₂ h₂ => ?_
    exact Yields.node ((hmods.append h₂.reads).make (by decide))
  refine Yields.ite (fun _ => ?_) fun _ => ?_
  · refine (yields_type hg (hs₁.mono (by decide))).bind fun t s₂ h₂ => ?_
    refine yields_paramTokens.bind fun rest s₃ h₃ => ?_
    exact Yields.node (((hmods.append h₂.1).append h₃).make (by decide))
  · refine Yields.unexpected fun _ => Yields.bound ?_
    refine Yields.bind (yields_rawParamFrom hg ?_ (left_lt_bound _)) fun rest s₂ h₂ => ?_
    · exact hs₁
    · exact Yields.node ((hmods.append h₂).make (by decide))

theorem yields_params (hg : Sound g budget) (hs : Fits budget 1 s.cursor) (lambda : Bool) :
    Yields (params g lambda) s fun n s' => Reads s.cursor s'.cursor [n] ∧
      (0 < s.cursor.left → s'.cursor.left < s.cursor.left) := by
  refine Yields.next_reads.bind ?_
  rintro opening s₁ ⟨h₁, hlt⟩
  have hs₁ := h₁.fits hs
  refine (Yields.separated (fun c => !c.isAt 0 ")" && !c.isDone) (fun _ => rfl)
    fun s₂ hlater _ => yields_param hg (hlater.fits hs₁) lambda).bind fun ps s₂ h₂ => ?_
  refine (Yields.expect ")" "parameter list").bind fun closing s₃ h₃ => ?_
  have hle := (h₂.append h₃.reads).left_le
  exact Yields.node ⟨((h₁.append h₂).append h₃.reads).make (by decide),
    fun hpos => Nat.lt_of_le_of_lt hle (hlt hpos)⟩

theorem yields_lambdaParams (hg : Sound g budget) (hs : Fits budget 1 s.cursor) :
    Yields (lambdaParams g) s fun n s' =>
      Reads s.cursor s'.cursor [n] ∧ (n ≠ none → s'.cursor.left < s.cursor.left) := by
  have hnone : Yields (pure none) s fun n s' =>
      Reads s.cursor s'.cursor [n] ∧ (n ≠ none → s'.cursor.left < s.cursor.left) :=
    Yields.pure ⟨Reads.none _, fun h => absurd rfl h⟩
  refine Yields.cursor (Yields.ite (fun hname => ?_) fun _ => ?_)
  · simp only [Bool.and_eq_true] at hname
    exact (Yields.next_moves (left_pos_of_isName hname.1)).mono
      fun _ _ h => ⟨h.toReads, fun _ => h.lt⟩
  refine Yields.ite (fun hat => ?_) fun _ => hnone
  cases s.cursor.skipBalanced 0 with
  | none => exact hnone
  | some k =>
      refine Yields.ite (fun _ => ?_) fun _ => hnone
      have hpos := left_pos_of_isAt hat (by decide)
      exact (yields_params hg hs true).mono fun _ _ h => ⟨h.1, fun _ => h.2 hpos⟩

theorem yields_lambda (hg : Sound g budget) (hs : Fits budget 1 s.cursor) :
    Yields (lambda g) s fun n s' => Offers s.cursor s'.cursor n := by
  refine Yields.get (Yields.ite (fun _ => Yields.pure (Reads.refl _)) fun _ => ?_)
  refine (yields_lambdaParams hg hs).bind ?_
  rintro n s₁ ⟨h₁, hlt⟩
  cases n with
  | none => exact Yields.pure h₁.to_nil
  | some ps =>
      have hmoves := h₁.moves (hlt nofun)
      have hs₁ := hmoves.fits hs
      refine Yields.next.bind fun arrow s₂ h₂ => ?_
      have hs₂ := h₂.reads.fits hs₁
      have hread := hmoves.append h₂.reads
      refine Yields.isAt (Yields.either (fun hat => ?_) (fun _ => ?_) fun body s₃ h₃ => ?_)
      · exact (hg.block (hs₂.mono (by decide)) (left_pos_of_isAt hat (by decide))).mono
          fun _ _ h => h.toReads
      · exact (hg.expr (hs₂.mono (by decide))).mono fun _ _ h => h.reads
      · exact Yields.node ((hread.append h₃).gives_make (by decide) (by decide)).offers

theorem yields_args (hg : Sound g budget) (hs : Fits budget 2 s.cursor) :
    Yields (args g) s fun n s' => Reads s.cursor s'.cursor [n] := by
  refine Yields.next.bind fun opening s₁ h₁ => ?_
  have hs₁ := h₁.reads.fits hs
  refine Yields.get (Yields.change ?_)
  refine Yields.bind (Yields.separated (fun c => !c.isAt 0 ")" && !c.isDone) (fun _ => rfl) ?_)
    fun es s₂ h₂ => ?_
  · intro s₂ hlater _
    exact (hg.expr (hlater.fits hs₁)).mono fun _ _ h => h.reads
  · refine (Yields.expect ")" "argument list").bind fun closing s₃ h₃ => ?_
    exact Yields.change (Yields.node (((h₁.reads.append h₂).append h₃.reads).make (by decide)))

theorem yields_arrayInit (hg : Sound g budget) (hs : Fits budget 0 s.cursor)
    (hpos : 0 < s.cursor.left) (e : Element) :
    Yields (arrayInit g e) s fun n s' => Gives s.cursor s'.cursor n := by
  refine (Yields.next_moves hpos).bind fun opening s₁ h₁ => ?_
  have hs₁ := h₁.fits hs
  refine (Yields.separated (fun c => !c.isAt 0 "\x7d" && !c.isDone) (fun _ => rfl)
    fun s₂ hlater _ => ?_).bind fun es s₂ h₂ => ?_
  · have hs₂ := hlater.fits hs₁
    refine Yields.isAt (Yields.ite (fun hat => ?_) fun _ => ?_)
    · exact (hg.arrayInit (hs₂.mono (by decide)) (left_pos_of_isAt hat (by decide)) e).mono
        fun _ _ h => h.offers.reads
    · cases e with
      | expr => exact (hg.expr (hs₂.mono (by decide))).mono fun _ _ h => h.reads
      | annotValue => exact hg.annotValue hs₂
  · refine (Yields.expect "\x7d" "array initializer").bind fun closing s₃ h₃ => ?_
    exact Yields.node (((h₁.append h₂).append h₃.reads).gives_make (by decide) (by decide))

theorem yields_arrayLengths (hg : Sound g budget) (hs : Fits budget 0 s.cursor) :
    Yields (arrayLengths g) s fun ns s' => Reads s.cursor s'.cursor ns := by
  refine Yields.collect (fun c => c.isAt 0 "[") (fun _ => rfl) fun s₁ hlater hat => ?_
  refine (Yields.next_moves (left_pos_of_isAt hat (by decide))).bind fun opening s₂ h₂ => ?_
  have hs₂ := h₂.fits (hlater.fits hs)
  refine Yields.isAt (Yields.either (fun _ => yields_none)
    (fun _ => (hg.expr (hs₂.mono (by decide))).mono fun _ _ h => h.reads) fun length s₃ h₃ => ?_)
  refine (Yields.expect "]" "array creation").bind fun closing s₄ h₄ => ?_
  have hmoves := (h₂.append h₃).append h₄.reads
  exact Yields.pure ⟨hmoves.toReads, fun _ => hmoves.lt⟩

theorem yields_creationRest (hg : Sound g budget) (hs : Fits budget 2 s.cursor) :
    Yields (creationRest g) s fun ns s' => Reads s.cursor s'.cursor ns := by
  refine Yields.isAt (Yields.ite (fun _ => ?_) fun _ => ?_)
  · refine (yields_args hg hs).bind fun as s₁ h₁ => ?_
    have hs₁ := h₁.fits hs
    refine Yields.isAt (Yields.ite (fun hat => ?_) fun _ => Yields.pure h₁)
    refine (hg.typeBody (hs₁.mono (by decide)) (left_pos_of_isAt hat (by decide))).bind
      fun inner s₂ h₂ => ?_
    exact Yields.pure (h₁.append h₂.toReads)
  refine Yields.isAt (Yields.isAt (Yields.ite (fun _ => ?_) fun _ => ?_))
  · refine (yields_arrayLengths hg (hs.mono (by decide))).bind fun lengths s₁ h₁ => ?_
    have hs₁ := h₁.fits hs
    refine Yields.isAt (Yields.ite (fun hat => ?_) fun _ => Yields.pure h₁)
    refine (hg.arrayInit (hs₁.mono (by decide)) (left_pos_of_isAt hat (by decide)) _).bind
      fun init s₂ h₂ => ?_
    exact Yields.pure (h₁.append h₂.offers.reads)
  · exact Yields.unexpected fun _ => Yields.pure (Reads.refl _)

theorem yields_creation (hg : Sound g budget) (hs : Fits budget 0 s.cursor)
    (hpos : 0 < s.cursor.left) :
    Yields (creation g) s fun n s' => Gives s.cursor s'.cursor n := by
  refine (Yields.next_moves hpos).bind fun word s₁ h₁ => ?_
  refine Yields.isAt (Yields.either (fun _ => yields_typeParams.mono fun _ _ h => h.reads)
    (fun _ => yields_none) fun ts s₂ h₂ => ?_)
  have hmoves := h₁.append h₂
  have hs₂ := hmoves.fits hs
  refine Yields.cursor (Yields.ite (fun _ => ?_) fun _ => ?_)
  · exact Yields.unexpected fun _ =>
      Yields.node (hmoves.gives_make (by decide) (by decide))
  · refine (yields_type hg (hs₂.mono (by decide))).bind fun t s₃ h₃ => ?_
    have hs₃ := h₃.1.fits hs₂
    refine (yields_creationRest hg (hs₃.mono (by decide))).bind fun rest s₄ h₄ => ?_
    exact Yields.node (((hmoves.append h₃.1).append h₄).gives_make (by decide) (by decide))

theorem yields_paren (hg : Sound g budget) (hs : Fits budget 0 s.cursor) (place : String) :
    Yields (paren g place) s fun n s' => Reads s.cursor s'.cursor [n] := by
  refine (Yields.expect "(" place).bind fun opening s₁ h₁ => ?_
  cases opening with
  | none => exact Yields.pure h₁.reads
  | some o =>
      have hs₁ := h₁.moves.fits hs
      refine (hg.expr (hs₁.mono (by decide))).bind fun inner s₂ h₂ => ?_
      refine (Yields.expect ")" place).bind fun closing s₃ h₃ => ?_
      exact Yields.node (((h₁.reads.append h₂.reads).append h₃.reads).make (by decide))

theorem yields_pattern (hg : Sound g budget) (hs : Fits budget 0 s.cursor) :
    Yields (pattern g) s fun n s' => Reads s.cursor s'.cursor [n] := by
  refine (yields_modifiers hg hs false).bind fun mods s₁ h₁ => ?_
  have hmods := h₁.1.reads
  refine Yields.cursor (Yields.ite (fun _ => Yields.pure hmods) fun _ => ?_)
  refine (yields_type hg (hmods.fits hs)).bind fun t s₂ h₂ => ?_
  refine Yields.isName (Yields.ite (fun hnone => ?_) fun _ => ?_)
  · simp only [Bool.and_eq_true, Option.isNone_iff_eq_none] at hnone
    rw [hnone.1] at hmods
    exact Yields.pure (hmods.to_nil.append h₂.1)
  · refine Yields.acceptName.bind fun name s₃ h₃ => ?_
    exact Yields.node (((hmods.append h₂.1).append h₃.reads).make (by decide))

end Operands

section Switches

theorem yields_caseLabel (hg : Sound g budget) (hs : Fits budget 2 s.cursor) :
    Yields (caseLabel g) s fun n s' => Reads s.cursor s'.cursor [n] := by
  refine Yields.cursor (Yields.ite (fun _ => Yields.next.mono fun _ _ h => h.reads) fun _ => ?_)
  refine Yields.ite (fun _ => yields_pattern hg (hs.mono (by decide))) fun _ => ?_
  exact (hg.ternary hs).mono fun _ _ h => h.reads

theorem yields_caseLabels (hg : Sound g budget) (hs : Fits budget 2 s.cursor) :
    Yields (caseLabels g) s fun ns s' => Reads s.cursor s'.cursor ns := by
  refine Yields.get (Yields.change ?_)
  refine Yields.bind (Yields.separated
    (fun c => !c.isAt 0 ":" && !c.isAt 0 "->" && !c.isDone) (fun _ => rfl) ?_)
    fun labels s₁ h₁ => ?_
  · intro s₁ hlater _
    exact yields_caseLabel hg (hlater.fits hs)
  · exact Yields.change (Yields.pure h₁)

/-- A statement that is read where neither a text nor the end of the stream is. -/
theorem yields_statement_moves (hg : Sound g budget) (hs : Fits budget 3 s.cursor) {t : String}
    (hm : (!s.cursor.isAt 0 t && !s.cursor.isDone) = true) :
    Yields (g .statement) s fun n s' => Moves s.cursor s'.cursor [n] := by
  simp only [Bool.and_eq_true, Bool.not_eq_true', isDone_eq_false_iff] at hm
  exact (hg.statement hs).mono fun _ _ h => h.1.moves (h.2 hm.2)

theorem yields_switchCase (hg : Sound g budget) (hs : Fits budget 0 s.cursor)
    (hpos : 0 < s.cursor.left) :
    Yields (switchCase g) s fun n s' => Moves s.cursor s'.cursor [n] := by
  refine Yields.isAt ?_
  refine (Yields.next_moves hpos).bind fun word s₁ h₁ => ?_
  have hs₁ := h₁.fits hs
  refine Yields.bind_ite (fun _ => yields_caseLabels hg (hs₁.mono (by decide)))
    (fun _ => yields_nil) fun labels s₂ h₂ => ?_
  have hmoves := h₁.append h₂
  have hs₂ := hmoves.fits hs
  refine (Yields.accept "->").bind fun arrow s₃ h₃ => ?_
  have hs₃ := h₃.reads.fits hs₂
  cases arrow with
  | some a =>
      refine Yields.before (Yields.ite (fun _ => ?_) fun _ => ?_)
      · refine (hg.statement hs₃).bind fun body s₄ h₄ => ?_
        exact Yields.node ((hmoves.append (h₃.reads.append h₄.1)).make (by decide))
      · exact Yields.node ((hmoves.append h₃.reads).make (by decide))
  | none =>
      refine (Yields.expect ":" "switch label").bind fun colon s₄ h₄ => ?_
      have hs₄ := h₄.reads.fits hs₃
      refine (Yields.many (fun c => (!c.isAt 0 "\x7d" && !c.isDone) && !c.isAt 0 "case" &&
        !c.isDefaultLabel) (fun _ => rfl) fun s₅ hlater hm => ?_).bind fun body s₅ h₅ => ?_
      · simp only [Bool.and_assoc (!s₅.cursor.isAt 0 "\x7d" && !s₅.cursor.isDone)] at hm
        exact yields_statement_moves hg (hlater.fits hs₄) (Bool.and_eq_true _ _ ▸ hm).1
      · have hcolon := h₃.reads.to_nil.append h₄.reads
        exact Yields.node (((hmoves.append hcolon).append h₅.1).make (by decide))

theorem yields_switch (hg : Sound g budget) (hs : Fits budget 0 s.cursor)
    (hpos : 0 < s.cursor.left) :
    Yields (switch g) s fun n s' => Gives s.cursor s'.cursor n := by
  refine (Yields.next_moves hpos).bind fun word s₁ h₁ => ?_
  have hs₁ := h₁.fits hs
  refine (yields_paren hg (hs₁.mono (by decide)) "switch").bind fun subject s₂ h₂ => ?_
  have hmoves := h₁.append h₂
  have hs₂ := h₂.fits hs₁
  refine Yields.isAt (Yields.ite (fun _ => ?_) fun _ => ?_)
  · refine Yields.next.bind fun opening s₃ h₃ => ?_
    have hs₃ := h₃.reads.fits hs₂
    refine (Yields.many (fun c => !c.isAt 0 "\x7d" && !c.isDone) (fun _ => rfl)
      fun s₄ hlater hm => ?_).bind fun cases s₄ h₄ => ?_
    · have hs₄ := hlater.fits hs₃
      refine Yields.isAt (Yields.cursor (Yields.ite (fun _ => ?_) fun _ => ?_))
      · simp only [Bool.and_eq_true, Bool.not_eq_true', isDone_eq_false_iff] at hm
        exact yields_switchCase hg (hs₄.mono (by decide)) hm.2
      · exact yields_statement_moves hg hs₄ hm
    · refine (Yields.expect "\x7d" "switch").bind fun closing s₅ h₅ => ?_
      have hbody : Reads s₂.cursor s₅.cursor
          [some (Node.make .switchBody ([opening] ++ cases ++ [closing]))] :=
        ((h₃.reads.append h₄.1).append h₅.reads).make (by decide)
      exact Yields.node ((hmoves.append hbody).gives_make (by decide) (by decide))
  · exact Yields.unexpected fun _ =>
      Yields.node (hmoves.gives_make (by decide) (by decide))

end Switches

section Chains

theorem yields_missingExpr : Yields missingExpr s fun n s' => Offers s.cursor s'.cursor n := by
  refine Yields.unexpected fun r => Yields.cursor (Yields.ite (fun _ => ?_) fun hgo => ?_)
  · exact Yields.pure (Reads.refl _)
  · have hpos : 0 < s.cursor.left := by
      rw [← isDone_eq_false_iff]
      simp only [endsExpr, Bool.or_eq_true, not_or, Bool.not_eq_true] at hgo
      exact hgo.1
    refine Yields.bind (Yields.next_moves hpos) fun t s₁ h₁ => ?_
    exact Yields.node (h₁.gives_make (by decide) (by decide)).offers

theorem yields_wordExpr (hg : Sound g budget) (hs : Fits budget 1 s.cursor) :
    Yields (wordExpr g) s fun n s' => Offers s.cursor s'.cursor n := by
  refine (yields_lambda hg hs).bind fun l s₁ h₁ => ?_
  cases l with
  | some l => exact Yields.pure h₁
  | none =>
      have hs₁ := h₁.reads.fits hs
      refine Yields.mono ?_ fun n s' (h : Offers s₁.cursor s'.cursor n) => Reads.offers h₁ h
      refine Yields.cursor (Yields.ite (fun hcall => ?_) fun _ => ?_)
      · have hpos : 0 < s₁.cursor.left := by
          simp only [Bool.and_eq_true, Bool.or_eq_true] at hcall
          rcases hcall.2 with (hname | hthis) | hsuper
          · exact left_pos_of_isName hname
          · exact left_pos_of_isAt hthis (by decide)
          · exact left_pos_of_isAt hsuper (by decide)
        refine (Yields.next_moves hpos).bind fun name s₂ h₂ => ?_
        have hs₂ := h₂.fits hs₁
        refine (yields_args hg (hs₂.mono (by decide))).bind fun as s₃ h₃ => ?_
        exact Yields.node ((h₂.append h₃).gives_make (by decide) (by decide)).offers
      · exact Yields.ite (fun _ => Yields.next) fun _ => yields_missingExpr

theorem yields_parenExpr (hg : Sound g budget) (hs : Fits budget 1 s.cursor)
    (hpos : 0 < s.cursor.left) :
    Yields (parenExpr g) s fun n s' => Offers s.cursor s'.cursor n := by
  refine (yields_lambda hg hs).bind fun l s₁ h₁ => ?_
  cases l with
  | some l => exact Yields.pure h₁
  | none =>
      have hpos₁ : 0 < s₁.cursor.left := by
        rw [Reads.left_eq h₁]
        exact hpos
      refine Yields.mono ?_ fun n s' (h : Offers s₁.cursor s'.cursor n) => Reads.offers h₁ h
      refine (Yields.next_moves hpos₁).bind fun opening s₂ h₂ => ?_
      have hs₂ := h₂.fits (h₁.reads.fits hs)
      refine (hg.expr (hs₂.mono (by decide))).bind fun inner s₃ h₃ => ?_
      refine (Yields.expect ")" "parenthesized expression").bind fun closing s₄ h₄ => ?_
      have hmoves := (h₂.append h₃.reads).append h₄.reads
      exact Yields.node (hmoves.gives_make (by decide) (by decide)).offers

theorem yields_primary (hg : Sound g budget) (hs : Fits budget 1 s.cursor) :
    Yields (primary g) s fun n s' => Offers s.cursor s'.cursor n := by
  have hs₀ := hs.mono (Nat.zero_le 1)
  refine Yields.cursor (Yields.ite (fun _ => Yields.next) fun _ => ?_)
  refine Yields.ite (fun hat => ?_) fun _ => ?_
  · exact (yields_creation hg hs₀ (left_pos_of_isAt hat (by decide))).mono fun _ _ h => h.offers
  refine Yields.ite (fun hat => ?_) fun _ => ?_
  · exact (yields_switch hg hs₀ (left_pos_of_isAt hat (by decide))).mono fun _ _ h => h.offers
  refine Yields.ite (fun hat => ?_) fun _ => ?_
  · exact (hg.arrayInit hs (left_pos_of_isAt hat (by decide)) _).mono fun _ _ h => h.offers
  refine Yields.ite (fun hat => ?_) fun _ => ?_
  · exact yields_parenExpr hg hs (left_pos_of_isAt hat (by decide))
  exact Yields.ite (fun _ => yields_wordExpr hg hs) fun _ => yields_missingExpr

theorem yields_selector (hg : Sound g budget) (hs : Fits budget 2 s.cursor) :
    Yields (selector g) s fun n s' => Reads s.cursor s'.cursor [n] := by
  refine Yields.cursor (Yields.ite (fun _ => ?_) fun _ => Yields.unexpected fun _ => ?_)
  · refine Yields.next.bind fun name s₁ h₁ => ?_
    refine Yields.isAt (Yields.ite (fun _ => ?_) fun _ => Yields.pure h₁.reads)
    refine (yields_args hg (h₁.reads.fits hs)).bind fun as s₂ h₂ => ?_
    exact Yields.node ((h₁.reads.append h₂).make (by decide))
  · exact Yields.pure (Reads.none _)

theorem yields_member (hg : Sound g budget) (hs : Fits budget 2 s.cursor) :
    Yields (member g) s fun n s' => Reads s.cursor s'.cursor [n] := by
  refine Yields.isAt (Yields.ite (fun hat => ?_) fun _ => ?_)
  · exact (yields_creation hg (hs.mono (by decide)) (left_pos_of_isAt hat (by decide))).mono
      fun _ _ h => h.offers.reads
  refine Yields.isAt (Yields.ite (fun _ => ?_) fun _ => yields_selector hg hs)
  refine yields_typeParams.bind fun ts s₁ h₁ => ?_
  refine (yields_selector hg (h₁.reads.fits hs)).bind fun m s₂ h₂ => ?_
  exact Yields.node ((h₁.reads.append h₂).make (by decide))

/-- Selectors are put around an operand one by one, each with a token of its own. -/
theorem yields_selectorsFrom (hg : Sound g budget) {c : Cursor} {n : Node} {fuel : Nat}
    (hn : Offers c s.cursor (some n)) (hs : Fits budget 0 s.cursor) (hfuel : s.cursor.left < fuel) :
    Yields (selectorsFrom g fuel n) s fun n' s' => Offers c s'.cursor (some n') := by
  induction fuel generalizing s n with
  | zero => omega
  | succ fuel ih =>
      -- A selector that has consumed a token leaves fuel for the rest of them.
      have hround : ∀ {kind : NodeKind} {ns : List (Option Node)} {s₁ : ParserState},
          kind ≠ .resources → kind ≠ .varDecl → Moves s.cursor s₁.cursor ns →
          Yields (selectorsFrom g fuel (Node.make kind (some n :: ns))) s₁
            fun n' s' => Offers c s'.cursor (some n') := by
        intro kind ns s₁ hk hd hmoves
        have hlt := hmoves.lt
        have hall := hn.moves.append hmoves.toReads
        exact ih (hall.gives_make hk hd).offers (hmoves.toReads.fits hs) (by omega)
      refine Yields.isAt (Yields.ite (fun hat => ?_) fun _ => ?_)
      · refine (Yields.next_moves (left_pos_of_isAt hat (by decide))).bind fun dot s₁ h₁ => ?_
        have hs₁ := h₁.fits hs
        refine (yields_member hg (hs₁.mono (by decide))).bind fun m s₂ h₂ => ?_
        exact hround (by decide) (by decide) (h₁.append h₂)
      refine Yields.isAt (Yields.ite (fun hat => ?_) fun _ => ?_)
      · refine (Yields.next_moves (left_pos_of_isAt hat (by decide))).bind fun mark s₁ h₁ => ?_
        refine Yields.cursor (Yields.ite (fun _ => ?_) fun _ => ?_)
        · refine Yields.next.bind fun name s₂ h₂ => ?_
          exact hround (by decide) (by decide) (h₁.append h₂.reads)
        · refine Yields.unexpected fun _ => yields_none.bind fun name s₂ h₂ => ?_
          exact hround (by decide) (by decide) (h₁.append h₂)
      refine Yields.isAt (Yields.ite (fun hat => ?_) fun _ => ?_)
      · refine (Yields.next_moves (left_pos_of_isAt hat (by decide))).bind fun opening s₁ h₁ => ?_
        have hs₁ := h₁.fits hs
        refine Yields.isAt (Yields.either (fun _ => yields_none)
          (fun _ => (hg.expr (hs₁.mono (by decide))).mono fun _ _ h => h.reads)
          fun i s₂ h₂ => ?_)
        refine (Yields.expect "]" "index expression").bind fun closing s₃ h₃ => ?_
        exact hround (by decide) (by decide) ((h₁.append h₂).append h₃.reads)
      refine Yields.isAt (Yields.isAt (Yields.ite (fun hat => ?_) fun _ => Yields.pure hn))
      have hpos : 0 < s.cursor.left := by
        simp only [Bool.or_eq_true] at hat
        rcases hat with hat | hat
        · exact left_pos_of_isAt hat (by decide)
        · exact left_pos_of_isAt hat (by decide)
      refine (Yields.next_moves hpos).bind fun op s₁ h₁ => ?_
      exact hround (by decide) (by decide) h₁

theorem yields_postfixExpr (hg : Sound g budget) (hs : Fits budget 1 s.cursor) :
    Yields (postfixExpr g) s fun n s' => Offers s.cursor s'.cursor n := by
  refine (yields_primary hg hs).bind fun n s₁ h₁ => ?_
  cases n with
  | none => exact Yields.pure h₁
  | some n =>
      have hs₁ := (h₁.reads.fits hs).mono (Nat.zero_le 1)
      refine Yields.bound ?_
      refine (yields_selectorsFrom hg h₁ hs₁ (left_lt_bound _)).bind fun n' s₂ h₂ => ?_
      exact Yields.pure h₂

theorem yields_unary (hg : Sound g budget) (hs : Fits budget 1 s.cursor) :
    Yields (unary g) s fun n s' => Offers s.cursor s'.cursor n := by
  refine Yields.cursor (Yields.ite (fun hsign => ?_) fun _ => ?_)
  · have hpos : 0 < s.cursor.left := by
      refine left_pos_of_text fun hnil => ?_
      rw [hnil] at hsign
      exact absurd hsign (by decide)
    refine (Yields.next_moves hpos).bind fun op s₁ h₁ => ?_
    have hs₁ := h₁.fits hs
    refine (hg.unary (hs₁.mono (by decide))).bind fun operand s₂ h₂ => ?_
    exact Yields.node ((h₁.append h₂.reads).gives_make (by decide) (by decide)).offers
  refine Yields.ite (fun hcast => ?_) fun _ => yields_postfixExpr hg hs
  simp only [Bool.and_eq_true] at hcast
  refine (Yields.next_moves (left_pos_of_isAt hcast.1 (by decide))).bind fun opening s₁ h₁ => ?_
  have hs₁ := h₁.fits hs
  refine (yields_type hg (hs₁.mono (by decide))).bind fun t s₂ h₂ => ?_
  refine Yields.next.bind fun closing s₃ h₃ => ?_
  have hmoves := (h₁.append h₂.1).append h₃.reads
  have hs₃ := hmoves.fits hs
  refine (hg.unary (hs₃.mono (by decide))).bind fun operand s₄ h₄ => ?_
  exact Yields.node ((hmoves.append h₄.reads).gives_make (by decide) (by decide)).offers

theorem operator_pos {c : Cursor} {op : Bytes} {k : Nat} (h : c.operator = (op, k))
    (hop : op ≠ []) : 0 < k ∧ 0 < c.left := by
  simp only [Cursor.operator] at h
  split_ifs at h with hat heq hword
  · obtain ⟨rfl, rfl⟩ := Prod.mk.inj h
    exact ⟨Nat.succ_pos _, left_pos_of_isAt hat (by decide)⟩
  · obtain ⟨rfl, rfl⟩ := Prod.mk.inj h
    refine ⟨?_, left_pos_of_isAt hat (by decide)⟩
    simp only [angleRun]
    split_ifs <;> decide
  · obtain ⟨rfl, rfl⟩ := Prod.mk.inj h
    exact ⟨Nat.one_pos, left_pos_of_text hop⟩
  · obtain ⟨rfl, rfl⟩ := Prod.mk.inj h
    exact absurd rfl hop

theorem ne_nil_of_precedence {op : Bytes} (h : precedence op ≠ 0) : op ≠ [] := by
  rintro rfl
  exact h (by decide)

/-- Operators of one precedence are read with their operands until one of them has no operand, or
something else follows. -/
theorem yields_chainFrom (hg : Sound g budget) {prec fuel : Nat} (hprec : prec ≠ 0)
    (hs : Fits budget 0 s.cursor) (hfuel : s.cursor.left < fuel) :
    Yields (chainFrom g prec fuel) s fun ns s' => Reads s.cursor s'.cursor ns ∧
      (precedence s.cursor.operator.1 = prec → s'.cursor.left < s.cursor.left) := by
  induction fuel generalizing s with
  | zero => omega
  | succ fuel ih =>
      refine Yields.peekOperator fun op k hop => Yields.ite (fun hother => ?_) fun hsame => ?_
      · exact Yields.pure ⟨Reads.refl _, fun h => absurd (by rwa [hop] at h) hother⟩
      simp only [ne_eq, Decidable.not_not] at hsame
      obtain ⟨hk, hpos⟩ := operator_pos hop (ne_nil_of_precedence (hsame ▸ hprec))
      refine (yields_operator hk hpos).bind fun o s₁ h₁ => ?_
      have hs₁ := h₁.fits hs
      refine Yields.either (fun _ => yields_pattern hg (hs₁.mono (by decide)))
        (fun _ => (hg.binary (hs₁.mono (by decide)) _).mono fun _ _ h => h.reads)
        fun operand s₂ h₂ => ?_
      have hmoves := h₁.append h₂
      cases operand with
      | none =>
          have hlast := h₁.append h₂.to_nil
          exact Yields.unexpected fun _ => Yields.pure ⟨hlast.toReads, fun _ => hlast.lt⟩
      | some r =>
          have hlt := hmoves.lt
          refine (ih (hmoves.toReads.fits hs) (by omega)).bind fun rest s₃ h₃ => ?_
          have hall := hmoves.append h₃.1
          exact Yields.pure ⟨hall.toReads, fun _ => hall.lt⟩

theorem yields_chainsFrom (hg : Sound g budget) {c : Cursor} {lhs : Node} {least fuel : Nat}
    (hn : Offers c s.cursor (some lhs)) (hs : Fits budget 0 s.cursor)
    (hfuel : s.cursor.left < fuel) :
    Yields (chainsFrom g least fuel lhs) s fun n s' => Offers c s'.cursor (some n) := by
  induction fuel generalizing s lhs with
  | zero => omega
  | succ fuel ih =>
      refine Yields.peekOperator fun op k hop =>
        Yields.ite (fun _ => Yields.pure hn) fun hgo => Yields.bound ?_
      have hprec : precedence op ≠ 0 := by
        simp only [Bool.or_eq_true, decide_eq_true_eq, not_or] at hgo
        exact hgo.1
      refine (yields_chainFrom hg hprec hs (left_lt_bound _)).bind ?_
      rintro rest s₁ ⟨h₁, hlt⟩
      have hless := hlt (by rw [hop])
      have hall := hn.moves.append h₁
      exact ih (hall.gives_make (by decide) (by decide)).offers (h₁.fits hs) (by omega)

theorem yields_binary (hg : Sound g budget) (hs : Fits budget 1 s.cursor) (least : Nat) :
    Yields (binary g least) s fun n s' => Offers s.cursor s'.cursor n := by
  refine (yields_unary hg hs).bind fun n s₁ h₁ => ?_
  cases n with
  | none => exact Yields.pure h₁
  | some lhs =>
      have hs₁ := (h₁.reads.fits hs).mono (Nat.zero_le 1)
      refine Yields.bound ?_
      refine (yields_chainsFrom hg h₁ hs₁ (left_lt_bound _)).bind fun n s₂ h₂ => ?_
      exact Yields.pure h₂

theorem yields_conditionalBranch (hg : Sound g budget) (hs : Fits budget 2 s.cursor) :
    Yields (conditionalBranch g) s fun n s' => Reads s.cursor s'.cursor [n] := by
  refine (yields_lambda hg (hs.mono (by decide))).bind fun l s₁ h₁ => ?_
  cases l with
  | some l => exact Yields.pure h₁.reads
  | none =>
      refine (hg.ternary (h₁.reads.fits hs)).mono fun n s' h => ?_
      exact h₁.reads.to_nil.append h.reads

theorem yields_ternary (hg : Sound g budget) (hs : Fits budget 1 s.cursor) :
    Yields (ternary g) s fun n s' => Offers s.cursor s'.cursor n := by
  refine (yields_binary hg hs 1).bind fun n s₁ h₁ => ?_
  cases n with
  | none => exact Yields.pure h₁
  | some cond =>
      refine Yields.isAt (Yields.ite (fun _ => ?_) fun _ => Yields.pure h₁)
      have hs₁ := (h₁.moves.fits hs).mono (by decide : 2 ≤ 3)
      refine Yields.next.bind fun question s₂ h₂ => ?_
      have hs₂ := h₂.reads.fits hs₁
      refine (yields_conditionalBranch hg hs₂).bind fun yes s₃ h₃ => ?_
      refine (Yields.expect ":" "conditional expression").bind fun colon s₄ h₄ => ?_
      have hs₄ := h₄.reads.fits (h₃.fits hs₂)
      refine (yields_conditionalBranch hg hs₄).bind fun no s₅ h₅ => ?_
      have hmoves := (((h₁.moves.append h₂.reads).append h₃).append h₄.reads).append h₅
      exact Yields.node (hmoves.gives_make (by decide) (by decide)).offers

theorem yields_expr (hg : Sound g budget) (hs : Fits budget 1 s.cursor) :
    Yields (expr g) s fun n s' => Offers s.cursor s'.cursor n := by
  refine (yields_ternary hg hs).bind fun n s₁ h₁ => ?_
  cases n with
  | none => exact Yields.pure h₁
  | some lhs =>
      refine Yields.peekOperator fun op k hop =>
        Yields.ite (fun hassign => ?_) fun _ => Yields.pure h₁
      have hne : op ≠ [] := by
        rintro rfl
        exact absurd hassign (by decide)
      obtain ⟨hk, hpos⟩ := operator_pos hop hne
      refine (yields_operator hk hpos).bind fun o s₂ h₂ => ?_
      have hmoves := h₁.moves.append h₂.toReads
      have hs₂ := hmoves.fits hs
      refine Yields.isAt (Yields.either (fun hat => ?_) (fun _ => ?_) fun rhs s₃ h₃ => ?_)
      · exact (hg.arrayInit (hs₂.mono (by decide)) (left_pos_of_isAt hat (by decide)) _).mono
          fun _ _ h => h.offers.reads
      · exact (hg.expr (hs₂.mono (by decide))).mono fun _ _ h => h.reads
      · exact Yields.node ((hmoves.append h₃).gives_make (by decide) (by decide)).offers

end Chains

end CodeLayout.Grammar
