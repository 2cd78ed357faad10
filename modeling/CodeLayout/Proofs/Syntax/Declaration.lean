import CodeLayout.Proofs.Syntax.Statement
import CodeLayout.Syntax.Declaration

/-!
# What declarations read
-/

namespace CodeLayout.Grammar

open CodeLayout.Cursor CodeLayout.Parser

variable {g : Grammar} {budget : Nat} {s : ParserState} {c : Cursor} {mods ts result : Option Node}

/-- A member that is read where neither a closing brace nor the end of the stream is. -/
theorem yields_member_moves (hg : Sound g budget) (hs : Fits budget 2 s.cursor)
    (hm : (!s.cursor.isAt 0 "\x7d" && !s.cursor.isDone) = true) :
    Yields (g .member) s fun n s' => Moves s.cursor s'.cursor [n] := by
  simp only [Bool.and_eq_true, Bool.not_eq_true', isDone_eq_false_iff] at hm
  exact (hg.member hs).mono fun _ _ h => h.1.moves (h.2 hm.2 hm.1)

theorem yields_members (hg : Sound g budget) (hs : Fits budget 2 s.cursor) :
    Yields (many (before "\x7d") (g .member)) s fun ns s' => Reads s.cursor s'.cursor ns :=
  (Yields.many (fun c => !c.isAt 0 "\x7d" && !c.isDone) (fun _ => rfl)
    fun _ hlater hm => yields_member_moves hg (hlater.fits hs) hm).mono fun _ _ h => h.1

theorem yields_typeBody (hg : Sound g budget) (hs : Fits budget 0 s.cursor)
    (hpos : 0 < s.cursor.left) :
    Yields (typeBody g) s fun n s' => Moves s.cursor s'.cursor [n] := by
  refine (Yields.next_moves hpos).bind fun opening s₁ h₁ => ?_
  have hs₁ := h₁.fits hs
  refine (yields_members hg (hs₁.mono (by decide))).bind fun members s₂ h₂ => ?_
  refine (Yields.expect "\x7d" _).bind fun closing s₃ h₃ => ?_
  exact Yields.node (((h₁.append h₂).append h₃.reads).make (by decide))

theorem yields_enumConstant (hg : Sound g budget) (hs : Fits budget 0 s.cursor) :
    Yields (enumConstant g) s fun r s' => Reads s.cursor s'.cursor r.1 ∧
      (r.2 = true → s'.cursor.left < s.cursor.left) := by
  refine (yields_modifiers hg hs false).bind fun mods s₁ h₁ => ?_
  have hmods := h₁.1.reads
  have hs₁ := hmods.fits hs
  refine Yields.isName (Yields.ite (fun hname => ?_) fun _ => Yields.pure ⟨hmods, nofun⟩)
  refine (Yields.next_moves (left_pos_of_isName hname)).bind fun name s₂ h₂ => ?_
  have hs₂ := h₂.fits hs₁
  refine Yields.isAt (Yields.either (fun _ => yields_args hg (hs₂.mono (by decide)))
    (fun _ => yields_none) fun as s₃ h₃ => ?_)
  have hs₃ := h₃.fits hs₂
  refine Yields.isAt (Yields.either (fun hat => ?_) (fun _ => yields_none) fun inner s₄ h₄ => ?_)
  · exact (hg.typeBody (hs₃.mono (by decide)) (left_pos_of_isAt hat (by decide))).mono
      fun _ _ h => h.toReads
  have hconstant : Moves s.cursor s₄.cursor
      [some (Node.make .enumConstant [mods, name, as, inner])] :=
    ((hmods.append_moves h₂).append (h₃.append h₄)).make (by decide)
  refine (Yields.accept ",").bind fun comma s₅ h₅ => ?_
  have hall := hconstant.append h₅.reads
  cases comma with
  | none => exact Yields.pure ⟨hconstant.toReads.append h₅.reads.to_nil, nofun⟩
  | some e => exact Yields.pure ⟨hall.toReads, fun _ => hall.lt⟩

theorem yields_enumBody (hg : Sound g budget) (hs : Fits budget 0 s.cursor)
    (hpos : 0 < s.cursor.left) :
    Yields (enumBody g) s fun n s' => Moves s.cursor s'.cursor [n] := by
  refine (Yields.next_moves hpos).bind fun opening s₁ h₁ => ?_
  have hs₁ := h₁.fits hs
  refine (Yields.collect (fun c => !c.isAt 0 ";" && (!c.isAt 0 "\x7d" && !c.isDone))
    (fun _ => rfl) fun s₂ hlater _ =>
      yields_enumConstant hg ((hlater.fits hs₁).mono (by decide))).bind fun constants s₂ h₂ => ?_
  have hconstants : Reads s₁.cursor s₂.cursor [some (Node.make .enumConstants constants)] :=
    h₂.make (by decide)
  refine (Yields.accept ";").bind fun semi s₃ h₃ => ?_
  have hs₃ := h₃.reads.fits (h₂.fits hs₁)
  refine (yields_members hg (hs₃.mono (by decide))).bind fun members s₄ h₄ => ?_
  refine (Yields.expect "\x7d" _).bind fun closing s₅ h₅ => ?_
  have hall := ((h₁.append (hconstants.append h₃.reads)).append h₄).append h₅.reads
  exact Yields.node (hall.make (by decide))

theorem yields_clause (hg : Sound g budget) (hs : Fits budget 0 s.cursor)
    (hpos : 0 < s.cursor.left) :
    Yields (clause g) s fun n s' => Moves s.cursor s'.cursor [n] := by
  refine Yields.cursor ((Yields.next_moves hpos).bind fun word s₁ h₁ => ?_)
  refine (yields_typeList hg (h₁.toReads.fits hs) _).bind fun types s₂ h₂ => ?_
  exact Yields.node ((h₁.append h₂).make (by decide))

theorem yields_declaredName :
    Yields declaredName s fun n s' => Reads s.cursor s'.cursor [n] := by
  refine Yields.acceptName.bind fun n s₁ h₁ => ?_
  cases n with
  | none => exact Yields.unexpected fun _ => Yields.pure h₁.reads
  | some n => exact Yields.pure h₁.reads

theorem left_pos_of_isTypeDecl (h : c.isTypeDecl = true) : 0 < c.left := by
  simp only [isTypeDecl, Bool.or_eq_true, Bool.and_eq_true] at h
  rcases h with (((h | h) | h) | h) | h
  · exact left_pos_of_isAt h (by decide)
  · exact left_pos_of_isAt h (by decide)
  · exact left_pos_of_isAt h (by decide)
  · exact left_pos_of_isAt h.1.1 (by decide)
  · exact left_pos_of_isAt h.1 (by decide)

theorem left_pos_of_isClause (h : isClause c = true) : 0 < c.left := by
  simp only [isClause, Bool.or_eq_true] at h
  rcases h with (h | h) | h
  · exact left_pos_of_isAt h (by decide)
  · exact left_pos_of_isAt h (by decide)
  · exact left_pos_of_isAt h (by decide)

theorem yields_typeDecl (hg : Sound g budget) (hs : Fits budget 0 s.cursor)
    (h : Reads c s.cursor [mods]) (hdecl : s.cursor.isTypeDecl = true) :
    Yields (typeDecl g mods) s fun n s' => Reads c s'.cursor [n] ∧
      s'.cursor.left < s.cursor.left := by
  have hpos := left_pos_of_isTypeDecl hdecl
  refine (Yields.accept "@").bind fun sign s₁ h₁ => Yields.isAt ?_
  have hword : Yields next s₁ fun n s' => Moves s.cursor s'.cursor [sign, n] := by
    cases sign with
    | none =>
        have hleft := Reads.left_eq h₁
        refine (Yields.next_moves (by omega)).mono fun n s' h => ?_
        exact h₁.reads.append_moves h
    | some e => exact Yields.next.mono fun n s' h => h₁.moves.append h.reads
  refine hword.bind fun word s₂ h₂ => ?_
  have hs₂ := h₂.fits hs
  refine yields_declaredName.bind fun name s₃ h₃ => ?_
  have hs₃ := h₃.fits hs₂
  refine Yields.isAt (Yields.either (fun _ => yields_typeParams.mono fun _ _ h => h.reads)
    (fun _ => yields_none) fun ts s₄ h₄ => ?_)
  have hs₄ := h₄.fits hs₃
  refine Yields.isAt (Yields.either
    (fun _ => (yields_params hg (hs₄.mono (by decide)) false).mono fun _ _ h => h.1)
    (fun _ => yields_none) fun ps s₅ h₅ => ?_)
  have hs₅ := h₅.fits hs₄
  refine (Yields.many isClause (fun _ => rfl) fun s₆ hlater hm =>
    yields_clause hg ((hlater.fits hs₅).mono (by decide)) (left_pos_of_isClause hm)).bind
    fun clauses s₆ h₆ => ?_
  have hs₆ := h₆.1.fits hs₅
  -- All that can stand behind the head: a body of some kind, or nothing.
  have hlead := ((h₂.append h₃).append h₄).append h₅
  have hend : ∀ inner s₇, Reads s₆.cursor s₇.cursor [inner] →
      Yields (node .typeDecl ([mods, sign, word, name, ts, ps] ++ clauses ++ [inner])) s₇
        fun n s' => Reads c s'.cursor [n] ∧ s'.cursor.left < s.cursor.left := by
    intro inner s₇ h₇
    have hmoves := (hlead.append h₆.1).append h₇
    exact Yields.node ⟨(h.append hmoves.toReads).make (by decide), hmoves.lt⟩
  refine Yields.isAt (Yields.ite (fun hat => Yields.ite (fun _ => ?_) fun _ => ?_) fun _ => ?_)
  · have hpos₆ := left_pos_of_isAt hat (by decide)
    exact ((yields_enumBody hg (hs₆.mono (by decide)) hpos₆).mono fun _ _ h => h.toReads).bind hend
  · have hpos₆ := left_pos_of_isAt hat (by decide)
    exact ((hg.typeBody (hs₆.mono (by decide)) hpos₆).mono fun _ _ h => h.toReads).bind hend
  · exact Yields.unexpected fun _ => yields_none.bind hend

theorem yields_method (hg : Sound g budget) (hs : Fits budget 1 s.cursor)
    (h : Reads c s.cursor [mods, ts, result]) :
    Yields (method g mods ts result) s fun n s' => Reads c s'.cursor [n] ∧
      s'.cursor.left ≤ s.cursor.left ∧
      (0 < s.cursor.left → s'.cursor.left < s.cursor.left) := by
  refine Yields.next_reads.bind ?_
  rintro name s₁ ⟨h₁, hlt⟩
  have hs₁ := h₁.fits hs
  refine (yields_params hg hs₁ false).bind fun ps s₂ h₂ => ?_
  have hs₂ := h₂.1.fits hs₁
  refine Yields.dims.bind fun ds s₃ h₃ => ?_
  have hs₃ := h₃.fits hs₂
  refine Yields.isAt (Yields.either (fun hat => ?_) (fun _ => yields_none)
    fun throwing s₄ h₄ => ?_)
  · exact (yields_clause hg (hs₃.mono (by decide)) (left_pos_of_isAt hat (by decide))).mono
      fun _ _ h => h.toReads
  have hs₄ := h₄.fits hs₃
  have hend : ∀ value s₅, Reads s₄.cursor s₅.cursor value → Yields (do
      let inner ← if ← isAt "\x7b" then g .block else expect ";" "method declaration"
      node .method ([mods, ts, result, name, ps] ++ ds ++ [throwing] ++ value ++ [inner])) s₅
      fun n s' => Reads c s'.cursor [n] ∧ s'.cursor.left ≤ s.cursor.left ∧
        (0 < s.cursor.left → s'.cursor.left < s.cursor.left) := by
    intro value s₅ h₅
    have hs₅ := h₅.fits hs₄
    refine Yields.isAt (Yields.either (fun hat => ?_)
      (fun _ => (Yields.expect ";" _).mono fun _ _ h => h.reads) fun inner s₆ h₆ => ?_)
    · exact (hg.block hs₅ (left_pos_of_isAt hat (by decide))).mono fun _ _ h => h.toReads
    · have hle := ((((h₂.1.append h₃).append h₄).append h₅).append h₆).left_le
      have hall := ((((((h.append h₁).append h₂.1).append h₃).append h₄).append h₅).append h₆)
      exact Yields.node ⟨hall.make (by decide), Nat.le_trans hle h₁.left_le,
        fun hpos => Nat.lt_of_le_of_lt hle (hlt hpos)⟩
  refine Yields.isAt (Yields.ite (fun hat => ?_) fun _ => yields_nil.bind hend)
  refine (Yields.next_moves (left_pos_of_isAt hat (by decide))).bind fun word s₅ h₅ => ?_
  have hs₅ := h₅.fits hs₄
  refine (yields_annotValue hg (hs₅.mono (by decide))).bind fun v s₆ h₆ => ?_
  exact Yields.look rfl (hend _ _ (h₅.toReads.append h₆))

/-- A member behind its modifiers consumes a token unless a closing brace is at the cursor. -/
theorem yields_modifiedMember (hg : Sound g budget) (hs : Fits budget 1 s.cursor)
    (h : Reads c s.cursor [mods]) (hend : s.cursor.startsModifiers = false) :
    Yields (modifiedMember g mods) s fun n s' => Reads c s'.cursor [n] ∧
      s'.cursor.left ≤ s.cursor.left ∧
      (0 < s.cursor.left → s.cursor.isAt 0 "\x7d" = false →
        s'.cursor.left < s.cursor.left) := by
  refine Yields.cursor (Yields.ite (fun hdecl => ?_) fun _ => ?_)
  · refine (yields_typeDecl hg (hs.mono (by decide)) h hdecl).mono fun n s' h' => ?_
    exact ⟨h'.1, Nat.le_of_lt h'.2, fun _ _ => h'.2⟩
  refine Yields.isAt (Yields.bind_ite (fun _ => yields_typeParams)
    (fun _ => Yields.pure (Reads.refl _)) fun ts s₁ h₁ => ?_)
  have hle := h₁.reads.left_le
  have hs₁ := h₁.reads.fits hs
  have hlead := h.append h₁.reads
  -- Where there are no type parameters, the cursor has not moved.
  have hstay : 0 < s.cursor.left → s₁.cursor.left < s.cursor.left ∨ s₁.cursor = s.cursor := by
    intro hpos
    cases ts with
    | none => exact Or.inr (Reads.eq_of_nil h₁ hpos)
    | some e => exact Or.inl h₁.moves.lt
  refine Yields.cursor (Yields.ite (fun hname => ?_) fun _ => ?_)
  · simp only [Bool.and_eq_true] at hname
    have hpos₁ := left_pos_of_isName hname.1
    refine (yields_method hg hs₁ (hlead.append (Reads.none _))).mono fun n s' h' => ?_
    have hlt := h'.2.2 hpos₁
    exact ⟨h'.1, by omega, fun _ _ => by omega⟩
  refine Yields.ite (fun htyped => ?_) fun _ => Yields.unexpected fun r => ?_
  · have hpos : 0 < s.cursor.left := Nat.lt_of_lt_of_le (left_pos_of_isTyped htyped) hle
    refine (yields_type hg (hs₁.mono (by decide))).bind fun t s₂ h₂ => ?_
    have hlt : s₂.cursor.left < s.cursor.left := by
      rcases hstay hpos with hless | hsame
      · exact Nat.lt_of_le_of_lt h₂.1.left_le hless
      · simp only [startsModifiers, Bool.or_eq_false_iff, ← hsame] at hend
        rw [← hsame]
        exact h₂.2 hend.1 (skipType_isSome_of_isTyped htyped)
    have hs₂ := h₂.1.fits hs₁
    have hall := hlead.append h₂.1
    refine Yields.cursor (Yields.ite (fun _ => ?_) fun _ => ?_)
    · refine (yields_method hg hs₂ hall).mono fun n s' h' => ?_
      exact ⟨h'.1, by omega, fun _ _ => by omega⟩
    refine Yields.ite (fun hnone => ?_) fun _ => ?_
    · rw [Option.isNone_iff_eq_none] at hnone
      subst hnone
      have hmoves : Moves c s₂.cursor [mods, t] :=
        (h.append (h₁.reads.to_nil.append h₂.1)).moves (Nat.lt_of_lt_of_le hlt h.left_le)
      refine (yields_varDecl hg (hs₂.mono (by decide)) hmoves true).mono fun n s' h' => ?_
      exact ⟨h'.1.toReads, by omega, fun _ _ => by omega⟩
    · refine (yields_raw hg hs₂ hall).mono fun n s' h' => ?_
      exact ⟨h'.1, by omega, fun _ _ => by omega⟩
  · refine (yields_raw (s := { s₁ with recorded := r }) hg hs₁ hlead).mono fun n s' h' => ?_
    have hle' : s'.cursor.left ≤ s₁.cursor.left := h'.2.1
    refine ⟨h'.1, Nat.le_trans hle' hle, fun hpos hclose => ?_⟩
    rcases hstay hpos with hless | hsame
    · exact Nat.lt_of_le_of_lt hle' hless
    · rw [← hsame] at hpos hclose ⊢
      exact h'.2.2 hpos (Or.inr hclose)

/-- Behind one token is what was one token ahead. -/
theorem yields_next_isAt {t : String} (hpos : 0 < s.cursor.left)
    (hat : s.cursor.isAt 1 t = true) :
    Yields next s fun n s' => Moves s.cursor s'.cursor [n] ∧ s'.cursor.isAt 0 t = true := by
  obtain ⟨l, hl⟩ := get?_zero_of_left_pos hpos
  refine ⟨_, _, next_run hl, moves_leaf hl, ?_⟩
  have hget : Cursor.get? { s.cursor with pos := s.cursor.pos + 1 } 0 = s.cursor.get? 1 := by
    simp [Cursor.get?]
  rw [← hat]
  simp only [Cursor.isAt, text, hget]

theorem yields_typeMember (hg : Sound g budget) (hs : Fits budget 1 s.cursor) :
    Yields (typeMember g) s fun n s' => Reads s.cursor s'.cursor [n] ∧
      (0 < s.cursor.left → s.cursor.isAt 0 "\x7d" = false →
        s'.cursor.left < s.cursor.left) := by
  refine Yields.cursor (Yields.ite (fun hat => ?_) fun _ => ?_)
  · refine (Yields.next_moves (left_pos_of_isAt hat (by decide))).bind fun semi s₁ h₁ => ?_
    exact Yields.node ⟨h₁.toReads.make (by decide), fun _ _ => h₁.lt⟩
  refine Yields.ite (fun hat => ?_) fun _ => ?_
  · refine (hg.block hs (left_pos_of_isAt hat (by decide))).bind fun b s₁ h₁ => ?_
    exact Yields.node ⟨h₁.toReads.make (by decide), fun _ _ => h₁.lt⟩
  refine Yields.ite (fun hat => ?_) fun _ => ?_
  · simp only [Bool.and_eq_true] at hat
    refine (yields_next_isAt (left_pos_of_isAt hat.1 (by decide)) hat.2).bind ?_
    rintro word s₁ ⟨h₁, hbrace⟩
    have hs₁ := h₁.toReads.fits hs
    refine (hg.block hs₁ (left_pos_of_isAt hbrace (by decide))).bind fun b s₂ h₂ => ?_
    have hall := h₁.append h₂.toReads
    exact Yields.node ⟨hall.toReads.make (by decide), fun _ _ => hall.lt⟩
  refine (yields_modifiers hg (hs.mono (by decide)) true).bind ?_
  rintro mods s₁ ⟨h₁, hend, -⟩
  refine (yields_modifiedMember hg (h₁.reads.fits hs) h₁.reads hend).mono fun n s' h => ?_
  refine ⟨h.1, fun hpos hclose => ?_⟩
  cases mods with
  | none =>
      have hsame := Reads.eq_of_nil h₁ hpos
      rw [← hsame] at hpos hclose ⊢
      exact h.2.2 hpos hclose
  | some m => exact Nat.lt_of_le_of_lt h.2.1 h₁.moves.lt

theorem yields_plainStatement (hg : Sound g budget) (hs : Fits budget 2 s.cursor) :
    Yields (plainStatement g) s fun n s' => Reads s.cursor s'.cursor [n] ∧
      (0 < s.cursor.left → s'.cursor.left < s.cursor.left) := by
  have hs₀ := hs.mono (Nat.zero_le 2)
  refine Yields.cursor (Yields.ite (fun hlabel => ?_) fun _ => ?_)
  · simp only [Bool.and_eq_true] at hlabel
    exact (yields_labeled hg hs₀ (left_pos_of_isName hlabel.1)).mono
      fun _ _ h => ⟨h.toReads, fun _ => h.lt⟩
  refine (yields_modifiers hg hs₀ false).bind ?_
  rintro mods s₁ ⟨h₁, hend, -⟩
  have hs₁ := h₁.reads.fits hs
  have hle := h₁.reads.left_le
  refine Yields.cursor (Yields.ite (fun hdecl => ?_) fun _ => ?_)
  · refine (yields_typeDecl hg (hs₁.mono (by decide)) h₁.reads hdecl).mono fun n s' h => ?_
    exact ⟨h.1, fun _ => Nat.lt_of_lt_of_le h.2 hle⟩
  refine Yields.ite (fun htyped => ?_) fun _ => ?_
  · refine (yields_type_moves hg (hs₁.mono (by decide)) h₁.reads hend htyped).bind
      fun t s₂ h₂ => ?_
    refine (yields_varDecl hg (h₂.toReads.fits hs₀) h₂ true).mono fun n s' h => ?_
    exact ⟨h.1.toReads, fun _ => h.1.lt⟩
  refine Yields.ite (fun hsome => Yields.unexpected fun r => ?_) fun hnone => ?_
  · obtain ⟨m, rfl⟩ := Option.isSome_iff_exists.mp hsome
    refine Yields.mono (yields_raw (s := { s₁ with recorded := r }) hg
      (hs₁.mono (by decide)) h₁.reads) fun n s' h => ?_
    exact ⟨h.1, fun _ => Nat.lt_of_le_of_lt h.2.1 h₁.moves.lt⟩
  · have hnil : mods = none := by simpa using hnone
    subst hnil
    have hleft := Reads.left_eq h₁
    refine (yields_exprStmt hg hs₁).mono fun n s' h => ?_
    exact ⟨h₁.reads.to_nil.append h.1, fun hpos => hleft ▸ h.2 (hleft ▸ hpos)⟩

theorem yields_statement (hg : Sound g budget) (hs : Fits budget 2 s.cursor) :
    Yields (statement g) s fun n s' => Reads s.cursor s'.cursor [n] ∧
      (0 < s.cursor.left → s'.cursor.left < s.cursor.left) := by
  have hs₀ := hs.mono (Nat.zero_le 2)
  -- A statement that starts with a word of its own consumes at least this word.
  have hmoves : ∀ {p : Parser (Option Node)},
      Yields p s (fun n s' => Moves s.cursor s'.cursor [n]) →
      Yields p s fun n s' => Reads s.cursor s'.cursor [n] ∧
        (0 < s.cursor.left → s'.cursor.left < s.cursor.left) :=
    fun h => h.mono fun _ _ h => ⟨h.toReads, fun _ => h.lt⟩
  have hat : ∀ {t : String}, s.cursor.isAt 0 t = true → ascii t ≠ [] → 0 < s.cursor.left :=
    fun h ht => left_pos_of_isAt h ht
  refine Yields.cursor ?_
  refine Yields.ite (fun h => hmoves (hg.block (hs.mono (by decide)) (hat h (by decide))))
    fun _ => ?_
  refine Yields.ite (fun h => hmoves ?_) fun _ => ?_
  · refine (Yields.next_moves (hat h (by decide))).bind fun semi s₁ h₁ => ?_
    exact Yields.node (h₁.make (by decide))
  refine Yields.ite (fun h => hmoves (yields_ifStmt hg hs₀ (hat h (by decide)))) fun _ => ?_
  refine Yields.ite (fun h => hmoves (yields_whileStmt hg hs₀ (hat h (by decide)))) fun _ => ?_
  refine Yields.ite (fun h => hmoves (yields_doStmt hg hs₀ (hat h (by decide)))) fun _ => ?_
  refine Yields.ite (fun h => hmoves (yields_forStmt hg hs₀ (hat h (by decide)))) fun _ => ?_
  refine Yields.ite (fun h => hmoves (yields_tryStmt hg hs₀ (hat h (by decide)))) fun _ => ?_
  refine Yields.ite (fun h => hmoves ?_) fun _ => ?_
  · exact (yields_switch hg hs₀ (hat h (by decide))).mono fun _ _ h => h.moves
  refine Yields.ite (fun h => hmoves (yields_returnStmt hg hs₀ (hat h (by decide)))) fun _ => ?_
  refine Yields.ite (fun h => hmoves (yields_throwStmt hg hs₀ (hat h (by decide)))) fun _ => ?_
  refine Yields.ite (fun h => hmoves (yields_jump ?_)) fun _ => ?_
  · simp only [Bool.or_eq_true] at h
    rcases h with h | h
    · exact hat h (by decide)
    · exact hat h (by decide)
  refine Yields.ite (fun h => hmoves (yields_assertStmt hg hs₀ (hat h (by decide)))) fun _ => ?_
  refine Yields.ite (fun h => hmoves (yields_synchronizedStmt hg hs₀ ?_)) fun _ => ?_
  · simp only [Bool.and_eq_true] at h
    exact hat h.1 (by decide)
  refine Yields.ite (fun h => hmoves (yields_yieldStmt hg hs₀ ?_)) fun _ => ?_
  · simp only [Bool.and_eq_true] at h
    exact hat h.1 (by decide)
  exact yields_plainStatement hg hs

end CodeLayout.Grammar
