import CodeLayout.Proofs.Token.Rules

/-!
# Comments and literals as patterns

A comment between delimiters and a literal between triple quotes go up to the first delimiter that
closes them. A literal between single quotes goes on element by element: each element can be read in
one way only, so nothing is ever taken back.
-/

namespace CodeLayout

set_option maxRecDepth 1000

namespace Pattern

/-- A text of two bytes that a rule looks for. -/
theorem eq_of_isPrefixOf_two {a b : UInt8} {s : Bytes} (h : [a, b].isPrefixOf s = true) :
    ∃ rest, s = a :: b :: rest := by
  obtain ⟨rest, rfl⟩ := List.isPrefixOf_iff_prefix.mp h
  exact ⟨rest, rfl⟩

theorem recognizes_lineComment : Recognizes lineComment Lexer.lineComment := by
  intro s
  have hslashes : ascii "//" = [47, 47] := by decide
  have hline : IsByteClass (fun c => !inRanges (chars "\r\n") c) fun b => !Lexer.isEol b :=
    .outside (by decide) (by decide)
  rw [lineComment, rest?_seq_text (by decide), hslashes]
  by_cases hpre : [47, 47].isPrefixOf s = true
  · obtain ⟨rest, rfl⟩ := eq_of_isPrefixOf_two hpre
    rw [if_pos hpre, outside, rest?_many_one hline, if_neg (by simp [Lexer.lineComment]),
      Lexer.lineComment, ← List.drop_drop]
    rfl
  · have hzero : Lexer.lineComment s = 0 := by
      unfold Lexer.lineComment
      split
      · simp at hpre
      · rfl
    rw [if_neg hpre, if_pos hzero]

/-- What a comment between delimiters and a literal between triple quotes have in common. -/
theorem rest?_delimited {opening closing : String} {a : UInt8} {u : Bytes}
    (hopening : isSingleBytes opening = true) (hclosing : isSingleBytes closing = true)
    (hascii : ascii closing = a :: u) (ha : a < 0x80) (s : Bytes) :
    (delimited opening closing).rest? s =
      if (ascii opening).isPrefixOf s then
        (Lexer.lengthThrough? (ascii closing) (s.drop (ascii opening).length)).map fun n =>
          s.drop ((ascii opening).length + n)
      else none := by
  rw [delimited, rest?_seq_text hopening, rest?_few_wild_text hclosing hascii ha]
  simp only [List.drop_drop]

theorem recognizes_blockComment : Recognizes (delimited "/*" "*/") Lexer.blockComment := by
  intro s
  have hopening : ascii "/*" = [47, 42] := by decide
  rw [rest?_delimited (by decide) (by decide) commentEnd_eq (by decide), hopening]
  by_cases hpre : [47, 42].isPrefixOf s = true
  · obtain ⟨rest, rfl⟩ := eq_of_isPrefixOf_two hpre
    rw [if_pos hpre, Lexer.blockComment]
    change Option.map _ (Lexer.lengthThrough? (ascii "*/") rest) = _
    cases Lexer.lengthThrough? (ascii "*/") rest with
    | none => rfl
    | some n => simp
  · have hzero : Lexer.blockComment s = 0 := by
      by_contra hne
      obtain ⟨rest, rfl⟩ := Lexer.exists_of_blockComment (Or.inl hne)
      simp at hpre
    rw [if_neg hpre, if_pos hzero]

theorem recognizes_openComment : Recognizes openComment Lexer.openComment := by
  intro s
  have hopening : ascii "/*" = [47, 42] := by decide
  have hwild : IsByteClass (fun c => !inRanges [] c) fun _ => true :=
    .outside rfl fun _ _ => rfl
  rw [openComment, rest?_seq_text (by decide), hopening]
  by_cases hpre : [47, 42].isPrefixOf s = true
  · obtain ⟨rest, rfl⟩ := eq_of_isPrefixOf_two hpre
    have hall : rest.takeWhile (fun _ => true) = rest := List.takeWhile_eq_self_iff.mpr (by simp)
    rw [if_pos hpre, wild, outside, rest?_many_one hwild, Lexer.runLength, Lexer.openComment,
      if_neg (by simp), ← List.drop_drop]
    exact congrArg (fun t : Bytes => some (rest.drop t.length)) hall
  · have hzero : Lexer.openComment s = 0 := by
      by_contra hne
      obtain ⟨rest, rfl⟩ := Lexer.exists_of_blockComment (Or.inr hne)
      simp at hpre
    rw [if_neg hpre, if_pos hzero]

theorem recognizes_textBlock : Recognizes (delimited "\"\"\"" "\"\"\"") Lexer.textBlock := by
  intro s
  have hquotes : ascii "\"\"\"" = [34, 34, 34] := by decide
  rw [rest?_delimited (by decide) (by decide) hquotes (by decide), hquotes]
  by_cases hpre : [34, 34, 34].isPrefixOf s = true
  · obtain ⟨rest, hrest⟩ := List.isPrefixOf_iff_prefix.mp hpre
    obtain rfl : 34 :: 34 :: 34 :: rest = s := hrest
    rw [if_pos hpre, Lexer.textBlock, hquotes]
    change Option.map _ (Lexer.lengthThrough? [34, 34, 34] rest) = _
    cases Lexer.lengthThrough? [34, 34, 34] rest with
    | none => rfl
    | some n => simp
  · have hzero : Lexer.textBlock s = 0 := by
      unfold Lexer.textBlock
      split
      · simp at hpre
      · rfl
    rw [if_neg hpre, if_pos hzero]

/-- Whether a byte of a literal stands for itself. -/
def isPlain (quote b : UInt8) : Bool :=
  !(b = quote || Lexer.isEol b || b = 92)

section Literal

variable {quote b : UInt8} {cs s : Bytes}

theorem isPlain_iff : isPlain quote b = true ↔ b ≠ quote ∧ Lexer.isEol b = false ∧ b ≠ 92 := by
  simp [isPlain]
  tauto

theorem literalRest_cons_of_isPlain (h : isPlain quote b = true) :
    Lexer.literalRest quote (b :: s) = 1 + Lexer.literalRest quote s := by
  obtain ⟨hquote, heol, hslash⟩ := isPlain_iff.mp h
  cases s with
  | nil => simp [Lexer.literalRest, heol, hslash]
  | cons c s => simp [Lexer.literalRest, hquote, heol, hslash]

theorem literalRest_append_of_isPlain (h : ∀ b ∈ cs, isPlain quote b = true) :
    Lexer.literalRest quote (cs ++ s) = cs.length + Lexer.literalRest quote s := by
  induction cs with
  | nil => simp
  | cons c cs ih =>
      rw [List.cons_append, literalRest_cons_of_isPlain (h c List.mem_cons_self),
        ih fun b hb => h b (List.mem_cons_of_mem c hb), List.length_cons]
      omega

end Literal

theorem rests_backslash (p : Pattern) (a : UInt8) (rest : Bytes) :
    (Pattern.seq (char '\\') p).rests (a :: rest) = if a = 92 then p.rests rest else [] := by
  have hslash : IsAsciiClass (inRanges [(92, 92)]) fun c => c = 92 := .singleton (by decide)
  change ((one (inRanges [(92, 92)])).rests (a :: rest)).flatMap p.rests = _
  rw [hslash.rests_cons]
  by_cases ha : a = 92 <;> simp [ha]

/-- The quotes of the literals that stand on one line. -/
structure IsQuote (quote : Char) (b : UInt8) : Prop where
  eq : b = quote.toNat.toUInt8
  lt : quote.toNat < 128
  ne_backslash : b ≠ 92
  isEol : Lexer.isEol b = false
  isByteClass : IsByteClass
    (fun c => !inRanges ([(quote.toNat, quote.toNat)] ++ chars "\\\r\n") c) (isPlain b)

namespace IsQuote

variable {quote : Char} {b : UInt8}

theorem isAsciiClass (h : IsQuote quote b) :
    IsAsciiClass (inRanges [(quote.toNat, quote.toNat)]) fun c => c = b :=
  h.eq ▸ .singleton h.lt

theorem takes_closing (h : IsQuote quote b) :
    Takes (optional (char quote)) fun s => if s.head? = some b then 1 else 0 := by
  refine Recognizes.optional fun s => ?_
  cases s with
  | nil => rfl
  | cons c s =>
      rw [char, among, rest?_one_cons h.isAsciiClass]
      by_cases hc : c = b <;> simp [hc]

theorem isPlain_of_le (h : IsQuote quote b) {c : UInt8} (hc : 0x80 ≤ c) : isPlain b c = true := by
  have hascii :
      (([(quote.toNat, quote.toNat)] ++ chars "\\\r\n").all fun r => r.2 < 128) = true := by
    rw [List.all_append, Bool.and_eq_true]
    exact ⟨by simpa using h.lt, by decide⟩
  rw [← h.isByteClass.beyond 128 (Nat.le_refl _) c hc,
    IsByteClass.inRanges_eq_false hascii (Nat.le_refl _)]
  rfl

/-- How a literal goes on at a place: not at all, and then it may be closed there, or with one
element in the only possible way. -/
def Goes (quote : Char) (b : UInt8) (s : Bytes) : Prop :=
  ((quotedOne quote).rests s = [] ∧ Lexer.literalRest b s = if s.head? = some b then 1 else 0) ∨
    ∃ cs t, cs ≠ [] ∧ s = cs ++ t ∧ (quotedOne quote).rests s = [t] ∧
      Lexer.literalRest b s = cs.length + Lexer.literalRest b t

theorem goes_plain (h : IsQuote quote b) {a : UInt8} {rest : Bytes} (ha : isPlain b a = true) :
    Goes quote b (a :: rest) := by
  obtain ⟨cs, t, rfl, hcs, hrests⟩ := h.isByteClass.exists_rests a rest
  obtain ⟨-, -, hne⟩ := isPlain_iff.mp ha
  have hall : ∀ c ∈ a :: cs, isPlain b c = true := by
    intro c hc
    rcases List.mem_cons.mp hc with rfl | hc
    · exact ha
    · exact (hcs c hc).2.trans ha
  refine Or.inr ⟨a :: cs, t, by simp, rfl, ?_, ?_⟩
  · change (outside _).rests _ ++ (Pattern.seq (char '\\') _).rests _ = [t]
    rw [outside, hrests, if_pos ha, rests_backslash, if_neg hne]
    rfl
  · rw [← List.cons_append, literalRest_append_of_isPlain hall]

theorem goes_backslash (h : IsQuote quote b) (rest : Bytes) : Goes quote b (92 :: rest) := by
  have hdot : IsByteClass (fun c => !inRanges (chars "\n") c) fun c => c ≠ 10 :=
    .outside (by decide) (by decide)
  have hplain : isPlain b 92 = false := by simp [isPlain]
  have hhead : (92 :: rest : Bytes).head? ≠ some b := fun heq =>
    h.ne_backslash (Option.some.inj heq).symm
  have hone : (quotedOne quote).rests (92 :: rest) = (outside (chars "\n")).rests rest := by
    obtain ⟨cs, t, -, -, hrests⟩ := h.isByteClass.exists_rests 92 rest
    change (outside _).rests _ ++ (Pattern.seq (char '\\') _).rests _ = _
    rw [outside, hrests, hplain, rests_backslash, if_pos rfl]
    rfl
  rw [Goes, hone, if_neg hhead]
  cases rest with
  | nil => exact Or.inl ⟨rfl, rfl⟩
  | cons c more =>
      have hrest : Lexer.literalRest b (92 :: c :: more) =
          if c = 10 then 0 else 2 + Lexer.literalRest b more := by
        simp [Lexer.literalRest, Ne.symm h.ne_backslash, Lexer.isEol]
      obtain ⟨cs, t, rfl, hcs, hrests⟩ := hdot.exists_rests c more
      rw [outside, hrests, hrest]
      by_cases hc : c = 10
      · exact Or.inl ⟨by simp [hc], if_pos hc⟩
      · refine Or.inr ⟨92 :: c :: cs, t, by simp, rfl, by simp [hc], ?_⟩
        rw [if_neg hc, literalRest_append_of_isPlain fun d hd => h.isPlain_of_le (hcs d hd).1,
          List.length_cons, List.length_cons]
        omega

theorem goes (h : IsQuote quote b) (s : Bytes) : Goes quote b s := by
  rcases s with _ | ⟨a, rest⟩
  · exact Or.inl ⟨rfl, rfl⟩
  by_cases hplain : isPlain b a = true
  · exact h.goes_plain hplain
  by_cases ha : a = 92
  · exact ha ▸ h.goes_backslash rest
  obtain ⟨cs, t, -, -, hrests⟩ := h.isByteClass.exists_rests a rest
  refine Or.inl ⟨?_, ?_⟩
  · change (outside _).rests _ ++ (Pattern.seq (char '\\') _).rests _ = []
    rw [outside, hrests, if_neg hplain, rests_backslash, if_neg ha]
    rfl
  · have heol := h.isEol
    rw [isPlain_iff] at hplain
    by_cases hquote : a = b
    · cases rest <;> simp [Lexer.literalRest, hquote, heol, h.ne_backslash]
    · have haeol : Lexer.isEol a = true := by
        by_contra hno
        exact hplain ⟨hquote, by simpa using hno, ha⟩
      cases rest <;> simp [Lexer.literalRest, hquote, haeol]

/-- The rest of a literal goes on as long as it can, and then it may be closed. -/
theorem takes_literalRest (h : IsQuote quote b) :
    Takes (Pattern.seq (many (quotedOne quote)) (optional (char quote))) (Lexer.literalRest b) := by
  intro s
  rw [rest?_seq_of_isSome (isSome_optional _)]
  induction hn : s.length using Nat.strong_induction_on generalizing s with
  | _ n ih =>
      rcases h.goes s with ⟨hnil, hstop⟩ | ⟨cs, t, hne, rfl, hrests, hgo⟩
      · rw [rest?_many_of_nil hnil, hstop]
        exact h.takes_closing s
      · have hlt : t.length < (cs ++ t).length := by
          have hpos := List.length_pos_of_ne_nil hne
          rw [List.length_append]
          omega
        rw [rest?_many_of_rests hrests hlt, ih _ (hn ▸ hlt) t rfl, hgo, ← List.drop_drop,
          List.drop_left]

end IsQuote

theorem recognizes_literal {quote : Char} {b : UInt8} (h : IsQuote quote b) :
    Recognizes (literal quote) (Lexer.literal b) := by
  intro s
  cases s with
  | nil => exact rest?_seq_one_nil
  | cons c rest =>
      rw [literal, char, among, rest?_seq_one_cons h.isAsciiClass, Lexer.literal]
      by_cases hc : c = b
      · rw [if_pos (by simpa using hc), ← among, ← char, h.takes_literalRest rest, if_pos hc,
          if_neg (by omega), Nat.add_comm, List.drop_succ_cons]
      · rw [if_neg (by simpa using hc), if_neg hc, if_pos rfl]

theorem isQuote_double : IsQuote '"' 34 where
  eq := by decide
  lt := by decide
  ne_backslash := by decide
  isEol := by decide
  isByteClass := .outside (by decide) (by decide)

theorem isQuote_single : IsQuote '\'' 39 where
  eq := by decide
  lt := by decide
  ne_backslash := by decide
  isEol := by decide
  isByteClass := .outside (by decide) (by decide)

end Pattern

end CodeLayout
