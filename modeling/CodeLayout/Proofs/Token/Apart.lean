import CodeLayout.Proofs.Token.Front
import CodeLayout.Proofs.Token.Lossless
import CodeLayout.Proofs.Token.Unterminated

/-!
# Where a token ends

Two tokens may be written side by side if the first one cannot go on with the first byte of the
second. Whether it can is told from this byte alone: a name goes on with what names are made of, a
number with what numbers are made of, an operator with what makes a longer one of it, and a literal
that is not closed with anything up to the end of its line.
-/

namespace CodeLayout

namespace Lexer

/-- Whether a byte can be a part of a name: it is none of ASCII, or an ASCII character that a name
goes on with. -/
def isWordByte (b : UInt8) : Bool :=
  128 ≤ b || continuesName b.toNat

/-- Whether a byte can be a part of a number. -/
def isNumberByte (b : UInt8) : Bool :=
  isWordByte b || b = 43 || b = 45 || b = 46

/-- The operators of more than one byte and what comments and text blocks open with. -/
def openings : List Bytes :=
  longPuncts ++ [ascii "//", ascii "/*", tripleQuote]

/-- Whether a token with some text may go on with a byte: both are parts of a name, or of a number,
or of an operator or an opening delimiter, or the token is a literal that is not closed and the byte
ends no line. -/
def GoesOn (text : Bytes) (b : UInt8) : Prop :=
  (∀ c ∈ text ++ [b], isWordByte c = true) ∨
    ((∃ a ∈ text.head?, isDigit a = true ∨ a = 46) ∧ isNumberByte b = true) ∨
    (∃ p ∈ openings, text ++ [b] <+: p) ∨
    (∃ a ∈ text.head?, a = 34 ∨ a = 39) ∧ ¬(text.IsTextBlock ∨ text.EndsUnescaped) ∧
      isEol b = false

/-- A slash goes on to what opens a comment. -/
theorem goesOn_slash {b : UInt8} (hb : b = 47 ∨ b = 42) : GoesOn [47] b := by
  have hopens : ∃ p ∈ openings, [47, b] <+: p := by
    rcases hb with rfl | rfl
    · exact ⟨ascii "//", by decide, by decide⟩
    · exact ⟨ascii "/*", by decide, by decide⟩
  exact Or.inr (Or.inr (Or.inl hopens))

section Kinds

variable {s rest : Bytes} {kind : TokenKind} {n : Nat} {g : UInt8 → Bool}

/-- The first token of a text is recognized by the pattern for its kind. -/
theorem exists_pattern (hs : s ≠ []) (h : firstToken s rules = (kind, n)) :
    ∃ p, (kind, p) ∈ Pattern.table ∧ p.rest? s = some (s.drop n) := by
  obtain ⟨a, rest, rfl⟩ := List.exists_cons_of_ne_nil hs
  have hany : ∃ r ∈ rules, r.2 (a :: rest) ≠ 0 :=
    ⟨(.unrecognized, anyCharacter), by simp [rules], Nat.ne_of_gt (Utf8.first_bytes_pos a rest)⟩
  have hfirst := Pattern.first?_eq Pattern.table_recognizes hany
  rw [h] at hfirst
  exact Pattern.exists_of_first? hfirst

/-- The bytes of a first token, if those of the pattern for its kind are of one class. -/
theorem all_of_firstToken (hs : s ≠ []) (h : firstToken s rules = (kind, n))
    (hwithin : ∀ p, (kind, p) ∈ Pattern.table → p.Within g) : ∀ b ∈ s.take n, g b = true := by
  obtain ⟨p, hmem, hrest⟩ := exists_pattern hs h
  obtain ⟨w, hsplit, hw⟩ := (hwithin p hmem).exists_append (List.mem_of_mem_head? hrest)
  have htake : w = s.take n :=
    List.append_cancel_right (hsplit.trans (List.take_append_drop n s).symm)
  exact htake ▸ hw

theorem isWordByte_of_le {b : UInt8} (h : 128 ≤ b) : isWordByte b = true := by
  simp [isWordByte, h]

theorem within_ident : Pattern.ident.Within isWordByte := by
  have hclass : ∀ ranges : List (Nat × Nat),
      (∀ n, inRanges ranges n = true → continuesName n = true) →
      (Pattern.among ranges).Within isWordByte := by
    intro ranges h
    refine Pattern.within_one (fun n hn hf => ?_) fun b => isWordByte_of_le
    rw [isWordByte, UInt8.toNat_ofNat_of_lt' (Nat.lt_trans hn (by decide)), h n hf, Bool.or_true]
  refine ⟨hclass _ fun n hn => ?_, hclass _ fun n hn => ?_⟩
  · rw [Pattern.inRanges_append, Pattern.inRanges_marks, ← Pattern.isLetter_eq] at hn
    simp only [Bool.or_eq_true, decide_eq_true_eq] at hn
    simp only [continuesName, Bool.or_eq_true, decide_eq_true_eq]
    tauto
  · rw [Pattern.inRanges_append, Pattern.inRanges_append, Pattern.inRanges_marks,
      ← Pattern.isLetter_eq, ← Pattern.isNumeral_eq] at hn
    simp only [Bool.or_eq_true, decide_eq_true_eq] at hn
    simp only [continuesName, Bool.or_eq_true, decide_eq_true_eq]
    tauto

theorem within_number : Pattern.number.Within isNumberByte := by
  have hclass : ∀ ranges : List (Nat × Nat),
      (∀ n < 128, inRanges ranges n = true → isNumberByte (UInt8.ofNat n) = true) →
      (Pattern.among ranges).Within isNumberByte := by
    intro ranges h
    exact Pattern.within_one h fun b hb => by simp [isNumberByte, isWordByte_of_le hb]
  simp only [Pattern.number, Pattern.based, Pattern.whole, Pattern.fraction, Pattern.exponent,
    Pattern.digits, Pattern.optional, Pattern.plus, Pattern.many, Pattern.char, Pattern.Within,
    and_true]
  and_intros <;> exact hclass _ (by decide +kernel)

/-- A number starts with a digit or a point. -/
theorem head_of_number {a : UInt8} (h : number (a :: s) ≠ 0) : isDigit a = true ∨ a = 46 := by
  by_contra hno
  rw [not_or, Bool.not_eq_true] at hno
  have hzero : a ≠ 48 := by
    rintro rfl
    exact absurd hno.1 (by decide)
  have hbased : ∀ lower upper f, basedNumber lower upper f (a :: s) = 0 := by
    intro lower upper f
    cases s <;> simp [basedNumber, hzero]
  have hdigits : decimalDigits (a :: s) = 0 := by
    simp [decimalDigits.eq_def, hno]
  simp [number, numberBody, hbased, hdigits] at h

/-- A symbol of more than one byte. -/
theorem take_punct_mem (h : 1 < punct s) : s.take (punct s) ∈ longPuncts := by
  unfold punct at h ⊢
  cases hfind : longPuncts.find? fun p => p.isPrefixOf s with
  | some p =>
      have hp := List.find?_some hfind
      rw [List.isPrefixOf_iff_prefix] at hp
      simp only [← List.prefix_iff_eq_take.mp hp]
      exact List.mem_of_find?_eq_some hfind
  | none =>
      simp only [hfind] at h
      cases s with
      | nil => simp at h
      | cons b s =>
          simp only at h
          split_ifs at h <;> omega

/-- Where a comment starts, the first token is a comment. -/
theorem firstToken_slash {b : UInt8} (hb : b = 47 ∨ b = 42) :
    (firstToken (47 :: b :: s) rules).1 = .comment := by
  have hspace : space (47 :: b :: s) = 0 := space_eq_zero (by decide)
  rw [rules, firstToken_of_eq_zero hspace]
  rcases hb with rfl | rfl
  · have hline : lineComment (47 :: 47 :: s) ≠ 0 := by
      rw [lineComment]
      omega
    rw [firstToken_of_ne_zero hline]
  · have hline : lineComment (47 :: 42 :: s) = 0 := rfl
    have hopen : openComment (47 :: 42 :: s) ≠ 0 := by
      rw [openComment]
      omega
    rw [firstToken_of_eq_zero hline]
    by_cases hblock : blockComment (47 :: 42 :: s) = 0
    · rw [firstToken_of_eq_zero hblock, firstToken_of_ne_zero hopen]
    · rw [firstToken_of_ne_zero hblock]

/-- Where a quote is, the first token is a literal: between triple quotes if there are some that are
closed, or else on one line. -/
theorem firstToken_quote {quote : UInt8} (hquote : quote = 34 ∨ quote = 39) :
    firstToken (quote :: s) rules =
      (.string, if textBlock (quote :: s) ≠ 0 then textBlock (quote :: s)
        else 1 + literalRest quote s) := by
  have hspace : space (quote :: s) = 0 := space_eq_zero (by rcases hquote with rfl | rfl <;> decide)
  have hline : lineComment (quote :: s) = 0 := by rcases hquote with rfl | rfl <;> rfl
  have hblock : blockComment (quote :: s) = 0 := by rcases hquote with rfl | rfl <;> rfl
  have hopen : openComment (quote :: s) = 0 := by rcases hquote with rfl | rfl <;> rfl
  rw [rules, firstToken_of_eq_zero hspace, firstToken_of_eq_zero hline,
    firstToken_of_eq_zero hblock, firstToken_of_eq_zero hopen]
  by_cases htext : textBlock (quote :: s) = 0
  · rw [firstToken_of_eq_zero htext, if_neg (by simpa using htext)]
    rcases hquote with rfl | rfl
    · have hliteral : literal 34 (34 :: s) = 1 + literalRest 34 s := by
        rw [literal, if_pos rfl]
      rw [firstToken_of_ne_zero (by omega), hliteral]
    · have hliteral : literal 39 (39 :: s) = 1 + literalRest 39 s := by
        rw [literal, if_pos rfl]
      have hother : literal 34 (39 :: s) = 0 := by
        rw [literal, if_neg (by decide)]
      rw [firstToken_of_eq_zero hother, firstToken_of_ne_zero (by omega), hliteral]
  · rw [firstToken_of_ne_zero htext, if_pos htext]

end Kinds

section Literals

variable {quote b : UInt8} {text body rest : Bytes}

theorem exists_of_textBlock (h : textBlock text ≠ 0) : ∃ rest, text = 34 :: 34 :: 34 :: rest := by
  unfold textBlock at h
  split at h
  · exact ⟨_, rfl⟩
  · exact absurd rfl h

/-- A closed text block is read whatever follows it. -/
theorem textBlock_append (h : textBlock text ≠ 0) (rest : Bytes) :
    textBlock (text ++ rest) = textBlock text := by
  obtain ⟨inner, rfl⟩ := exists_of_textBlock h
  cases hthrough : lengthThrough? (ascii "\"\"\"") inner with
  | none => simp [textBlock, hthrough] at h
  | some n =>
      have hlonger := lengthThrough?_append_of_some hthrough rest
      simp only [List.cons_append, textBlock, hthrough, hlonger]

/-- What breaks off is not closed. -/
theorem not_closed_of_isQuoted (hbody : IsQuoted quote body) :
    ¬(Bytes.IsTextBlock (quote :: body) ∨ Bytes.EndsUnescaped (quote :: body)) := by
  intro hclosed
  obtain ⟨hlength, hlast⟩ := isClosed_literal.mp (isClosed_of_ends (hclosed.imp_right Or.inl))
  cases body with
  | nil => simp at hlength
  | cons c body =>
      rw [List.getLast?_cons_cons] at hlast
      obtain ⟨front, hfront, heq⟩ := hbody.exists_escape hlast
      exact Bytes.EndsEscaped.not_closed ⟨quote, front, hfront, by rw [heq]⟩ hclosed

/-- A literal goes on only with a byte that it may go on with. -/
theorem goesOn_of_literal {kind kind' : TokenKind} {n : Nat} (hquote : quote = 34 ∨ quote = 39)
    (htext : firstToken (quote :: body) rules = (kind, (quote :: body).length))
    (hlonger : firstToken (quote :: (body ++ b :: rest)) rules = (kind', n))
    (hn : (quote :: body).length < n) : GoesOn (quote :: body) b := by
  have hslash : quote ≠ 92 := by rcases hquote with rfl | rfl <;> decide
  have heol : isEol quote = false := by rcases hquote with rfl | rfl <;> decide
  rw [firstToken_quote hquote] at htext hlonger
  obtain ⟨-, hlength⟩ := Prod.mk.inj htext
  obtain ⟨-, hlonger⟩ := Prod.mk.inj hlonger
  rw [List.length_cons] at hlength hn
  by_cases hblock : textBlock (quote :: body) = 0
  · rw [if_neg (by simpa using hblock)] at hlength
    have hbody := isQuotation_literalRest quote body
    have hall : literalRest quote body = body.length := by omega
    rw [hall, List.take_length, List.drop_length] at hbody
    by_cases hlong : textBlock (quote :: (body ++ b :: rest)) = 0
    · rw [if_neg (by simpa using hlong)] at hlonger
      cases hbody with
      | @closed inner _ hinner =>
          have hquoted : literalRest quote (quote :: b :: rest) = 1 := by
            rw [literalRest, if_pos rfl]
          rw [List.append_assoc, List.singleton_append, literalRest_append hslash hinner,
            hquoted] at hlonger
          rw [List.length_append, List.length_singleton] at hn
          omega
      | unclosed hinner =>
          refine Or.inr (Or.inr (Or.inr ⟨⟨quote, rfl, hquote⟩, not_closed_of_isQuoted hinner, ?_⟩))
          by_contra hbreak
          rw [Bool.not_eq_false] at hbreak
          have hstop : literalRest quote (b :: rest) = 0 := by
            have hne : b ≠ quote := by
              rintro rfl
              rw [heol] at hbreak
              cases hbreak
            cases rest <;> simp [literalRest, hbreak, hne]
          rw [literalRest_append hslash hinner, hstop] at hlonger
          omega
    · -- Only right behind two quotes a third one may open a text block.
      obtain ⟨more, hmore⟩ := exists_of_textBlock hlong
      obtain ⟨rfl, hinner⟩ := List.cons.inj hmore
      have hopening : tripleQuote ∈ openings := by decide
      refine Or.inr (Or.inr (Or.inl ⟨tripleQuote, hopening, ?_⟩))
      rw [tripleQuote_eq]
      rcases body with _ | ⟨c, _ | ⟨d, body⟩⟩
      · obtain ⟨rfl, -⟩ := List.cons.inj hinner
        exact ⟨[34], rfl⟩
      · obtain ⟨rfl, hb⟩ := List.cons.inj hinner
        obtain ⟨rfl, -⟩ := List.cons.inj hb
        exact List.prefix_refl _
      · obtain ⟨rfl, -⟩ := List.cons.inj hinner
        rw [literalRest, if_pos rfl] at hall
        simp at hall
  · rw [if_pos hblock] at hlength
    rw [← List.cons_append, textBlock_append hblock, if_pos hblock] at hlonger
    omega

end Literals

section Apart

variable {text rest : Bytes} {b : UInt8} {kind kind' : TokenKind} {n : Nat}

/-- Only a slash is the start of a comment and no comment. -/
theorem eq_slash_of_comment {out behind : Bytes} (hkind : kind.isSkippable = false)
    (htext : firstToken text rules = (kind, text.length)) (hcomment : IsComment out behind)
    (hpre : text ++ [b] <+: out) : text = [47] ∧ (b = 47 ∨ b = 42) := by
  have hopens : ∃ c body, out = 47 :: c :: body ∧ (c = 47 ∨ c = 42) := by
    cases hcomment with
    | line => exact ⟨47, _, rfl, Or.inl rfl⟩
    | closed => exact ⟨42, _, rfl, Or.inr rfl⟩
    | unclosed => exact ⟨42, _, rfl, Or.inr rfl⟩
  obtain ⟨c, body, rfl, hc⟩ := hopens
  have hpos := firstToken_pos text rules
  rw [htext] at hpos
  obtain ⟨a, more, rfl⟩ := List.exists_cons_of_length_pos hpos
  rw [List.cons_append, List.cons_prefix_cons] at hpre
  obtain ⟨rfl, hpre⟩ := hpre
  cases more with
  | nil =>
      obtain rfl : b = c := (List.cons_prefix_cons.mp hpre).1
      exact ⟨rfl, hc⟩
  | cons d more =>
      -- A comment has started before.
      obtain rfl : d = c := (List.cons_prefix_cons.mp hpre).1
      have hfirst : kind = .comment := by
        rw [← firstToken_slash (s := more) hc, htext]
      rw [hfirst] at hkind
      cases hkind

/-- A character of more than one byte has nothing but bytes beyond ASCII. -/
theorem goesOn_of_unrecognized {s : Bytes} (h : firstToken s rules = (.unrecognized, n))
    (hpre : text ++ [b] <+: s.take n) (htwo : 1 < (s.take n).length) : GoesOn text b := by
  have hany : ∃ r ∈ rules, r.2 s ≠ 0 := by
    cases s with
    | nil => simp at htwo
    | cons a more =>
        exact ⟨(.unrecognized, anyCharacter), by simp [rules],
          Nat.ne_of_gt (Utf8.first_bytes_pos a more)⟩
  have hfirst := Pattern.first?_eq Pattern.table_recognizes hany
  rw [h] at hfirst
  obtain ⟨r, hr, htake, -⟩ := Pattern.exists_character hfirst _ (List.take_append_drop n s)
  rw [htake] at hpre htwo
  rcases Bytes.mem_characters (List.mem_of_mem_head? hr) with ⟨c, -, rfl⟩ | ⟨-, hall⟩
  · simp at htwo
  · exact Or.inl fun c hc => isWordByte_of_le (hall c (hpre.subset hc))

/-- A token that is longer in front of some text goes on with the first byte of this text. -/
theorem goesOn_of_firstToken (hkind : kind.isSkippable = false)
    (htext : firstToken text rules = (kind, text.length))
    (hlonger : firstToken (text ++ b :: rest) rules = (kind', n)) (hn : text.length < n) :
    GoesOn text b := by
  have hpos := firstToken_pos text rules
  rw [htext] at hpos
  have hne : text ++ b :: rest ≠ [] := by simp
  obtain ⟨a, more, rfl⟩ := List.exists_cons_of_length_pos hpos
  have hpre : a :: more ++ [b] <+: (a :: more ++ b :: rest).take n := by
    rw [List.prefix_take_iff]
    exact ⟨⟨rest, by simp⟩, by simpa using Nat.succ_le_of_lt hn⟩
  have htwo : 1 < ((a :: more ++ b :: rest).take n).length := by
    have hle := hpre.length_le
    simp only [List.length_append, List.length_cons] at hle
    omega
  cases kind' with
  | space =>
      obtain ⟨rule, hmem, hrule, hpos⟩ := firstToken_rule hlonger (by decide)
      obtain rfl : rule = space := by simpa [rules] using hmem
      have ha : isSpace a = true := by
        by_contra hno
        rw [Bool.not_eq_true] at hno
        rw [List.cons_append, space_eq_zero hno] at hrule
        exact hpos hrule.symm
      have hspace : space (a :: more) ≠ 0 := by simp [space, ha]
      rw [rules, firstToken_of_ne_zero hspace] at htext
      rw [← (Prod.mk.inj htext).1] at hkind
      cases hkind
  | comment =>
      have hcomment := isComment_of_firstToken hlonger
      obtain ⟨htext, hb⟩ := eq_slash_of_comment hkind htext hcomment hpre
      rw [htext]
      exact goesOn_slash hb
  | ident =>
      refine Or.inl fun c hc => all_of_firstToken hne hlonger (fun p hp => ?_) c (hpre.subset hc)
      obtain rfl : p = Pattern.ident := by simpa [Pattern.table] using hp
      exact within_ident
  | number =>
      obtain ⟨rule, hmem, hrule, hpos⟩ := firstToken_rule hlonger (by decide)
      obtain rfl : rule = number := by simpa [rules] using hmem
      refine Or.inr (Or.inl ⟨⟨a, rfl, head_of_number (hrule.trans_ne hpos)⟩, ?_⟩)
      refine all_of_firstToken hne hlonger (fun p hp => ?_) b (hpre.subset (by simp))
      obtain rfl : p = Pattern.number := by simpa [Pattern.table] using hp
      exact within_number
  | punct =>
      obtain ⟨rule, hmem, rfl, hpos⟩ := firstToken_rule hlonger (by decide)
      obtain rfl : rule = punct := by simpa [rules] using hmem
      have hlong := take_punct_mem (s := a :: more ++ b :: rest) (by
        rw [List.length_take] at htwo
        omega)
      exact Or.inr (Or.inr (Or.inl ⟨_, List.mem_append_left _ hlong, hpre⟩))
  | string =>
      have hquote : a = 34 ∨ a = 39 := by
        obtain ⟨rule, hmem, rfl, hpos⟩ := firstToken_rule hlonger (by decide)
        have hrule : rule = textBlock ∨ rule = literal 34 ∨ rule = literal 39 := by
          simpa [rules] using hmem
        rcases hrule with rfl | rfl | rfl
        · obtain ⟨inner, hinner⟩ := exists_of_textBlock hpos
          exact Or.inl (List.cons.inj hinner).1
        · by_contra hno
          exact hpos (if_neg (not_or.mp hno).1)
        · by_contra hno
          exact hpos (if_neg (not_or.mp hno).2)
      exact goesOn_of_literal hquote htext hlonger hn
  | unrecognized => exact goesOn_of_unrecognized hlonger hpre htwo

/-- A token that cannot go on with what follows it is read as it is. -/
theorem firstToken_append (hkind : kind.isSkippable = false)
    (htext : firstToken text rules = (kind, text.length))
    (hapart : ∀ b ∈ rest.head?, ¬GoesOn text b) :
    firstToken (text ++ rest) rules = (kind, text.length) := by
  cases hlonger : firstToken (text ++ rest) rules with
  | mk kind' n =>
      rcases Nat.lt_or_ge text.length n with hlt | hle
      · cases rest with
        | nil =>
            rw [List.append_nil, htext] at hlonger
            exact hlonger.symm
        | cons b rest => exact absurd (goesOn_of_firstToken hkind htext hlonger hlt) (hapart b rfl)
      · rw [← htext, ← firstToken_front isLocal_rules hlonger hle]

/-- Only a slash in front of a slash or a star starts a comment. -/
theorem opens_of_firstToken (hkind : kind.isSkippable = false)
    (htext : firstToken text rules = (kind, text.length))
    (hcomment : firstToken (text ++ rest) rules = (.comment, n)) :
    text = [47] ∧ ∃ b ∈ rest.head?, b = 47 ∨ b = 42 := by
  rcases Nat.lt_or_ge text.length n with hlt | hle
  · have hne : text ++ rest ≠ [] := by
      intro hnil
      rw [hnil] at hcomment
      cases hcomment
    have hlength := firstToken_le isLocal_rules hne
    rw [hcomment, List.length_append] at hlength
    obtain ⟨b, more, rfl⟩ := List.exists_cons_of_length_pos (l := rest) (by omega)
    have hpre : text ++ [b] <+: (text ++ b :: more).take n := by
      rw [List.prefix_take_iff]
      exact ⟨⟨more, by simp⟩, by simpa using Nat.succ_le_of_lt hlt⟩
    obtain ⟨hslash, hb⟩ :=
      eq_slash_of_comment hkind htext (isComment_of_firstToken hcomment) hpre
    exact ⟨hslash, b, rfl, hb⟩
  · have hfront := firstToken_front isLocal_rules hcomment hle
    rw [htext] at hfront
    rw [(Prod.mk.inj hfront).1] at hkind
    cases hkind

end Apart

end Lexer

end CodeLayout
