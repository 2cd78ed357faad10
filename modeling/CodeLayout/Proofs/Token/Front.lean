import CodeLayout.Proofs.Token.Literals
import CodeLayout.Proofs.Token.Rules.Symbol

/-!
# What a token is recognized by

A rule looks at what is behind the bytes it recognizes only to find out that it cannot go on. So the
first token of a text is that of any start of the text that holds it, and in particular it is the
first token of its own bytes.
-/

namespace CodeLayout

namespace Lexer

/-- Whether a rule takes no more than there is, and recognizes the same at the start of a text as in
what is in front of some place of it, provided that it does not go beyond this place. -/
structure IsLocal (rule : Bytes → Nat) : Prop where
  le (s : Bytes) : rule s ≤ s.length
  front (s more : Bytes) (h : rule (s ++ more) ≤ s.length) : rule s = rule (s ++ more)

namespace IsLocal

variable {rule rule' : Bytes → Nat}

theorem eq_zero (h : IsLocal rule) {s more : Bytes} (hzero : rule (s ++ more) = 0) :
    rule s = 0 := by
  rw [h.front s more (by omega), hzero]

theorem nil (h : IsLocal rule) : rule [] = 0 :=
  Nat.le_zero.mp (h.le [])

/-- One rule, or another where it recognizes nothing. -/
theorem orElse (h : IsLocal rule) (h' : IsLocal rule') :
    IsLocal fun s => if rule s ≠ 0 then rule s else rule' s where
  le s := by
    split_ifs
    · exact h.le s
    · exact h'.le s
  front s more hle := by
    by_cases hzero : rule (s ++ more) = 0
    · simp only [hzero, h.eq_zero hzero, ne_eq, not_true_eq_false, if_false] at hle ⊢
      exact h'.front s more hle
    · simp only [ne_eq, hzero, not_false_eq_true, if_true] at hle
      simp only [h.front s more hle]
      simp [hzero]

/-- One count behind another. -/
theorem behind (h : IsLocal rule) (h' : IsLocal rule') :
    IsLocal fun s => rule s + rule' (s.drop (rule s)) where
  le s := by
    have hle := h.le s
    have hle' := h'.le (s.drop (rule s))
    rw [List.length_drop] at hle'
    omega
  front s more hle := by
    have hfirst : rule (s ++ more) ≤ s.length := by omega
    rw [List.drop_append_of_le_length hfirst] at hle ⊢
    have hsecond : rule' (s.drop (rule (s ++ more)) ++ more) ≤
        (s.drop (rule (s ++ more))).length := by
      rw [List.length_drop]
      omega
    rw [h.front s more hfirst, h'.front _ more hsecond]

/-- A rule, and what another one counts behind it. -/
theorem followedBy (h : IsLocal rule) (h' : IsLocal rule') :
    IsLocal fun s => if rule s = 0 then 0 else rule s + rule' (s.drop (rule s)) where
  le s := by
    split_ifs
    · exact Nat.zero_le _
    · exact (h.behind h').le s
  front s more hle := by
    by_cases hzero : rule (s ++ more) = 0
    · simp only [hzero, h.eq_zero hzero, if_true]
    · simp only [if_neg hzero] at hle ⊢
      have hboth : rule s + rule' (s.drop (rule s)) = _ := (h.behind h').front s more hle
      have hfirst : rule s ≠ 0 := by rwa [h.front s more (by omega)]
      rw [if_neg hfirst]
      exact hboth

theorem congr (h : IsLocal rule) (heq : ∀ s, rule' s = rule s) : IsLocal rule' := by
  obtain rfl : rule' = rule := funext heq
  exact h

/-- A byte of some class and what another rule counts behind it. -/
theorem byte (f : UInt8 → Prop) [DecidablePred f] (h : IsLocal rule) :
    IsLocal fun s => match s with
      | [] => 0
      | b :: rest => if f b then 1 + rule rest else 0 where
  le s := by
    cases s with
    | nil => exact Nat.le_refl 0
    | cons b s =>
        have hle := h.le s
        simp only [List.length_cons]
        split_ifs <;> omega
  front s more hle := by
    cases s with
    | nil => exact (Nat.le_zero.mp hle).symm
    | cons b s =>
        simp only [List.cons_append] at hle ⊢
        by_cases hb : f b
        · rw [if_pos hb, List.length_cons] at hle
          rw [if_pos hb, if_pos hb, h.front s more (by omega)]
        · rw [if_neg hb, if_neg hb]

/-- A byte of some class that another rule must recognize something behind. -/
theorem mark (f : UInt8 → Prop) [DecidablePred f] (h : IsLocal rule) :
    IsLocal fun s => match s with
      | [] => 0
      | b :: rest => if f b then if rule rest = 0 then 0 else 1 + rule rest else 0 where
  le s := by
    cases s with
    | nil => exact Nat.le_refl 0
    | cons b s =>
        have hle := h.le s
        simp only [List.length_cons]
        split_ifs <;> omega
  front s more hle := by
    cases s with
    | nil => exact (Nat.le_zero.mp hle).symm
    | cons b s =>
        simp only [List.cons_append] at hle ⊢
        by_cases hb : f b
        · rw [if_pos hb] at hle
          rw [if_pos hb, if_pos hb]
          by_cases hzero : rule (s ++ more) = 0
          · rw [h.eq_zero hzero, hzero]
          · rw [if_neg hzero, List.length_cons] at hle
            rw [h.front s more (by omega)]
        · rw [if_neg hb, if_neg hb]

/-- An opening delimiter and what is found behind it. -/
theorem opened {p : Bytes} {f : Bytes → Option Nat} (hf : ∀ s, ∀ n ∈ f s, n ≤ s.length)
    (hfront : ∀ s more, (∀ n ∈ f (s ++ more), n ≤ s.length) → f s = f (s ++ more))
    (hrule : ∀ s, rule s =
      if p.isPrefixOf s then (f (s.drop p.length)).elim 0 (p.length + ·) else 0) :
    IsLocal rule where
  le s := by
    rw [hrule]
    split_ifs with hpre
    · have hlength := (List.isPrefixOf_iff_prefix.mp hpre).length_le
      cases hn : f (s.drop p.length) with
      | none => exact Nat.zero_le _
      | some n =>
          have hle := hf _ n hn
          rw [List.length_drop] at hle
          rw [Option.elim_some]
          omega
    · exact Nat.zero_le _
  front s more hle := by
    rw [hrule] at hle
    rw [hrule, hrule]
    by_cases hpre : p.isPrefixOf (s ++ more) = true
    · rw [if_pos hpre] at hle
      rw [if_pos hpre]
      by_cases hlength : p.length ≤ s.length
      · have hshort : p.isPrefixOf s = true := by
          rw [List.isPrefixOf_iff_prefix] at hpre ⊢
          exact List.prefix_of_prefix_length_le hpre (List.prefix_append s more) hlength
        rw [List.drop_append_of_le_length hlength] at hle ⊢
        rw [if_pos hshort, hfront]
        intro n hn
        rw [Option.mem_def.mp hn, Option.elim_some] at hle
        rw [List.length_drop]
        omega
      · -- The delimiter is cut off.
        have hcut : ¬p.isPrefixOf s = true := by
          rw [List.isPrefixOf_iff_prefix]
          exact fun h => hlength h.length_le
        rw [if_neg hcut]
        cases hn : f ((s ++ more).drop p.length) with
        | none => rfl
        | some n =>
            rw [hn, Option.elim_some] at hle
            omega
    · have hshort : ¬p.isPrefixOf s = true := by
        rw [List.isPrefixOf_iff_prefix] at hpre ⊢
        exact fun h => hpre (h.trans (List.prefix_append s more))
      rw [if_neg hpre, if_neg hshort]

end IsLocal

theorem isLocal_runLength (f : UInt8 → Bool) : IsLocal (runLength f) where
  le s := (List.takeWhile_prefix f).length_le
  front s more hle := by
    simp only [runLength, List.takeWhile_append] at hle ⊢
    split_ifs at hle ⊢ with hall
    · rw [List.length_append] at hle ⊢
      omega
    · rfl

/-- The first end of a delimited text is found without what is behind it. -/
theorem lengthThrough?_front {p : Bytes} (s more : Bytes)
    (h : ∀ n ∈ lengthThrough? p (s ++ more), n ≤ s.length) :
    lengthThrough? p s = lengthThrough? p (s ++ more) := by
  induction s with
  | nil =>
      cases hn : lengthThrough? p more with
      | none =>
          cases p with
          | nil => cases more <;> simp [lengthThrough?] at hn
          | cons => exact hn.symm
      | some n =>
          obtain rfl : n = 0 := Nat.le_zero.mp (h n hn)
          have hsuffix := lengthThrough?_isSuffix hn
          rw [List.take_zero, List.suffix_nil] at hsuffix
          rw [List.nil_append, hn, hsuffix]
          rfl
  | cons b s ih =>
      simp only [List.cons_append, lengthThrough?] at h ⊢
      by_cases hpre : p.isPrefixOf (b :: s) = true
      · have hlong : p.isPrefixOf (b :: (s ++ more)) = true := by
          rw [List.isPrefixOf_iff_prefix] at hpre ⊢
          exact hpre.trans (List.prefix_append (b :: s) more)
        rw [if_pos hpre, if_pos hlong]
      · have hlong : ¬p.isPrefixOf (b :: (s ++ more)) = true := by
          intro hlong
          rw [if_pos hlong] at h
          have hle := h p.length rfl
          rw [List.isPrefixOf_iff_prefix] at hpre hlong
          exact hpre (List.prefix_of_prefix_length_le hlong (List.prefix_append (b :: s) more) hle)
        rw [if_neg hlong] at h
        rw [if_neg hpre, if_neg hlong, ih]
        intro n hn
        exact Nat.le_of_succ_le_succ (h (n + 1) (by rw [Option.mem_def.mp hn]; rfl))

/-- The first end of a delimited text is the same whatever follows it. -/
theorem lengthThrough?_append_of_some {p s : Bytes} {n : Nat} (h : lengthThrough? p s = some n)
    (more : Bytes) : lengthThrough? p (s ++ more) = some n := by
  induction s generalizing n with
  | nil =>
      rw [lengthThrough?] at h
      split_ifs at h with hp
      rw [List.isEmpty_iff.mp hp, ← Option.some.inj h]
      cases more <;> rfl
  | cons b s ih =>
      rw [lengthThrough?] at h
      rw [List.cons_append, lengthThrough?]
      split_ifs at h with hp
      · have hlong : p.isPrefixOf (b :: (s ++ more)) = true := by
          rw [List.isPrefixOf_iff_prefix] at hp ⊢
          exact hp.trans (List.prefix_append (b :: s) more)
        rw [if_pos hlong, h]
      · obtain ⟨m, hm, rfl⟩ := Option.map_eq_some_iff.mp h
        have hlength : p.length ≤ s.length := by
          have hle := (lengthThrough?_isSuffix hm).length_le
          rw [List.length_take] at hle
          omega
        have hlong : ¬p.isPrefixOf (b :: (s ++ more)) = true := by
          rw [List.isPrefixOf_iff_prefix] at hp ⊢
          exact fun hlong => hp (List.prefix_of_prefix_length_le hlong
            (List.prefix_append (b :: s) more) (Nat.le_succ_of_le hlength))
        rw [if_neg hlong, ih hm]
        rfl

theorem isLocal_lineComment : IsLocal lineComment := by
  have hrun := isLocal_runLength (!isEol ·)
  refine IsLocal.opened (p := [47, 47]) (f := fun s => some (runLength (!isEol ·) s))
    (fun s n hn => Option.some.inj hn ▸ hrun.le s)
    (fun s more h => congrArg some (hrun.front s more (h _ rfl))) fun s => ?_
  unfold lineComment
  split
  · rfl
  · rename_i hno
    exact (if_neg fun hpre => (Pattern.eq_of_isPrefixOf_two hpre).elim hno).symm

theorem isLocal_blockComment : IsLocal blockComment := by
  refine IsLocal.opened (p := [47, 42]) (f := lengthThrough? (ascii "*/"))
    (fun s n hn => lengthThrough?_le hn) lengthThrough?_front fun s => ?_
  unfold blockComment
  split
  · rename_i rest
    change _ = (lengthThrough? (ascii "*/") rest).elim 0 (2 + ·)
    cases lengthThrough? (ascii "*/") rest <;> rfl
  · rename_i hno
    exact (if_neg fun hpre => (Pattern.eq_of_isPrefixOf_two hpre).elim hno).symm

theorem isLocal_openComment : IsLocal openComment := by
  refine IsLocal.opened (p := [47, 42]) (f := fun s => some s.length)
    (fun s n hn => Nat.le_of_eq (Option.some.inj hn).symm)
    (fun s more h => congrArg some ?_) fun s => ?_
  · have hle := h _ rfl
    rw [List.length_append] at hle ⊢
    omega
  · unfold openComment
    split
    · rfl
    · rename_i hno
      exact (if_neg fun hpre => (Pattern.eq_of_isPrefixOf_two hpre).elim hno).symm

theorem isLocal_textBlock : IsLocal textBlock := by
  refine IsLocal.opened (p := [34, 34, 34]) (f := lengthThrough? (ascii "\"\"\""))
    (fun s n hn => lengthThrough?_le hn) lengthThrough?_front fun s => ?_
  unfold textBlock
  split
  · rename_i rest
    change _ = (lengthThrough? (ascii "\"\"\"") rest).elim 0 (3 + ·)
    cases lengthThrough? (ascii "\"\"\"") rest <;> rfl
  · rename_i hno
    refine (if_neg fun hpre => ?_).symm
    obtain ⟨rest, hrest⟩ := List.isPrefixOf_iff_prefix.mp hpre
    exact hno rest hrest.symm

/-- What stands in a literal on one line is counted as a whole. -/
theorem literalRest_append {quote : UInt8} (hquote : quote ≠ 92) {body : Bytes}
    (hbody : IsQuoted quote body) (s : Bytes) :
    literalRest quote (body ++ s) = body.length + literalRest quote s := by
  induction hbody with
  | nil => simp
  | plain hb _ ih =>
      rw [List.cons_append, Pattern.literalRest_cons_of_isPlain hb, ih, List.length_cons]
      omega
  | escape hc _ ih =>
      rw [List.cons_append, List.cons_append, literalRest, if_neg (Ne.symm hquote),
        if_neg (by decide), if_pos rfl, if_neg hc, ih, List.length_cons, List.length_cons]
      omega

theorem literalRest_le (quote : UInt8) (s : Bytes) : literalRest quote s ≤ s.length := by
  fun_induction literalRest quote s with
  | case1 | case2 | case5 | case6 => exact Nat.zero_le _
  | case3 | case4 => simp
  | case7 | case8 =>
      rename_i ih
      simp only [List.length_cons] at ih ⊢
      omega

/-- A literal on one line does not look beyond the place where it ends. -/
theorem literalRest_front {quote : UInt8} (hquote : quote = 34 ∨ quote = 39) (s more : Bytes)
    (hle : literalRest quote (s ++ more) ≤ s.length) :
    literalRest quote s = literalRest quote (s ++ more) := by
  have hslash : quote ≠ 92 := by rcases hquote with rfl | rfl <;> decide
  have heol : isEol quote = false := by rcases hquote with rfl | rfl <;> decide
  fun_induction literalRest quote s with
  | case1 => exact (Nat.le_zero.mp hle).symm
  | case2 b hends =>
      rw [Bool.or_eq_true, decide_eq_true_eq] at hends
      cases more with
      | nil => simp [literalRest, hends]
      | cons c more =>
          have hne : b ≠ quote := by
            rintro rfl
            simp [heol, hslash] at hends
          rw [List.singleton_append, literalRest, if_neg hne] at hle ⊢
          split_ifs at hle ⊢
          · rfl
          · rfl
          · rw [List.length_singleton] at hle
            omega
          · simp_all
  | case3 b hgoes =>
      rw [Bool.or_eq_true, decide_eq_true_eq, not_or] at hgoes
      cases more with
      | nil => simp [literalRest, hgoes]
      | cons c more =>
          rw [List.singleton_append, literalRest, if_neg hgoes.1, if_neg hgoes.2] at hle ⊢
          split_ifs at hle ⊢
          · rfl
          · rw [List.length_singleton] at hle
            omega
  | case4 c rest =>
      rw [List.cons_append, List.cons_append, literalRest, if_pos rfl]
  | case5 b c rest hne hb =>
      rw [List.cons_append, List.cons_append, literalRest, if_neg hne, if_pos hb]
  | case6 rest hne hb =>
      rw [List.cons_append, List.cons_append, literalRest, if_neg hne, if_neg hb, if_pos rfl,
        if_pos rfl]
  | case7 c rest hne hb hc ih =>
      rw [List.cons_append, List.cons_append, literalRest, if_neg hne, if_neg hb, if_pos rfl,
        if_neg hc] at hle ⊢
      rw [List.length_cons, List.length_cons] at hle
      rw [ih (by omega)]
  | case8 b c rest hne hb hescape ih =>
      rw [List.cons_append, List.cons_append, literalRest, if_neg hne, if_neg hb,
        if_neg hescape] at hle ⊢
      rw [List.length_cons] at hle
      rw [← List.cons_append] at hle ⊢
      rw [ih (by omega)]

theorem isLocal_literalRest {quote : UInt8} (hquote : quote = 34 ∨ quote = 39) :
    IsLocal (literalRest quote) :=
  ⟨literalRest_le quote, literalRest_front hquote⟩

theorem isLocal_literal {quote : UInt8} (hquote : quote = 34 ∨ quote = 39) :
    IsLocal (literal quote) :=
  ((isLocal_literalRest hquote).byte (· = quote)).congr fun s => by cases s <;> rfl

section Numbers

theorem isLocal_basedNumber (lower upper : UInt8) (f : UInt8 → Bool) :
    IsLocal (basedNumber lower upper f) := by
  refine (((isLocal_runLength f).mark fun b => b = lower ∨ b = upper).mark (· = 48)).congr
    fun s => ?_
  rcases s with _ | ⟨a, _ | ⟨x, rest⟩⟩
  · rfl
  · simp [basedNumber]
  · by_cases ha : a = 48
    · subst ha
      by_cases hx : x = lower ∨ x = upper
      · by_cases hrun : runLength f rest = 0 <;> simp [basedNumber, hx, hrun]
        omega
      · simp [basedNumber, hx]
    · simp [basedNumber, ha]

theorem isLocal_decimalDigits : IsLocal decimalDigits := by
  have hrun := isLocal_runLength isDigitOrMark
  have hwhole := (hrun.behind (hrun.byte (· = 46))).byte (isDigit · = true)
  have hfraction := (hrun.byte (isDigit · = true)).mark (· = 46)
  refine (hwhole.orElse hfraction).congr fun s => ?_
  rcases s with _ | ⟨b, rest⟩
  · rfl
  · by_cases hb : isDigit b = true
    · simp only [decimalDigits.eq_def, if_pos hb]
      rw [if_pos (by omega)]
      cases rest.drop (runLength isDigitOrMark rest) with
      | nil => rfl
      | cons c more =>
          by_cases hc : c = 46
          · simp [hc]
            omega
          · simp [hc]
    · simp only [decimalDigits.eq_def, if_neg hb]
      by_cases hdot : b = 46
      · rcases rest with _ | ⟨c, more⟩
        · simp [hdot]
        · by_cases hc : isDigit c = true
          · simp [hdot, hc]
            omega
          · simp [hdot, hc]
      · simp [hdot]

theorem isLocal_exponent : IsLocal exponent := by
  have hdigits := isLocal_runLength isDigit
  have hsigned : IsLocal Pattern.signedDigits := by
    refine ((hdigits.mark fun b => b = 43 ∨ b = 45).orElse hdigits).congr fun s => ?_
    rcases s with _ | ⟨c, more⟩
    · rfl
    · by_cases hc : c = 43 ∨ c = 45
      · have hno : runLength isDigit (c :: more) = 0 := by
          rcases hc with rfl | rfl <;> rfl
        by_cases hzero : runLength isDigit more = 0 <;>
          simp [Pattern.signedDigits, hc, hzero, hno]
      · simp [Pattern.signedDigits, hc]
  refine (hsigned.mark fun b => b = 101 ∨ b = 69).congr fun s => ?_
  cases s with
  | nil => rfl
  | cons b rest => exact Pattern.exponent_eq b rest

theorem isLocal_numberLetter : IsLocal numberLetter := by
  have hnone : IsLocal fun _ => 0 := ⟨fun _ => Nat.zero_le _, fun _ _ _ => rfl⟩
  refine (hnone.byte ((ascii "lLfFdD").contains · = true)).congr fun s => ?_
  cases s <;> rfl

theorem isLocal_number : IsLocal number := by
  have hdecimal := isLocal_decimalDigits.followedBy isLocal_exponent
  have hbody := (isLocal_basedNumber 120 88 isHexOrMark).orElse
    ((isLocal_basedNumber 98 66 isBinaryOrMark).orElse hdecimal)
  exact hbody.followedBy isLocal_numberLetter

end Numbers

section Names

/-- No name has the character that stands for a byte which is no part of one. -/
theorem startsName_replacement : startsName Utf8.replacement = false := by
  decide +kernel

theorem continuesName_replacement : continuesName Utf8.replacement = false := by
  decide +kernel

theorem isLocal_anyCharacter : IsLocal anyCharacter where
  le s := by
    cases s with
    | nil => exact Nat.le_refl 0
    | cons a rest => exact (Utf8.first_isPrefix a rest).length_le
  front s more hle := by
    cases s with
    | nil => exact (Nat.le_zero.mp hle).symm
    | cons a rest =>
        rcases Utf8.first_append_cases a rest more with heq | ⟨-, hlt⟩
        · exact congrArg (fun r : Character => r.bytes.length) heq
        · exact absurd hle (Nat.not_le.mpr hlt)

theorem nameRest_le (n : Nat) (s : Bytes) : nameRest n s ≤ s.length := by
  induction n generalizing s with
  | zero => exact Nat.zero_le _
  | succ n ih =>
      cases s with
      | nil => exact Nat.zero_le _
      | cons a rest =>
          have hfirst := (Utf8.first_isPrefix a rest).length_le
          have hrest := ih ((a :: rest).drop (Utf8.first a rest).bytes.length)
          rw [List.length_drop] at hrest
          rw [nameRest]
          split_ifs <;> omega

theorem nameRest_front (n m : Nat) (s more : Bytes) (hn : s.length ≤ n) (hm : s.length ≤ m)
    (h : nameRest m (s ++ more) ≤ s.length) : nameRest n s = nameRest m (s ++ more) := by
  induction n generalizing s m with
  | zero =>
      obtain rfl := List.length_eq_zero_iff.mp (Nat.le_zero.mp hn)
      exact (Nat.le_zero.mp h).symm
  | succ n ih =>
      cases s with
      | nil => exact (Nat.le_zero.mp h).symm
      | cons a rest =>
          obtain ⟨m, rfl⟩ : ∃ k, m = k + 1 := ⟨m - 1, by rw [List.length_cons] at hm; omega⟩
          have hpos := Utf8.first_bytes_pos a rest
          rw [List.cons_append, nameRest] at h ⊢
          rw [nameRest]
          rcases Utf8.first_append_cases a rest more with heq | ⟨hcut, hlt⟩
          · rw [← heq] at h ⊢
            by_cases hname : continuesName (Utf8.first a rest).code = true
            · rw [if_pos hname] at h
              have hle : (Utf8.first a rest).bytes.length ≤ (a :: rest).length := by omega
              rw [← List.cons_append, List.drop_append_of_le_length hle] at h ⊢
              rw [if_pos hname, if_pos hname, ih m _ (by simp at *; omega) (by simp at *; omega)
                (by simp at *; omega)]
            · rw [if_neg hname, if_neg hname]
          · -- What is cut off is no part of a name, and the whole character would go too far.
            have hno : ¬continuesName (Utf8.first a rest).code = true := by
              rw [hcut, Utf8.malformed, continuesName_replacement]
              decide
            rw [if_neg hno]
            split_ifs at h ⊢
            · omega
            · rfl

theorem name_front (s more : Bytes) (hle : name (s ++ more) ≤ s.length) :
    name s = name (s ++ more) := by
  cases s with
  | nil => exact (Nat.le_zero.mp hle).symm
  | cons a rest =>
      have hpos := Utf8.first_bytes_pos a rest
      simp only [List.cons_append, name] at hle ⊢
      rcases Utf8.first_append_cases a rest more with heq | ⟨hcut, hlt⟩
      · rw [← heq] at hle ⊢
        by_cases hname : startsName (Utf8.first a rest).code = true
        · rw [if_pos hname] at hle
          have hlength : (Utf8.first a rest).bytes.length ≤ (a :: rest).length := by omega
          rw [← List.cons_append, List.drop_append_of_le_length hlength] at hle ⊢
          rw [if_pos hname, if_pos hname, nameRest_front _ _ _ more _ _]
          all_goals simp at *
          all_goals omega
        · rw [if_neg hname, if_neg hname]
      · have hno : ¬startsName (Utf8.first a rest).code = true := by
          rw [hcut, Utf8.malformed, startsName_replacement]
          decide
        rw [if_neg hno]
        split_ifs at hle ⊢
        · omega
        · rfl

theorem isLocal_name : IsLocal name where
  le s := by
    cases s with
    | nil => exact Nat.le_refl 0
    | cons a rest =>
        have hfirst := (Utf8.first_isPrefix a rest).length_le
        have hrest := nameRest_le (a :: rest).length
          ((a :: rest).drop (Utf8.first a rest).bytes.length)
        rw [List.length_drop] at hrest
        rw [name]
        split_ifs <;> omega
  front := name_front

end Names

theorem punct_front (s more : Bytes) (hle : punct (s ++ more) ≤ s.length) :
    punct s = punct (s ++ more) := by
  have hfront : ∀ p : Bytes, p.isPrefixOf s = true → p.isPrefixOf (s ++ more) = true := by
    intro p hp
    rw [List.isPrefixOf_iff_prefix] at hp ⊢
    exact hp.trans (List.prefix_append s more)
  unfold punct at hle ⊢
  cases hfind : longPuncts.find? fun p => p.isPrefixOf (s ++ more) with
  | some p =>
      simp only [hfind] at hle
      obtain ⟨hp, before, after, hsplit, hbefore⟩ := List.find?_eq_some_iff_append.mp hfind
      have hshort : longPuncts.find? (fun p => p.isPrefixOf s) = some p := by
        refine List.find?_eq_some_iff_append.mpr ⟨?_, before, after, hsplit, fun q hq => ?_⟩
        · rw [List.isPrefixOf_iff_prefix] at hp ⊢
          exact List.prefix_of_prefix_length_le hp (List.prefix_append s more) hle
        · have hno := hbefore q hq
          rw [Bool.not_eq_true'] at hno ⊢
          exact Bool.eq_false_iff.mpr fun hfits => Bool.eq_false_iff.mp hno (hfront q hfits)
      rw [hshort]
  | none =>
      simp only [hfind] at hle
      have hshort : longPuncts.find? (fun p => p.isPrefixOf s) = none := by
        rw [List.find?_eq_none] at hfind ⊢
        exact fun p hp hfits => hfind p hp (hfront p hfits)
      rw [hshort]
      cases s with
      | nil => exact (Nat.le_zero.mp hle).symm
      | cons b s => rfl

theorem isLocal_punct : IsLocal punct where
  le s := by
    unfold punct
    split
    · rename_i p hfind
      have hpre := List.find?_some hfind
      exact (List.isPrefixOf_iff_prefix.mp hpre).length_le
    · cases s with
      | nil => exact Nat.le_refl 0
      | cons b s =>
          simp only [List.length_cons]
          split_ifs <;> omega
  front := punct_front

/-- All rules recognize what they do without what is behind it. -/
theorem isLocal_rules : ∀ r ∈ rules, IsLocal r.2 := by
  have hspace : IsLocal space := isLocal_runLength isSpace
  simp only [rules, List.forall_mem_cons, List.not_mem_nil, false_imp_iff, implies_true, and_true]
  exact ⟨hspace, isLocal_lineComment, isLocal_blockComment, isLocal_openComment,
    isLocal_textBlock, isLocal_literal (Or.inl rfl), isLocal_literal (Or.inr rfl),
    isLocal_number, isLocal_name, isLocal_punct, isLocal_anyCharacter⟩

/-- The first token of a text is that of the part of the text that holds it. -/
theorem firstToken_front {rs : List (TokenKind × (Bytes → Nat))} (hall : ∀ r ∈ rs, IsLocal r.2)
    {s more : Bytes} {kind : TokenKind} {n : Nat} (h : firstToken (s ++ more) rs = (kind, n))
    (hn : n ≤ s.length) : firstToken s rs = (kind, n) := by
  induction rs with
  | nil => exact h
  | cons r rs ih =>
      obtain ⟨kind', rule⟩ := r
      obtain ⟨hrule, hrest⟩ := List.forall_mem_cons.mp hall
      by_cases hzero : rule (s ++ more) = 0
      · rw [firstToken_of_eq_zero hzero] at h
        rw [firstToken_of_eq_zero (hrule.eq_zero hzero)]
        exact ih hrest h
      · rw [firstToken_of_ne_zero hzero] at h
        obtain ⟨rfl, rfl⟩ := Prod.mk.inj h
        have heq : rule s = rule (s ++ more) := hrule.front s more hn
        rw [firstToken_of_ne_zero (by rwa [heq]), heq]

/-- A first token is a part of its text. -/
theorem firstToken_le {rs : List (TokenKind × (Bytes → Nat))} (hall : ∀ r ∈ rs, IsLocal r.2)
    {s : Bytes} (hs : s ≠ []) : (firstToken s rs).2 ≤ s.length := by
  induction rs with
  | nil => exact List.length_pos_of_ne_nil hs
  | cons r rs ih =>
      obtain ⟨kind, rule⟩ := r
      obtain ⟨hrule, hrest⟩ := List.forall_mem_cons.mp hall
      by_cases hzero : rule s = 0
      · rw [firstToken_of_eq_zero hzero]
        exact ih hrest
      · rw [firstToken_of_ne_zero hzero]
        exact hrule.le s

/-- A first token is the first token of its own bytes. -/
theorem firstToken_take {s : Bytes} (hs : s ≠ []) {kind : TokenKind} {n : Nat}
    (h : firstToken s rules = (kind, n)) :
    (s.take n).length = n ∧ firstToken (s.take n) rules = (kind, n) := by
  have hle := firstToken_le isLocal_rules hs
  rw [h] at hle
  have hlength := List.length_take_of_le hle
  rw [← List.take_append_drop n s] at h
  exact ⟨hlength, firstToken_front isLocal_rules h hlength.ge⟩

end Lexer

end CodeLayout
