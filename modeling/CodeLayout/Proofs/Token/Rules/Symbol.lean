import CodeLayout.Proofs.Token.Rules.Literal

/-!
# Numbers, names and operators as patterns

The parts of a number that may be missing are taken if they are there, and none is ever taken back.
The main statement puts the patterns of all tokens beside the rules of the lexer.
-/

namespace CodeLayout

set_option maxRecDepth 2000

namespace Pattern

theorem digits_isByteClass :
    IsByteClass (inRanges (digitRanges ++ chars "_")) Lexer.isDigitOrMark :=
  .among (by decide) (by decide)

theorem digit_isAsciiClass : IsAsciiClass (inRanges digitRanges) isDigit :=
  .among (by decide) (by decide)

theorem takes_digits : Takes digits (Lexer.runLength Lexer.isDigitOrMark) :=
  .many digits_isByteClass

theorem some_drop_cons (a : UInt8) (rest : Bytes) (n : Nat) :
    (if 1 + n = 0 then none else some ((a :: rest).drop (1 + n))) = some (rest.drop n) := by
  rw [if_neg (by omega), Nat.add_comm, List.drop_succ_cons]

section Numbers

theorem recognizes_based {marks : String} {ranges : List (Nat × Nat)} {lower upper : UInt8}
    {g : UInt8 → Bool}
    (hmarks : IsAsciiClass (inRanges (chars marks)) fun b => b = lower ∨ b = upper)
    (hg : IsAsciiClass (inRanges (ranges ++ chars "_")) g) :
    Recognizes (based marks ranges) (Lexer.basedNumber lower upper g) := by
  intro s
  have hzero : IsAsciiClass (inRanges [(48, 48)]) fun b => b = 48 := .singleton (by decide)
  have hchar : char '0' = one (inRanges [(48, 48)]) := rfl
  rcases s with _ | ⟨a, _ | ⟨x, rest⟩⟩
  · exact rest?_seq_one_nil
  · rw [based, hchar, rest?_seq_one_cons hzero, among, rest?_seq_one_nil, ite_self]
    simp [Lexer.basedNumber]
  · rw [based, hchar, rest?_seq_one_cons hzero, among, rest?_seq_one_cons hmarks,
      among, Recognizes.plus hg rest]
    by_cases ha : a = 48
    · subst ha
      rw [Lexer.basedNumber]
      by_cases hx : x = lower ∨ x = upper
      · by_cases hrun : Lexer.runLength g rest = 0
        · simp [hx, hrun]
        · simp [hx, hrun, Nat.add_comm 2]
      · simp [hx]
    · have hno : Lexer.basedNumber lower upper g (a :: x :: rest) = 0 := by
        unfold Lexer.basedNumber
        split
        · rename_i heq
          exact absurd (List.cons.inj heq).1 ha
        · rfl
      simp [ha, hno]

/-- A point and the digits behind it. -/
theorem recognizes_point {count : Bytes → Nat} {q : Pattern} (h : Takes q count) :
    Recognizes (.seq (char '.') q) fun s =>
      if s.head? = some 46 then 1 + count (s.drop 1) else 0 := by
  intro s
  have hpoint : IsAsciiClass (inRanges [(46, 46)]) fun b => b = 46 := .singleton (by decide)
  have hchar : char '.' = one (inRanges [(46, 46)]) := rfl
  cases s with
  | nil => exact rest?_seq_one_nil
  | cons a rest =>
      rw [hchar, rest?_seq_one_cons hpoint]
      by_cases ha : a = 46 <;> simp [ha, h rest, Nat.add_comm 1]

/-- A digit that a decimal number starts with, or that stands behind its point. -/
theorem rest?_seq_digit {q : Pattern} {count : Bytes → Nat} (h : Takes q count) (a : UInt8)
    (rest : Bytes) : (Pattern.seq (among digitRanges) q).rest? (a :: rest) =
      if isDigit a then some (rest.drop (count rest)) else none := by
  rw [among, rest?_seq_one_cons digit_isAsciiClass, h rest]

theorem recognizes_decimal : Recognizes (.either whole fraction) Lexer.decimalDigits := by
  intro s
  have hpoint := recognizes_point takes_digits
  have htail := takes_digits.seq hpoint.optional
  have hchar : char '.' = one (inRanges [(46, 46)]) := rfl
  have hclass : IsAsciiClass (inRanges [(46, 46)]) fun b => b = 46 := .singleton (by decide)
  rcases s with _ | ⟨b, rest⟩
  · rw [rest?_either, whole, among, rest?_seq_one_nil, fraction, hchar, rest?_seq_one_nil]
    rfl
  rw [rest?_either, whole, rest?_seq_digit htail, fraction, hchar, rest?_seq_one_cons hclass]
  by_cases hb : isDigit b = true
  · have hcount : Lexer.decimalDigits (b :: rest) = 1 + (Lexer.runLength Lexer.isDigitOrMark rest +
        if (rest.drop (Lexer.runLength Lexer.isDigitOrMark rest)).head? = some 46 then
          1 + Lexer.runLength Lexer.isDigitOrMark
            ((rest.drop (Lexer.runLength Lexer.isDigitOrMark rest)).drop 1)
        else 0) := by
      simp only [Lexer.decimalDigits.eq_def, if_pos hb]
      split
      · rename_i more heq
        simp only [heq, List.head?_cons, if_pos, List.drop_succ_cons, List.drop_zero]
        omega
      · rename_i hno
        have hhead : (rest.drop (Lexer.runLength Lexer.isDigitOrMark rest)).head? ≠ some 46 := by
          intro heq
          obtain ⟨more, hmore⟩ := List.head?_eq_some_iff.mp heq
          exact hno more hmore
        rw [if_neg hhead, Nat.add_zero]
    rw [if_pos hb, hcount, some_drop_cons]
    rfl
  · simp only [if_neg hb, Option.none_or, Lexer.decimalDigits.eq_def]
    by_cases hdot : b = 46
    · rcases rest with _ | ⟨c, more⟩
      · rw [among, rest?_seq_one_nil]
        simp
      · rw [rest?_seq_digit takes_digits]
        by_cases hc : isDigit c = true <;> simp [hdot, hc, Nat.add_comm 2]
    · simp [hdot]

/-- The length of the digits of an exponent with their sign. -/
def signedDigits : Bytes → Nat
  | [] => 0
  | c :: more =>
    if c = 43 ∨ c = 45 then
      if Lexer.runLength isDigit more = 0 then 0 else 1 + Lexer.runLength isDigit more
    else Lexer.runLength isDigit (c :: more)

theorem recognizes_signedDigits :
    Recognizes (.seq (optional (among (chars "+-"))) (plus (among digitRanges))) signedDigits := by
  intro s
  have hsign : IsAsciiClass (inRanges (chars "+-")) fun b => b = 43 ∨ b = 45 :=
    .among (by decide) (by decide)
  have hdigits : Recognizes (plus (among digitRanges)) (Lexer.runLength isDigit) :=
    .plus digit_isAsciiClass
  rcases s with _ | ⟨c, more⟩
  · rfl
  have hrests : (optional (among (chars "+-"))).rests (c :: more) =
      (if c = 43 ∨ c = 45 then [more] else []) ++ [c :: more] := by
    change (one _).rests (c :: more) ++ [c :: more] = _
    rw [hsign.rests_cons]
    simp only [decide_eq_true_eq]
  by_cases hc : c = 43 ∨ c = 45
  · -- A sign is no digit, so nothing is gained by leaving it out.
    have hno : (plus (among digitRanges)).rest? (c :: more) = none := by
      rw [hdigits]
      rcases hc with rfl | rfl <;> rfl
    rw [if_pos hc] at hrests
    rw [rest?_seq, hrests, signedDigits, if_pos hc, List.singleton_append, List.findSome?_cons,
      hdigits more]
    by_cases hrun : Lexer.runLength isDigit more = 0
    · rw [if_pos hrun, if_pos hrun, if_pos rfl]
      simp [hno]
    · rw [if_neg hrun, if_neg hrun, some_drop_cons]
  · rw [if_neg hc] at hrests
    rw [rest?_seq_of_rests hrests, hdigits, signedDigits, if_neg hc]

theorem exponent_eq (b : UInt8) (rest : Bytes) : Lexer.exponent (b :: rest) =
    if b = 101 ∨ b = 69 then
      if signedDigits rest = 0 then 0 else 1 + signedDigits rest
    else 0 := by
  unfold Lexer.exponent
  rcases rest with _ | ⟨c, more⟩
  · simp [signedDigits]
  · by_cases hc : c = 43 ∨ c = 45
    · by_cases hrun : Lexer.runLength isDigit more = 0
      · simp [signedDigits, hc, hrun]
      · simp [signedDigits, hc, hrun, ← Nat.add_assoc]
    · simp [signedDigits, hc]

theorem recognizes_exponent : Recognizes exponent Lexer.exponent := by
  intro s
  have hmark : IsAsciiClass (inRanges (chars "eE")) fun b => b = 101 ∨ b = 69 :=
    .among (by decide) (by decide)
  rcases s with _ | ⟨b, rest⟩
  · exact rest?_seq_one_nil
  rw [exponent, among, rest?_seq_one_cons hmark, exponent_eq, recognizes_signedDigits rest]
  by_cases hb : b = 101 ∨ b = 69
  · rw [if_pos (by simpa using hb), if_pos hb]
    by_cases hzero : signedDigits rest = 0
    · rw [if_pos hzero, if_pos hzero, if_pos rfl]
    · rw [if_neg hzero, if_neg hzero, some_drop_cons]
  · rw [if_neg (by simpa using hb), if_neg hb, if_pos rfl]

theorem recognizes_numberLetter : Recognizes (among (chars "lLfFdD")) Lexer.numberLetter := by
  intro s
  have hletters : IsAsciiClass (inRanges (chars "lLfFdD")) (ascii "lLfFdD").contains :=
    isAsciiClass_chars (by decide)
  cases s with
  | nil => rfl
  | cons a rest =>
      rw [among, rest?_one_cons hletters, Lexer.numberLetter]
      split <;> rfl

theorem recognizes_number : Recognizes number Lexer.number := by
  have hhex : Recognizes (based "xX" (digitRanges ++ [(97, 102), (65, 70)]))
      (Lexer.basedNumber 120 88 Lexer.isHexOrMark) :=
    recognizes_based (.among (by decide) (by decide)) (.among (by decide) (by decide))
  have hbinary : Recognizes (based "bB" [(48, 49)])
      (Lexer.basedNumber 98 66 Lexer.isBinaryOrMark) :=
    recognizes_based (.among (by decide) (by decide)) (.among (by decide) (by decide))
  have hdecimal := recognizes_decimal.seq recognizes_exponent.optional
  exact (hhex.either (hbinary.either hdecimal)).seq recognizes_numberLetter.optional

end Numbers

theorem inRanges_append (r r' : List (Nat × Nat)) (c : Nat) :
    inRanges (r ++ r') c = (inRanges r c || inRanges r' c) :=
  List.any_append

theorem inRanges_marks (c : Nat) :
    inRanges (chars "_$") c = (decide (c = 95) || decide (c = 36)) := by
  have hmark : ∀ d : Nat, (decide (d ≤ c) && decide (c ≤ d)) = decide (c = d) := by
    intro d
    rw [Bool.eq_iff_iff]
    simp only [Bool.and_eq_true, decide_eq_true_eq]
    omega
  change ((decide (95 ≤ c) && decide (c ≤ 95)) ||
    ((decide (36 ≤ c) && decide (c ≤ 36)) || false)) = _
  rw [hmark, hmark, Bool.or_false]

/-- Within ASCII only the ranges before the ones that are beyond it count. -/
theorem inRanges_eq_ite (n : Nat) {ranges : List (Nat × Nat)}
    (h : ((ranges.drop n).all fun r => 128 ≤ r.1) = true) (c : Nat) :
    inRanges ranges c = if c < 128 then inRanges (ranges.take n) c else inRanges ranges c := by
  split_ifs with hc
  · have hbeyond : inRanges (ranges.drop n) c = false := by
      rw [inRanges, List.any_eq_false]
      intro r hr
      have hle : 128 ≤ r.1 := by simpa using List.all_eq_true.mp h r hr
      simp only [Bool.and_eq_true, decide_eq_true_eq, not_and]
      omega
    conv_lhs => rw [← List.take_append_drop n ranges, inRanges_append, hbeyond, Bool.or_false]
  · rfl

theorem isLetter_eq (c : Nat) : isLetter c = inRanges letterRanges c := by
  have hascii : inRanges (letterRanges.take 2) c = inRanges [(0x41, 0x5A), (0x61, 0x7A)] c := rfl
  rw [inRanges_eq_ite 2 (by decide), hascii, isLetter]
  split_ifs
  · simp [inRanges]
  · rfl

theorem isNumeral_eq (c : Nat) : isNumeral c = inRanges numeralRanges c := by
  have hascii : inRanges (numeralRanges.take 1) c = inRanges [(0x30, 0x39)] c := rfl
  rw [inRanges_eq_ite 1 (by decide), hascii, isNumeral]
  split_ifs
  · simp [inRanges]
  · rfl

/-- The characters that a name goes on with. -/
theorem rest?_many_continuesName (n : Nat) (s : Bytes) (h : s.length ≤ n) :
    (many (among (letterRanges ++ numeralRanges ++ chars "_$"))).rest? s =
      some (s.drop (Lexer.nameRest n s)) := by
  have hclass : ∀ c, inRanges (letterRanges ++ numeralRanges ++ chars "_$") c =
      Lexer.continuesName c := by
    intro c
    rw [inRanges_append, inRanges_append, inRanges_marks, Lexer.continuesName, isLetter_eq,
      isNumeral_eq, Bool.or_assoc, Bool.or_assoc, Bool.or_assoc]
  induction n generalizing s with
  | zero =>
      obtain rfl := List.length_eq_zero_iff.mp (Nat.le_zero.mp h)
      rfl
  | succ n ih =>
      cases s with
      | nil => rfl
      | cons a rest =>
          have hpos := Utf8.first_bytes_pos a rest
          have hlt : ((a :: rest).drop (Utf8.first a rest).bytes.length).length <
              (a :: rest).length := by
            rw [List.length_drop, List.length_cons]
            omega
          have hrests : (among (letterRanges ++ numeralRanges ++ chars "_$")).rests (a :: rest) =
              if Lexer.continuesName (Utf8.first a rest).code then
                [(a :: rest).drop (Utf8.first a rest).bytes.length] else [] := by
            rw [← hclass]
            rfl
          rw [Lexer.nameRest]
          by_cases hname : Lexer.continuesName (Utf8.first a rest).code = true
          · rw [if_pos hname] at hrests
            rw [rest?_many_of_rests hrests hlt, ih _ (by omega), if_pos hname, List.drop_drop]
          · rw [if_neg hname] at hrests
            rw [rest?_many_of_nil hrests, if_neg hname]
            rfl

theorem recognizes_ident : Recognizes ident Lexer.name := by
  intro s
  rcases s with _ | ⟨a, rest⟩
  · rfl
  have hclass : inRanges (letterRanges ++ chars "_$") (Utf8.first a rest).code =
      Lexer.startsName (Utf8.first a rest).code := by
    rw [inRanges_append, inRanges_marks, Lexer.startsName, isLetter_eq, Bool.or_assoc]
  have hpos := Utf8.first_bytes_pos a rest
  have hrests : (among (letterRanges ++ chars "_$")).rests (a :: rest) =
      if Lexer.startsName (Utf8.first a rest).code then
        [(a :: rest).drop (Utf8.first a rest).bytes.length] else [] := by
    rw [← hclass]
    rfl
  rw [ident, Lexer.name]
  by_cases hname : Lexer.startsName (Utf8.first a rest).code = true
  · rw [if_pos hname] at hrests
    rw [rest?_seq_of_rests hrests, rest?_many_continuesName (a :: rest).length _ (by simp),
      if_pos hname, if_neg (by omega), List.drop_drop]
  · rw [if_neg hname] at hrests
    rw [rest?_seq_of_nil hrests, if_neg hname, if_pos rfl]

theorem rest?_texts {ts : List String} (hts : ∀ t ∈ ts, isSingleBytes t = true) (p : Pattern)
    (s : Bytes) : (texts ts p).rest? s =
      (((ts.map ascii).find? fun t => t.isPrefixOf s).map fun t => s.drop t.length).or
        (p.rest? s) := by
  induction ts with
  | nil => rfl
  | cons t ts ih =>
      have hrests := rests_text t (hts t List.mem_cons_self) s
      rw [texts, List.foldr_cons, rest?_either, ← texts,
        ih fun u hu => hts u (List.mem_cons_of_mem t hu), rest?, hrests, List.map_cons,
        List.find?_cons]
      by_cases hpre : (ascii t).isPrefixOf s = true <;> simp [hpre]

theorem find?_pairs (bs : Bytes) (c a b : UInt8) (rest : Bytes) :
    ((bs.map fun d => [d, c]).find? fun t => t.isPrefixOf (a :: b :: rest)) =
      if a ∈ bs ∧ b = c then some [a, c] else none := by
  induction bs with
  | nil => simp
  | cons d bs ih =>
      have hpre : [d, c].isPrefixOf (a :: b :: rest) = (decide (d = a) && decide (c = b)) := by
        simp only [List.isPrefixOf, Bool.and_true]
        rfl
      rw [List.map_cons, List.find?_cons, ih, hpre]
      by_cases hd : d = a
      · by_cases hb : c = b <;> simp [hd, hb, eq_comm]
      · simp [hd, Ne.symm hd]

/-- An operator that is followed by an equals sign, and that sign. -/
theorem rest?_assignment (s : Bytes) :
    (Pattern.seq (among (chars "-+*/%&|^!=<")) (char '=')).rest? s =
    (((ascii "-+*/%&|^!=<").map fun b => [b, 61]).find? fun t => t.isPrefixOf s).map fun t =>
      s.drop t.length := by
  have hfirst : IsAsciiClass (inRanges (chars "-+*/%&|^!=<")) (ascii "-+*/%&|^!=<").contains :=
    isAsciiClass_chars (by decide)
  have hequals : IsAsciiClass (inRanges [(61, 61)]) fun b => b = 61 := .singleton (by decide)
  have hchar : char '=' = one (inRanges [(61, 61)]) := rfl
  generalize ascii "-+*/%&|^!=<" = bs at hfirst
  have hshort : ∀ s : Bytes, s.length < 2 →
      ((bs.map fun d => [d, 61]).find? fun t => t.isPrefixOf s) = none := by
    intro s hs
    rw [List.find?_eq_none]
    intro t ht hpre
    obtain ⟨d, -, rfl⟩ := List.mem_map.mp ht
    have hle := (List.isPrefixOf_iff_prefix.mp hpre).length_le
    exact absurd hs (Nat.not_lt.mpr hle)
  rcases s with _ | ⟨a, _ | ⟨b, rest⟩⟩
  · rw [among, rest?_seq_one_nil, hshort [] (by decide)]
    rfl
  · rw [among, rest?_seq_one_cons hfirst, hshort [a] (Nat.lt_succ_self 1)]
    exact ite_self none
  · rw [among, rest?_seq_one_cons hfirst, hchar, rest?_one_cons hequals, find?_pairs]
    by_cases ha : a ∈ bs <;> by_cases hb : b = 61 <;> simp [ha, hb]

theorem recognizes_punct : Recognizes punct Lexer.punct := by
  intro s
  have hlong : Lexer.longPuncts =
      ["...", "->", "::", "++", "--", "&&", "||", "<<=", "<<"].map ascii ++
        (ascii "-+*/%&|^!=<").map fun b => [b, 61] := by
    decide
  have hshort : IsAsciiClass (inRanges (chars "()\x7b\x7d[];,.@=<>!~?:+-*/&|^%"))
      Lexer.shortPuncts.contains :=
    isAsciiClass_chars (by decide)
  have hpos : ∀ t ∈ Lexer.longPuncts, t.length ≠ 0 := by decide
  rw [punct, rest?_texts (by decide), rest?_either, rest?_assignment, ← Option.or_assoc,
    ← Option.map_or, ← List.find?_append, ← hlong]
  unfold Lexer.punct
  cases hfind : Lexer.longPuncts.find? fun t => t.isPrefixOf s with
  | some t =>
      have ht := hpos t (List.mem_of_find?_eq_some hfind)
      simp [ht]
  | none =>
      cases s with
      | nil => rfl
      | cons a rest =>
          rw [Option.map_none, Option.none_or, among, rest?_one_cons hshort]
          by_cases ha : a ∈ Lexer.shortPuncts
          · simp [ha]
          · simp [ha]

/-- Any character is as long as its bytes. -/
theorem recognizes_wild : Recognizes wild Lexer.anyCharacter := by
  intro s
  cases s with
  | nil => rfl
  | cons a rest =>
      have hpos := Utf8.first_bytes_pos a rest
      rw [Lexer.anyCharacter, if_neg (by omega)]
      rfl

/-- The rules and the patterns go together. -/
theorem table_recognizes :
    List.Forall₂ (fun r r' => r.1 = r'.1 ∧ Recognizes r.2 r'.2) table Lexer.rules := by
  have hliteral := recognizes_literal isQuote_double
  have hcharacter := recognizes_literal isQuote_single
  simp only [table, Lexer.rules, List.forall₂_cons, List.forall₂_nil_left_iff, and_true,
    true_and]
  exact ⟨recognizes_spaces, recognizes_lineComment, recognizes_blockComment, recognizes_openComment,
    recognizes_textBlock, hliteral, hcharacter, recognizes_number, recognizes_ident,
    recognizes_punct, recognizes_wild⟩

end Pattern

end CodeLayout
