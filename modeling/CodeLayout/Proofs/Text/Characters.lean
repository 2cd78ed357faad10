import CodeLayout.Text.Blank
import Mathlib.Data.List.Basic
import Mathlib.Data.List.TakeWhile

/-!
# Characters and the bytes they are read from

The characters of a text are read from its bytes in order, so words and trimmed texts are parts of
the text. An ASCII byte is always a character of its own.

A character is the UTF-8 form of its code point, or one byte that starts no such form. One that is
not a single ASCII byte has a code point beyond ASCII and bytes beyond ASCII.
-/

namespace CodeLayout

/-- Whether a character is one ASCII byte, or read from bytes of which none is one. -/
def Character.IsRead (r : Character) : Prop :=
  (∃ b : UInt8, b < 0x80 ∧ r = ⟨b.toNat, [b]⟩) ∨ (r.bytes ≠ [] ∧ ∀ b ∈ r.bytes, 0x80 ≤ b)

namespace Utf8

/-- A character is read from the start of a text. -/
theorem first_isPrefix (a : UInt8) (rest : Bytes) : (first a rest).bytes <+: a :: rest := by
  unfold first
  repeat' split
  all_goals simp [malformed]

theorem le_of_isTail {b : UInt8} (h : isTail b = true) : 0x80 ≤ b := by
  simp only [isTail, within, Bool.and_eq_true, decide_eq_true_eq] at h
  exact h.1

theorem le_of_secondOfThree {a b : UInt8} (h : secondOfThree a b = true) : 0x80 ≤ b := by
  simp only [secondOfThree, isTail, within] at h
  split_ifs at h <;> simp only [Bool.and_eq_true, decide_eq_true_eq] at h
  · exact UInt8.le_trans (by decide) h.1
  · exact h.1
  · exact h.1

theorem le_of_secondOfFour {a b : UInt8} (h : secondOfFour a b = true) : 0x80 ≤ b := by
  simp only [secondOfFour, isTail, within] at h
  split_ifs at h <;> simp only [Bool.and_eq_true, decide_eq_true_eq] at h
  · exact UInt8.le_trans (by decide) h.1
  · exact h.1
  · exact h.1

/-- A character is one ASCII byte, or no byte of it is one. -/
theorem first_cases (a : UInt8) (rest : Bytes) :
    (a < 0x80 ∧ first a rest = ⟨a.toNat, [a]⟩) ∨ ∀ b ∈ (first a rest).bytes, 0x80 ≤ b := by
  by_cases ha : a < 0x80
  · exact Or.inl ⟨ha, if_pos ha⟩
  · refine Or.inr fun b hb => ?_
    have hfirst : 0x80 ≤ a := UInt8.not_lt.mp ha
    unfold first at hb
    rw [if_neg ha] at hb
    repeat' split at hb
    all_goals simp only [malformed, List.mem_cons, List.not_mem_nil, or_false] at hb
    all_goals grind [le_of_isTail, le_of_secondOfThree, le_of_secondOfFour]

/-- A character that is cut off is read as a byte that starts no character. -/
theorem first_append_cases (a : UInt8) (rest more : Bytes) :
    first a rest = first a (rest ++ more) ∨ (first a rest = malformed a ∧
      (a :: rest).length < (first a (rest ++ more)).bytes.length) := by
  rcases rest with _ | ⟨b, _ | ⟨c, _ | ⟨d, rest⟩⟩⟩
  · rcases more with _ | ⟨e, _ | ⟨f, _ | ⟨g, more⟩⟩⟩ <;> simp only [first, List.nil_append] <;>
      split_ifs <;> simp [malformed]
  · rcases more with _ | ⟨e, _ | ⟨f, more⟩⟩ <;>
      simp only [first, List.nil_append, List.cons_append] <;> split_ifs <;> simp [malformed]
  · rcases more with _ | ⟨e, more⟩ <;>
      simp only [first, List.nil_append, List.cons_append] <;> split_ifs <;> simp [malformed]
  · exact Or.inl rfl

end Utf8

namespace Bytes

theorem ofCharacters_append (rs ss : List Character) :
    ofCharacters (rs ++ ss) = ofCharacters rs ++ ofCharacters ss :=
  List.flatMap_append

theorem charactersWithin_bytes (n : Nat) (s : Bytes) (h : s.length ≤ n) :
    ofCharacters (Utf8.charactersWithin n s) = s := by
  induction n generalizing s with
  | zero =>
      rw [List.length_eq_zero_iff.mp (Nat.le_zero.mp h)]
      rfl
  | succ n ih =>
      cases s with
      | nil => rfl
      | cons a rest =>
          have hpos := Utf8.first_bytes_pos a rest
          have htake := List.prefix_iff_eq_take.mp (Utf8.first_isPrefix a rest)
          have hlength : ((a :: rest).drop (Utf8.first a rest).bytes.length).length ≤ n := by
            rw [List.length_drop]
            omega
          change (Utf8.first a rest).bytes ++ ofCharacters _ = _
          rw [ih _ hlength]
          nth_rewrite 1 [htake]
          exact List.take_append_drop _ _

/-- The characters of a text hold all of its bytes. -/
theorem ofCharacters_characters (s : Bytes) : ofCharacters s.characters = s :=
  charactersWithin_bytes s.length s (Nat.le_refl _)

theorem isInfix_of_characters {s : Bytes} {rs : List Character} (h : rs <:+: s.characters) :
    ofCharacters rs <:+: s := by
  obtain ⟨before, after, heq⟩ := h
  refine ⟨ofCharacters before, ofCharacters after, ?_⟩
  rw [← ofCharacters_append, ← ofCharacters_append, heq, ofCharacters_characters]

/-- A word is read from characters of its text that are not blank. -/
theorem exists_of_mem_words {s w : Bytes} (h : w ∈ s.words) : ∃ cs, cs <:+: s.characters ∧
    w = ofCharacters cs ∧ cs ≠ [] ∧ ∀ r ∈ cs, r.isBlank = false := by
  have hfrom : ∀ word rs : List Character, (∀ r ∈ word, r.isBlank = false) → w ∈ wordsFrom word rs →
      ∃ cs, cs <:+: word.reverse ++ rs ∧ w = ofCharacters cs ∧ cs ≠ [] ∧
        ∀ r ∈ cs, r.isBlank = false := by
    intro word rs hword hw
    fun_induction wordsFrom word rs with
    | case1 word hempty => simp at hw
    | case2 word hempty =>
        rw [List.mem_singleton] at hw
        exact ⟨word.reverse, (List.prefix_append _ _).isInfix, hw, by simpa using hempty,
          by simpa using hword⟩
    | case3 word r rest hblank hempty ih =>
        obtain ⟨cs, hcs, hrest⟩ := ih nofun hw
        have hsuffix := (List.suffix_cons r rest).trans (List.suffix_append word.reverse _)
        exact ⟨cs, hcs.trans hsuffix.isInfix, hrest⟩
    | case4 word r rest hblank hempty ih =>
        rcases List.mem_cons.mp hw with rfl | hw
        · exact ⟨word.reverse, (List.prefix_append _ _).isInfix, rfl, by simpa using hempty,
            by simpa using hword⟩
        · obtain ⟨cs, hcs, hrest⟩ := ih nofun hw
          exact ⟨cs, hcs.trans ((List.suffix_cons r rest).trans (List.suffix_append _ _)).isInfix,
            hrest⟩
    | case5 word r rest hblank ih =>
        obtain ⟨cs, hcs, hrest⟩ := ih
          (List.forall_mem_cons.mpr ⟨Bool.eq_false_iff.mpr hblank, hword⟩) hw
        rw [List.reverse_cons, List.append_assoc] at hcs
        exact ⟨cs, hcs, hrest⟩
  exact hfrom [] s.characters nofun h

/-- A word is a part of its text. -/
theorem isInfix_of_mem_words {s w : Bytes} (h : w ∈ s.words) : w <:+: s := by
  obtain ⟨cs, hcs, rfl, -⟩ := exists_of_mem_words h
  exact isInfix_of_characters hcs

theorem exists_first_of_mem {s : Bytes} {r : Character} (h : r ∈ s.characters) :
    ∃ a rest, r = Utf8.first a rest := by
  have hwithin : ∀ (n : Nat) (s : Bytes), r ∈ Utf8.charactersWithin n s →
      ∃ a rest, r = Utf8.first a rest := by
    intro n s hr
    induction n generalizing s with
    | zero => simp [Utf8.charactersWithin] at hr
    | succ n ih =>
        cases s with
        | nil => simp [Utf8.charactersWithin] at hr
        | cons a rest =>
            rcases List.mem_cons.mp hr with rfl | hr
            · exact ⟨a, rest, rfl⟩
            · exact ih _ hr
  exact hwithin _ _ h

/-- A character of a text is one ASCII byte, or bytes of which none is one. -/
theorem mem_characters {s : Bytes} {r : Character} (h : r ∈ s.characters) : r.IsRead := by
  obtain ⟨a, rest, rfl⟩ := exists_first_of_mem h
  exact (Utf8.first_cases a rest).imp (fun ⟨ha, heq⟩ => ⟨a, ha, heq⟩) fun hall =>
    ⟨List.ne_nil_of_length_pos (Utf8.first_bytes_pos a rest), hall⟩

/-- An ASCII byte at the end of a text is its last character. -/
theorem exists_concat_of_ofCharacters {rs : List Character} {s : Bytes} {b : UInt8} (hb : b < 0x80)
    (hrs : ∀ r ∈ rs, r.IsRead) (h : ofCharacters rs = s ++ [b]) :
    ∃ rs', rs = rs' ++ [⟨b.toNat, [b]⟩] ∧ ofCharacters rs' = s := by
  rcases List.eq_nil_or_concat rs with rfl | ⟨rs', r, rfl⟩
  · simp [ofCharacters] at h
  · rw [List.concat_eq_append, ofCharacters_append] at h
    rcases hrs r (by simp) with ⟨c, -, rfl⟩ | ⟨hne, hall⟩
    · obtain ⟨hs, hc⟩ := List.append_inj' h rfl
      obtain ⟨rfl, -⟩ := List.cons.inj hc
      exact ⟨rs', by simp, hs⟩
    · rcases List.eq_nil_or_concat r.bytes with hnil | ⟨bs, c, hbytes⟩
      · exact absurd hnil hne
      · have hlast : ofCharacters [r] = bs ++ [c] := by simp [ofCharacters, hbytes]
        rw [hlast, ← List.append_assoc] at h
        obtain ⟨-, hc⟩ := List.append_inj' h rfl
        obtain ⟨rfl, -⟩ := List.cons.inj hc
        have hle := hall c (by simp [hbytes])
        exact absurd hb (UInt8.not_lt.mpr hle)

/-- Trimming keeps two ASCII bytes at the end of a text that are not blank. -/
theorem exists_trim_append {s : Bytes} {a b : UInt8} (ha : a < 0x80) (hb : b < 0x80)
    (hblanka : CodeLayout.isBlank a.toNat = false) (hblankb : CodeLayout.isBlank b.toNat = false) :
    ∃ s', s' <:+ s ∧ trim (s ++ [a, b]) = s' ++ [a, b] := by
  have hbytes : ofCharacters (characters (s ++ [a, b])) = (s ++ [a]) ++ [b] := by
    rw [ofCharacters_characters]
    simp
  obtain ⟨rs', hrs', hrest⟩ := exists_concat_of_ofCharacters hb (fun _ => mem_characters) hbytes
  obtain ⟨rs, rfl, rfl⟩ :=
    exists_concat_of_ofCharacters ha (fun r hr => mem_characters (s := s ++ [a, b])
      (by rw [hrs']; exact List.mem_append_left _ hr)) hrest
  have hleft : (characters (ofCharacters rs ++ [a, b])).dropWhile Character.isBlank =
      rs.dropWhile Character.isBlank ++ [⟨a.toNat, [a]⟩, ⟨b.toNat, [b]⟩] := by
    rw [hrs', List.append_assoc, List.dropWhile_append]
    split_ifs with hempty
    · rw [List.isEmpty_iff.mp hempty, List.cons_append,
        List.dropWhile_cons_of_neg (by simpa [Character.isBlank] using hblanka)]
      rfl
    · rfl
  refine ⟨ofCharacters (rs.dropWhile Character.isBlank), ?_, ?_⟩
  · obtain ⟨front, hfront⟩ := List.dropWhile_suffix (l := rs) Character.isBlank
    exact ⟨ofCharacters front, by rw [← ofCharacters_append, hfront]⟩
  · rw [trim, hleft]
    rw [List.reverse_append, List.reverse_cons, List.reverse_cons, List.reverse_nil,
      List.nil_append, List.singleton_append, List.cons_append,
      List.dropWhile_cons_of_neg (by simpa [Character.isBlank] using hblankb)]
    simp [ofCharacters]

/-- Trimming leaves a part of a text. -/
theorem trim_isInfix (s : Bytes) : s.trim <:+: s := by
  have hfront : s.characters.dropWhile Character.isBlank <:+: s.characters :=
    (List.dropWhile_suffix _).isInfix
  refine isInfix_of_characters (List.IsInfix.trans ?_ hfront)
  rw [← List.reverse_infix, List.reverse_reverse]
  exact (List.dropWhile_suffix _).isInfix

theorem trimRight_isPrefix (f : UInt8 → Bool) (s : Bytes) : s.trimRight f <+: s := by
  rw [trimRight, ← List.reverse_suffix, List.reverse_reverse]
  exact List.dropWhile_suffix f

theorem trimRight_concat {f : UInt8 → Bool} {b : UInt8} (h : f b = false) (s : Bytes) :
    trimRight f (s ++ [b]) = s ++ [b] := by
  simp [trimRight, h]

/-- Trimming the end of a text keeps a first byte that is not trimmed. -/
theorem trimRight_cons {f : UInt8 → Bool} {b : UInt8} (h : f b = false) (s : Bytes) :
    trimRight f (b :: s) = b :: s.trimRight f := by
  rw [trimRight, List.reverse_cons, List.dropWhile_append]
  split_ifs with hall
  · have hnil : s.trimRight f = [] := by
      rw [trimRight, List.isEmpty_iff.mp hall, List.reverse_nil]
    rw [List.dropWhile_cons_of_neg (by simp [h]), hnil]
    rfl
  · rw [List.reverse_append]
    rfl

/-- Trimming the end of a text does not reach what is in front of a part that is left. -/
theorem trimRight_append {f : UInt8 → Bool} {t : Bytes} (s : Bytes) (h : t.trimRight f ≠ []) :
    trimRight f (s ++ t) = s ++ t.trimRight f := by
  have hne : ¬(t.reverse.dropWhile f).isEmpty = true := by
    rw [List.isEmpty_iff]
    exact fun hnil => h (by rw [trimRight, hnil, List.reverse_nil])
  rw [trimRight, List.reverse_append, List.dropWhile_append, if_neg hne, List.reverse_append,
    List.reverse_reverse]
  rfl

theorem exists_trimRight (f : UInt8 → Bool) (s : Bytes) :
    ∃ t, s = s.trimRight f ++ t ∧ ∀ b ∈ t, f b = true := by
  refine ⟨(s.reverse.takeWhile f).reverse, ?_, fun b hb =>
    List.mem_takeWhile_imp (List.mem_reverse.mp hb)⟩
  rw [trimRight, ← List.reverse_append, List.takeWhile_append_dropWhile, List.reverse_reverse]

end Bytes

namespace Utf8

theorem within_iff {lo hi b : UInt8} :
    within lo hi b = true ↔ lo.toNat ≤ b.toNat ∧ b.toNat ≤ hi.toNat := by
  simp only [within, Bool.and_eq_true, decide_eq_true_eq, UInt8.le_iff_toNat_le]

/-- The forms of a character: one to four bytes, or a byte that starts no such form. -/
inductive Form : Character → Prop
  | malformed (a : UInt8) : Form (malformed a)
  | one {a : UInt8} (ha : a.toNat < 128) : Form ⟨a.toNat, [a]⟩
  | two {a b : UInt8} (ha : 194 ≤ a.toNat ∧ a.toNat ≤ 223) (hb : 128 ≤ b.toNat ∧ b.toNat ≤ 191) :
      Form ⟨(a.toNat - 192) * 64 + (b.toNat - 128), [a, b]⟩
  | three {a b c : UInt8} (ha : 224 ≤ a.toNat ∧ a.toNat ≤ 239)
      (hb : 128 ≤ b.toNat ∧ b.toNat ≤ 191) (hfirst : a.toNat = 224 → 160 ≤ b.toNat)
      (hc : 128 ≤ c.toNat ∧ c.toNat ≤ 191) :
      Form ⟨((a.toNat - 224) * 64 + (b.toNat - 128)) * 64 + (c.toNat - 128), [a, b, c]⟩
  | four {a b c d : UInt8} (ha : 240 ≤ a.toNat ∧ a.toNat ≤ 244)
      (hb : 128 ≤ b.toNat ∧ b.toNat ≤ 191) (hfirst : a.toNat = 240 → 144 ≤ b.toNat)
      (hlast : a.toNat = 244 → b.toNat ≤ 143) (hc : 128 ≤ c.toNat ∧ c.toNat ≤ 191)
      (hd : 128 ≤ d.toNat ∧ d.toNat ≤ 191) :
      Form ⟨(((a.toNat - 240) * 64 + (b.toNat - 128)) * 64 + (c.toNat - 128)) * 64 +
        (d.toNat - 128), [a, b, c, d]⟩

theorem isTail_iff {b : UInt8} : isTail b = true ↔ 128 ≤ b.toNat ∧ b.toNat ≤ 191 :=
  within_iff

theorem bounds_of_secondOfThree {a b : UInt8} (h : secondOfThree a b = true) :
    (128 ≤ b.toNat ∧ b.toNat ≤ 191) ∧ (a.toNat = 224 → 160 ≤ b.toNat) := by
  unfold secondOfThree at h
  split_ifs at h with hfirst hlast
  · have hb : 160 ≤ b.toNat ∧ b.toNat ≤ 191 := within_iff.mp h
    exact ⟨by omega, fun _ => hb.1⟩
  · have hb : 128 ≤ b.toNat ∧ b.toNat ≤ 159 := within_iff.mp h
    exact ⟨by omega, fun heq => absurd (UInt8.toNat_inj.mp heq) hfirst⟩
  · exact ⟨isTail_iff.mp h, fun heq => absurd (UInt8.toNat_inj.mp heq) hfirst⟩

theorem bounds_of_secondOfFour {a b : UInt8} (h : secondOfFour a b = true) :
    (128 ≤ b.toNat ∧ b.toNat ≤ 191) ∧ (a.toNat = 240 → 144 ≤ b.toNat) ∧
      (a.toNat = 244 → b.toNat ≤ 143) := by
  unfold secondOfFour at h
  split_ifs at h with hfirst hlast
  · have hb : 144 ≤ b.toNat ∧ b.toNat ≤ 191 := within_iff.mp h
    refine ⟨by omega, fun _ => hb.1, fun heq => ?_⟩
    rw [hfirst] at heq
    cases heq
  · have hb : 128 ≤ b.toNat ∧ b.toNat ≤ 143 := within_iff.mp h
    exact ⟨by omega, fun heq => absurd (UInt8.toNat_inj.mp heq) hfirst, fun _ => hb.2⟩
  · exact ⟨isTail_iff.mp h, fun heq => absurd (UInt8.toNat_inj.mp heq) hfirst,
      fun heq => absurd (UInt8.toNat_inj.mp heq) hlast⟩

/-- The first character of a text has one of the forms. -/
theorem form_first (a : UInt8) (rest : Bytes) : Form (first a rest) := by
  unfold first
  split_ifs with hone htwo hthree hfour
  · exact .one (UInt8.lt_iff_toNat_lt.mp hone)
  · rcases rest with _ | ⟨b, rest⟩
    · exact .malformed a
    · change Form (if isTail b then _ else _)
      split_ifs with hb
      · exact .two (within_iff.mp htwo) (isTail_iff.mp hb)
      · exact .malformed a
  · rcases rest with _ | ⟨b, _ | ⟨c, rest⟩⟩
    · exact .malformed a
    · exact .malformed a
    · change Form (if secondOfThree a b && isTail c then _ else _)
      split_ifs with hboth
      · obtain ⟨hb, hc⟩ := Bool.and_eq_true_iff.mp hboth
        obtain ⟨hbounds, hfirst⟩ := bounds_of_secondOfThree hb
        exact .three (within_iff.mp hthree) hbounds hfirst (isTail_iff.mp hc)
      · exact .malformed a
  · rcases rest with _ | ⟨b, _ | ⟨c, _ | ⟨d, rest⟩⟩⟩
    · exact .malformed a
    · exact .malformed a
    · exact .malformed a
    · change Form (if secondOfFour a b && isTail c && isTail d then _ else _)
      split_ifs with hall
      · simp only [Bool.and_eq_true] at hall
        obtain ⟨⟨hb, hc⟩, hd⟩ := hall
        obtain ⟨hbounds, hfirst, hlast⟩ := bounds_of_secondOfFour hb
        exact .four (within_iff.mp hfour) hbounds hfirst hlast (isTail_iff.mp hc) (isTail_iff.mp hd)
      · exact .malformed a
  · exact .malformed a

/-- A character that is not one ASCII byte is none of ASCII. -/
theorem le_code_first {a : UInt8} (h : 128 ≤ a.toNat) (rest : Bytes) :
    128 ≤ (first a rest).code := by
  have hprefix := first_isPrefix a rest
  have hform := form_first a rest
  generalize first a rest = r at hprefix hform ⊢
  cases hform with
  | malformed b =>
      change 128 ≤ 65533
      decide
  | one hb =>
      obtain rfl := (List.cons_prefix_cons.mp hprefix).1
      exact absurd hb (Nat.not_lt.mpr h)
  | two | three | four =>
      simp only
      omega

/-- A character is the form of its code point, or it was read from a byte that starts none. -/
theorem Form.isMalformed_or_encode {r : Character} (h : Form r) :
    r.isMalformed = true ∨ r.bytes = encode r.code := by
  have hbyte : ∀ (a : UInt8) (n : Nat), a.toNat = n % 256 → a = n.toUInt8 := by
    intro a n hn
    exact UInt8.toNat_inj.mp (by rw [hn]; rfl)
  cases h with
  | malformed a => exact Or.inl rfl
  | one ha =>
      right
      simp only [encode]
      rw [if_pos ha]
      exact congrArg (· :: []) (hbyte _ _ (by omega))
  | two ha hb =>
      right
      simp only [encode]
      rw [if_neg (by omega), if_pos (by omega)]
      exact congrArg₂ List.cons (hbyte _ _ (by omega))
        (congrArg₂ List.cons (hbyte _ _ (by omega)) rfl)
  | three ha hb hfirst hc =>
      right
      simp only [encode]
      rw [if_neg (by omega), if_neg (by omega), if_pos (by omega)]
      exact congrArg₂ List.cons (hbyte _ _ (by omega)) (congrArg₂ List.cons (hbyte _ _ (by omega))
        (congrArg₂ List.cons (hbyte _ _ (by omega)) rfl))
  | four ha hb hfirst hlast hc hd =>
      right
      simp only [encode]
      rw [if_neg (by omega), if_neg (by omega), if_neg (by omega), if_pos (by omega)]
      exact congrArg₂ List.cons (hbyte _ _ (by omega)) (congrArg₂ List.cons (hbyte _ _ (by omega))
        (congrArg₂ List.cons (hbyte _ _ (by omega))
          (congrArg₂ List.cons (hbyte _ _ (by omega)) rfl)))

/-- The bytes of the first character of a text: one of ASCII, or none of ASCII. -/
theorem exists_first (a : UInt8) (rest : Bytes) :
    ∃ cs t, rest = cs ++ t ∧ (a :: rest).drop (first a rest).bytes.length = t ∧
      ((a < 0x80 ∧ cs = [] ∧ (first a rest).code = a.toNat) ∨
        (0x80 ≤ a ∧ (∀ b ∈ cs, 0x80 ≤ b) ∧ 128 ≤ (first a rest).code)) := by
  obtain ⟨t, ht⟩ := first_isPrefix a rest
  obtain ⟨c, cs, hbytes⟩ := List.exists_cons_of_length_pos (first_bytes_pos a rest)
  rw [hbytes, List.cons_append] at ht
  obtain ⟨rfl, hrest⟩ := List.cons.inj ht
  have hdrop : (c :: rest).drop (first c rest).bytes.length = t := by
    rw [hbytes, ← hrest, List.length_cons, List.drop_succ_cons, List.drop_left]
  refine ⟨cs, t, hrest.symm, hdrop, ?_⟩
  rcases first_cases c rest with ⟨hc, hfirst⟩ | hall
  · rw [hfirst] at hbytes
    exact Or.inl ⟨hc, (List.cons.inj hbytes).2.symm, by rw [hfirst]⟩
  · rw [hbytes] at hall
    have hc : 0x80 ≤ c := hall c List.mem_cons_self
    exact Or.inr ⟨hc, fun b hb => hall b (List.mem_cons_of_mem c hb),
      le_code_first (UInt8.le_iff_toNat_le.mp hc) rest⟩

end Utf8

end CodeLayout
