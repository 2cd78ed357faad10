import CodeLayout.Proofs.Text.Characters
import CodeLayout.Proofs.Token.Comments
import CodeLayout.Proofs.Token.Pattern

/-!
# Patterns read byte by byte

A class of ASCII characters, or of all characters but some of ASCII, can be decided byte by byte,
since no byte of a character beyond ASCII is one of ASCII. So what a pattern of such classes
recognizes has a length that can be counted in bytes.
-/

namespace CodeLayout

/-- Whether a class of characters can be decided byte by byte: it has all characters beyond ASCII,
or none of them. -/
structure IsByteClass (f : Nat → Bool) (g : UInt8 → Bool) : Prop where
  ascii : ∀ n < 128, f n = g (UInt8.ofNat n)
  beyond : ∀ c, 128 ≤ c → ∀ b : UInt8, 128 ≤ b → f c = g b

namespace IsByteClass

variable {f : Nat → Bool} {g : UInt8 → Bool} {ranges : List (Nat × Nat)}

theorem inRanges_eq_false (hascii : (ranges.all fun r => r.2 < 128) = true) {c : Nat}
    (hc : 128 ≤ c) : inRanges ranges c = false := by
  rw [inRanges, List.any_eq_false]
  intro r hr
  have hlt : r.2 < 128 := by simpa using List.all_eq_true.mp hascii r hr
  simp only [Bool.and_eq_true, decide_eq_true_eq, not_and]
  intro
  omega

/-- A class of ASCII characters. -/
theorem among (hascii : (ranges.all fun r => r.2 < 128) = true)
    (hg : ∀ n < 256, g (UInt8.ofNat n) = inRanges ranges n) : IsByteClass (inRanges ranges) g where
  ascii n hn := (hg n (by omega)).symm
  beyond c hc b hb := by
    have hle : 128 ≤ b.toNat := UInt8.le_iff_toNat_le.mp hb
    have hb' := hg b.toNat b.toNat_lt
    rw [UInt8.ofNat_toNat, inRanges_eq_false hascii hle] at hb'
    rw [inRanges_eq_false hascii hc, hb']

/-- All characters but some of ASCII. -/
theorem outside (hascii : (ranges.all fun r => r.2 < 128) = true)
    (hg : ∀ n < 256, g (UInt8.ofNat n) = !inRanges ranges n) :
    IsByteClass (fun c => !inRanges ranges c) g where
  ascii n hn := (hg n (by omega)).symm
  beyond c hc b hb := by
    have hle : 128 ≤ b.toNat := UInt8.le_iff_toNat_le.mp hb
    have hb' := hg b.toNat b.toNat_lt
    rw [UInt8.ofNat_toNat, inRanges_eq_false hascii hle] at hb'
    rw [inRanges_eq_false hascii hc, hb']

/-- A class has the first character of a text or it has not, as its first byte says. The other bytes
of the character are then like the first one. -/
theorem exists_rests (h : IsByteClass f g) (a : UInt8) (rest : Bytes) :
    ∃ cs t, rest = cs ++ t ∧ (∀ b ∈ cs, 0x80 ≤ b ∧ g b = g a) ∧
      (Pattern.one f).rests (a :: rest) = if g a then [t] else [] := by
  obtain ⟨cs, t, hrest, hdrop, hcases⟩ := Utf8.exists_first a rest
  have hcode : f (Utf8.first a rest).code = g a := by
    rcases hcases with ⟨ha, -, hcode⟩ | ⟨ha, -, hcode⟩
    · have hlt : a.toNat < 128 := UInt8.lt_iff_toNat_lt.mp ha
      rw [hcode, h.ascii _ hlt, UInt8.ofNat_toNat]
    · exact h.beyond _ hcode a ha
  refine ⟨cs, t, hrest, fun b hb => ?_, ?_⟩
  · rcases hcases with ⟨-, rfl, -⟩ | ⟨ha, hcs, -⟩
    · cases hb
    · refine ⟨hcs b hb, ?_⟩
      rw [← h.beyond 128 (Nat.le_refl _) b (hcs b hb), h.beyond 128 (Nat.le_refl _) a ha]
  · simp only [Pattern.rests, hcode, hdrop]

end IsByteClass

/-- Whether a class of characters can be decided byte by byte and has ASCII characters only. -/
structure IsAsciiClass (f : Nat → Bool) (g : UInt8 → Bool) : Prop extends IsByteClass f g where
  none_beyond : ∀ b : UInt8, 128 ≤ b → g b = false

namespace IsAsciiClass

variable {f : Nat → Bool} {g : UInt8 → Bool} {ranges : List (Nat × Nat)}

theorem among (hascii : (ranges.all fun r => r.2 < 128) = true)
    (hg : ∀ n < 256, g (UInt8.ofNat n) = inRanges ranges n) :
    IsAsciiClass (inRanges ranges) g where
  toIsByteClass := .among hascii hg
  none_beyond b hb := by
    have hclass := (IsByteClass.among hascii hg).beyond 128 (Nat.le_refl _) b hb
    rw [← hclass, IsByteClass.inRanges_eq_false hascii (Nat.le_refl _)]

theorem rests_cons (h : IsAsciiClass f g) (a : UInt8) (rest : Bytes) :
    (Pattern.one f).rests (a :: rest) = if g a then [rest] else [] := by
  obtain ⟨cs, t, rfl, hcs, hrests⟩ := h.toIsByteClass.exists_rests a rest
  rw [hrests]
  by_cases ha : g a = true
  · obtain rfl : cs = [] := by
      rw [List.eq_nil_iff_forall_not_mem]
      intro b hb
      have hb' := h.none_beyond b (hcs b hb).1
      rw [(hcs b hb).2, ha] at hb'
      cases hb'
    rfl
  · rw [if_neg ha, if_neg ha]

/-- One ASCII character. -/
theorem singleton {n : Nat} (hn : n < 128) :
    IsAsciiClass (inRanges [(n, n)]) fun b => b = UInt8.ofNat n := by
  refine .among (by simpa using hn) fun m hm => ?_
  have hinj : UInt8.ofNat m = UInt8.ofNat n ↔ m = n := by
    rw [← UInt8.toNat_inj, UInt8.toNat_ofNat_of_lt' hm,
      UInt8.toNat_ofNat_of_lt' (Nat.lt_trans hn (by decide))]
  rw [Bool.eq_iff_iff, decide_eq_true_eq, hinj]
  simp only [inRanges, List.any_cons, List.any_nil, Bool.or_false, Bool.and_eq_true,
    decide_eq_true_eq]
  omega

end IsAsciiClass

namespace Lexer

/-- A delimiter starts in no character beyond ASCII. -/
theorem lengthThrough?_append {p cs t : Bytes} {a : UInt8} (ha : a < 0x80)
    (hcs : ∀ b ∈ cs, 0x80 ≤ b) :
    lengthThrough? (a :: p) (cs ++ t) = (lengthThrough? (a :: p) t).map (· + cs.length) := by
  induction cs with
  | nil => simp
  | cons c cs ih =>
      have hno : ¬(a :: p).isPrefixOf (c :: (cs ++ t)) = true := by
        intro hpre
        have hac : a = c := (List.cons_prefix_cons.mp (List.isPrefixOf_iff_prefix.mp hpre)).1
        exact absurd (hcs c List.mem_cons_self) (UInt8.not_le.mpr (hac ▸ ha))
      rw [List.cons_append, lengthThrough?, if_neg hno,
        ih fun b hb => hcs b (List.mem_cons_of_mem c hb), Option.map_map]
      rfl

end Lexer

namespace Pattern

variable {f : Nat → Bool} {g : UInt8 → Bool} {p q : Pattern} {s t : Bytes}

/-- Where a long repetition can go on in one way only, it does. -/
theorem rest?_many_of_rests (h : p.rests s = [t]) (hlt : t.length < s.length) :
    (many p).rest? s = (many p).rest? t := by
  obtain ⟨r, hr⟩ := Option.isSome_iff_exists.mp (isSome_many p t)
  have hrests : (many p).rests s = (many p).rests t ++ [s] := by
    rw [many, rests_loop, h, if_pos rfl]
    simp [hlt]
  rw [rest?, hrests, List.head?_append, ← rest?, hr]
  rfl

theorem rest?_many_of_nil (h : p.rests s = []) : (many p).rest? s = some s := by
  rw [rest?, many, rests_loop, h]
  rfl

/-- Where a short repetition can go on in one way only, it does so if what follows fails. -/
theorem rest?_seq_few_of_rests (h : p.rests s = [t]) (hlt : t.length < s.length) :
    (seq (few p) q).rest? s = (q.rest? s).or ((seq (few p) q).rest? t) := by
  have hrests : (few p).rests s = s :: (few p).rests t := by
    rw [few, rests_loop, h]
    simp [hlt]
  rw [rest?_seq, hrests, List.findSome?_cons, rest?_seq]
  cases q.rest? s <;> rfl

theorem rest?_seq_few_of_nil (h : p.rests s = []) : (seq (few p) q).rest? s = q.rest? s := by
  have hrests : (few p).rests s = [s] := by
    rw [few, rests_loop, h]
    rfl
  exact rest?_seq_of_rests hrests

theorem rests_one_nil : (one f).rests [] = [] :=
  rfl

/-- Whether all characters of a text are single bytes. -/
def isSingleBytes (w : String) : Bool :=
  w.toList.all fun c => c.toNat < 128

/-- The characters of a text, if all of them are single bytes. -/
theorem isAsciiClass_chars {w : String} (hw : isSingleBytes w = true) :
    IsAsciiClass (inRanges (chars w)) (ascii w).contains := by
  have hlt : ∀ c ∈ w.toList, c.toNat < 128 := fun c hc =>
    of_decide_eq_true (List.all_eq_true.mp hw c hc)
  refine .among ?_ fun n hn => ?_
  · rw [chars, List.all_map]
    exact hw
  · rw [Bool.eq_iff_iff, List.contains_iff_mem, ascii, List.mem_map, chars, inRanges,
      List.any_map, List.any_eq_true]
    refine exists_congr fun c => and_congr_right fun hc => ?_
    have hbyte : c.toNat.toUInt8 = UInt8.ofNat n ↔ c.toNat = n := by
      have hsize : c.toNat < 256 := Nat.lt_trans (hlt c hc) (by decide)
      rw [← UInt8.toNat_inj, Nat.toUInt8_eq, UInt8.toNat_ofNat_of_lt' hsize,
        UInt8.toNat_ofNat_of_lt' hn]
    rw [hbyte, Function.comp_apply, Bool.and_eq_true, decide_eq_true_eq, decide_eq_true_eq]
    omega

theorem rests_text (w : String) (hw : isSingleBytes w = true) (s : Bytes) :
    (text w).rests s = if (ascii w).isPrefixOf s then [s.drop (ascii w).length] else [] := by
  have hw : ∀ c ∈ w.toList, c.toNat < 128 := fun c hc =>
    of_decide_eq_true (List.all_eq_true.mp hw c hc)
  rw [text, ascii]
  generalize w.toList = cs at hw
  induction cs generalizing s with
  | nil => rfl
  | cons c cs ih =>
      cases s with
      | nil => rfl
      | cons b rest =>
          have hb := (IsAsciiClass.singleton (hw c List.mem_cons_self)).rests_cons b rest
          rw [List.foldr_cons, char, among, rests, hb, List.map_cons, List.isPrefixOf_cons_cons]
          by_cases hbc : b = c.toNat.toUInt8
          · have htail := ih rest fun c hc => hw c (List.mem_cons_of_mem _ hc)
            rw [if_pos (by simpa using hbc), List.flatMap_singleton, htail]
            simp [hbc]
          · rw [if_neg (by simpa using hbc)]
            simp [Ne.symm hbc]

/-- A run of characters is a run of bytes. -/
theorem rest?_many_one (h : IsByteClass f g) (s : Bytes) :
    (many (one f)).rest? s = some (s.drop (Lexer.runLength g s)) := by
  induction hn : s.length using Nat.strong_induction_on generalizing s with
  | _ n ih =>
      cases s with
      | nil => exact rest?_many_of_nil rests_one_nil
      | cons a rest =>
          obtain ⟨cs, t, rfl, hcs, hrests⟩ := h.exists_rests a rest
          by_cases ha : g a = true
          · rw [if_pos ha] at hrests
            have hall : ∀ b ∈ cs, g b = true := fun b hb => (hcs b hb).2.trans ha
            have hlt : t.length < (a :: (cs ++ t)).length := by
              rw [List.length_cons, List.length_append]
              omega
            have hrun :
                Lexer.runLength g (a :: (cs ++ t)) = cs.length + 1 + Lexer.runLength g t := by
              rw [Lexer.runLength, List.takeWhile_cons_of_pos ha, List.takeWhile_append_of_pos hall,
                List.length_cons, List.length_append, Lexer.runLength]
              omega
            have hdrop : (a :: (cs ++ t)).drop (cs.length + 1 + Lexer.runLength g t) =
                t.drop (Lexer.runLength g t) := by
              rw [← List.drop_drop, List.drop_succ_cons, List.drop_left]
            rw [rest?_many_of_rests hrests hlt, ih t.length (hn ▸ hlt) t rfl, hrun, hdrop]
          · rw [if_neg ha] at hrests
            rw [rest?_many_of_nil hrests, Lexer.runLength, List.takeWhile_cons_of_neg ha]
            rfl

/-- Any characters, but as few as possible, up to some text: its first occurrence is found. -/
theorem rest?_few_wild_text {w : String} (hw : isSingleBytes w = true) {a : UInt8} {u : Bytes}
    (hascii : ascii w = a :: u) (ha : a < 0x80) (s : Bytes) : (seq (few wild) (text w)).rest? s =
      (Lexer.lengthThrough? (ascii w) s).map fun n => s.drop n := by
  have hwild : IsByteClass (fun c => !inRanges [] c) fun _ => true :=
    .outside rfl fun _ _ => rfl
  have htext : ∀ s, (text w).rest? s =
      if (ascii w).isPrefixOf s then some (s.drop (ascii w).length) else none := by
    intro s
    rw [rest?, rests_text w hw]
    split <;> rfl
  induction hn : s.length using Nat.strong_induction_on generalizing s with
  | _ n ih =>
      cases s with
      | nil =>
          rw [rest?_seq_few_of_nil (p := wild) rests_one_nil, htext, hascii]
          rfl
      | cons b rest =>
          obtain ⟨cs, t, rfl, hcs, hrests⟩ := hwild.exists_rests b rest
          have hlt : t.length < (b :: (cs ++ t)).length := by
            rw [List.length_cons, List.length_append]
            omega
          rw [if_pos rfl] at hrests
          rw [rest?_seq_few_of_rests (p := wild) hrests hlt, ih t.length (hn ▸ hlt) t rfl, htext,
            Lexer.lengthThrough?]
          by_cases hpre : (ascii w).isPrefixOf (b :: (cs ++ t)) = true
          · rw [if_pos hpre, if_pos hpre]
            rfl
          · rw [if_neg hpre, if_neg hpre, hascii,
              Lexer.lengthThrough?_append ha fun b hb => (hcs b hb).1]
            cases Lexer.lengthThrough? (a :: u) t with
            | none => rfl
            | some n =>
                simp only [Option.map_some, Option.none_or]
                rw [Nat.add_assoc, Nat.add_comm, ← List.drop_drop, List.drop_succ_cons,
                  List.drop_left]

end Pattern

end CodeLayout
