import CodeLayout.Proofs.Text.Characters
import CodeLayout.Token.Lexer

/-!
# Patterns

A pattern says which texts are recognized at the start of a text. The ways to read a text by a
pattern are ordered: of two alternatives the first one is preferred, and a repetition prefers to go
on, or to stop if it is a short one. What a pattern recognizes is the way that is preferred to all
others.

Patterns read characters, however many bytes they take.
-/

namespace CodeLayout

/-- A pattern of characters, which are classified by their code points. -/
inductive Pattern where
  | empty
  | one (f : Nat → Bool)
  | seq (p q : Pattern)
  /-- One of two patterns, preferably the first. -/
  | either (p q : Pattern)
  /-- A pattern any number of times, preferably as often as possible if the repetition is a long
  one, else as seldom as possible. -/
  | loop (long : Bool) (p : Pattern)

namespace Pattern

/-- What may be left behind at most `n` repetitions. Each one takes something. -/
def repeated (long : Bool) (f : Bytes → List Bytes) : Nat → Bytes → List Bytes
  | 0, s => [s]
  | n + 1, s =>
    let further := ((f s).filter fun t => t.length < s.length).flatMap (repeated long f n)
    if long then further ++ [s] else s :: further

/-- What may be left of a text behind a pattern, the preferred way to read it first. -/
def rests : Pattern → Bytes → List Bytes
  | .empty, s => [s]
  | .one _, [] => []
  | .one f, a :: rest =>
    let r := Utf8.first a rest
    if f r.code then [(a :: rest).drop r.bytes.length] else []
  | .seq p q, s => (p.rests s).flatMap q.rests
  | .either p q, s => p.rests s ++ q.rests s
  | .loop long p, s => repeated long p.rests s.length s

/-- What is left of a text behind what a pattern recognizes at its start. -/
def rest? (p : Pattern) (s : Bytes) : Option Bytes :=
  (p.rests s).head?

/-- A pattern any number of times, preferably often. -/
def many (p : Pattern) : Pattern :=
  .loop true p

/-- A pattern any number of times, preferably seldom. -/
def few (p : Pattern) : Pattern :=
  .loop false p

/-- A pattern at least once, preferably often. -/
def plus (p : Pattern) : Pattern :=
  .seq p (many p)

/-- A pattern that may be missing, but preferably is not. -/
def optional (p : Pattern) : Pattern :=
  .either p .empty

/-- A character in one of some ranges. -/
def among (ranges : List (Nat × Nat)) : Pattern :=
  .one (inRanges ranges)

/-- A character in none of some ranges. -/
def outside (ranges : List (Nat × Nat)) : Pattern :=
  .one fun c => !inRanges ranges c

/-- Any character. -/
def wild : Pattern :=
  outside []

/-- The ranges of some ASCII characters. -/
def chars (s : String) : List (Nat × Nat) :=
  s.toList.map fun c => (c.toNat, c.toNat)

/-- One ASCII character. -/
def char (c : Char) : Pattern :=
  among [(c.toNat, c.toNat)]

/-- Some ASCII characters in order. -/
def text (s : String) : Pattern :=
  s.toList.foldr (fun c p => .seq (char c) p) .empty

/-- The first of some texts that is there, or else another pattern. -/
def texts (ts : List String) (p : Pattern) : Pattern :=
  ts.foldr (fun t q => .either (text t) q) p

section Rests

variable {p q : Pattern} {s : Bytes}

theorem repeated_eq (long : Bool) (f : Bytes → List Bytes) (n m : Nat) (hn : s.length ≤ n)
    (hm : s.length ≤ m) : repeated long f n s = repeated long f m s := by
  have hnil : ∀ k, repeated long f k [] = [[]] := by
    intro k
    cases k <;> simp [repeated]
  induction n generalizing s m with
  | zero =>
      obtain rfl := List.length_eq_zero_iff.mp (Nat.le_zero.mp hn)
      rw [hnil, hnil]
  | succ n ih =>
      cases m with
      | zero =>
          obtain rfl := List.length_eq_zero_iff.mp (Nat.le_zero.mp hm)
          rw [hnil, hnil]
      | succ m =>
          have hfurther : ((f s).filter fun t => t.length < s.length).flatMap (repeated long f n) =
              ((f s).filter fun t => t.length < s.length).flatMap (repeated long f m) := by
            refine List.flatMap_congr fun t ht => ?_
            have hlt : t.length < s.length := by simpa using (List.mem_filter.mp ht).2
            exact ih m (by omega) (by omega)
          rw [repeated, repeated, hfurther]

/-- A repetition goes on if it can, or it stops; a long one prefers to go on. -/
theorem rests_loop (long : Bool) (p : Pattern) (s : Bytes) : (loop long p).rests s =
    if long then
      ((p.rests s).filter fun t => t.length < s.length).flatMap (loop long p).rests ++ [s]
    else s :: ((p.rests s).filter fun t => t.length < s.length).flatMap (loop long p).rests := by
  have hfurther : ((p.rests s).filter fun t => t.length < s.length).flatMap
      (repeated long p.rests s.length) =
        ((p.rests s).filter fun t => t.length < s.length).flatMap (loop long p).rests := by
    refine List.flatMap_congr fun t ht => ?_
    have hlt : t.length < s.length := by simpa using (List.mem_filter.mp ht).2
    exact repeated_eq long p.rests _ _ (Nat.le_of_lt hlt) (Nat.le_refl _)
  rw [rests, repeated_eq long p.rests s.length (s.length + 1) (Nat.le_refl _) (Nat.le_succ _),
    repeated, hfurther]

theorem rest?_either : (either p q).rest? s = (p.rest? s).or (q.rest? s) :=
  List.head?_append

theorem rest?_seq : (seq p q).rest? s = (p.rests s).findSome? q.rest? :=
  List.head?_flatMap

/-- Where the second pattern never fails, only the preferred way to read the first one counts. -/
theorem rest?_seq_of_isSome (h : ∀ t, (q.rest? t).isSome = true) :
    (seq p q).rest? s = (p.rest? s).bind q.rest? := by
  rw [rest?_seq, rest?]
  cases p.rests s with
  | nil => rfl
  | cons t ts =>
      obtain ⟨r, hr⟩ := Option.isSome_iff_exists.mp (h t)
      rw [List.findSome?_cons, hr]
      exact hr.symm

/-- Where the first pattern can be read in one way only, the second one goes on behind it. -/
theorem rest?_seq_of_rests {t : Bytes} (h : p.rests s = [t]) : (seq p q).rest? s = q.rest? t := by
  rw [rest?_seq, h, List.findSome?_cons]
  cases q.rest? t <;> rfl

theorem rest?_seq_of_nil (h : p.rests s = []) : (seq p q).rest? s = none := by
  rw [rest?_seq, h]
  rfl

theorem isSome_many (p : Pattern) (s : Bytes) : ((many p).rest? s).isSome = true := by
  rw [rest?, many, rests_loop]
  simp

theorem isSome_optional (p : Pattern) (s : Bytes) : ((optional p).rest? s).isSome = true := by
  rw [optional, rest?_either]
  cases p.rest? s <;> rfl

theorem rest?_optional : (optional p).rest? s = some ((p.rest? s).getD s) := by
  rw [optional, rest?_either]
  cases p.rest? s <;> rfl

end Rests

/-- Whether all bytes that a pattern reads are of some class. -/
def Within (g : UInt8 → Bool) : Pattern → Prop
  | .empty => True
  | .one f => ∀ a rest, f (Utf8.first a rest).code = true →
      ∀ b ∈ (Utf8.first a rest).bytes, g b = true
  | .seq p q | .either p q => p.Within g ∧ q.Within g
  | .loop _ p => p.Within g

section Within

variable {g : UInt8 → Bool} {p : Pattern} {s t : Bytes}

/-- What is left behind repetitions has only bytes of the class in front of it. -/
theorem exists_of_mem_repeated {long : Bool} {f : Bytes → List Bytes} {n : Nat}
    (hf : ∀ s, ∀ t ∈ f s, ∃ w, w ++ t = s ∧ ∀ b ∈ w, g b = true) (h : t ∈ repeated long f n s) :
    ∃ w, w ++ t = s ∧ ∀ b ∈ w, g b = true := by
  induction n generalizing s with
  | zero =>
      obtain rfl := List.mem_singleton.mp h
      exact ⟨[], rfl, by simp⟩
  | succ n ih =>
      have hcases : t = s ∨ ∃ u ∈ f s, t ∈ repeated long f n u := by
        rw [repeated] at h
        split_ifs at h <;> simp at h <;> tauto
      rcases hcases with rfl | ⟨u, hu, ht⟩
      · exact ⟨[], rfl, by simp⟩
      · obtain ⟨v, rfl, hv⟩ := hf s u hu
        obtain ⟨w, rfl, hw⟩ := ih ht
        exact ⟨v ++ w, List.append_assoc v w t, List.forall_mem_append.mpr ⟨hv, hw⟩⟩

/-- What is left behind a pattern has only bytes of the class in front of it. -/
theorem Within.exists_append (h : p.Within g) (ht : t ∈ p.rests s) :
    ∃ w, w ++ t = s ∧ ∀ b ∈ w, g b = true := by
  induction p generalizing s t with
  | empty =>
      obtain rfl := List.mem_singleton.mp ht
      exact ⟨[], rfl, by simp⟩
  | one f =>
      cases s with
      | nil => simp [rests] at ht
      | cons a rest =>
          rw [rests] at ht
          split_ifs at ht with hf
          · obtain rfl := List.mem_singleton.mp ht
            obtain ⟨more, hmore⟩ := Utf8.first_isPrefix a rest
            have hdrop : (a :: rest).drop (Utf8.first a rest).bytes.length = more := by
              rw [← hmore, List.drop_left]
            refine ⟨(Utf8.first a rest).bytes, ?_, h a rest hf⟩
            rw [hdrop, hmore]
          · simp at ht
  | seq p q ihp ihq =>
      obtain ⟨u, hu, hrest⟩ := List.mem_flatMap.mp ht
      obtain ⟨w, rfl, hw⟩ := ihq h.2 hrest
      obtain ⟨v, rfl, hv⟩ := ihp h.1 hu
      exact ⟨v ++ w, List.append_assoc v w t, List.forall_mem_append.mpr ⟨hv, hw⟩⟩
  | either p q ihp ihq =>
      rcases List.mem_append.mp ht with ht | ht
      · exact ihp h.1 ht
      · exact ihq h.2 ht
  | loop long p ih => exact exists_of_mem_repeated (fun _ _ hu => ih h hu) ht

/-- A class of characters, by its ASCII characters, if the class of bytes has all beyond them. -/
theorem within_one {f : Nat → Bool} (hascii : ∀ n < 128, f n = true → g (UInt8.ofNat n) = true)
    (hbeyond : ∀ b : UInt8, 128 ≤ b → g b = true) : (one f).Within g := by
  intro a rest hf b hb
  rcases Utf8.first_cases a rest with ⟨ha, hfirst⟩ | hall
  · rw [hfirst] at hf hb
    obtain rfl := List.mem_singleton.mp hb
    have hcode := hascii b.toNat (UInt8.lt_iff_toNat_lt.mp ha) hf
    rwa [UInt8.ofNat_toNat] at hcode
  · exact hbeyond b (hall b hb)

end Within

end Pattern

end CodeLayout
