import CodeLayout.Token.Lexer
import Mathlib.Data.List.Chain

/-!
# The order of tokens

A token is what the rule of its kind recognizes at the start of what is left. So no token of a text
is empty, and each ends before the next one starts.
-/

namespace CodeLayout

/-- The tokens of a list follow each other between two offsets, and none of them is empty. -/
structure Token.InOrder (first last : Nat) (ts : List Token) : Prop where
  pairwise : ts.Pairwise fun a b => a.stop ≤ b.start
  bounds : ∀ t ∈ ts, first ≤ t.start ∧ t.start < t.stop ∧ t.stop ≤ last

namespace Token.InOrder

variable {first last : Nat} {t w : Token} {ts us : List Token}

theorem tail (h : InOrder first last (t :: ts)) : InOrder t.stop last ts := by
  obtain ⟨hfirst, hrest⟩ := List.pairwise_cons.mp h.pairwise
  refine ⟨hrest, fun u hu => ?_⟩
  have hu' := h.bounds u (List.mem_cons_of_mem t hu)
  exact ⟨hfirst u hu, hu'.2⟩

theorem nil : InOrder first last [] :=
  ⟨List.Pairwise.nil, by simp⟩

theorem append_right (h : InOrder first last (ts ++ us)) : InOrder first last us :=
  ⟨(List.pairwise_append.mp h.pairwise).2.1, fun u hu => h.bounds u (List.mem_append_right ts hu)⟩

theorem append_left (h : InOrder first last (ts ++ us)) : InOrder first last ts :=
  ⟨(List.pairwise_append.mp h.pairwise).1, fun u hu => h.bounds u (List.mem_append_left us hu)⟩

theorem le_of_mem_left (h : InOrder first last (ts ++ t :: us)) (hw : w ∈ ts) :
    w.stop ≤ t.start :=
  (List.pairwise_append.mp h.pairwise).2.2 w hw t List.mem_cons_self

theorem le_of_mem_right (h : InOrder first last (ts ++ t :: us)) (hw : w ∈ us) :
    t.stop ≤ w.start :=
  (h.append_right.tail.bounds w hw).1

/-- Of two tokens one ends before the other starts. -/
theorem apart (h : InOrder first last ts) {u : Token} (ht : t ∈ ts) (hu : u ∈ ts) :
    t = u ∨ t.stop ≤ u.start ∨ u.stop ≤ t.start := by
  obtain ⟨i, hi, rfl⟩ := List.mem_iff_getElem.mp ht
  obtain ⟨j, hj, rfl⟩ := List.mem_iff_getElem.mp hu
  have hpair := List.pairwise_iff_getElem.mp h.pairwise
  rcases Nat.lt_trichotomy i j with hij | rfl | hij
  · exact Or.inr (Or.inl (hpair i j hi hj hij))
  · exact Or.inl rfl
  · exact Or.inr (Or.inr (hpair j i hj hi hij))

end Token.InOrder

namespace Lexer

section FirstToken

variable {s : Bytes} {kind : TokenKind} {n : Nat} {rs : List (TokenKind × (Bytes → Nat))}

theorem firstToken_of_eq_zero {rule : Bytes → Nat} (h : rule s = 0) :
    firstToken s ((kind, rule) :: rs) = firstToken s rs :=
  if_pos h

theorem firstToken_of_ne_zero {rule : Bytes → Nat} (h : rule s ≠ 0) :
    firstToken s ((kind, rule) :: rs) = (kind, rule s) :=
  if_neg h

/-- The kind of a first token is that of a rule. -/
theorem firstToken_kind (h : firstToken s rs = (kind, n)) :
    kind = .unrecognized ∨ kind ∈ rs.map (·.1) := by
  induction rs with
  | nil => exact Or.inl (Prod.mk.inj h).1.symm
  | cons r rs ih =>
      obtain ⟨kind', rule⟩ := r
      by_cases hrule : rule s = 0
      · rw [firstToken_of_eq_zero hrule] at h
        exact (ih h).imp_right (List.mem_cons_of_mem kind')
      · rw [firstToken_of_ne_zero hrule] at h
        rw [← (Prod.mk.inj h).1]
        exact Or.inr List.mem_cons_self

/-- A first token of a kind is recognized by a rule for it. -/
theorem firstToken_rule (h : firstToken s rs = (kind, n)) (hkind : kind ≠ .unrecognized) :
    ∃ rule, (kind, rule) ∈ rs ∧ rule s = n ∧ n ≠ 0 := by
  induction rs with
  | nil => exact absurd (Prod.mk.inj h).1.symm hkind
  | cons r rs ih =>
      obtain ⟨kind', rule⟩ := r
      by_cases hrule : rule s = 0
      · rw [firstToken_of_eq_zero hrule] at h
        obtain ⟨rule', hmem, hn⟩ := ih h
        exact ⟨rule', List.mem_cons_of_mem _ hmem, hn⟩
      · rw [firstToken_of_ne_zero hrule] at h
        obtain ⟨rfl, rfl⟩ := Prod.mk.inj h
        exact ⟨rule, List.mem_cons_self, rfl, hrule⟩

/-- Nothing that starts with an equals sign is a name. -/
theorem name_equals (rest : Bytes) : name (61 :: rest) = 0 := by
  have hfirst : Utf8.first 61 rest = ⟨61, [61]⟩ := if_pos (by decide)
  have hstart : startsName 61 = false := by decide +kernel
  simp [name, hfirst, hstart]

end FirstToken

theorem firstToken_pos (s : Bytes) (rs : List (TokenKind × (Bytes → Nat))) :
    0 < (firstToken s rs).2 := by
  induction rs with
  | nil => exact Nat.one_pos
  | cons r rs ih =>
      obtain ⟨kind, rule⟩ := r
      simp only [firstToken]
      split
      · exact ih
      · rename_i hne
        exact Nat.pos_of_ne_zero hne

theorem tokensFrom_inOrder (n offset : Nat) (s : Bytes) :
    Token.InOrder offset (offset + s.length) (tokensFrom n offset s) := by
  induction n generalizing offset s with
  | zero => exact Token.InOrder.nil
  | succ n ih =>
      cases s with
      | nil => exact Token.InOrder.nil
      | cons b rest =>
          have hpos := firstToken_pos (b :: rest) rules
          simp only [tokensFrom]
          generalize firstToken (b :: rest) rules = r at hpos ⊢
          obtain ⟨kind, length⟩ := r
          simp only at hpos ⊢
          have htail := ih (offset + length) ((b :: rest).drop length)
          -- A rule that takes more than there is leaves nothing behind it.
          have hlast : ∀ t ∈ tokensFrom n (offset + length) ((b :: rest).drop length),
              t.stop ≤ offset + (b :: rest).length := by
            intro t ht
            have hb := htail.bounds t ht
            rw [List.length_drop] at hb
            omega
          have htext : ((b :: rest).take length).length = min length (b :: rest).length :=
            List.length_take
          have hlen : 0 < (b :: rest).length := Nat.succ_pos _
          refine ⟨List.pairwise_cons.mpr ⟨fun t ht => ?_, htail.pairwise⟩, fun t ht => ?_⟩
          · have hb := (htail.bounds t ht).1
            simp only [Token.stop, htext]
            omega
          · rcases List.mem_cons.mp ht with rfl | ht
            · simp only [Token.stop, htext]
              omega
            · have hb := htail.bounds t ht
              exact ⟨by omega, hb.2.1, hlast t ht⟩

/-- Each token starts where the one before it ends. -/
theorem tokensFrom_isChain (n offset : Nat) (s : Bytes) :
    (tokensFrom n offset s).IsChain (fun a b => a.stop = b.start) ∧
      ∀ t ∈ (tokensFrom n offset s).head?, t.start = offset := by
  induction n generalizing offset s with
  | zero => exact ⟨.nil, nofun⟩
  | succ n ih =>
      cases s with
      | nil => exact ⟨.nil, nofun⟩
      | cons b rest =>
          simp only [tokensFrom]
          generalize firstToken (b :: rest) rules = r
          obtain ⟨kind, length⟩ := r
          obtain ⟨hchain, hhead⟩ := ih (offset + length) ((b :: rest).drop length)
          refine ⟨List.isChain_cons.mpr ⟨fun t ht => ?_, hchain⟩, ?_⟩
          · rw [hhead t ht]
            have hne : (b :: rest).drop length ≠ [] := by
              rintro hnil
              rw [hnil] at ht
              cases n <;> cases ht
            have hlt : length < (b :: rest).length := by
              rwa [ne_eq, List.drop_eq_nil_iff, Nat.not_le] at hne
            simp only [Token.stop, List.length_take, Nat.min_eq_left (Nat.le_of_lt hlt)]
          · rintro t ⟨⟩
            rfl

/-- A token of a text is the first token of what is left of the text where it starts. -/
theorem exists_firstToken {t : Token} {m offset : Nat} {s : Bytes} (h : t ∈ tokensFrom m offset s) :
    ∃ before rest, s = before ++ rest ∧ t.start = offset + before.length ∧
      ∃ n, firstToken rest rules = (t.kind, n) ∧ t.text = rest.take n := by
  induction m generalizing offset s with
  | zero => simp [tokensFrom] at h
  | succ m ih =>
      cases s with
      | nil => simp [tokensFrom] at h
      | cons b rest =>
          simp only [tokensFrom] at h
          rcases List.mem_cons.mp h with rfl | h
          · exact ⟨[], b :: rest, rfl, rfl, (firstToken (b :: rest) rules).2, rfl, rfl⟩
          · obtain ⟨before, left, hsplit, hstart, hfirst⟩ := ih h
            refine ⟨(b :: rest).take (firstToken (b :: rest) rules).2 ++ before, left, ?_, ?_,
              hfirst⟩
            · rw [List.append_assoc, ← hsplit, List.take_append_drop]
            · have hle : (firstToken (b :: rest) rules).2 ≤ (b :: rest).length := by
                by_contra hlt
                rw [List.drop_eq_nil_of_le (by omega)] at h
                cases m <;> simp [tokensFrom] at h
              rw [hstart, List.length_append, List.length_take_of_le hle, Nat.add_assoc]

end Lexer

/-- The text of a token stands where the token starts. -/
theorem Token.exists_split {s : Bytes} {t : Token} (h : t ∈ ofText s) :
    ∃ before after, s = before ++ t.text ++ after ∧ t.start = before.length := by
  obtain ⟨before, rest, rfl, hstart, n, -, htext⟩ := Lexer.exists_firstToken h
  refine ⟨before, rest.drop n, ?_, by omega⟩
  rw [htext, List.append_assoc, List.take_append_drop]

/-- A token is the first token of what is left of the text, and the text goes on behind it. -/
theorem Token.exists_rest {s : Bytes} {t : Token} (h : t ∈ ofText s) :
    ∃ rest n, Lexer.firstToken rest Lexer.rules = (t.kind, n) ∧ t.text = rest.take n ∧
      s.drop t.stop = rest.drop n := by
  obtain ⟨before, rest, rfl, hstart, n, hfirst, htext⟩ := Lexer.exists_firstToken h
  refine ⟨rest, n, hfirst, htext, ?_⟩
  rw [Token.stop, hstart, htext, List.length_take, Nat.zero_add, ← List.drop_drop, List.drop_left]
  rcases Nat.le_total n rest.length with hle | hle
  · rw [Nat.min_eq_left hle]
  · rw [Nat.min_eq_right hle, List.drop_length, List.drop_eq_nil_of_le hle]

/-- A name is no equals sign. -/
theorem Token.text_ne_equals {s : Bytes} {t : Token} (h : t ∈ ofText s) (hkind : t.kind = .ident) :
    t.text ≠ [61] := by
  intro htext
  obtain ⟨before, rest, -, -, n, hfirst, htake⟩ := Lexer.exists_firstToken h
  rw [hkind] at hfirst
  obtain ⟨rule, hmem, hrule, hn⟩ := Lexer.firstToken_rule hfirst (by decide)
  obtain rfl : rule = Lexer.name := by
    simpa [Lexer.rules] using hmem
  rw [htext] at htake
  obtain ⟨more, rfl⟩ : ∃ more, rest = 61 :: more := by
    cases rest with
    | nil => simp at htake
    | cons a more =>
        cases n with
        | zero => exact absurd rfl hn
        | succ n =>
            rw [List.take_succ_cons] at htake
            exact ⟨more, by rw [(List.cons.inj htake).1]⟩
  rw [Lexer.name_equals] at hrule
  exact hn hrule.symm

theorem Token.text_ne_nil {s : Bytes} {t : Token} (h : t ∈ ofText s) : t.text ≠ [] := by
  intro htext
  have hbounds := ((Lexer.tokensFrom_inOrder s.length 0 s).bounds t h).2.1
  simp [Token.stop, htext] at hbounds

theorem TokenStream.ofFile_isChain (file : SourceFile) :
    (TokenStream.ofFile file).tokens.toList.IsChain fun a b => a.stop = b.start :=
  (Lexer.tokensFrom_isChain _ _ _).1

/-- The tokens of a file follow each other within its text. -/
theorem TokenStream.ofFile_inOrder (file : SourceFile) :
    Token.InOrder 0 file.text.length (TokenStream.ofFile file).tokens.toList := by
  have h := Lexer.tokensFrom_inOrder file.text.length 0 file.text
  rw [Nat.zero_add] at h
  exact h

end CodeLayout
