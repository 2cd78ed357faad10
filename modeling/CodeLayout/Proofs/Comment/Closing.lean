import CodeLayout.Proofs.Comment.Lines

/-!
# Where a comment is closed

The closing delimiter of a comment ends the first text that holds it. A body without the delimiter
can be cut anywhere and put together again, as long as no cut brings a star and a slash together.
-/

namespace CodeLayout

/-- Whether a text nowhere closes a comment. -/
def Bytes.IsOpen (s : Bytes) : Prop :=
  ¬commentEnd <:+: s

/-- Whether a text closes a comment at its end, or nowhere. -/
def Bytes.Closes (closed : Bool) (s : Bytes) : Prop :=
  if closed then ∃ inner : Bytes, s = inner ++ commentEnd ∧ inner.IsOpen else s.IsOpen

namespace Bytes.IsOpen

variable {s t : Bytes}

theorem nil : Bytes.IsOpen [] := by
  simp [Bytes.IsOpen, commentEnd_eq]

theorem of_isInfix (h : t.IsOpen) (hst : s <:+: t) : s.IsOpen :=
  fun hs => h (hs.trans hst)

theorem of_not_mem (h : 42 ∉ s) : s.IsOpen :=
  fun hs => h (hs.subset (by simp [commentEnd_eq]))

/-- Two texts that close nothing close nothing together unless a star and a slash meet. -/
theorem append_of (hs : s.IsOpen) (ht : t.IsOpen) (h : s.getLast? = some 42 → t.head? ≠ some 47) :
    Bytes.IsOpen (s ++ t) := by
  induction s with
  | nil => exact ht
  | cons b s ih =>
      have hrest : Bytes.IsOpen (s ++ t) := by
        refine ih (hs.of_isInfix (List.suffix_cons b s).isInfix) fun hlast => h ?_
        cases s with
        | nil => cases hlast
        | cons c s => rwa [List.getLast?_cons_cons]
      intro hin
      rcases List.infix_cons_iff.mp hin with ⟨more, hmore⟩ | hin
      · rw [commentEnd_eq] at hmore
        obtain ⟨rfl, htail⟩ := List.cons.inj hmore
        cases s with
        | nil => exact h rfl (congrArg List.head? htail).symm
        | cons c s =>
            obtain ⟨rfl, -⟩ := List.cons.inj htail
            exact hs ⟨[], s, by rw [commentEnd_eq]; rfl⟩
      · exact hrest hin

theorem append_of_head (hs : s.IsOpen) (ht : t.IsOpen) (h : t.head? ≠ some 47) :
    Bytes.IsOpen (s ++ t) :=
  hs.append_of ht fun _ => h

theorem append_of_last (hs : s.IsOpen) (ht : t.IsOpen) (h : s.getLast? ≠ some 42) :
    Bytes.IsOpen (s ++ t) :=
  hs.append_of ht fun hlast => absurd hlast h

theorem cons {b : UInt8} (ht : t.IsOpen) (h : b ≠ 42) : Bytes.IsOpen (b :: t) :=
  append_of_last (of_not_mem (s := [b]) (by simpa using h.symm)) ht (by simpa using h)

theorem join {ts : List Bytes} (h : ∀ t ∈ ts, t.IsOpen) : (Bytes.join [32] ts).IsOpen := by
  fun_induction Bytes.join [32] ts with
  | case1 => exact nil
  | case2 t => exact h t List.mem_cons_self
  | case3 t u ts ih =>
      have hrest := ih fun v hv => h v (List.mem_cons_of_mem t hv)
      rw [List.append_assoc]
      exact (h t List.mem_cons_self).append_of_head (hrest.cons (by decide)) (by simp)

end Bytes.IsOpen

namespace Bytes.Closes

variable {closed : Bool} {s t : Bytes}

theorem append_of_head (hs : s.IsOpen) (ht : t.Closes closed) (h : t.head? ≠ some 47) :
    Bytes.Closes closed (s ++ t) := by
  cases closed with
  | false => exact hs.append_of_head ht h
  | true =>
      obtain ⟨inner, rfl, hinner⟩ := ht
      refine ⟨s ++ inner, by simp, hs.append_of_head hinner ?_⟩
      cases inner with
      | nil => simp
      | cons b inner => exact h

theorem cons {b : UInt8} (ht : t.Closes closed) (h : b ≠ 42) : Bytes.Closes closed (b :: t) := by
  cases closed with
  | false => exact IsOpen.cons ht h
  | true =>
      obtain ⟨inner, rfl, hinner⟩ := ht
      exact ⟨b :: inner, rfl, hinner.cons h⟩

theorem of_cons {b : UInt8} (h : Bytes.Closes closed (b :: t)) (hb : b ≠ 42) :
    t.Closes closed := by
  cases closed with
  | false => exact IsOpen.of_isInfix h (List.suffix_cons b t).isInfix
  | true =>
      obtain ⟨inner, heq, hinner⟩ := h
      cases inner with
      | nil =>
          obtain ⟨rfl, -⟩ := List.cons.inj heq
          exact absurd rfl hb
      | cons c inner =>
          obtain ⟨rfl, rfl⟩ := List.cons.inj heq
          exact ⟨inner, rfl, hinner.of_isInfix (List.suffix_cons b inner).isInfix⟩

/-- A text is closed at its end as what is behind a byte that is no part of the delimiter. -/
theorem of_append {b : UInt8} (h : Bytes.Closes closed (s ++ b :: t)) (hb : b ≠ 42)
    (hb' : b ≠ 47) : s.IsOpen ∧ t.Closes closed := by
  cases closed with
  | false =>
      have hopen : Bytes.IsOpen (s ++ b :: t) := h
      exact ⟨hopen.of_isInfix (List.prefix_append _ _).isInfix,
        hopen.of_isInfix ((List.suffix_cons b t).trans (List.suffix_append _ _)).isInfix⟩
  | true =>
      obtain ⟨inner, heq, hinner⟩ := h
      rw [commentEnd_eq] at heq
      rcases List.append_eq_append_iff.mp heq with ⟨more, rfl, htail⟩ | ⟨more, rfl, htail⟩
      · cases more with
        | nil => exact absurd (List.cons.inj htail).1 hb
        | cons c more =>
            obtain ⟨rfl, rfl⟩ := List.cons.inj htail
            exact ⟨hinner.of_isInfix (List.prefix_append _ _).isInfix, more,
              by rw [commentEnd_eq]; rfl,
              hinner.of_isInfix ((List.suffix_cons _ more).trans (List.suffix_append _ _)).isInfix⟩
      · match more, htail with
        | [], htail => exact absurd (List.cons.inj htail).1.symm hb
        | [_], htail => exact absurd (List.cons.inj (List.cons.inj htail).2).1.symm hb'
        | [_, _], htail => cases (List.cons.inj (List.cons.inj htail).2).2
        | _ :: _ :: _ :: _, htail => cases (List.cons.inj (List.cons.inj htail).2).2

end Bytes.Closes

section LengthThrough

variable {closed : Bool} {s body text rest : Bytes}

theorem lengthThrough?_eq_none_iff : Lexer.lengthThrough? commentEnd s = none ↔ s.IsOpen := by
  induction s with
  | nil => exact ⟨fun _ => Bytes.IsOpen.nil, fun _ => rfl⟩
  | cons b s ih =>
      rw [Lexer.lengthThrough?, Bytes.IsOpen, List.infix_cons_iff, not_or,
        ← List.isPrefixOf_iff_prefix]
      split_ifs with hopens
      · simp [hopens]
      · rw [Option.map_eq_none_iff, ih]
        simp [hopens, Bytes.IsOpen]

theorem lengthThrough?_eq_length_iff :
    Lexer.lengthThrough? commentEnd s = some s.length ↔ s.Closes true := by
  induction s with
  | nil => simp [Lexer.lengthThrough?, Bytes.Closes, commentEnd_eq]
  | cons b s ih =>
      rw [Lexer.lengthThrough?]
      split_ifs with hopens
      · obtain ⟨more, hmore⟩ := List.isPrefixOf_iff_prefix.mp hopens
        rw [← hmore, commentEnd_eq, List.length_append, Option.some_inj]
        constructor
        · intro hlength
          obtain rfl : more = [] := List.length_eq_zero_iff.mp (by omega)
          exact ⟨[], by rw [commentEnd_eq]; rfl, Bytes.IsOpen.nil⟩
        · rintro ⟨inner, heq, hinner⟩
          rw [commentEnd_eq] at heq
          rcases inner with _ | ⟨c, _ | ⟨d, inner⟩⟩
          · simpa using (congrArg List.length heq).symm
          · cases (List.cons.inj (List.cons.inj heq).2).1
          · obtain ⟨rfl, htail⟩ := List.cons.inj heq
            obtain ⟨rfl, -⟩ := List.cons.inj htail
            exact absurd ⟨[], inner, by rw [commentEnd_eq]; rfl⟩ hinner
      · rw [Option.map_eq_some_iff]
        constructor
        · rintro ⟨n, hn, heq⟩
          obtain rfl : n = s.length := by simpa using heq
          obtain ⟨inner, rfl, hinner⟩ := ih.mp hn
          refine ⟨b :: inner, rfl, fun hin => ?_⟩
          rcases List.infix_cons_iff.mp hin with hstart | hin
          · refine hopens (List.isPrefixOf_iff_prefix.mpr (hstart.trans ?_))
            exact (List.prefix_cons_inj b).mpr (List.prefix_append _ _)
          · exact hinner hin
        · rintro ⟨inner, heq, hinner⟩
          cases inner with
          | nil => simp [heq] at hopens
          | cons c inner =>
              obtain ⟨rfl, rfl⟩ := List.cons.inj heq
              have hopen := hinner.of_isInfix (List.suffix_cons b inner).isInfix
              exact ⟨_, ih.mpr ⟨inner, rfl, hopen⟩, by simp⟩

/-- A comment between delimiters is closed at its end, or nowhere. -/
theorem IsComment.closes (h : IsComment text rest) (hline : CommentStyle.ofText text ≠ .line) :
    ∃ (closed : Bool) (body : Bytes), text = 47 :: 42 :: body ∧ body.Closes closed := by
  cases h with
  | line hbody hrest => exact absurd (CommentStyle.ofText_line _) hline
  | closed hbody => exact ⟨true, _, rfl, lengthThrough?_eq_length_iff.mp hbody⟩
  | unclosed hbody => exact ⟨false, _, rfl, lengthThrough?_eq_none_iff.mp hbody⟩

namespace Bytes.Closes

/-- What is between delimiters is read as one comment. -/
theorem ofText_eq (h : body.Closes closed) :
    Token.ofText (47 :: 42 :: body) = [⟨.comment, 0, 47 :: 42 :: body⟩] := by
  have hfirst : Lexer.firstToken (47 :: 42 :: body) Lexer.rules = (.comment, 2 + body.length) := by
    cases closed with
    | false => exact Lexer.firstToken_unclosed (lengthThrough?_eq_none_iff.mpr h)
    | true => exact Lexer.firstToken_closed (lengthThrough?_eq_length_iff.mpr h)
  have hall : (47 :: 42 :: body).length ≤ 2 + body.length := by simp; omega
  rw [Token.ofText, List.length_cons, Lexer.tokensFrom, hfirst]
  dsimp only
  rw [List.take_of_length_le hall, List.drop_eq_nil_of_le hall, List.length_cons, Lexer.tokensFrom]

/-- Whether a comment is closed is read off its end. -/
theorem isClosed_eq (h : body.Closes closed) :
    Lexer.isClosed (47 :: 42 :: body) commentEnd 2 = closed := by
  cases closed with
  | true =>
      obtain ⟨inner, rfl, -⟩ := h
      have hsuffix : commentEnd <:+ 47 :: 42 :: (inner ++ commentEnd) :=
        List.suffix_append (47 :: 42 :: inner) commentEnd
      rw [Lexer.isClosed, List.isSuffixOf_iff_suffix.mpr hsuffix, Bool.and_true,
        decide_eq_true_iff]
      simp only [List.length_cons, List.length_append]
      omega
  | false =>
      rw [Bool.eq_false_iff]
      intro hclosed
      simp only [Lexer.isClosed, Bool.and_eq_true, decide_eq_true_eq, List.length_cons] at hclosed
      obtain ⟨hlength, hsuffix⟩ := hclosed
      have hbody : body <:+ 47 :: 42 :: body := List.suffix_append [47, 42] body
      exact h (List.suffix_of_suffix_length_le (List.isSuffixOf_iff_suffix.mp hsuffix) hbody
        (by omega)).isInfix

end Bytes.Closes

end LengthThrough

end CodeLayout
