import CodeLayout.Proofs.Comment.Closing
import CodeLayout.Proofs.Token.Literals

/-!
# Errors of the lexer

An unrecognized character, a comment that is not closed and a literal that is not closed are
reported, in the order of the tokens, and nothing else is. Whether a token is closed is told from
its last bytes. For a comment that is enough, as the first closing delimiter ends it. A literal on
one line may end in a quote that a backslash takes along, and then it is not reported.
-/

namespace CodeLayout

namespace Bytes

/-- Whether a text is a complete literal between triple quotes. -/
def IsTextBlock (s : Bytes) : Prop :=
  6 ≤ s.length ∧ tripleQuote <+: s ∧ tripleQuote <:+ s

instance : DecidablePred IsTextBlock := fun _ => inferInstanceAs (Decidable (_ ∧ _))

/-- Whether a literal ends, behind its opening quote, in that quote and no backslash escapes it: an
even number of them stands in front of it. -/
def EndsUnescaped (s : Bytes) : Prop :=
  2 ≤ s.length ∧ s.getLast? = s.head? ∧ backslashes s.tail.dropLast % 2 = 0

instance : DecidablePred EndsUnescaped := fun _ => inferInstanceAs (Decidable (_ ∧ _))

/-- Whether a literal on one line ends in its own quote and a backslash takes that quote along. -/
def EndsEscaped (s : Bytes) : Prop :=
  ∃ quote body, IsQuoted quote body ∧ s = quote :: (body ++ [92, quote])

/-- Whether a text starts with the opening delimiter of a comment that is closed nowhere. -/
def IsUnclosedComment (s : Bytes) : Prop :=
  ascii "/*" <+: s ∧ ¬commentEnd <:+: s.drop 2

instance : DecidablePred IsUnclosedComment := fun _ => inferInstanceAs (Decidable (_ ∧ _))

/-- A quote that a backslash takes along closes nothing. -/
theorem EndsEscaped.not_closed {s : Bytes} (h : s.EndsEscaped) :
    ¬(s.IsTextBlock ∨ s.EndsUnescaped) := by
  obtain ⟨quote, body, hbody, rfl⟩ := h
  rw [not_or]
  constructor
  · rintro ⟨-, hquotes, -⟩
    rw [tripleQuote_eq] at hquotes
    obtain ⟨more, hmore⟩ := hquotes
    obtain ⟨rfl, hmore⟩ := List.cons.inj hmore
    cases hbody with
    | nil => cases hmore
    | plain hb _ =>
        obtain ⟨rfl, -⟩ := List.cons.inj hmore
        exact (Pattern.isPlain_iff.mp hb).1 rfl
    | escape => cases hmore
  · rintro ⟨-, -, heven⟩
    have hfront : body ++ [92, quote] = (body ++ [92]) ++ [quote] := by simp
    rw [List.tail_cons, hfront, List.dropLast_concat, backslashes_concat] at heven
    have hbodyEven := hbody.backslashes_even
    omega

end Bytes

/-- What a token is to be reported for, if anything. -/
def Token.flaw? (t : Token) : Option Problem :=
  match t.kind with
  | .unrecognized => some (.unrecognizedCharacter t.text)
  | .comment => if t.text.IsUnclosedComment then some .unterminatedComment else none
  | .string =>
    if t.text.IsTextBlock ∨ t.text.EndsUnescaped then none else some .unterminatedLiteral
  | _ => none

namespace Lexer

variable {text rest : Bytes} {t : Token}

/-- A literal is taken to be closed if its last byte is its first one once more. -/
theorem isClosed_literal : isClosed text (text.take 1) 1 = true ↔
    2 ≤ text.length ∧ text.getLast? = text.head? := by
  cases text with
  | nil => simp [isClosed]
  | cons quote text =>
      have htake : (quote :: text).take 1 = [quote] := rfl
      rw [htake, isClosed, Bool.and_eq_true, decide_eq_true_eq, List.isSuffixOf_iff_suffix,
        List.head?_cons, List.getLast?_eq_some_iff]
      refine and_congr_right fun _ => ?_
      constructor
      · rintro ⟨front, hfront⟩
        exact ⟨front, hfront.symm⟩
      · rintro ⟨front, hfront⟩
        exact ⟨front, hfront.symm⟩

/-- What closes a literal is taken for it, and a quote that a backslash takes along as well. -/
theorem isClosed_of_ends (h : text.IsTextBlock ∨ text.EndsUnescaped ∨ text.EndsEscaped) :
    isClosed text (text.take 1) 1 = true := by
  rw [isClosed_literal]
  rcases h with hblock | hunescaped | hescaped
  · obtain ⟨hlength, ⟨back, hback⟩, ⟨front, hfront⟩⟩ := hblock
    have hhead : text.head? = some 34 := by
      rw [← hback, tripleQuote_eq]
      rfl
    have hlast : text.getLast? = some 34 := by
      rw [← hfront, tripleQuote_eq]
      simp
    exact ⟨by omega, hlast.trans hhead.symm⟩
  · exact ⟨hunescaped.1, hunescaped.2.1⟩
  · obtain ⟨quote, body, -, rfl⟩ := hescaped
    simp [List.getLast?_cons]

/-- A literal whose last byte is its first one once more is closed, unless a backslash takes that
byte along. -/
theorem ends_of_isClosed (h : IsLiteral text rest)
    (hclosed : isClosed text (text.take 1) 1 = true) :
    text.IsTextBlock ∨ text.EndsUnescaped ∨ text.EndsEscaped := by
  cases h with
  | block => exact Or.inl ⟨by simp [tripleQuote_eq], ⟨_, (List.append_assoc _ _ _).symm⟩, ⟨_, rfl⟩⟩
  | @line quote text _ htext =>
      cases htext with
      | closed hbody =>
          refine Or.inr (Or.inl ⟨by simp, by simp [List.getLast?_cons], ?_⟩)
          rw [List.tail_cons, List.dropLast_concat]
          exact hbody.backslashes_even
      | unclosed hbody =>
          obtain ⟨hlength, hlast⟩ := isClosed_literal.mp hclosed
          cases text with
          | nil => simp at hlength
          | cons b text =>
              rw [List.getLast?_cons_cons] at hlast
              obtain ⟨front, hfront, heq⟩ := hbody.exists_escape hlast
              exact Or.inr (Or.inr ⟨quote, front, hfront, by rw [heq]⟩)

/-- A comment is taken to be closed exactly if it is. -/
theorem isUnclosedComment_iff (h : IsComment text rest) :
    text.IsUnclosedComment ↔
      CommentStyle.ofText text ≠ .line ∧ isClosed text commentEnd 2 = false := by
  have hopening : ascii "/*" = [47, 42] := by decide
  have hstyle : ∀ body, CommentStyle.ofText (47 :: 42 :: body) ≠ .line := by
    intro body
    rw [CommentStyle.ofText_block]
    split <;> decide
  rw [Bytes.IsUnclosedComment, hopening]
  cases h with
  | @line body =>
      have hline := CommentStyle.ofText_line body
      simp [hline]
  | @closed body _ hbody =>
      have hcloses : body.Closes true := lengthThrough?_eq_length_iff.mp hbody
      rw [hcloses.isClosed_eq]
      obtain ⟨inner, hinner, -⟩ := hcloses
      have hin : commentEnd <:+: body := ⟨inner, [], by rw [hinner, List.append_nil]⟩
      simp [hin]
  | @unclosed body hbody =>
      have hopen : body.Closes false := lengthThrough?_eq_none_iff.mp hbody
      rw [hopen.isClosed_eq]
      exact ⟨fun _ => ⟨hstyle body, rfl⟩, fun _ => ⟨List.prefix_append [47, 42] body, hopen⟩⟩

variable {s : Bytes}

/-- A literal that ends in a quote taken along by a backslash is not reported. -/
theorem problem?_of_endsEscaped (hkind : t.kind = .string) (h : t.text.EndsEscaped) :
    problem? t = none ∧ t.flaw? = some .unterminatedLiteral := by
  have hclosed := isClosed_of_ends (Or.inr (Or.inr h))
  rw [problem?, Token.flaw?, hkind]
  exact ⟨if_pos hclosed, if_neg h.not_closed⟩

/-- Any other token is reported for what it is to be reported for. -/
theorem problem?_eq_flaw? (ht : t ∈ Token.ofText s)
    (h : t.kind = .string → ¬t.text.EndsEscaped) : problem? t = t.flaw? := by
  rw [problem?, Token.flaw?]
  cases hkind : t.kind with
  | comment =>
      have hiff := isUnclosedComment_iff (Token.isComment ht hkind)
      rw [commentEnd] at hiff
      simp only [hiff, Bool.and_eq_true, bne_iff_ne, Bool.not_eq_true']
  | string =>
      have hends : isClosed t.text (t.text.take 1) 1 = true ↔
          t.text.IsTextBlock ∨ t.text.EndsUnescaped := by
        constructor
        · intro hclosed
          rcases ends_of_isClosed (Token.isLiteral ht hkind) hclosed with
            hblock | hunescaped | hescaped
          · exact Or.inl hblock
          · exact Or.inr hunescaped
          · exact absurd hescaped (h hkind)
        · exact fun hends => isClosed_of_ends (hends.imp_right Or.inl)
      simp only [hends]
  | _ => rfl

end Lexer

namespace TokenStream

/-- The error with which a token of a file is reported. -/
def errorAt (file : SourceFile) (t : Token) (problem : Problem) : Diagnostic :=
  { level := .error, problem, span := ⟨some file, t.start, t.stop⟩ }

/-- What the tokens of a file are to be reported for, in their order. -/
def flaws (file : SourceFile) : Report :=
  (ofFile file).tokens.toList.filterMap fun t => t.flaw?.map (errorAt file t)

section File

variable {file : SourceFile} {t : Token}

/-- An error names the token that it is about. -/
theorem eq_of_errorAt {u : Token} {problem problem' : Problem}
    (ht : t ∈ (ofFile file).tokens.toList) (hu : u ∈ (ofFile file).tokens.toList)
    (h : errorAt file t problem = errorAt file u problem') : t = u := by
  have hin := ofFile_inOrder file
  have hstart : t.start = u.start := by
    have hspan := congrArg Diagnostic.span h
    simp only [errorAt, Span.mk.injEq] at hspan
    omega
  have htb := hin.bounds t ht
  have hub := hin.bounds u hu
  rcases hin.apart ht hu with heq | hlt | hlt
  · exact heq
  · omega
  · omega

theorem errorAt_mem_report (ht : t ∈ (ofFile file).tokens.toList) {problem : Problem} :
    errorAt file t problem ∈ (ofFile file).report ↔ Lexer.problem? t = some problem := by
  constructor
  · intro hmem
    obtain ⟨u, hu, hreported⟩ := List.mem_filterMap.mp hmem
    obtain ⟨problem', hproblem, herror⟩ := Option.map_eq_some_iff.mp hreported
    obtain rfl : u = t := eq_of_errorAt hu ht herror
    obtain rfl : problem' = problem := congrArg Diagnostic.problem herror
    exact hproblem
  · intro hproblem
    exact List.mem_filterMap.mpr ⟨t, ht, Option.map_eq_some_iff.mpr ⟨problem, hproblem, rfl⟩⟩

theorem filterMap_sublist {α β : Type} {f g : α → Option β} {l : List α}
    (h : ∀ a ∈ l, f a = none ∨ f a = g a) : (l.filterMap f).Sublist (l.filterMap g) := by
  induction l with
  | nil => exact .slnil
  | cons a l ih =>
      obtain ⟨ha, hl⟩ := List.forall_mem_cons.mp h
      rcases ha with hnone | hsame
      · rw [List.filterMap_cons_none hnone]
        exact (ih hl).trans ((List.sublist_cons_self a l).filterMap g)
      · rw [List.filterMap_cons, List.filterMap_cons, hsame]
        cases g a with
        | none => exact ih hl
        | some b => exact (ih hl).cons_cons b

/-- Nothing is reported but what is to be reported. -/
theorem report_sublist_flaws (file : SourceFile) : (ofFile file).report.Sublist (flaws file) := by
  refine filterMap_sublist fun t ht => ?_
  by_cases hescaped : t.kind = .string ∧ t.text.EndsEscaped
  · have hnone := (Lexer.problem?_of_endsEscaped hescaped.1 hescaped.2).1
    exact Or.inl (congrArg (Option.map (errorAt file t)) hnone)
  · have hflaw := Lexer.problem?_eq_flaw? ht (not_and.mp hescaped)
    exact Or.inr (congrArg (Option.map (errorAt file t)) hflaw)

end File

/-- What is reported is part of what is to be reported, in its order, and it is all of it exactly if
no literal ends in its own quote taken along by a backslash. Such a literal is not closed, and it is
not reported; any other token is reported for what it is to be reported for. -/
theorem report_ofFile_iff (file : SourceFile) :
    (ofFile file).report.Sublist (flaws file) ∧
    ((ofFile file).report = flaws file ↔
      ∀ t ∈ (ofFile file).tokens.toList, t.kind = .string → ¬t.text.EndsEscaped) ∧
    ∀ t ∈ (ofFile file).tokens.toList,
      (t.kind = .string → t.text.EndsEscaped → t.flaw? = some .unterminatedLiteral ∧
        ∀ problem, errorAt file t problem ∉ (ofFile file).report) ∧
      ((t.kind = .string → ¬t.text.EndsEscaped) → ∀ problem,
        errorAt file t problem ∈ (ofFile file).report ↔ t.flaw? = some problem) := by
  have hflaw : ∀ t ∈ (ofFile file).tokens.toList, t.kind = .string → t.text.EndsEscaped →
      t.flaw? = some .unterminatedLiteral ∧
        ∀ problem, errorAt file t problem ∉ (ofFile file).report := by
    intro t ht hkind hescaped
    obtain ⟨hnone, hflaw⟩ := Lexer.problem?_of_endsEscaped hkind hescaped
    refine ⟨hflaw, fun problem hmem => ?_⟩
    rw [errorAt_mem_report ht, hnone] at hmem
    cases hmem
  refine ⟨report_sublist_flaws file, ?_, fun t ht => ⟨hflaw t ht, fun h problem => ?_⟩⟩
  · constructor
    · intro heq t ht hkind hescaped
      obtain ⟨hflaw, hunreported⟩ := hflaw t ht hkind hescaped
      refine hunreported .unterminatedLiteral ?_
      rw [heq]
      exact List.mem_filterMap.mpr ⟨t, ht, by rw [hflaw]; rfl⟩
    · intro h
      refine List.filterMap_congr fun t ht => ?_
      rw [← Lexer.problem?_eq_flaw? ht (h t ht)]
      rfl
  · rw [errorAt_mem_report ht, Lexer.problem?_eq_flaw? ht h]

/-- A literal that ends in an escaped quote is not closed and not reported. -/
theorem report_ofFile_escaped :
    (ofFile ⟨[], ascii "\"a\\\""⟩).tokens.toList = [⟨.string, 0, ascii "\"a\\\""⟩] ∧
      ¬Bytes.IsTextBlock (ascii "\"a\\\"") ∧ ¬Bytes.EndsUnescaped (ascii "\"a\\\"") ∧
      (ofFile ⟨[], ascii "\"a\\\""⟩).report = [] :=
  ⟨by decide +kernel, by decide, by decide, by decide +kernel⟩

end TokenStream

end CodeLayout
