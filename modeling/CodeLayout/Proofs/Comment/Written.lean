import CodeLayout.Proofs.Comment.Blocks
import CodeLayout.Proofs.LineComments

/-!
# Written comments are comments

What is written for a comment is read as that comment again: a comment between delimiters as one
comment of the same form, closed or not as it was, and line comments as one line comment for each
line. No way of laying out a comment makes code of its text, or a comment of what follows it.
-/

namespace CodeLayout

/-- The text that is written for a comment that is laid out within a limit from a column on. -/
def Comment.written (x : Writer.Context) (c : Comment) (column limit : Int) (p : Placement) :
    Bytes :=
  Writer.commentText x c.text { p with rendered := some (c.render column limit) }

section Separator

variable {x : Writer.Context}

theorem Writer.isEol_separator (h : x.style.separator ∈ Style.separators) :
    separator x ≠ [] ∧ ∀ b ∈ separator x, Lexer.isEol b = true := by
  have hall : ∀ sep ∈ Style.separators, sep ≠ [] ∧ sep.all Lexer.isEol = true := by decide
  obtain ⟨hne, heol⟩ := hall _ h
  rw [separator_eq h]
  exact ⟨hne, List.all_eq_true.mp heol⟩

end Separator

theorem Lexer.isSpace_of_isEol {b : UInt8} (h : isEol b = true) : isSpace b = true := by
  simp only [isEol, isSpace, Bool.or_eq_true, decide_eq_true_eq] at h ⊢
  tauto

section Blocks

variable {x : Writer.Context} {hanging first : Bytes} {rest : List Bytes} {closed : Bool}

theorem Bytes.Closes.append_of_not_mem {s t : Bytes} (hs : 42 ∉ s) (ht : t.Closes closed) :
    Bytes.Closes closed (s ++ t) := by
  induction s with
  | nil => exact ht
  | cons b s ih =>
      rw [List.mem_cons, not_or] at hs
      exact (ih hs.2).cons (Ne.symm hs.1)

variable (hsep : x.style.separator ∈ Style.separators) (hhang : ∀ b ∈ hanging, b = 32 ∨ b = 9)
include hsep

theorem head?_flatMap_commentLine (hanging : Bytes) (rest : List Bytes) :
    ∀ b ∈ (rest.flatMap (Writer.commentLine x hanging)).head?, Lexer.isEol b = true := by
  obtain ⟨hne, heol⟩ := Writer.isEol_separator hsep
  obtain ⟨b, more, hcons⟩ := List.exists_cons_of_ne_nil hne
  cases rest with
  | nil => nofun
  | cons l rest =>
      intro c hc
      rw [List.flatMap_cons, Writer.commentLine, hcons] at hc
      obtain rfl := Option.some.inj hc
      exact heol b (by rw [hcons]; exact List.mem_cons_self)

include hhang

/-- Lines that are put together close a comment where they do. -/
theorem Comment.LinesClose.closes (h : LinesClose closed (first :: rest)) :
    Bytes.Closes closed (first ++ rest.flatMap (Writer.commentLine x hanging)) := by
  obtain ⟨-, heol⟩ := Writer.isEol_separator hsep
  induction rest generalizing first with
  | nil => simpa [LinesClose] using h
  | cons l rest ih =>
      have hnext := ih h.2
      have hstar : (42 : UInt8) ∉ Writer.separator x := fun hb => by
        have := heol 42 hb
        contradiction
      have hline : Bytes.Closes closed
          ((l :: rest).flatMap (Writer.commentLine x hanging)) := by
        rw [List.flatMap_cons, Writer.commentLine, List.append_assoc]
        refine Bytes.Closes.append_of_not_mem hstar ?_
        split_ifs with hempty
        · rw [List.isEmpty_iff.mp hempty] at hnext
          exact hnext
        · rw [List.append_assoc]
          refine Bytes.Closes.append_of_not_mem (fun hb => ?_) hnext
          rcases hhang 42 hb with h | h <;> contradiction
      refine Bytes.Closes.append_of_head h.1 hline fun hhead => ?_
      have := head?_flatMap_commentLine hsep hanging (l :: rest) 47 hhead
      contradiction

omit hhang in
/-- Lines that are put together make a doc comment if they did. -/
theorem Comment.isDoc_iff_closes (hanging : Bytes) :
    IsDoc first rest ↔ (first ++ rest.flatMap (Writer.commentLine x hanging)).head? = some 42 ∧
      first ++ rest.flatMap (Writer.commentLine x hanging) ≠ commentEnd := by
  have hnext := head?_flatMap_commentLine hsep hanging rest
  have hhead : (first ++ rest.flatMap (Writer.commentLine x hanging)).head? = some 42 ↔
      first.head? = some 42 := by
    cases first with
    | cons b first => rfl
    | nil =>
        refine iff_of_false (fun h => ?_) nofun
        have := hnext 42 h
        contradiction
  have hend : first ++ rest.flatMap (Writer.commentLine x hanging) = commentEnd ↔
      first = commentEnd ∧ rest = [] := by
    refine ⟨fun h => ?_, fun ⟨hfirst, hrest⟩ => by simp [hfirst, hrest]⟩
    -- No byte of the delimiter breaks a line.
    have hnil : rest.flatMap (Writer.commentLine x hanging) = [] := by
      by_contra hne
      obtain ⟨b, more, hcons⟩ := List.exists_cons_of_ne_nil hne
      have heol := hnext b (by rw [hcons]; rfl)
      have hmem : b ∈ commentEnd := by
        rw [← h, hcons]
        exact List.mem_append_right _ List.mem_cons_self
      have hnone : commentEnd.any Lexer.isEol = false := by decide
      exact List.any_eq_false.mp hnone b hmem heol
    refine ⟨by rwa [hnil, List.append_nil] at h, ?_⟩
    rw [List.flatMap_eq_nil_iff] at hnil
    cases rest with
    | nil => rfl
    | cons l rest =>
        have hline := hnil l List.mem_cons_self
        rw [Writer.commentLine, List.append_eq_nil_iff] at hline
        exact absurd hline.1 (Writer.isEol_separator hsep).1
  rw [IsDoc, hhead, ne_eq, hend]

end Blocks

section Lines

variable {gap l rest : Bytes} {lines : List Bytes} {n : Nat}

theorem tokensFrom_line (hl : l.IsLineComment) (hrest : rest.StartsLine) (offset : Nat) :
    Lexer.tokensFrom (n + 1) offset (l ++ rest) =
      ⟨.comment, offset, l⟩ :: Lexer.tokensFrom n (offset + l.length) rest := by
  obtain ⟨body, rfl, hbody⟩ := hl
  have hlength : (47 :: 47 :: body : Bytes).length = 2 + body.length := by
    rw [List.length_cons, List.length_cons]
    omega
  rw [List.cons_append, List.cons_append, Lexer.tokensFrom, Lexer.firstToken_line hbody hrest,
    ← List.cons_append, ← List.cons_append, ← hlength]
  simp only [List.take_left', List.drop_left']

theorem tokensFrom_space (hgap : ∀ b ∈ gap, Lexer.isSpace b = true) (hne : gap ≠ [])
    (hrest : ∀ b ∈ rest.head?, Lexer.isSpace b = false) (offset : Nat) :
    Lexer.tokensFrom (n + 1) offset (gap ++ rest) =
      ⟨.space, offset, gap⟩ :: Lexer.tokensFrom n (offset + gap.length) rest := by
  have hfirst := Lexer.firstToken_space hgap hne hrest
  obtain ⟨b, more, rfl⟩ := List.exists_cons_of_ne_nil hne
  rw [List.cons_append] at hfirst ⊢
  rw [Lexer.tokensFrom, hfirst, ← List.cons_append]
  simp only [List.take_left', List.drop_left']

/-- Line comments behind each other, with a line break and other white space in between, are read as
these line comments. -/
theorem tokensFrom_join (hgap : ∀ b ∈ gap, Lexer.isSpace b = true)
    (hbreak : ∃ b ∈ gap.head?, Lexer.isEol b = true) (hlines : ∀ l ∈ lines, l.IsLineComment)
    (offset : Nat) (hn : (Bytes.join gap lines).length ≤ n) :
    ((Lexer.tokensFrom n offset (Bytes.join gap lines)).filter fun t => t.kind != .space).map
        (fun t => (t.kind, t.text)) = lines.map fun l => (TokenKind.comment, l) := by
  obtain ⟨b, hb, heol⟩ := hbreak
  fun_induction Bytes.join gap lines generalizing n offset with
  | case1 => cases n <;> rfl
  | case2 l =>
      have hl := hlines l List.mem_cons_self
      obtain ⟨n, rfl⟩ : ∃ m, n = m + 1 := by
        refine ⟨n - 1, ?_⟩
        have := List.length_pos_of_ne_nil hl.ne_nil
        omega
      have hnil : Lexer.tokensFrom n (offset + l.length) [] = [] := by cases n <;> rfl
      have htokens := tokensFrom_line (n := n) hl Bytes.startsLine_nil offset
      rw [List.append_nil, hnil] at htokens
      rw [htokens]
      rfl
  | case3 l m ls ih =>
      obtain ⟨hl, hlines⟩ := List.forall_mem_cons.mp hlines
      have hm := hlines m List.mem_cons_self
      have hlpos := List.length_pos_of_ne_nil hl.ne_nil
      have hne : gap ≠ [] := by
        rintro rfl
        cases hb
      have hgappos := List.length_pos_of_ne_nil hne
      simp only [List.length_append] at hn
      obtain ⟨n, rfl⟩ : ∃ k, n = k + 1 + 1 := ⟨n - 2, by omega⟩
      have hnext : ∀ c ∈ (Bytes.join gap (m :: ls)).head?, Lexer.isSpace c = false := by
        obtain ⟨body, rfl, -⟩ := hm
        intro c hc
        cases ls <;> · obtain rfl := Option.some.inj hc; rfl
      have hstart : Bytes.StartsLine (gap ++ Bytes.join gap (m :: ls)) := by
        intro c hc
        rw [List.head?_append, Option.mem_def.mp hb] at hc
        exact Option.some.inj hc ▸ heol
      rw [List.append_assoc, tokensFrom_line hl hstart, tokensFrom_space hgap hne hnext]
      have hrest := ih (n := n) hlines (offset + l.length + gap.length) (by omega)
      simpa using hrest

end Lines

namespace Comment

section Written

variable {x : Writer.Context} (hsep : x.style.separator ∈ Style.separators)
  (options : CommentOptions) (column limit : Int) (p : Placement)
include hsep

/-- What is written for a comment between delimiters is read as one comment of the same form. -/
theorem ofText_written_block {text rest : Bytes} (h : IsComment text rest)
    (hline : CommentStyle.ofText text ≠ .line) {out : Bytes}
    (hout : (ofRaw [text] options).written x column limit p = out) :
    Token.ofText out = [⟨.comment, 0, out⟩] ∧
      CommentStyle.ofText out = CommentStyle.ofText text ∧
      Lexer.isClosed out commentEnd 2 = Lexer.isClosed text commentEnd 2 := by
  obtain ⟨closed, body, rfl, hclosed⟩ := h.closes hline
  obtain ⟨first, more, hlines, hclose, hdoc⟩ :=
    encloses_render (c := ofRaw [47 :: 42 :: body] options) column limit rfl rfl hclosed
  rw [written, Writer.commentText_cons x _ rfl hlines] at hout
  obtain ⟨hanging, hhang, heq⟩ : ∃ hanging : Bytes, (∀ b ∈ hanging, b = 32 ∨ b = 9) ∧
      out = 47 :: 42 :: (first ++ more.flatMap (Writer.commentLine x hanging)) := by
    refine ⟨_, fun b hb => ?_, hout.symm⟩
    split_ifs at hb
    · exact Style.indentation_blank _ _ _ b hb
    · simp at hb
  have hcloses := hclose.closes hsep hhang
  have hdoc := (isDoc_iff_closes hsep hanging).symm.trans (hdoc.trans ofText_eq_doc_iff)
  refine ⟨heq ▸ hcloses.ofText_eq, ?_, by rw [heq, hcloses.isClosed_eq, hclosed.isClosed_eq]⟩
  rw [heq, CommentStyle.ofText_block, CommentStyle.ofText_block]
  exact if_congr hdoc rfl rfl

/-- What is written for line comments taken together is read as the lines they are laid out as. -/
theorem ofText_written_lines {raw : List Bytes} (hne : raw ≠ [])
    (hraw : ∀ text ∈ raw, text.IsLineComment) :
    ((Token.ofText ((ofRaw raw options).written x column limit p)).filter
        fun t => t.kind != .space).map (fun t => (t.kind, t.text)) =
      ((ofRaw raw options).render column limit).lines.map fun l => (TokenKind.comment, l) := by
  obtain ⟨haligned, hall⟩ := render_isLineComment options hraw column limit
  have hlines := render_lines_ne_nil options hraw hne column limit
  have hout := Writer.commentText_eq_join x (ofRaw raw options).text
    (p := { p with rendered := some ((ofRaw raw options).render column limit) }) rfl hlines
    fun l hl => (hall l hl).ne_nil
  rw [written, hout, haligned]
  obtain ⟨hnonempty, heol⟩ := Writer.isEol_separator hsep
  refine tokensFrom_join (fun b hb => ?_) ?_ hall 0 (Nat.le_refl _)
  · rcases List.mem_append.mp hb with hb | hb
    · exact Lexer.isSpace_of_isEol (heol b hb)
    · rcases Style.indentation_blank _ _ _ b hb with rfl | rfl <;> rfl
  · obtain ⟨b, more, hcons⟩ := List.exists_cons_of_ne_nil hnonempty
    rw [hcons]
    exact ⟨b, rfl, heol b (by rw [hcons]; exact List.mem_cons_self)⟩

end Written

/-- Whatever is done to a comment, its text is read as that comment. What is written for a comment
between delimiters is one comment of the same form, which is closed exactly if the comment was. What
is written for line comments taken together is one line comment for each line that they are laid out
as, with nothing but white space in between. -/
theorem tokens_written (text : Bytes) (style : Style) (options : CommentOptions)
    (column limit : Int) (x : Writer.Context) (p : Placement) :
    (∀ t ∈ Token.ofText text, t.kind = .comment → CommentStyle.ofText t.text ≠ .line →
      ∃ out, (ofRaw [t.text] options).written { x with style := style.normalize.1 } column limit p =
          out ∧
        Token.ofText out = [⟨.comment, 0, out⟩] ∧
        CommentStyle.ofText out = CommentStyle.ofText t.text ∧
        Lexer.isClosed out commentEnd 2 = Lexer.isClosed t.text commentEnd 2) ∧
    ∀ ts : List Token, ts ≠ [] → (∀ t ∈ ts, t ∈ Token.ofText text ∧ t.kind = .comment ∧
        CommentStyle.ofText t.text = .line) →
      ∃ lines, ((ofRaw (ts.map Token.text) options).render column limit).lines = lines ∧
        lines ≠ [] ∧ (∀ l ∈ lines, CommentStyle.ofText l = .line) ∧
        ((Token.ofText ((ofRaw (ts.map Token.text) options).written
            { x with style := style.normalize.1 } column limit p)).filter
          fun t => t.kind != .space).map (fun t => (t.kind, t.text)) =
            lines.map fun l => (TokenKind.comment, l) := by
  have hsep : ({ x with style := style.normalize.1 } : Writer.Context).style.separator ∈
      Style.separators := Style.normalize_separator style
  refine ⟨fun t ht hkind hline => ⟨_, rfl, ?_⟩, fun ts hne hts => ⟨_, rfl, ?_⟩⟩
  · exact ofText_written_block hsep options column limit p (Token.isComment ht hkind) hline rfl
  · have hraw : ∀ raw ∈ ts.map Token.text, raw.IsLineComment := by
      intro raw hmem
      obtain ⟨t, ht, rfl⟩ := List.mem_map.mp hmem
      obtain ⟨hof, hkind, hline⟩ := hts t ht
      exact ((Token.isComment hof hkind).isLineComment hline).1
    have hne : ts.map Token.text ≠ [] := by simpa using hne
    exact ⟨render_lines_ne_nil _ hraw hne column limit,
      fun l hl => ((render_isLineComment _ hraw column limit).2 l hl).ofText_eq,
      ofText_written_lines hsep options column limit p hne hraw⟩

/-- A doc comment with a closing delimiter in pieces, and two line comments, of which the first is
too wide. -/
def writtenComments : Bytes :=
  ascii "/** a * / b\n<pre>*\n/ */ // one two\n// three"

/-- The doc comment and the line comments are written as such when they are reflowed for ten
columns. -/
theorem tokens_written_comments :
    ∃ doc one three, Token.ofText writtenComments = [doc, ⟨.space, 23, [32]⟩, one,
      ⟨.space, 34, [10]⟩, three] ∧
      (∃ out, (ofRaw [doc.text] { reflow := true }).written
          ⟨(Style.normalize {}).1, [], .empty, #[]⟩ 0 10 {} = out ∧
        Token.ofText out = [⟨.comment, 0, out⟩] ∧
        CommentStyle.ofText out = CommentStyle.ofText doc.text ∧
        Lexer.isClosed out commentEnd 2 = Lexer.isClosed doc.text commentEnd 2) ∧
      ∃ lines, ((ofRaw [one.text, three.text] { reflow := true }).render 0 10).lines = lines ∧
        lines ≠ [] ∧ (∀ l ∈ lines, CommentStyle.ofText l = .line) ∧
        ((Token.ofText ((ofRaw [one.text, three.text] { reflow := true }).written
            ⟨(Style.normalize {}).1, [], .empty, #[]⟩ 0 10 {})).filter
          fun t => t.kind != .space).map (fun t => (t.kind, t.text)) =
            lines.map fun l => (TokenKind.comment, l) := by
  have htokens : Token.ofText writtenComments = [⟨.comment, 0, ascii "/** a * / b\n<pre>*\n/ */"⟩,
      ⟨.space, 23, [32]⟩, ⟨.comment, 24, ascii "// one two"⟩, ⟨.space, 34, [10]⟩,
      ⟨.comment, 35, ascii "// three"⟩] := by decide +kernel
  obtain ⟨hblock, hlines⟩ := tokens_written writtenComments {} { reflow := true } 0 10
    ⟨{}, [], .empty, #[]⟩ {}
  rw [htokens] at hblock hlines
  refine ⟨_, _, _, htokens, hblock _ (by simp) rfl (by decide), ?_⟩
  exact hlines [⟨.comment, 24, ascii "// one two"⟩, ⟨.comment, 35, ascii "// three"⟩] (by simp)
    (by simp; decide)

end Comment

end CodeLayout
