import CodeLayout.Proofs.Comment.Paragraph

/-!
# Lines of block comments

However a block comment is laid out, its first line keeps the opening delimiter and the form that
this gives the comment, and its lines close it where the text did: at the end of the last line, or
nowhere.
-/

namespace CodeLayout

namespace Comment

/-- Whether lines close a comment at the end of the last one, or nowhere. -/
def LinesClose (closed : Bool) : List Bytes → Prop
  | [] => False
  | [l] => l.Closes closed
  | l :: m :: ls => l.IsOpen ∧ LinesClose closed (m :: ls)

/-- Whether what follows the opening of a block comment, by its lines, makes a doc comment of it. -/
def IsDoc (first : Bytes) (rest : List Bytes) : Prop :=
  first.head? = some 42 ∧ ¬(first = commentEnd ∧ rest = [])

/-- Whether lines are those of a block comment that is closed or not, and a doc comment or not. -/
def Encloses (closed : Bool) (isDoc : Prop) (lines : List Bytes) : Prop :=
  ∃ first rest, lines = (47 :: 42 :: first) :: rest ∧ LinesClose closed (first :: rest) ∧
    (IsDoc first rest ↔ isDoc)

section Lines

variable {closed : Bool} {l first s : Bytes} {ls rest : List Bytes}

theorem LinesClose.map {f : Bytes → Bytes}
    (hf : ∀ {c : Bool} {l : Bytes}, l.Closes c → (f l).Closes c) (h : LinesClose closed ls) :
    LinesClose closed (ls.map f) := by
  induction ls with
  | nil => exact h
  | cons l ls ih =>
      cases ls with
      | nil => exact hf h
      | cons m ls => exact ⟨hf (c := false) h.1, ih h.2⟩

theorem LinesClose.cons_map {f g : Bytes → Bytes}
    (hf : ∀ {c : Bool} {l : Bytes}, l.Closes c → (f l).Closes c)
    (hg : ∀ {c : Bool} {l : Bytes}, l.Closes c → (g l).Closes c)
    (h : LinesClose closed (l :: ls)) : LinesClose closed (f l :: ls.map g) := by
  cases ls with
  | nil => exact hf h
  | cons m ls => exact ⟨hf (c := false) h.1, h.2.map hg⟩

theorem LinesClose.append (hls : ∀ l ∈ ls, l.IsOpen) (h : l.Closes closed) :
    LinesClose closed (ls ++ [l]) := by
  induction ls with
  | nil => exact h
  | cons m ls ih =>
      obtain ⟨hm, hls⟩ := List.forall_mem_cons.mp hls
      cases ls with
      | nil => exact ⟨hm, h⟩
      | cons n ls => exact ⟨hm, ih hls⟩

/-- The lines of a text close it where the text does. -/
theorem linesClose_pieces (h : s.Closes closed) : LinesClose closed (s.pieces newline) := by
  have hjoin : ∀ ls : List Bytes, ls ≠ [] → (Bytes.join [newline] ls).Closes closed →
      LinesClose closed ls := by
    intro ls hne hls
    fun_induction Bytes.join [newline] ls with
    | case1 => exact absurd rfl hne
    | case2 l => exact hls
    | case3 l m ls ih =>
        rw [List.append_assoc, List.singleton_append] at hls
        obtain ⟨hl, hrest⟩ := hls.of_append (by decide) (by decide)
        exact ⟨hl, ih (List.cons_ne_nil m ls) hrest⟩
  exact hjoin _ (Bytes.pieces_ne_nil newline s) (by rwa [Bytes.join_pieces])

theorem trimLine_of_closes (h : l.Closes true) : trimLine l = l := by
  obtain ⟨inner, rfl, -⟩ := h
  have hsplit : inner ++ commentEnd = (inner ++ [42]) ++ [47] := by simp [commentEnd_eq]
  rw [trimLine, hsplit, Bytes.trimRight_concat (by decide)]

theorem closes_trimLine (h : l.Closes closed) : (trimLine l).Closes closed := by
  cases closed with
  | false => exact Bytes.IsOpen.of_isInfix h (Bytes.trimRight_isPrefix _ l).isInfix
  | true => rwa [trimLine_of_closes h]

theorem closes_trim (h : l.Closes closed) : l.trim.Closes closed := by
  cases closed with
  | false => exact Bytes.IsOpen.of_isInfix h (Bytes.trim_isInfix l)
  | true =>
      obtain ⟨inner, rfl, hinner⟩ := h
      obtain ⟨inner', hsuffix, htrim⟩ := Bytes.exists_trim_append (s := inner) (a := 42) (b := 47)
        (by decide) (by decide) (by decide) (by decide)
      refine ⟨inner', ?_, hinner.of_isInfix hsuffix.isInfix⟩
      rw [commentEnd_eq, htrim]

theorem not_isOpen_commentEnd : ¬commentEnd.IsOpen :=
  fun h => h (List.infix_refl _)

theorem head?_trimLine : (trimLine l).head? = some 42 ↔ l.head? = some 42 := by
  cases l with
  | nil => rfl
  | cons b l =>
      by_cases hb : b = 42
      · rw [hb, trimLine, Bytes.trimRight_cons (by decide)]
        rfl
      · have hprefix : trimLine (b :: l) <+: b :: l := Bytes.trimRight_isPrefix _ _
        cases htrim : trimLine (b :: l) with
        | nil => simp [hb]
        | cons c k =>
            rw [htrim] at hprefix
            simp [(List.cons_prefix_cons.mp hprefix).1]

/-- Trimming the lines of a body keeps whether it makes a doc comment. -/
theorem isDoc_trimLine {p : Bytes} {ps : List Bytes} (hpieces : s.pieces newline = p :: ps)
    (h : LinesClose closed (p :: ps)) (hrest : rest = [] ↔ ps = []) :
    IsDoc (trimLine p) rest ↔ s.head? = some 42 ∧ s ≠ commentEnd := by
  have hjoin : s = Bytes.join [newline] (p :: ps) := by rw [← hpieces, Bytes.join_pieces]
  have hhead : s.head? = some 42 ↔ p.head? = some 42 := by
    cases ps with
    | nil => rw [hjoin, Bytes.join]
    | cons q ps =>
        rw [hjoin, Bytes.join, List.append_assoc]
        cases p <;> simp [newline]
  have hend : s = commentEnd ↔ p = commentEnd ∧ ps = [] := by
    constructor
    · rintro rfl
      rw [show commentEnd.pieces newline = [commentEnd] by decide] at hpieces
      obtain ⟨rfl, rfl⟩ := List.cons.inj hpieces
      exact ⟨rfl, rfl⟩
    · rintro ⟨rfl, rfl⟩
      exact hjoin
  have htrim : trimLine p = commentEnd ∧ rest = [] ↔ p = commentEnd ∧ ps = [] := by
    rw [hrest]
    refine and_congr_left fun hps => ⟨fun heq => ?_, fun heq => by rw [heq]; decide⟩
    rw [hps] at h
    cases closed with
    | false =>
        have hopen : (trimLine p).IsOpen := closes_trimLine (show p.Closes false from h)
        exact absurd (heq ▸ hopen) not_isOpen_commentEnd
    | true => rwa [trimLine_of_closes h] at heq
  rw [IsDoc, head?_trimLine, htrim, ← hend, hhead]

/-- The lines of a comment as it was written. -/
theorem encloses_asWritten {c : Comment} {body : Bytes} (hstyle : c.style ≠ .line)
    (htext : c.text = 47 :: 42 :: body) (h : body.Closes closed) :
    Encloses closed (body.head? = some 42 ∧ body ≠ commentEnd) c.asWritten.lines := by
  obtain ⟨p, ps, hpieces⟩ := List.exists_cons_of_ne_nil (Bytes.pieces_ne_nil newline body)
  have hlines : textLines c.text = (47 :: 42 :: trimLine p) :: ps.map trimLine := by
    have hall : c.text.pieces newline = (47 :: 42 :: p) :: ps := by
      have hbody : body.pieces 10 = p :: ps := hpieces
      rw [htext, newline]
      simp [Bytes.pieces, hbody]
    rw [textLines, hall, List.map_cons, trimLine, Bytes.trimRight_cons (by decide),
      Bytes.trimRight_cons (by decide)]
    rfl
  have hclose := linesClose_pieces h
  rw [hpieces] at hclose
  rw [asWritten, if_neg hstyle, hlines]
  dsimp only
  split_ifs
  · refine ⟨trimLine p, _, rfl, ?_, isDoc_trimLine hpieces hclose (by simp)⟩
    rw [List.map_map]
    exact hclose.cons_map closes_trimLine fun hl =>
      (closes_trim (closes_trimLine hl)).cons (by decide)
  · exact ⟨trimLine p, _, rfl, hclose.cons_map closes_trimLine closes_trimLine,
      isDoc_trimLine hpieces hclose (by simp)⟩

end Lines

/-- A comment is a doc comment by what follows its opening. -/
theorem ofText_eq_doc_iff {body : Bytes} :
    CommentStyle.ofText (47 :: 42 :: body) = .doc ↔ body.head? = some 42 ∧ body ≠ commentEnd := by
  rw [CommentStyle.ofText_block]
  split_ifs with hdoc
  · exact iff_of_true rfl hdoc
  · exact iff_of_false nofun hdoc

section Reflow

variable {p : Paragraph} {ps : List Paragraph} {avail : Int} {t : Bytes}

theorem isOpen_spaces (n : Nat) (h : t.IsOpen) : Bytes.IsOpen (List.replicate n 32 ++ t) := by
  induction n with
  | zero => exact h
  | succ n ih => exact Bytes.IsOpen.cons ih (by decide)

theorem isOpen_starred (h : t.IsOpen) : Bytes.IsOpen (ascii " * " ++ t) := by
  have hstar : Bytes.IsOpen (ascii " * ") := by
    unfold Bytes.IsOpen
    decide
  exact hstar.append_of_last h (by decide)

theorem isOpen_joinWords {ws vs : List Bytes} (h : ∀ w ∈ vs, w.IsOpen) (hws : ws ⊆ vs) :
    (joinWords ws).IsOpen :=
  Bytes.IsOpen.join fun w hw => h w (hws hw)

theorem isOpen_paragraphLines (isFirst : Bool) (h : p.IsOpen) :
    ∀ l ∈ paragraphLines avail isFirst p, l.IsOpen := by
  intro l hl
  simp only [paragraphLines, List.mem_append] at hl
  rcases hl with (hblank | hkept) | hflowed
  · split_ifs at hblank
    · rw [List.mem_singleton.mp hblank]
      unfold Bytes.IsOpen
      decide
    · simp at hblank
  · obtain ⟨k, hk, rfl⟩ := List.mem_map.mp hkept
    exact (isOpen_starred (h.pre k hk)).of_isInfix (Bytes.trimRight_isPrefix _ _).isInfix
  · split at hflowed
    · simp at hflowed
    · rename_i first more hpack
      have hfirst : first ⊆ p.words := pack_subset (by rw [hpack]; exact List.mem_cons_self)
      rcases List.mem_cons.mp hflowed with rfl | hrest
      · rw [List.append_assoc]
        exact isOpen_starred (isOpen_spaces _ (isOpen_joinWords h.words hfirst))
      · obtain ⟨ws, hws, rfl⟩ := List.mem_map.mp hrest
        have hsub : ws ⊆ p.words := List.Subset.trans (pack_subset hws) (List.drop_subset _ _)
        rw [List.append_assoc, List.append_assoc]
        exact isOpen_starred (isOpen_spaces _ (isOpen_spaces _ (isOpen_joinWords h.words hsub)))

theorem isOpen_blockLines (h : ∀ p ∈ ps, p.IsOpen) : ∀ l ∈ blockLines avail ps, l.IsOpen := by
  cases ps with
  | nil => simp [blockLines]
  | cons p ps =>
      obtain ⟨hp, hps⟩ := List.forall_mem_cons.mp h
      intro l hl
      rcases List.mem_append.mp hl with hl | hl
      · exact isOpen_paragraphLines true hp l hl
      · obtain ⟨q, hq, hl⟩ := List.mem_flatMap.mp hl
        exact isOpen_paragraphLines false (hps q hq) l hl

theorem dropEnding_append (p s : Bytes) : Bytes.dropEnding p (s ++ p) = s := by
  rw [Bytes.dropEnding, if_pos (List.isSuffixOf_iff_suffix.mpr (List.suffix_append s p))]
  simp

theorem oneLine?_eq_some {c : Comment} {opening line : Bytes} {column limit : Int}
    (h : c.oneLine? opening column limit ps = some line) : ∃ p, ps = [p] ∧
      line = opening ++ ascii " " ++ joinWords p.words ++ ascii " */" := by
  match ps, h with
  | [], h => cases h
  | [p], h =>
      simp only [oneLine?] at h
      split_ifs at h
      exact ⟨p, rfl, (Option.some.inj h).symm⟩
  | _ :: _ :: _, h => cases h

theorem style_ne_line {c : Comment} {body : Bytes} (hstyle : c.style = CommentStyle.ofText c.text)
    (htext : c.text = 47 :: 42 :: body) : c.style ≠ .line := by
  rw [hstyle, htext, CommentStyle.ofText_block]
  split_ifs <;> nofun

/-- What stands between the delimiters of a comment that is reflowed. The second star that makes a
doc comment belongs to the delimiter. -/
theorem exists_body {c : Comment} {inner : Bytes} (hstyle : c.style = CommentStyle.ofText c.text)
    (htext : c.text = 47 :: 42 :: (inner ++ commentEnd)) (h : inner.IsOpen) :
    ∃ star body : Bytes, body.IsOpen ∧ star = (if c.style = .doc then [42] else []) ∧
      (if c.style = .doc then ascii "/**" else ascii "/*") = 47 :: 42 :: star ∧
      Bytes.dropEnding (ascii "*/") (c.text.drop
        (if c.style = .doc then ascii "/**" else ascii "/*").length) = body := by
  by_cases hdoc : c.style = .doc
  · have hbody := hdoc
    rw [hstyle, htext, ofText_eq_doc_iff] at hbody
    obtain ⟨hhead, hne⟩ := hbody
    cases inner with
    | nil => simp at hne
    | cons b inner =>
        obtain rfl : b = 42 := by simpa using hhead
        refine ⟨[42], inner, h.of_isInfix (List.suffix_cons 42 inner).isInfix,
          by simp [hdoc], ?_, ?_⟩
        · rw [if_pos hdoc]
          decide
        · rw [if_pos hdoc, htext]
          exact dropEnding_append commentEnd inner
  · refine ⟨[], inner, h, by simp [hdoc], ?_, ?_⟩
    · rw [if_neg hdoc]
      decide
    · rw [if_neg hdoc, htext]
      exact dropEnding_append commentEnd inner

/-- The lines of a comment that is reflowed. -/
theorem encloses_reflowBlock {c : Comment} {inner : Bytes} (column limit : Int)
    (hstyle : c.style = CommentStyle.ofText c.text)
    (htext : c.text = 47 :: 42 :: (inner ++ commentEnd)) (h : inner.IsOpen) :
    Encloses true (c.style = .doc) (c.reflowBlock column limit).lines := by
  obtain ⟨star, body, hbody, hstar, hopening, hdrop⟩ := exists_body hstyle htext h
  have hopen : star.IsOpen := by
    rw [hstar]
    split_ifs
    · unfold Bytes.IsOpen
      decide
    · exact Bytes.IsOpen.nil
  -- The second star is all that tells a doc comment, and neither a space nor a line is behind it
  -- in the place of the slash.
  have hdoc : ∀ (first : Bytes) (rest : List Bytes), first = star ∧ rest ≠ [] ∨
      (∃ more, first = star ++ 32 :: more) → (IsDoc first rest ↔ c.style = .doc) := by
    rintro first rest (⟨rfl, hrest⟩ | ⟨more, rfl⟩)
    · rw [IsDoc, hstar]
      split_ifs with hstyle <;> simp [hstyle, hrest]
    · rw [IsDoc, hstar, commentEnd_eq]
      split_ifs with hstyle <;> simp [hstyle]
  have hall : ∀ p ∈ Paragraph.ofBody
      ⟨c.options.join, c.options.rootTags, decide (c.style = .doc)⟩ body, p.IsOpen :=
    Paragraph.ofBody_isOpen hbody
  rw [reflowBlock, hdrop, hopening]
  split
  · have hclosed : Bytes.Closes true (inner ++ commentEnd) := ⟨inner, rfl, h⟩
    have hlines := encloses_asWritten (style_ne_line hstyle htext) htext hclosed
    rwa [← ofText_eq_doc_iff, ← htext, ← hstyle] at hlines
  · split
    · rename_i line hline
      obtain ⟨p, hps, rfl⟩ := oneLine?_eq_some hline
      rw [hps] at hall
      have hwords := Bytes.IsOpen.join (hall p List.mem_cons_self).words
      refine ⟨star ++ 32 :: (joinWords p.words ++ 32 :: commentEnd), [], ?_, ?_,
        hdoc _ _ (Or.inr ⟨_, rfl⟩)⟩
      · simp [ascii, commentEnd_eq]
      · refine ⟨star ++ 32 :: (joinWords p.words ++ [32]), by simp, ?_⟩
        refine hopen.append_of_head (Bytes.IsOpen.cons ?_ (by decide)) (by simp)
        exact hwords.append_of_head (Bytes.IsOpen.of_not_mem (by decide)) (by simp)
    · refine ⟨star, _, rfl, ?_, hdoc _ _ (Or.inl ⟨rfl, by simp⟩)⟩
      exact LinesClose.append (List.forall_mem_cons.mpr ⟨hopen, isOpen_blockLines hall⟩)
        ⟨[32], by decide, Bytes.IsOpen.of_not_mem (by decide)⟩

/-- The lines of a block comment or a doc comment. -/
theorem encloses_render {c : Comment} {closed : Bool} {body : Bytes} (column limit : Int)
    (hstyle : c.style = CommentStyle.ofText c.text) (htext : c.text = 47 :: 42 :: body)
    (h : body.Closes closed) :
    Encloses closed (c.style = .doc) (c.render column limit).lines := by
  have hline := style_ne_line hstyle htext
  have hwritten : Encloses closed (c.style = .doc) c.asWritten.lines := by
    rw [hstyle, htext, ofText_eq_doc_iff]
    exact encloses_asWritten hline htext h
  rw [render]
  split_ifs with hkeep hhand
  · exact hwritten
  · split
    · exact absurd ‹_› hline
    · exact hwritten
    · exact hwritten
    · exact hwritten
  · -- A comment that is reflowed is closed.
    have hclosed : closed = true := by
      simp only [isByHand, Bool.or_eq_true, Bool.not_eq_true', decide_eq_true_eq, not_or,
        Bool.not_eq_false, Nat.not_lt] at hhand
      rw [← h.isClosed_eq, ← htext, Lexer.isClosed, Bool.and_eq_true, decide_eq_true_eq]
      exact ⟨hhand.1.1.2, hhand.1.1.1⟩
    rw [hclosed] at h ⊢
    obtain ⟨inner, rfl, hinner⟩ := h
    have hblock := encloses_reflowBlock column limit hstyle htext hinner
    split
    · exact absurd ‹_› hline
    · exact hblock
    · exact hblock
    · rwa [hclosed] at hwritten

end Reflow

end Comment

end CodeLayout
