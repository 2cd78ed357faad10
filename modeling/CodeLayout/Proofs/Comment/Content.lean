import CodeLayout.Proofs.Comment.Again.Blocks
import CodeLayout.Proofs.Comment.Markup

/-!
# What a block comment says

Reflowing a block comment gives up its line breaks, its indentation and the stars of its lines, and
nothing else. So what is left of the comment without its delimiters, its stars and its white space
is the same in its lines as in its text: no word is lost on the way through words, inline tags,
pieces of markup, paragraphs and rows, and none is read twice.
-/

namespace CodeLayout

namespace Comment

/-- The delimiter that a text starts with as a block comment. -/
def delimiter (text : Bytes) : Bytes :=
  if CommentStyle.ofText text = .doc then ascii "/**" else ascii "/*"

/-- A line behind the first one, without the spaces and tabs at its start and one star behind
them. -/
def unstarred (l : Bytes) : Bytes :=
  Bytes.dropLead [42] (l.trimLeft fun b => b = 32 || b = 9)

/-- What a block comment says: its text without its delimiters, without the stars of its lines and
without white space. -/
def content (text : Bytes) : Bytes :=
  match (Bytes.dropEnding commentEnd (Bytes.dropLead (delimiter text) text)).pieces newline with
  | [] => []
  | first :: rest => Bytes.solid (Bytes.join [newline] (first :: rest.map unstarred))

end Comment

namespace Paragraph

open Comment

/-- What a paragraph says. -/
def solid (p : Paragraph) : Bytes :=
  (p.pre ++ p.words).flatMap Bytes.solid

namespace Reading

/-- What has been read, in order. -/
def solid (r : Reading) : Bytes :=
  r.paragraphs.reverse.flatMap Paragraph.solid

/-- Whether a preformatted section that is open is a paragraph without words. -/
def IsCopying (r : Reading) : Prop :=
  r.inPre = true → ∃ p, r.current = some p ∧ p.words = []

variable {m : Mode} {r : Reading} {p : Paragraph} {l w : Bytes}

theorem current_flush (r : Reading) : r.flush.current = none := by
  rw [flush_eq]

theorem solid_flush (r : Reading) : r.flush.solid = r.solid := by
  rw [flush_eq]
  rfl

theorem solid_start (h : r.current = none) (p : Paragraph) :
    (r.start p).solid = r.solid ++ p.solid := by
  simp [solid, start, paragraphs, h]

theorem solid_current {q : Paragraph} {t : Bytes} (h : r.current = some p)
    (hq : q.solid = p.solid ++ t) : Reading.solid { r with current := some q } = r.solid ++ t := by
  simp [solid, paragraphs, h, hq]

theorem solid_word (r : Reading) (w : Bytes) : (r.word m w).solid = r.solid ++ w.solid := by
  rw [word]
  split
  · rename_i p hp
    exact solid_current hp (by simp [Paragraph.solid])
  · rename_i hnone
    rw [solid_start hnone]
    simp [Paragraph.solid, fresh]

theorem solid_tagLine (h : r.current = none) (w : Bytes) :
    (r.tagLine w).solid = r.solid ++ w.solid := by
  rw [tagLine, solid_flush, solid_start h]
  simp [Paragraph.solid, fresh]

theorem solid_markup (r : Reading) (w : Bytes) : (r.markup m w).solid = r.solid ++ w.solid := by
  rw [markup]
  dsimp only
  split_ifs
  · exact (solid_tagLine (current_flush r) w).trans (by rw [solid_flush])
  · have htag := solid_tagLine (r := { r.flush with depth := r.flush.depth - 1 })
      (current_flush r) w
    exact htag.trans (congrArg (· ++ _) (solid_flush r))
  · rw [solid_word, solid_flush]
  · exact solid_word r w

theorem solid_foldl {f : Reading → Bytes → Reading}
    (hf : ∀ (r : Reading) (w : Bytes), (f r w).solid = r.solid ++ w.solid) (r : Reading)
    (ws : List Bytes) : (ws.foldl f r).solid = r.solid ++ ws.flatMap Bytes.solid := by
  induction ws generalizing r with
  | nil => simp
  | cons w ws ih => rw [List.foldl_cons, ih, hf, List.flatMap_cons, List.append_assoc]

theorem solid_words (r : Reading) (l : Bytes) : (r.words m l).solid = r.solid ++ l.solid := by
  rw [words]
  split_ifs
  · rw [solid_foldl solid_markup, List.flatMap_assoc,
      List.flatMap_congr fun a _ => flatMap_solid_splitMarkup a, flatMap_solid_atoms]
  · rw [solid_foldl solid_word, flatMap_solid_atoms]

section Frame

theorem inPre_flush (r : Reading) : r.flush.inPre = r.inPre := by
  rw [flush_eq]

theorem inPre_word (r : Reading) (w : Bytes) : (r.word m w).inPre = r.inPre := by
  rw [word]
  split <;> rfl

theorem inPre_tagLine (r : Reading) (w : Bytes) : (r.tagLine w).inPre = r.inPre := by
  rw [tagLine, inPre_flush]
  rfl

theorem inPre_markup (r : Reading) (w : Bytes) : (r.markup m w).inPre = r.inPre := by
  rw [markup]
  dsimp only
  split_ifs
  · rw [inPre_tagLine, inPre_flush]
  · rw [inPre_tagLine, inPre_flush]
  · rw [inPre_word, inPre_flush]
  · exact inPre_word r w

theorem inPre_foldl {f : Reading → Bytes → Reading}
    (hf : ∀ (r : Reading) (w : Bytes), (f r w).inPre = r.inPre) (r : Reading) (ws : List Bytes) :
    (ws.foldl f r).inPre = r.inPre := by
  induction ws generalizing r with
  | nil => rfl
  | cons w ws ih => rw [List.foldl_cons, ih, hf]

/-- The words of a line neither open a preformatted section nor close one. -/
theorem inPre_words (r : Reading) (l : Bytes) : (r.words m l).inPre = r.inPre := by
  rw [words]
  split_ifs
  · exact inPre_foldl inPre_markup r _
  · exact inPre_foldl inPre_word r _

end Frame

/-- What is read of a line is what it says. -/
theorem solid_line (h : r.IsCopying) (l : Bytes) :
    (r.line m l).IsCopying ∧ (r.line m l).solid = r.solid ++ l.solid := by
  have hnot : ∀ {r : Reading}, ¬r.inPre = true → r.IsCopying := fun hpre hin => absurd hin hpre
  rw [line]
  dsimp only
  split_ifs with hpre hempty hopens hkept htag
  · obtain ⟨p, hp, hwords⟩ := h hpre
    have hnext := solid_current (q := { p with pre := p.pre ++ [l] }) (t := l.solid) hp
      (by simp [Paragraph.solid, hwords])
    rw [preLine, hp]
    dsimp only
    split_ifs
    · exact ⟨hnot (by rw [inPre_flush]; exact Bool.false_ne_true), (solid_flush _).trans hnext⟩
    · exact ⟨fun _ => ⟨_, rfl, hwords⟩, hnext⟩
  · have hnil := Bytes.solid_eq_nil_iff.mpr (List.isEmpty_iff.mp hempty)
    rw [hnil, List.append_nil]
    exact ⟨hnot (by rwa [← inPre_flush] at hpre), solid_flush r⟩
  · have hstart := solid_start (current_flush r) { r.flush.fresh with pre := [l] }
    have hline : Paragraph.solid { r.flush.fresh with pre := [l] } = l.solid := by
      simp [Paragraph.solid, fresh]
    rw [hline, solid_flush] at hstart
    rw [openPre]
    dsimp only
    split_ifs
    · refine ⟨hnot ?_, (solid_flush _).trans hstart⟩
      rwa [inPre_flush, start, inPre_flush]
    · exact ⟨fun _ => ⟨_, rfl, rfl⟩, hstart⟩
  · refine ⟨hnot ?_, ?_⟩
    · rwa [keptLine, inPre_flush, inPre_words, start, inPre_flush]
    · have hfresh (n : Nat) : Paragraph.solid { r.flush.fresh with indent := n } = [] := rfl
      rw [keptLine, solid_flush, solid_words, solid_start (current_flush r), hfresh,
        List.append_nil, solid_flush, Bytes.solid_trim]
  · refine ⟨hnot ?_, ?_⟩
    · rwa [inPre_words, inPre_flush]
    · rw [solid_words, solid_flush, Bytes.solid_trim]
  · refine ⟨hnot ?_, ?_⟩
    · rwa [inPre_words]
    · rw [solid_words, Bytes.solid_trim]

theorem solid_foldl_line (h : r.IsCopying) (ls : List Bytes) :
    (ls.foldl (line m) r).solid = r.solid ++ ls.flatMap Bytes.solid := by
  induction ls generalizing r with
  | nil => simp
  | cons l ls ih =>
      obtain ⟨hnext, hline⟩ := solid_line (m := m) h l
      rw [List.foldl_cons, ih hnext, hline, List.flatMap_cons, List.append_assoc]

end Reading

/-- The paragraphs of a body say what its lines say. -/
theorem flatMap_solid_ofBody (m : Mode) (body : Bytes) :
    (ofBody m body).flatMap Paragraph.solid = (bareLines body).flatMap Bytes.solid := by
  have hread := Reading.solid_foldl_line (m := m) (r := {}) nofun (bareLines body)
  rw [ofBody_eq]
  exact hread

theorem solid_bareLine_first (l : Bytes) : (bareLine true l).solid = l.solid :=
  Bytes.solid_eq_of_trim (trim_bareLine_first l)

/-- The lead of a line is its star. -/
theorem solid_bareLine (l : Bytes) : (bareLine false l).solid = (unstarred l).solid := by
  let f (b : UInt8) : Bool := b = 32 || b = 9
  have hf : ∀ b, f b = true → b < 0x80 ∧ isBlank b.toNat = true := by
    intro b hb
    simp only [f, Bool.or_eq_true, decide_eq_true_eq] at hb
    obtain rfl | rfl := hb <;> decide
  have htrimLine (s : Bytes) : (Comment.trimLine s).trim = s.trim :=
    Bytes.trim_trimRight (fun b hb => blank_of_isTrailing hb) s
  have hsplit : l = l.takeWhile f ++ l.trimLeft f := (List.takeWhile_append_dropWhile).symm
  by_cases hstar : ∃ rest, l.trimLeft f = 42 :: rest
  · obtain ⟨rest, hrest⟩ := hstar
    have htrim : Comment.trimLine l = l.takeWhile f ++ 42 :: Comment.trimLine rest := by
      have hkeep : Bytes.trimRight isTrailing (42 :: rest) = 42 :: Comment.trimLine rest :=
        Bytes.trimRight_cons rfl rest
      rw [hrest] at hsplit
      nth_rewrite 1 [hsplit]
      rw [Comment.trimLine, Bytes.trimRight_append _ (by simp [hkeep]), hkeep]
    have hlead : (Comment.trimLine l).trimLeft f = 42 :: Comment.trimLine rest := by
      have hall : ∀ b ∈ l.takeWhile f, f b = true := fun b hb => List.mem_takeWhile_imp hb
      rw [htrim, Bytes.trimLeft, List.dropWhile_append_of_pos hall,
        List.dropWhile_cons_of_neg (by decide)]
    have hunstarred : unstarred l = rest := by
      rw [unstarred]
      change Bytes.dropLead [42] (l.trimLeft f) = rest
      rw [hrest]
      simp [Bytes.dropLead]
    rw [bareLine_star hlead, hunstarred]
    exact Bytes.solid_eq_of_trim ((Bytes.trim_dropLead _).trans (htrimLine rest))
  · have hnone : ∀ rest, (Comment.trimLine l).trimLeft f ≠ 42 :: rest := by
      intro rest hrest
      obtain ⟨t, ht, -⟩ := Bytes.exists_trimRight isTrailing l
      refine hstar ⟨rest ++ t, ?_⟩
      rw [Bytes.trimLeft] at hrest
      nth_rewrite 1 [ht]
      change (Comment.trimLine l ++ t).dropWhile f = _
      rw [List.dropWhile_append, hrest]
      rfl
    have hbare : bareLine false l = (Comment.trimLine l).trimLeft f := by
      rw [bareLine, if_neg Bool.false_ne_true]
      split
      · rename_i rest hrest
        exact absurd hrest (hnone rest)
      · rfl
    have hunstarred : unstarred l = l.trimLeft f := by
      rw [unstarred]
      change Bytes.dropLead [42] (l.trimLeft f) = _
      rw [Bytes.dropLead, if_neg]
      intro hprefix
      obtain ⟨rest, hrest⟩ := List.isPrefixOf_iff_prefix.mp hprefix
      exact hstar ⟨rest, hrest.symm⟩
    rw [hbare, hunstarred]
    refine Bytes.solid_eq_of_trim ?_
    rw [Bytes.trim_trimLeft hf, Bytes.trim_trimLeft hf, htrimLine]

end Paragraph

namespace Comment

open Paragraph

variable {c : Comment} {p : Paragraph} {ps : List Paragraph} {avail : Int} {body text : Bytes}

theorem solid_row (n : Nat) (ws : List Bytes) : (row n ws).solid = ws.flatMap Bytes.solid := by
  rw [← solid_joinWords]
  exact Bytes.solid_eq_of_trim (Bytes.trim_replicate_append n _)

theorem flatMap_solid_flowedLines (avail : Int) (p : Paragraph) :
    (flowedLines avail p).flatMap Bytes.solid = p.words.flatMap Bytes.solid := by
  rw [← rows_flatten avail p, flowedLines]
  cases rows avail p with
  | nil => rfl
  | cons first rest =>
      dsimp only
      rw [List.flatMap_cons, solid_row, List.flatMap_map, List.flatten_cons, List.flatMap_append,
        List.flatMap_congr fun ws _ => solid_row (p.indent + p.hang) ws, List.flatten_eq_flatMap,
        List.flatMap_assoc]
      rfl

/-- The lines of a paragraph say what the paragraph says. -/
theorem flatMap_solid_bareParagraph (isFirst : Bool) :
    (bareParagraph avail isFirst p).flatMap Bytes.solid = p.solid := by
  have hblank : (if (p.blank && !isFirst) = true then [[]] else []).flatMap Bytes.solid = [] := by
    split_ifs <;> rfl
  rw [bareParagraph, List.flatMap_append, List.flatMap_append, hblank, flatMap_solid_flowedLines,
    List.nil_append, Paragraph.solid, List.flatMap_append]

theorem flatMap_solid_bareBlock (avail : Int) (ps : List Paragraph) :
    (bareBlock avail ps).flatMap Bytes.solid = ps.flatMap Paragraph.solid := by
  cases ps with
  | nil => rfl
  | cons p ps =>
      rw [bareBlock, List.flatMap_append, flatMap_solid_bareParagraph, List.flatMap_assoc,
        List.flatMap_cons, List.flatMap_congr fun q _ => flatMap_solid_bareParagraph (p := q) false]

/-- What a comment between its delimiters says is what the lines of its body say. -/
theorem content_eq (body : Bytes) (htext : text = delimiter text ++ body ++ commentEnd) :
    content text = (bareLines body).flatMap Bytes.solid := by
  have hbody : Bytes.dropEnding commentEnd (Bytes.dropLead (delimiter text) text) = body := by
    have hprefix : delimiter text <+: text :=
      ⟨body ++ commentEnd, by rw [← List.append_assoc, ← htext]⟩
    have hdrop : text.drop (delimiter text).length = body ++ commentEnd := by
      nth_rewrite 2 [htext]
      rw [List.append_assoc, List.drop_left]
    rw [Bytes.dropLead, if_pos (List.isPrefixOf_iff_prefix.mpr hprefix), hdrop, dropEnding_append]
  rw [content, hbody, bareLines]
  cases body.pieces newline with
  | nil => rfl
  | cons first rest =>
      dsimp only
      rw [Bytes.solid_join (by decide) (by decide), List.flatMap_cons, List.flatMap_cons,
        solid_bareLine_first, List.flatMap_map, List.flatMap_map,
        List.flatMap_congr fun l _ => solid_bareLine l]

/-- Delimiters around a body make a comment of the form that they are of. -/
theorem delimiter_enclosed (hstyle : c.style = .doc ∨ body.head? ≠ some 42) :
    delimiter (c.opening ++ body ++ commentEnd) = c.opening := by
  by_cases hdoc : c.style = .doc
  · have hopening : c.opening ++ body ++ commentEnd = 47 :: 42 :: 42 :: (body ++ commentEnd) := by
      rw [opening, if_pos hdoc, List.append_assoc]
      rfl
    rw [delimiter, if_pos, opening, if_pos hdoc]
    rw [hopening, ofText_eq_doc_iff]
    refine ⟨rfl, fun heq => ?_⟩
    have hlength := congrArg List.length heq
    rw [List.length_cons, List.length_append] at hlength
    omega
  · have hopening : c.opening ++ body ++ commentEnd = 47 :: 42 :: (body ++ commentEnd) := by
      rw [opening, if_neg hdoc, List.append_assoc]
      rfl
    rw [delimiter, if_neg, opening, if_neg hdoc]
    rw [hopening, ofText_eq_doc_iff, not_and_not_right]
    intro hhead
    cases body with
    | nil => rfl
    | cons b body => exact absurd hhead (hstyle.resolve_left hdoc)

theorem laid_zero (r : Rendered) : r.laid 0 = Bytes.join [newline] r.lines := by
  have hsame (l : Bytes) : indented 0 l = l := by
    rw [indented]
    split_ifs with hempty
    · exact (List.isEmpty_iff.mp hempty).symm
    · rfl
  rw [Rendered.laid]
  cases r.lines with
  | nil => rfl
  | cons first rest =>
      dsimp only
      rw [List.map_congr_left fun l _ => hsame l, List.map_id', ite_self]

/-- A comment that may be reflowed has its body between its delimiters. -/
theorem exists_body_of_not_isByHand (options : CommentOptions)
    (hstyle : CommentStyle.ofText text = .block ∨ CommentStyle.ofText text = .doc)
    (hhand : isByHand text = false) : ∃ inner, text = 47 :: 42 :: (inner ++ commentEnd) ∧
      ∃ body, text = (ofRaw [text] options).opening ++ body ++ commentEnd := by
  have hopens : (ascii "/*").isPrefixOf text = true := by
    rw [CommentStyle.ofText] at hstyle
    split_ifs at hstyle with hline hdoc hblock
    · simp at hstyle
    · rw [Bool.and_eq_true, List.isPrefixOf_iff_prefix] at hdoc
      exact List.isPrefixOf_iff_prefix.mpr (List.IsPrefix.trans (by decide) hdoc.1)
    · exact hblock
    · simp at hstyle
  simp only [isByHand, Bool.or_eq_false_iff, Bool.not_eq_false', decide_eq_false_iff_not,
    Nat.not_lt] at hhand
  obtain ⟨⟨⟨hcloses, hlength⟩, -⟩, -⟩ := hhand
  obtain ⟨rest, hrest⟩ := List.isPrefixOf_iff_prefix.mp hopens
  have hinner : commentEnd <:+ rest := by
    have hsuffix : rest <:+ text := ⟨_, hrest⟩
    refine List.suffix_of_suffix_length_le (List.isSuffixOf_iff_suffix.mp hcloses) hsuffix ?_
    have hopening : (ascii "/*").length = 2 := by decide
    have hend : commentEnd.length = 2 := by decide
    rw [← hrest, List.length_append] at hlength
    omega
  obtain ⟨inner, rfl⟩ := hinner
  have htext : text = 47 :: 42 :: (inner ++ commentEnd) := hrest.symm
  exact ⟨inner, htext, exists_enclosed (c := ofRaw [text] options) rfl htext⟩

/-- A body without text does not start with a star. -/
theorem head?_of_bareLines_blank (h : ∀ l ∈ bareLines body, l.trim = []) :
    body.head? ≠ some 42 := by
  rintro hhead
  obtain ⟨rest, rfl⟩ := List.head?_eq_some_iff.mp hhead
  have hfirst : ∃ first ls, Bytes.pieces newline (42 :: rest) = (42 :: first) :: ls := by
    rw [Bytes.pieces, if_neg (by decide)]
    split
    · exact ⟨[], [], rfl⟩
    · exact ⟨_, _, rfl⟩
  obtain ⟨first, ls, hpieces⟩ := hfirst
  rw [bareLines, hpieces, List.forall_mem_cons, trim_bareLine_first] at h
  exact Bytes.trim_ne_nil (by decide) (by decide) first h.1

/-- The lines of a comment that is laid out from paragraphs say what the paragraphs say. -/
theorem content_formed {column limit : Int} (hps : ∀ p ∈ ps, p.All IsSpaced IsTrimmed)
    (hne : ps ≠ []) : content (Bytes.join [newline] (c.formed column limit ps).lines) =
      ps.flatMap Paragraph.solid := by
  cases hone : c.oneLine? c.opening column limit ps with
  | some line =>
      obtain ⟨p, rfl, -⟩ := oneLine?_eq_some hone
      obtain ⟨rfl, -, hpre, -, -⟩ := oneLine?_eq_some_iff.mp hone
      have hbreak := (isTrimmed_joinWords (hps p (by simp)).words).newline
      have hlaid : Bytes.join [newline]
            [c.opening ++ ascii " " ++ joinWords p.words ++ ascii " */"] =
          c.opening ++ (32 :: (joinWords p.words ++ [32])) ++ commentEnd := by
        simp [Bytes.join, ascii, commentEnd_eq]
      have hfree : ∀ l ∈ [32 :: (joinWords p.words ++ [32])], newline ∉ l := by
        simpa [newline] using hbreak
      have hbare : bareLines (32 :: (joinWords p.words ++ [32])) =
          [bareLine true (32 :: (joinWords p.words ++ [32]))] := bareLines_join hfree
      have hsolid : Bytes.solid (32 :: (joinWords p.words ++ [32])) = (joinWords p.words).solid :=
        Bytes.solid_eq_of_trim ((Bytes.trim_cons (b := 32) (by decide) (by decide) _).trans
          (Bytes.trim_concat (b := 32) (by decide) (by decide) _))
      rw [formed_some hne hone, hlaid, content_eq (32 :: (joinWords p.words ++ [32])), hbare]
      · simp [solid_bareLine_first, hsolid, solid_joinWords, Paragraph.solid, hpre]
      · rw [delimiter_enclosed (Or.inr (by simp))]
  | none =>
      let ls : List Bytes := (bareBlock (room column limit 3) ps).map starLine
      have hlaid : Bytes.join [newline]
            ([c.opening] ++ blockLines (room column limit 3) ps ++ [ascii " */"]) =
          c.opening ++ Bytes.join [newline] ([] :: (ls ++ [[32]])) ++ commentEnd := by
        rw [blockLines_eq_map hps, ← join_enclosed, List.append_nil]
        simp [ls, ascii, commentEnd_eq]
      have htrimmed : ∀ l ∈ bareBlock (room column limit 3) ps, IsTrimmed l :=
        fun l => isTrimmed_of_mem_bareBlock hps
      have hfree : ∀ l ∈ [] :: (ls ++ [[32]]), newline ∉ l := by
        refine List.forall_mem_cons.mpr
          ⟨List.not_mem_nil, List.forall_mem_append.mpr ⟨?_, by decide⟩⟩
        exact List.forall_mem_map.mpr fun l hl => (isTrimmed_starLine (htrimmed l hl)).newline
      have hlines : ls.map (bareLine false) = bareBlock (room column limit 3) ps := by
        have hread : ∀ l ∈ bareBlock (room column limit 3) ps, bareLine false (starLine l) = l := by
          intro l hl
          have hline := bareLine_starLine 0 (htrimmed l hl).trimLine
          rw [indented] at hline
          split_ifs at hline with hempty
          · rw [starLine] at hempty
            split_ifs at hempty <;> cases hempty
          · exact hline
        rw [List.map_map]
        exact (List.map_congr_left hread).trans (List.map_id _)
      rw [formed_none hne hone, hlaid, content_eq (Bytes.join [newline] ([] :: (ls ++ [[32]]))),
        bareLines_join hfree, List.map_append, hlines]
      · have hends : bareLine true [] = [] ∧ bareLine false [32] = [] := by decide
        rw [List.flatMap_cons, List.flatMap_append, List.map_singleton, hends.1, hends.2,
          flatMap_solid_bareBlock]
        exact List.append_nil _
      · rw [delimiter_enclosed (Or.inr ?_)]
        cases ls <;> simp [Bytes.join, newline]

/-- Reflowing keeps what a block comment says. -/
theorem content_render (options : CommentOptions) (column limit : Int)
    (hstyle : CommentStyle.ofText text = .block ∨ CommentStyle.ofText text = .doc)
    (hreflow : options.reflow = true) (hhand : isByHand text = false) :
    content (Bytes.join [newline] ((ofRaw [text] options).render column limit).lines) =
      content text := by
  obtain ⟨inner, hinner, body, htext⟩ := exists_body_of_not_isByHand options hstyle hhand
  have hline := style_ne_line (c := ofRaw [text] options) rfl hinner
  have hrender : (ofRaw [text] options).render column limit =
      (ofRaw [text] options).formed column limit (ofBody (ofRaw [text] options).mode body) := by
    have hkept : isByHand (ofRaw [text] options).text = false := hhand
    have hform : (ofRaw [text] options).style = .block ∨ (ofRaw [text] options).style = .doc :=
      hstyle
    rw [← reflowBlock_eq (c := ofRaw [text] options) htext, render,
      if_neg (by simp [ofRaw, hreflow]), hkept, if_neg Bool.false_ne_true]
    rcases hform with hform | hform <;> rw [hform]
  have hcontent : content text = (bareLines body).flatMap Bytes.solid := content_eq body htext
  rw [hrender, hcontent, ← flatMap_solid_ofBody (ofRaw [text] options).mode]
  by_cases hnil : ofBody (ofRaw [text] options).mode body = []
  · have hblank : ∀ l ∈ bareLines body, l.trim = [] := by
      have hall := flatMap_solid_ofBody (ofRaw [text] options).mode body
      rw [hnil, List.flatMap_nil, eq_comm, List.flatMap_eq_nil_iff] at hall
      exact fun l hl => Bytes.solid_eq_nil_iff.mp (hall l hl)
    obtain ⟨hfree, hlast, -⟩ := opening_props (ofRaw [text] options)
    obtain ⟨body', hlaid, hblank'⟩ := laid_asWritten_blank 0 hline hfree hlast htext hblank
    have hagain : (bareLines body').flatMap Bytes.solid = [] :=
      List.flatMap_eq_nil_iff.mpr fun l hl => Bytes.solid_eq_nil_iff.mpr (hblank' l hl)
    rw [hnil, formed, ← laid_zero, hlaid, content_eq body', hagain]
    · rfl
    · rw [delimiter_enclosed (Or.inr (head?_of_bareLines_blank hblank'))]
  · exact content_formed all_isSpaced hnil

/-- A doc comment with an inline tag over two lines, a list, a block tag and a preformatted
section. -/
def proseComment : Bytes :=
  ascii "/** one \x7b@link\n * two\x7d<ul><li>three\n *@see four\n * <pre> 5\n\t* </pre> six */"

theorem content_render_prose :
    (CommentStyle.ofText proseComment = .doc ∧ isByHand proseComment = false ∧
      ((ofRaw [proseComment] { reflow := true, join := true }).render 2 18).lines =
        [ascii "/**", ascii " * one \x7b@link", ascii " * two\x7d", ascii " * <ul>",
          ascii " *   <li>three", ascii " *   @see four", ascii " * <pre> 5", ascii " * </pre> six",
          ascii " */"]) ∧
      content proseComment = ascii "one\x7b@linktwo\x7d<ul><li>three@seefour<pre>5</pre>six" ∧
      content (Bytes.join [newline]
          ((ofRaw [proseComment] { reflow := true, join := true }).render 2 18).lines) =
        content proseComment :=
  ⟨by decide +kernel, by decide +kernel,
    content_render _ 2 18 (Or.inr (by decide +kernel)) rfl (by decide +kernel)⟩

end Comment

end CodeLayout
