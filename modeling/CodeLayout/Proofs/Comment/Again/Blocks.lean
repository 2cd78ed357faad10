import CodeLayout.Proofs.Comment.Again.Rows

/-!
# Block comments that are laid out again

A block comment that is reflowed is read from its lines as paragraphs that are laid out as these
lines, and it stays on one line, or on more than one. So what is written for a comment is laid out
as it is.
-/

namespace CodeLayout

namespace Comment

open Paragraph

variable {c c' : Comment} {column limit : Int} {closed : Bool} {body : Bytes}

/-- How the body of a comment is read. -/
def mode (c : Comment) : Mode :=
  ⟨c.options.join, c.options.rootTags, c.style = .doc⟩

/-- The delimiter that a block comment or a doc comment starts with. -/
def opening (c : Comment) : Bytes :=
  if c.style = .doc then ascii "/**" else ascii "/*"

theorem opening_props (c : Comment) : newline ∉ c.opening ∧ trimLine c.opening = c.opening ∧
    c.opening ≠ [] := by
  rw [opening]
  split_ifs <;> decide

/-- A comment laid out from the paragraphs of its body. -/
def formed (c : Comment) (column limit : Int) (ps : List Paragraph) : Rendered :=
  match ps with
  | [] => c.asWritten
  | ps =>
    match c.oneLine? c.opening column limit ps with
    | some line => ⟨[line], true⟩
    | none => ⟨[c.opening] ++ blockLines (room column limit 3) ps ++ [ascii " */"], true⟩

theorem formed_some {ps : List Paragraph} {line : Bytes} (hne : ps ≠ [])
    (h : c.oneLine? c.opening column limit ps = some line) :
    c.formed column limit ps = ⟨[line], true⟩ := by
  obtain ⟨p, ps, rfl⟩ := List.exists_cons_of_ne_nil hne
  simp only [formed, h]

theorem formed_none {ps : List Paragraph} (hne : ps ≠ [])
    (h : c.oneLine? c.opening column limit ps = none) : c.formed column limit ps =
      ⟨[c.opening] ++ blockLines (room column limit 3) ps ++ [ascii " */"], true⟩ := by
  obtain ⟨p, ps, rfl⟩ := List.exists_cons_of_ne_nil hne
  simp only [formed, h]

theorem oneLine?_eq_some_iff {delimiter line : Bytes} {p : Paragraph} :
    c.oneLine? delimiter column limit [p] = some line ↔
      delimiter ++ ascii " " ++ joinWords p.words ++ ascii " */" = line ∧
        (newline ∉ c.text ∨ c.options.header = true ∧ c.style = .block) ∧ p.pre = [] ∧
        p.indent = 0 ∧ Width.advanceWord column c.options.tabstop line ≤ limit := by
  have hsingle : (!c.text.contains newline ||
        (c.options.header && decide (c.style = .block))) = true ↔
      newline ∉ c.text ∨ c.options.header = true ∧ c.style = .block := by
    simp
  rw [← hsingle, ← List.isEmpty_iff]
  simp only [oneLine?, Option.ite_none_right_eq_some, Option.some_inj, Bool.and_eq_true,
    decide_eq_true_eq]
  constructor
  · intro h
    obtain ⟨⟨⟨⟨hone, hpre⟩, hindent⟩, hfits⟩, rfl⟩ := h
    exact ⟨rfl, hone, hpre, hindent, hfits⟩
  · intro h
    obtain ⟨rfl, hone, hpre, hindent, hfits⟩ := h
    exact ⟨⟨⟨⟨hone, hpre⟩, hindent⟩, hfits⟩, rfl⟩

theorem reflowBlock_eq (htext : c.text = c.opening ++ body ++ commentEnd) (column limit : Int) :
    c.reflowBlock column limit = c.formed column limit (ofBody c.mode body) := by
  have hbody : Bytes.dropEnding (ascii "*/") (c.text.drop c.opening.length) = body := by
    rw [htext, List.append_assoc, List.drop_left]
    exact dropEnding_append commentEnd body
  rw [← hbody]
  rfl

section Blocks

variable {m : Mode} {avail : Int} {p : Paragraph} {ps : List Paragraph} {d : Nat}

theorem not_mem_starLine {l : Bytes} (hl : newline ∉ l) :
    newline ∉ indented column (starLine l) := by
  intro hmem
  have hline := (mem_indented hmem).resolve_left (by decide)
  rw [starLine] at hline
  split_ifs at hline
  · revert hline
    decide
  · refine (List.mem_append.mp hline).elim (fun hstar => ?_) hl
    revert hstar
    decide

/-- The lines of a block are read again as they are. -/
theorem exists_laid_block (avail : Int)
    (h : ∀ p ∈ ps, p.All IsSpaced IsTrimmed) (c : Comment) (column : Int) :
    ∃ body', Rendered.laid column ⟨[c.opening] ++ blockLines avail ps ++ [ascii " */"], true⟩ =
        c.opening ++ body' ++ commentEnd ∧ body'.head? = some newline ∧
      bareLines body' = [] :: (bareBlock avail ps ++ [[]]) := by
  let pad : Bytes := List.replicate column.toNat 32 ++ [32]
  let ls : List Bytes := (bareBlock avail ps).map fun l => indented column (starLine l)
  have hend : indented column (ascii " */") = pad ++ commentEnd := by
    rw [indented, if_neg (by decide), commentEnd_eq]
    simp only [pad, List.append_assoc]
    rfl
  have hlaid : Rendered.laid column ⟨[c.opening] ++ blockLines avail ps ++ [ascii " */"], true⟩ =
      Bytes.join [newline] ((c.opening ++ []) :: (ls ++ [pad ++ commentEnd])) := by
    rw [blockLines_eq_map h, ← hend]
    simp [Rendered.laid, ls, Function.comp_def]
  have hfree : ∀ l ∈ [] :: (ls ++ [pad]), newline ∉ l := by
    refine List.forall_mem_cons.mpr ⟨List.not_mem_nil, List.forall_mem_append.mpr ⟨?_, ?_⟩⟩
    · exact List.forall_mem_map.mpr fun l hl =>
        not_mem_starLine (isTrimmed_of_mem_bareBlock h hl).newline
    · refine List.forall_mem_singleton.mpr fun hmem => ?_
      rcases List.mem_append.mp hmem with hmem | hmem
      · cases List.eq_of_mem_replicate hmem
      · cases List.mem_singleton.mp hmem
  have hpad : bareLine false pad = [] := by
    have htrim : trimLine pad = [] := by
      refine List.rdropWhile_eq_nil_iff.mpr fun b hb => ?_
      rcases List.mem_append.mp hb with hb | hb
      · rw [List.eq_of_mem_replicate hb]
        rfl
      · rw [List.mem_singleton.mp hb]
        rfl
    rw [bareLine, htrim]
    rfl
  refine ⟨_, hlaid.trans (join_enclosed _ _ _ _ _), ?_, ?_⟩
  · rw [Bytes.join_eq_flatMap, List.nil_append]
    cases ls <;> rfl
  · rw [bareLines_join hfree, List.map_append, List.map_map, List.map_singleton, hpad]
    have hlines : ∀ l ∈ bareBlock avail ps, bareLine false (indented column (starLine l)) = l :=
      fun l hl => bareLine_starLine column (isTrimmed_of_mem_bareBlock h hl).trimLine
    refine congrArg₂ _ rfl (congrArg (· ++ [[]]) ?_)
    exact (List.map_congr_left hlines).trans (List.map_id _)

theorem bareBlock_eq_linesOf (avail : Int) (h : AreRead m ps.reverse) :
    bareBlock avail ps = linesOf avail ps.reverse := by
  cases ps with
  | nil => rfl
  | cons p ps =>
      rw [List.reverse_cons] at h
      have hblank := h.blank_first
      rw [linesOf, List.reverse_reverse, bareBlock, List.flatMap_cons, bareParagraph,
        bareParagraph, hblank]
      rfl

/-- The lines of a block are read as paragraphs that are laid out as these lines. -/
theorem exists_ofBody_again {body' : Bytes} (hne : ofBody m body ≠ [])
    (hsettled : ∀ p ∈ ofBody m body, p.IsSettled m avail)
    (hbare : bareLines body' = [] :: (bareBlock avail (ofBody m body) ++ [[]])) :
    ∃ q qs, ofBody m body' = q :: qs ∧
      blockLines avail (q :: qs) = blockLines avail (ofBody m body) ∧
      (qs = [] → ∃ p, ofBody m body = [p] ∧ q.indent = p.indent ∧ q.pre = p.pre ∧
        joinWords q.words = joinWords p.words) := by
  have hareRead := areRead_ofBody m body
  obtain ⟨qs, hfold, hlines, -, -, hnil, hsingle⟩ := exists_foldl_again hareRead
    fun p hp => hsettled p (List.mem_reverse.mp hp)
  have hread : ofBody m body' = qs.reverse := by
    have hempty : Reading.line m {} [] = {} := Reading.line_blank rfl rfl
    rw [ofBody_eq, hbare, List.foldl_cons, hempty, List.foldl_append,
      bareBlock_eq_linesOf avail hareRead, hfold]
    exact congrArg List.reverse ((congrArg Reading.paragraphs
      (Reading.line_behind_blank qs false rfl)).trans (Reading.paragraphs_behind m qs _))
  have hsame : bareBlock avail (ofBody m body') = bareBlock avail (ofBody m body) := by
    rw [bareBlock_eq_linesOf avail hareRead,
      bareBlock_eq_linesOf avail (areRead_ofBody m body'), hread, List.reverse_reverse, hlines]
  have hblock : blockLines avail (ofBody m body') = blockLines avail (ofBody m body) := by
    rw [blockLines_eq_map all_isSpaced, blockLines_eq_map all_isSpaced, hsame]
  obtain ⟨q, qs', hqs⟩ : ∃ q qs', ofBody m body' = q :: qs' := by
    refine List.exists_cons_of_ne_nil fun hnone => hne ?_
    rw [hread, List.reverse_eq_nil_iff] at hnone
    exact List.reverse_eq_nil_iff.mp (hnil hnone)
  refine ⟨q, qs', hqs, hqs ▸ hblock, fun hone => ?_⟩
  rw [hone, hread] at hqs
  obtain ⟨p, hp, hq⟩ := hsingle q (List.reverse_eq_iff.mp hqs)
  exact ⟨p, List.reverse_eq_iff.mp hp, hq⟩

/-- A paragraph of which no row opens a preformatted section opens none on one line. -/
theorem opensPre_joinWords (h : p.IsSettled m avail) (hfits : p.Fits m d) (hne : p.words ≠ [])
    (hdoc : m.doc = true) : opensPre (joinWords p.words) = false := by
  obtain ⟨first, rest, hrows, hfills⟩ := exists_fills avail hne
  have hwords : p.words = first ++ rest.flatten := by
    rw [← rows_flatten avail p, hrows, List.flatten_cons]
  have hatoms := hfits.isAtom
  have hplain := h.plain hdoc first (by rw [hrows]; exact List.mem_cons_self)
  by_cases hmore : rest.flatten = []
  · rwa [hwords, hmore, List.append_nil]
  · have hfirst : ∀ a ∈ first, IsAtom a := fun a ha => hatoms a (hwords ▸ List.mem_append_left _ ha)
    rw [opensPre, trim_joinWords hfirst] at hplain
    rw [opensPre, trim_joinWords hatoms, hwords, joinWords_append hfills.isRow.1 hmore,
      isPrefixOf_lower_append (by decide), hplain]

theorem newline_not_mem_oneLine {ws : List Bytes} (hatoms : ∀ a ∈ ws, IsAtom a) :
    newline ∉ 32 :: (joinWords ws ++ [32]) := by
  have hwords := not_mem_joinWords hatoms (b := newline) (by decide) (by decide) (by decide)
  simpa [newline] using hwords

theorem bareLines_oneLine {ws : List Bytes} (hne : ws ≠ []) (hatoms : ∀ a ∈ ws, IsAtom a) :
    bareLines (32 :: (joinWords ws ++ [32])) = [joinWords ws] := by
  have htrim : trimLine (32 :: (joinWords ws ++ [32])) = 32 :: joinWords ws := by
    have hwords := trimLine_append [32] (joinWords_ne_nil hne hatoms)
      (trimLine_of_trim (trim_joinWords hatoms))
    rw [← List.cons_append]
    exact (trimLine_append_left hwords [32]).trans (List.append_nil _)
  have hfree := newline_not_mem_oneLine hatoms
  have hjoin : bareLines (Bytes.join [newline] [32 :: (joinWords ws ++ [32])]) =
      [bareLine true (32 :: (joinWords ws ++ [32]))] := bareLines_join (by simpa using hfree)
  rw [Bytes.join] at hjoin
  rw [hjoin, bareLine, htrim, if_pos rfl]
  simp [Bytes.dropLead]

/-- The line of a paragraph on one line with its delimiters is read as one paragraph. -/
theorem exists_ofBody_oneLine (hbody : ofBody m body = [p]) (hpre : p.pre = [])
    (hindent : p.indent = 0) (hsettled : p.IsSettled m avail) :
    ∃ q, ofBody m (32 :: (joinWords p.words ++ [32])) = [q] ∧
      q.indent = 0 ∧ q.pre = [] ∧ joinWords q.words = joinWords p.words := by
  have hareRead := areRead_ofBody m body
  rw [hbody] at hareRead
  cases hareRead with
  | cons hfits hblank hstarts _ =>
      have hne : p.words ≠ [] := by
        intro hnil
        cases hfits with
        | copied => cases hpre
        | kept _ hne => exact hne hnil
        | flowed => cases hnil
      have hatoms := hfits.isAtom
      obtain ⟨hang, hline, -⟩ :=
        Reading.exists_line_first hfits (List.append_nil _).symm hne hstarts
          (opensPre_joinWords hsettled hfits hne)
      have hfirst : p.blank = false := Bool.eq_false_iff.mpr fun hp => hblank hp rfl
      rw [hindent, hfirst] at hline
      have hread := congrArg Reading.paragraphs hline
      refine ⟨{ words := reread p.words, hang, pre := p.pre }, ?_, rfl, hpre,
        joinWords_reread hatoms⟩
      rw [ofBody_eq, bareLines_oneLine hne hatoms]
      refine (congrArg List.reverse hread).trans ?_
      exact congrArg List.reverse (Reading.paragraphs_behind m [_] false)

theorem exists_fits_of_mem (h : AreRead m ps) (hp : p ∈ ps) : ∃ d, p.Fits m d := by
  induction h with
  | nil => cases hp
  | cons hfits _ _ _ ih =>
      rcases List.mem_cons.mp hp with rfl | hp
      · exact ⟨_, hfits⟩
      · exact ih hp

/-- Whether a comment that is reflowed is read as it is laid out: so is each paragraph of its
body. -/
def IsSettled (c : Comment) (column limit : Int) : Prop :=
  c.options.reflow = true → isByHand c.text = false →
    ∀ body, c.text = c.opening ++ body ++ commentEnd →
      ∀ p ∈ ofBody c.mode body, p.IsSettled c.mode (room column limit 3)

theorem isSettled_of_body (htext : c.text = c.opening ++ body ++ commentEnd)
    (h : ∀ p ∈ ofBody c.mode body, p.IsSettled c.mode (room column limit 3)) :
    c.IsSettled column limit := by
  intro _ _ body' htext'
  obtain rfl := List.append_cancel_left (List.append_cancel_right (htext.symm.trans htext'))
  exact h

/-- In a comment that is no doc comment nothing has a meaning of its own. -/
theorem isSettled_of_not_doc (hdoc : m.doc = false) (avail : Int) (hfits : p.Fits m d) :
    p.IsSettled m avail := by
  have hnot : ¬m.doc = true := by simp [hdoc]
  refine ⟨?_, fun h => absurd h hnot, fun h => absurd h hnot, Or.inl ?_⟩
  · cases hfits with
    | copied h => exact absurd h hnot
    | kept | flowed => nofun
  · cases hfits with
    | copied h => exact absurd h hnot
    | kept => rfl
    | @flowed w ws blank => exact if_neg (by simp [hdoc])

theorem isClosed_enclosed (c : Comment) (body : Bytes) :
    Lexer.isClosed (c.opening ++ body ++ commentEnd) commentEnd 2 = true := by
  have hopening : 2 ≤ c.opening.length := by
    rw [opening]
    split_ifs <;> decide
  rw [Lexer.isClosed, Bool.and_eq_true, decide_eq_true_iff, List.isSuffixOf_iff_suffix]
  refine ⟨?_, List.suffix_append _ _⟩
  simp only [List.length_append]
  omega

/-- A line break or a space behind the opening marks no comment as laid out by hand. -/
theorem not_isByHand {b : UInt8} {t : Bytes} (hbody : body = b :: t) (hb : b = newline ∨ b = 32)
    (c : Comment) : isByHand (c.opening ++ body ++ commentEnd) = false := by
  rw [isByHand_eq, isClosed_enclosed, hbody, opening]
  obtain rfl | rfl := hb <;> split_ifs <;> simp [ascii, newline, List.isPrefixOf]

theorem opening_congr (hstyle : c'.style = c.style) : c'.opening = c.opening := by
  rw [opening, opening, hstyle]

/-- A comment that is read again is laid out from the paragraphs of its own body. -/
theorem reflowBlock_congr {body' : Bytes} (hstyle : c'.style = c.style)
    (hoptions : c'.options = c.options) (h : c'.text = c.opening ++ body' ++ commentEnd)
    (column limit : Int) :
    c'.reflowBlock column limit = c'.formed column limit (ofBody c.mode body') := by
  have hmode : c'.mode = c.mode := by rw [mode, mode, hoptions, hstyle]
  rw [reflowBlock_eq (opening_congr hstyle ▸ h), hmode]

variable (hstyle : c'.style = c.style) (hoptions : c'.options = c.options)
  (htext : c.text = c.opening ++ body ++ commentEnd)
  (htext' : c'.text = (c.reflowBlock column limit).laid column)
include hstyle hoptions htext htext'

/-- A comment without paragraphs is kept as it is written. -/
theorem reflowBlock_again_blank (hline : c.style ≠ .line) (hhand : isByHand c.text = false)
    (hnil : ofBody c.mode body = []) :
    isByHand c'.text = false ∧ c'.reflowBlock column limit = c.reflowBlock column limit := by
  have hwritten : c.reflowBlock column limit = c.asWritten := by
    rw [reflowBlock_eq htext, hnil]
    rfl
  rw [hwritten] at htext' ⊢
  obtain ⟨hfree, hlast, -⟩ := opening_props c
  obtain ⟨body', hlaid, hblank⟩ :=
    laid_asWritten_blank column hline hfree hlast htext (ofBody_eq_nil_iff.mp hnil)
  have hline' : c'.style ≠ .line := by rwa [hstyle]
  have hclosed : Lexer.isClosed c'.text commentEnd 2 = Lexer.isClosed c.text commentEnd 2 := by
    rw [htext', hlaid, htext, isClosed_enclosed, isClosed_enclosed]
  refine ⟨by rw [isByHand_again hline hline' htext' hclosed, hhand], ?_⟩
  rw [reflowBlock_congr hstyle hoptions (htext'.trans hlaid), ofBody_eq_nil_iff.mpr hblank]
  exact asWritten_again hline hline' htext'

variable (hsettled : ∀ p ∈ ofBody c.mode body, p.IsSettled c.mode (room column limit 3))
include hsettled

/-- A comment on one line with its delimiters. -/
theorem reflowBlock_again_oneLine {line : Bytes}
    (hone : c.oneLine? c.opening column limit (ofBody c.mode body) = some line) :
    isByHand c'.text = false ∧ c'.reflowBlock column limit = c.reflowBlock column limit := by
  obtain ⟨p, hp, -⟩ := oneLine?_eq_some hone
  have hmem : p ∈ ofBody c.mode body := by
    rw [hp]
    exact List.mem_singleton_self p
  have hwritten : c.reflowBlock column limit = ⟨[line], true⟩ :=
    (reflowBlock_eq htext column limit).trans (formed_some (List.ne_nil_of_mem hmem) hone)
  rw [hp, oneLine?_eq_some_iff] at hone
  obtain ⟨rfl, -, hpre, hindent, hfits⟩ := hone
  obtain ⟨q, hread, hzero, hnone, hwords⟩ :=
    exists_ofBody_oneLine hp hpre hindent (hsettled p hmem)
  obtain ⟨d, hatoms⟩ :=
    exists_fits_of_mem (areRead_ofBody c.mode body) (List.mem_reverse.mpr hmem)
  rw [hwritten] at htext' ⊢
  have hlaid : c'.text = c.opening ++ (32 :: (joinWords p.words ++ [32])) ++ commentEnd := by
    rw [htext', commentEnd_eq]
    simp [Rendered.laid, Bytes.join, ascii]
  have hfree : newline ∉ c'.text := by
    rw [hlaid, List.mem_append, List.mem_append, not_or, not_or]
    exact ⟨⟨(opening_props c).1, newline_not_mem_oneLine hatoms.isAtom⟩, by decide⟩
  refine ⟨?_, ?_⟩
  · rw [hlaid]
    exact not_isByHand rfl (Or.inr rfl) c
  · rw [reflowBlock_congr hstyle hoptions hlaid, hread]
    refine formed_some (List.cons_ne_nil _ _) (oneLine?_eq_some_iff.mpr ?_)
    rw [hwords, opening_congr hstyle, hoptions]
    exact ⟨rfl, Or.inl hfree, hnone, hzero, hfits⟩

/-- A comment on lines of its own between those of the delimiters. -/
theorem reflowBlock_again_lines (hne : ofBody c.mode body ≠ [])
    (hone : c.oneLine? c.opening column limit (ofBody c.mode body) = none) :
    isByHand c'.text = false ∧ c'.reflowBlock column limit = c.reflowBlock column limit := by
  have hwritten := (reflowBlock_eq htext column limit).trans (formed_none hne hone)
  rw [hwritten] at htext' ⊢
  have hspaced : ∀ p ∈ ofBody c.mode body, p.All IsSpaced IsTrimmed := all_isSpaced
  obtain ⟨body', hlaid, hhead, hbare⟩ :=
    exists_laid_block (room column limit 3) hspaced c column
  rw [hlaid] at htext'
  obtain ⟨q, qs, hread, hblock, hsingle⟩ := exists_ofBody_again hne hsettled hbare
  obtain ⟨t, ht⟩ := List.head?_eq_some_iff.mp hhead
  have hnone : c'.oneLine? c'.opening column limit (q :: qs) = none := by
    refine Option.eq_none_iff_forall_ne_some.mpr fun line hsome => ?_
    obtain ⟨q', hq, -⟩ := oneLine?_eq_some hsome
    obtain ⟨rfl, rfl⟩ := List.cons.inj hq
    obtain ⟨p, hp, hindent, hpre, hwords⟩ := hsingle rfl
    rw [oneLine?_eq_some_iff, opening_congr hstyle, hoptions, hstyle, hindent, hpre,
      hwords] at hsome
    obtain ⟨hlineEq, hheader, hkept, hzero, hfits⟩ := hsome
    -- On more than one line, only a header may be put on one line.
    have hmany : ¬newline ∉ c'.text := by
      rw [htext', ht]
      simp
    have hfit := oneLine?_eq_some_iff.mpr
      ⟨hlineEq, Or.inr (hheader.resolve_left hmany), hkept, hzero, hfits⟩
    rw [hp, hfit] at hone
    cases hone
  refine ⟨?_, ?_⟩
  · rw [htext']
    exact not_isByHand ht (Or.inl rfl) c
  · rw [reflowBlock_congr hstyle hoptions htext', hread,
      formed_none (List.cons_ne_nil q qs) hnone, hblock, opening_congr hstyle]

/-- What is written for a comment that is reflowed is reflowed to the same lines. -/
theorem reflowBlock_again (hline : c.style ≠ .line) (hhand : isByHand c.text = false) :
    isByHand c'.text = false ∧ c'.reflowBlock column limit = c.reflowBlock column limit := by
  by_cases hnil : ofBody c.mode body = []
  · exact reflowBlock_again_blank hstyle hoptions htext htext' hline hhand hnil
  · cases hone : c.oneLine? c.opening column limit (ofBody c.mode body) with
    | some line => exact reflowBlock_again_oneLine hstyle hoptions htext htext' hsettled hone
    | none => exact reflowBlock_again_lines hstyle hoptions htext htext' hsettled hnil hone

omit hstyle hoptions htext htext' hsettled

theorem style_doc_or_block (hstyle : c.style = CommentStyle.ofText c.text)
    (htext : c.text = 47 :: 42 :: body) : c.style = .doc ∨ c.style = .block := by
  rw [hstyle, htext, CommentStyle.ofText_block]
  split_ifs
  · exact Or.inl rfl
  · exact Or.inr rfl

theorem exists_enclosed {inner : Bytes} (hstyle : c.style = CommentStyle.ofText c.text)
    (htext : c.text = 47 :: 42 :: (inner ++ commentEnd)) :
    ∃ s, c.text = c.opening ++ s ++ commentEnd := by
  by_cases hdoc : c.style = .doc
  · have hstars := hdoc
    rw [hstyle, htext, ofText_eq_doc_iff] at hstars
    obtain ⟨hhead, hne⟩ := hstars
    cases inner with
    | nil => exact absurd rfl hne
    | cons b inner =>
        obtain rfl : b = 42 := by simpa using hhead
        exact ⟨inner, by rw [htext, opening, if_pos hdoc]; rfl⟩
  · exact ⟨inner, by rw [htext, opening, if_neg hdoc]; rfl⟩

/-- What is written for a block comment or a doc comment is laid out to the same lines, as long as
its paragraphs are read as they are laid out. -/
theorem render_block_again {c c' : Comment} {body : Bytes}
    (hstyle : c.style = CommentStyle.ofText c.text)
    (hstyle' : c'.style = CommentStyle.ofText c'.text)
    (hoptions : c'.options = c.options) (htext : c.text = 47 :: 42 :: body)
    (hclosed : body.Closes closed) (htext' : c'.text = (c.render column limit).laid column)
    (hsettled : c.IsSettled column limit) :
    c'.render column limit = c.render column limit := by
  have hline := style_ne_line hstyle htext
  obtain ⟨body', hbody', hclosed', hdoc'⟩ :=
    (encloses_render column limit hstyle htext hclosed).laid column
  rw [← htext'] at hbody' hdoc'
  have hline' := style_ne_line hstyle' hbody'
  have hsame : c'.style = c.style := by
    rw [← hstyle'] at hdoc'
    rcases style_doc_or_block hstyle htext with h | h
    · rw [hdoc'.mpr h, h]
    · rcases style_doc_or_block hstyle' hbody' with h' | h'
      · rw [hdoc'.mp h'] at h
        cases h
      · rw [h', h]
  have hclosedEq : Lexer.isClosed c'.text commentEnd 2 = Lexer.isClosed c.text commentEnd 2 := by
    rw [hbody', htext, hclosed'.isClosed_eq, hclosed.isClosed_eq]
  by_cases hreflow : c.options.reflow = true
  · have hrender {d : Comment} {t : Bytes} (hd : d.options = c.options)
        (hs : d.style = CommentStyle.ofText d.text) (ht : d.text = 47 :: 42 :: t) :
        d.render column limit =
          if isByHand d.text then d.asWritten else d.reflowBlock column limit := by
      rw [render, if_neg (by simp [hd, hreflow])]
      rcases style_doc_or_block hs ht with h | h <;> rw [h]
    rw [hrender rfl hstyle htext] at htext' ⊢
    rw [hrender hoptions hstyle' hbody']
    cases hhand : isByHand c.text with
    | true =>
        rw [hhand, if_pos rfl] at htext'
        rw [isByHand_again hline hline' htext' hclosedEq, hhand, if_pos rfl, if_pos rfl,
          asWritten_again hline hline' htext']
    | false =>
        rw [hhand, if_neg Bool.false_ne_true] at htext'
        obtain rfl : closed = true := by
          rw [isByHand_eq, htext, hclosed.isClosed_eq] at hhand
          cases closed with
          | true => rfl
          | false => cases hhand
        obtain ⟨inner, rfl, -⟩ := hclosed
        obtain ⟨s, hs⟩ := exists_enclosed hstyle htext
        obtain ⟨hhand', hagain⟩ := reflowBlock_again hsame hoptions hs htext'
          (hsettled hreflow hhand s hs) hline hhand
        rw [hhand', if_neg Bool.false_ne_true, if_neg Bool.false_ne_true, hagain]
  · have hkeep {d : Comment} (hd : d.options = c.options) :
      d.render column limit = d.asWritten := by
      rw [render, if_pos (by simp [hd, hreflow])]
    rw [hkeep rfl] at htext' ⊢
    rw [hkeep hoptions, asWritten_again hline hline' htext']

end Blocks

/-- What is written for a comment is laid out as it is when it is read again. A block comment is
read from its lines as they stand at its column, and a run of line comments from its lines one by
one. -/
theorem render_again (text : Bytes) (options : CommentOptions) (column limit : Int) :
    (∀ t ∈ Token.ofText text, t.kind = .comment → CommentStyle.ofText t.text = .block →
      (ofRaw [((ofRaw [t.text] options).render column limit).laid column] options).render
          column limit =
        (ofRaw [t.text] options).render column limit) ∧
    ∀ ts : List Token, (∀ t ∈ ts, t ∈ Token.ofText text ∧ t.kind = .comment ∧
        CommentStyle.ofText t.text = .line) →
      (ofRaw ((ofRaw (ts.map Token.text) options).render column limit).lines options).render
          column limit =
        (ofRaw (ts.map Token.text) options).render column limit := by
  refine ⟨fun t ht hkind hblock => ?_, fun ts hts => ?_⟩
  · obtain ⟨closed, body, htext, hclosed⟩ :=
      (Token.isComment ht hkind).closes (by rw [hblock]; nofun)
    have hdoc : (ofRaw [t.text] options).mode.doc = false := by
      simp [mode, ofRaw, hblock]
    refine render_block_again rfl rfl rfl htext hclosed rfl fun _ _ s _ p hp => ?_
    obtain ⟨d, hfits⟩ := exists_fits_of_mem (areRead_ofBody _ s) (List.mem_reverse.mpr hp)
    exact isSettled_of_not_doc hdoc _ hfits
  · refine render_lines_again options ?_ column limit
    intro raw hraw
    obtain ⟨t, ht, rfl⟩ := List.mem_map.mp hraw
    obtain ⟨hof, hkind, hline⟩ := hts t ht
    exact ((Token.isComment hof hkind).isLineComment hline).1

/-- A block comment with an inline tag that goes on in the next line, and a line comment that is too
wide. -/
def raggedComments : Bytes :=
  ascii "/* \x7b@b c\nd\x7d e */ // one two three"

/-- The tag is put on one line, where it is read as one word, and both comments stay as they are
then. -/
theorem render_again_comments :
    ∃ block line, Token.ofText raggedComments = [block, ⟨.space, 16, [32]⟩, line] ∧
      ((ofRaw [block.text] { reflow := true, join := true }).render 4 15).lines =
        [ascii "/*", ascii " * \x7b@b c d\x7d", ascii " * e", ascii " */"] ∧
      (ofRaw [((ofRaw [block.text] { reflow := true, join := true }).render 4 15).laid 4]
          { reflow := true, join := true }).render 4 15 =
        (ofRaw [block.text] { reflow := true, join := true }).render 4 15 ∧
      (ofRaw ((ofRaw [line.text] { reflow := true, join := true }).render 4 15).lines
          { reflow := true, join := true }).render 4 15 =
        (ofRaw [line.text] { reflow := true, join := true }).render 4 15 := by
  have htokens : Token.ofText raggedComments =
      [⟨.comment, 0, ascii "/* \x7b@b c\nd\x7d e */"⟩, ⟨.space, 16, [32]⟩,
        ⟨.comment, 17, ascii "// one two three"⟩] := by decide +kernel
  obtain ⟨hblock, hlines⟩ := render_again raggedComments { reflow := true, join := true } 4 15
  rw [htokens] at hblock hlines
  refine ⟨_, _, htokens, by decide +kernel, hblock _ (by simp) rfl (by decide), ?_⟩
  exact hlines [⟨.comment, 17, ascii "// one two three"⟩] (by simp; decide)

/-- What is written for a doc comment is laid out as it is when it is read again, as long as its
paragraphs are read as they are laid out. -/
theorem render_doc_again (text : Bytes) (options : CommentOptions) (column limit : Int) :
    ∀ t ∈ Token.ofText text, t.kind = .comment → CommentStyle.ofText t.text = .doc →
      (ofRaw [t.text] options).IsSettled column limit →
      (ofRaw [((ofRaw [t.text] options).render column limit).laid column] options).render
          column limit =
        (ofRaw [t.text] options).render column limit := by
  intro t ht hkind hdoc hsettled
  obtain ⟨closed, body, htext, hclosed⟩ :=
    (Token.isComment ht hkind).closes (by rw [hdoc]; nofun)
  exact render_block_again rfl rfl rfl htext hclosed rfl hsettled

/-- The body of a doc comment with an inline tag, a list, a preformatted section and a block tag. -/
def markedBody : Bytes :=
  ascii " one \x7b@code a b\x7d two\n* <ul><li>three four five\n* </ul>\n* <pre>\n*  six\n" ++
    ascii "* </pre>\n* @param b seven eight nine\n"

/-- The doc comment with this body. -/
def markedComment : Bytes :=
  ascii "/**" ++ markedBody ++ commentEnd

/-- The options that put words on lines with block tags that the further lines hang under. -/
def tagOptions : CommentOptions :=
  { reflow := true, join := true, rootTags := true }

/-- A row is read as the row that it is, and the section as it stands. -/
theorem render_doc_again_marked :
    ∃ t, Token.ofText markedComment = [t] ∧ t.kind = .comment ∧ CommentStyle.ofText t.text = .doc ∧
      (ofRaw [t.text] tagOptions).IsSettled 2 20 ∧
      ((ofRaw [t.text] tagOptions).render 2 20).lines =
        [ascii "/**", ascii " * one \x7b@code a b\x7d", ascii " * two", ascii " * <ul>",
          ascii " *   <li>three", ascii " *   four five", ascii " * </ul>", ascii " * <pre>",
          ascii " *  six", ascii " * </pre>", ascii " * @param b seven", ascii " *        eight",
          ascii " *        nine", ascii " */"] ∧
      (ofRaw [((ofRaw [t.text] tagOptions).render 2 20).laid 2] tagOptions).render 2 20 =
        (ofRaw [t.text] tagOptions).render 2 20 := by
  have htokens : Token.ofText markedComment = [⟨.comment, 0, markedComment⟩] := by decide +kernel
  have hdoc : CommentStyle.ofText markedComment = .doc := by decide +kernel
  have hbody : (ofRaw [markedComment] tagOptions).text =
      (ofRaw [markedComment] tagOptions).opening ++ markedBody ++ commentEnd := by decide +kernel
  have hsettled : (ofRaw [markedComment] tagOptions).IsSettled 2 20 :=
    isSettled_of_body hbody (by decide +kernel)
  refine ⟨_, htokens, rfl, hdoc, hsettled, by decide +kernel, ?_⟩
  exact render_doc_again markedComment tagOptions 2 20 _
    (by rw [htokens]; exact List.mem_singleton_self _) rfl hdoc hsettled

/-- The opening tag of a preformatted section that is not closed. The line of the closing delimiter
becomes a part of the section, so with each time it is laid out the comment has one more line. -/
theorem render_again_unclosed :
    (ofRaw [ascii "/** <pre> */"] { reflow := true }).render 0 80 =
        ⟨[ascii "/**", ascii " * <pre>", ascii " */"], true⟩ ∧
      (ofRaw [((ofRaw [ascii "/** <pre> */"] { reflow := true }).render 0 80).laid 0]
          { reflow := true }).render 0 80 =
        ⟨[ascii "/**", ascii " * <pre>", ascii " *", ascii " */"], true⟩ := by
  decide +kernel

end Comment

end CodeLayout
