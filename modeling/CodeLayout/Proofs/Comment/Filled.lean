import CodeLayout.Proofs.Comment.Again.Blocks

/-!
# Comments that are filled

A comment that is reflowed is filled with its words from a column on: a line ends within the limit
or has no second word that could be taken off it, and it ends only where the first word of the next
line would not fit behind it. The room for words is counted in widths of words and measured in
columns of lines, and the two agree: a lead takes one column for each byte, and each space between
words one. Columns and room are kept in words of 64 bits, so this holds as long as none of them
wraps around.
-/

namespace CodeLayout

theorem exists_mem_of_forall₂ {α β : Type} {R : α → β → Prop} {as : List α} {bs : List β}
    (h : List.Forall₂ R as bs) {b : β} (hb : b ∈ bs) : ∃ a ∈ as, R a b := by
  induction h with
  | nil => cases hb
  | cons hR _ ih =>
      rcases List.mem_cons.mp hb with rfl | hb
      · exact ⟨_, List.mem_cons_self, hR⟩
      · obtain ⟨a, ha, hab⟩ := ih hb
        exact ⟨a, List.mem_cons_of_mem _ ha, hab⟩

namespace Comment

open Paragraph

/-- A row of words behind a lead. -/
structure Row where
  lead : Bytes
  words : List Bytes

/-- The line that a row makes up. -/
def Row.text (r : Row) : Bytes :=
  r.lead ++ joinWords r.words

/-- Whether rows are filled with words from a column on: they hold the words in order, a row of more
than one word ends within the limit, and behind no row there is room for the first word of the
next. -/
structure Filled (size column limit : Int) (words : List Bytes) (rows : List Row) : Prop where
  words : rows.flatMap Row.words = words
  ne_nil : ∀ r ∈ rows, r.words ≠ []
  fits : ∀ r ∈ rows, Width.advance column size r.text ≤ limit ∨ ∃ w, r.words = [w]
  full : rows.IsChain fun r r' =>
    ∀ w ∈ r'.words.head?, limit < Width.advance column size (r.text ++ 32 :: w)

section Rows

variable {size column limit : Int} {lead lead' : Bytes} {ws : List Bytes} {rows : List (List Bytes)}

/-- A row ends at the column behind its lead and its words. -/
theorem advance_row (size column : Int) (hlead : lead.IsPrintable) (hws : ∀ w ∈ ws, IsSpaced w) :
    Width.advance column size (lead ++ joinWords ws) =
      column + lead.length + Width.text (joinWords ws) := by
  have hnone : ∀ b : UInt8, b < 32 → isBlank b.toNat = true → b ∉ lead ++ joinWords ws := by
    intro b hb hblank hmem
    rcases List.mem_append.mp hmem with hmem | hmem
    · exact hlead.not_mem hb hmem
    · rcases mem_joinWords hmem with rfl | ⟨w, hw, hmem⟩
      · exact absurd hb (by decide)
      · have hspace := (hws w hw).eq_space b hmem (UInt8.lt_trans hb (by decide)) hblank
        exact absurd (hspace ▸ hb) (by decide)
  rw [Width.advance_eq column size (hnone _ (by decide) (by decide))
      (hnone _ (by decide) (by decide))
      fun hlast => hnone 13 (by decide) (by decide) (List.mem_of_getLast? hlast),
    Width.text_append_of_printable hlead]
  push_cast
  omega

theorem fits_of_isRow (size : Int) (hlead : lead.IsPrintable) (hws : ∀ w ∈ ws, IsSpaced w)
    (h : IsRow (limit - column - lead.length) ws) :
    Width.advance column size (Row.text ⟨lead, ws⟩) ≤ limit ∨ ∃ w, ws = [w] := by
  rw [Row.text, advance_row size column hlead hws]
  rcases h.2 with hone | hfits
  · exact Or.inr (List.length_eq_one_iff.mp hone)
  · exact Or.inl (by omega)

theorem full_of_parts (size : Int) (hlead : lead.IsPrintable) (hne : ws ≠ [])
    (hws : ∀ w ∈ ws, IsSpaced w) {w : Bytes} (hw : IsSpaced w)
    (h : limit - column - lead.length < Width.text (joinWords ws) + 1 + Width.text w) :
    limit < Width.advance column size (Row.text ⟨lead, ws⟩ ++ 32 :: w) := by
  have hall : ∀ v ∈ ws ++ [w], IsSpaced v :=
    List.forall_mem_append.mpr ⟨hws, List.forall_mem_singleton.mpr hw⟩
  have hmore : Row.text ⟨lead, ws⟩ ++ 32 :: w = lead ++ joinWords (ws ++ [w]) := by
    rw [joinWords_append hne (List.cons_ne_nil w []), joinWords_singleton, Row.text,
      List.append_assoc]
  rw [hmore, advance_row size column hlead hall, text_joinWords hne (List.cons_ne_nil w []),
    joinWords_singleton]
  push_cast
  omega

/-- Lines that are as full as possible are filled rows behind a lead that leaves them their room. -/
theorem filled_of_packed (size : Int) (hlead : lead.IsPrintable)
    (hws : ∀ ws ∈ rows, ∀ w ∈ ws, IsSpaced w) (h : Packed (limit - column - lead.length) rows) :
    Filled size column limit rows.flatten (rows.map (Row.mk lead)) := by
  have hspaced : ∀ ws ∈ rows, ∀ w ∈ ws.head?, IsSpaced w :=
    fun ws hrow w hw => hws ws hrow w (List.mem_of_mem_head? hw)
  refine ⟨by rw [List.flatMap_map, List.flatten_eq_flatMap]; rfl, ?_, ?_, ?_⟩
  · exact List.forall_mem_map.mpr fun ws hrow => (h.isRow ws hrow).1
  · exact List.forall_mem_map.mpr fun ws hrow =>
      fits_of_isRow size hlead (hws ws hrow) (h.isRow ws hrow)
  · rw [List.isChain_map]
    refine h.parts.imp_of_mem_imp fun ws vs hrow hvs hparts w hw => ?_
    exact full_of_parts size hlead (h.isRow ws hrow).1 (hws ws hrow) (hspaced vs hvs w hw)
      (hparts w hw)

/-- A row in front of filled rows. -/
theorem Filled.cons {words : List Bytes} {rows : List Row} (h : Filled size column limit words rows)
    (r : Row) (hne : r.words ≠ [])
    (hfits : Width.advance column size r.text ≤ limit ∨ ∃ w, r.words = [w])
    (hfull : ∀ w ∈ words.head?, limit < Width.advance column size (r.text ++ 32 :: w)) :
    Filled size column limit (r.words ++ words) (r :: rows) := by
  refine ⟨by rw [List.flatMap_cons, h.words], List.forall_mem_cons.mpr ⟨hne, h.ne_nil⟩,
    List.forall_mem_cons.mpr ⟨hfits, h.fits⟩, ?_⟩
  cases rows with
  | nil => exact List.IsChain.singleton r
  | cons r' rows =>
      refine List.isChain_cons_cons.mpr ⟨fun w hw => hfull w ?_, h.full⟩
      rw [← h.words, List.flatMap_cons,
        List.head?_append_of_ne_nil _ (h.ne_nil r' List.mem_cons_self)]
      exact hw

end Rows

section Paragraphs

variable {p : Paragraph} {column limit : Int}

/-- The lead of a row behind its star. -/
def starLead (n : Nat) : Bytes :=
  ascii " * " ++ List.replicate n 32

/-- Whether lines are those of a paragraph: an empty one if it comes first, the lines that are
copied, and rows that are filled with its words, of which those behind the first hang. -/
def LaysOut (size column limit : Int) (isFirst : Bool) (p : Paragraph)
    (lines : List Bytes) : Prop :=
  ∃ rows, lines = (if p.blank && !isFirst then [ascii " *"] else []) ++ p.pre.map starLine ++
      rows.map Row.text ∧
    Filled size column limit p.words rows ∧ (∀ r ∈ rows.head?, r.lead = starLead p.indent) ∧
    ∀ r ∈ rows.tail, r.lead = starLead (p.indent + p.hang)

theorem isPrintable_starLead (n : Nat) : (starLead n).IsPrintable := by
  refine Bytes.IsPrintable.append (by decide) fun b hb => ?_
  rw [List.eq_of_mem_replicate hb]
  decide

theorem length_starLead (n : Nat) : (starLead n).length = 3 + n := by
  simp [starLead, ascii]
  omega

theorem starLine_row {n : Nat} {ws : List Bytes} (h : row n ws ≠ []) :
    starLine (row n ws) = Row.text ⟨starLead n, ws⟩ := by
  rw [starLine, if_neg (by simpa using h), row, Row.text, starLead, List.append_assoc]

/-- Whether the room for a paragraph in a block fits in words: all of it, what its indentation
leaves, and what is left where lines hang. -/
structure RoomInWords (column limit : Int) (p : Paragraph) : Prop where
  all : Width.InWord (limit - column - 3)
  indent : Width.InWord (limit - column - 3 - p.indent)
  hang : Width.InWord (limit - column - 3 - p.indent - p.hang)

instance (column limit : Int) (p : Paragraph) : Decidable (RoomInWords column limit p) :=
  decidable_of_iff (Width.InWord (limit - column - 3) ∧
      Width.InWord (limit - column - 3 - p.indent) ∧
      Width.InWord (limit - column - 3 - p.indent - p.hang))
    ⟨fun ⟨hall, hindent, hhang⟩ => ⟨hall, hindent, hhang⟩, fun h => ⟨h.all, h.indent, h.hang⟩⟩

/-- The rows of a paragraph are filled, although those behind the first are packed by themselves. -/
theorem filled_rows (size : Int) (h : p.All IsSpaced IsTrimmed)
    (hroom : RoomInWords column limit p) :
    ∃ rows, (flowedLines (room column limit 3) p).map starLine = rows.map Row.text ∧
      Filled size column limit p.words rows ∧ (∀ r ∈ rows.head?, r.lead = starLead p.indent) ∧
      ∀ r ∈ rows.tail, r.lead = starLead (p.indent + p.hang) := by
  have hall : room column limit 3 = limit - column - 3 := hroom.all.word_eq
  have hspaced : ∀ ws ∈ rows (room column limit 3) p, ∀ w ∈ ws, IsSpaced w :=
    fun ws hws => isSpaced_of_mem_rows h hws
  have hline : ∀ n, ∀ ws ∈ rows (room column limit 3) p,
      starLine (row n ws) = Row.text ⟨starLead n, ws⟩ :=
    fun n ws hws => starLine_row (row_ne_nil h n hws)
  have hlead (n : Nat) : limit - column - 3 - n = limit - column - ((starLead n).length : Nat) := by
    rw [length_starLead]
    push_cast
    omega
  have hflatten := rows_flatten (room column limit 3) p
  rcases rows_cases (room column limit 3) p with
    ⟨hwords, hnil⟩ | ⟨first, rest, hrows, hrow, hfull, hpacked⟩
  · refine ⟨[], by rw [flowedLines, hnil]; rfl, ?_, by simp, by simp⟩
    exact ⟨hwords.symm, by simp, by simp, List.IsChain.nil⟩
  · rw [hrows, List.forall_mem_cons] at hspaced
    rw [hrows, List.flatten_cons] at hflatten
    obtain ⟨hfirst, hrest⟩ := hspaced
    have hindent : Width.word (room column limit 3 - p.indent) =
        limit - column - ((starLead p.indent).length : Nat) := by
      rw [hall, hroom.indent.word_eq, hlead]
    have hhang : Width.word (room column limit 3 - p.indent - p.hang) =
        limit - column - ((starLead (p.indent + p.hang)).length : Nat) := by
      rw [hall, hroom.hang.word_eq, ← hlead]
      push_cast
      omega
    rw [hindent] at hrow hfull
    rw [hhang] at hpacked
    have hfilled := filled_of_packed size (isPrintable_starLead _) hrest hpacked
    refine ⟨⟨starLead p.indent, first⟩ :: rest.map (Row.mk (starLead (p.indent + p.hang))), ?_, ?_,
      by simp, by simp⟩
    · rw [flowedLines, hrows, List.map_cons, List.map_cons, List.map_map, List.map_map,
        hline _ _ (by rw [hrows]; exact List.mem_cons_self)]
      refine congrArg _ (List.map_congr_left fun ws hws => ?_)
      exact hline _ ws (by rw [hrows]; exact List.mem_cons_of_mem first hws)
    · rw [← hflatten]
      refine hfilled.cons ⟨_, first⟩ hrow.1
        (fits_of_isRow size (isPrintable_starLead _) hfirst hrow) fun w hw => ?_
      have hw' : IsSpaced w := h.words w (by
        rw [← hflatten]
        exact List.mem_append_right _ (List.mem_of_mem_head? hw))
      exact full_of_parts size (isPrintable_starLead _) hrow.1 hfirst hw' (hfull w hw)

theorem laysOut_paragraphLines (size : Int) (isFirst : Bool) (h : p.All IsSpaced IsTrimmed)
    (hroom : RoomInWords column limit p) :
    LaysOut size column limit isFirst p (paragraphLines (room column limit 3) isFirst p) := by
  obtain ⟨rows, hrows, hfilled, hlead, hleads⟩ := filled_rows size h hroom
  refine ⟨rows, ?_, hfilled, hlead, hleads⟩
  rw [paragraphLines_eq_map h, bareParagraph, List.map_append, List.map_append, hrows]
  congr 2
  split_ifs <;> rfl

end Paragraphs

section Comments

/-- The text of a block comment or a doc comment between its delimiters. -/
def body (c : Comment) : Bytes :=
  Bytes.dropEnding commentEnd (c.text.drop c.opening.length)

/-- The slashes that a line comment starts with. -/
def slashes (raw : Bytes) : Bytes :=
  (trimLine raw).takeWhile (· = 47)

/-- The words of a line comment behind its slashes. -/
def lineWords (raw : Bytes) : List Bytes :=
  Bytes.words ((trimLine raw).dropWhile (· = 47))

/-- The words that a comment is filled with. -/
def words (c : Comment) : List Bytes :=
  if c.style = .line then c.raw.flatMap lineWords
  else (ofBody c.mode c.body).flatMap Paragraph.words

/-- Whether a text is the lead of a row of a comment. -/
def IsLead (c : Comment) (lead : Bytes) : Prop :=
  if c.style = .line then ∃ raw ∈ c.raw, lead = slashes raw ∨ lead = slashes raw ++ [32]
  else ∃ n, lead = starLead n

/-- Whether a comment is reflowed: it may be, and a block comment or a doc comment is not laid out
by hand and has text. -/
def IsReflowed (c : Comment) : Prop :=
  c.options.reflow = true ∧ (c.style = .line ∨
    (c.style = .block ∨ c.style = .doc) ∧ isByHand c.text = false ∧ ofBody c.mode c.body ≠ [])

/-- Whether lines are those of one line comment: itself, if it fits or has less than two words, or
rows that are filled with its words behind its slashes. -/
inductive LineLaid (size column limit : Int) (raw : Bytes) : List Bytes → Prop
  | kept (h : Width.advance column size (trimLine raw) ≤ limit ∨ (lineWords raw).length < 2) :
      LineLaid size column limit raw [trimLine raw]
  | wrapped {blank : Bytes} {rows : List Row} (hblank : blank = [] ∨ blank = [32])
      (hlead : ∀ r ∈ rows, r.lead = slashes raw ++ blank)
      (hrows : Filled size column limit (lineWords raw) rows) :
      LineLaid size column limit raw (rows.map Row.text)

/-- Whether lines are those of a block comment with paragraphs: one that fits with the words of the
only one, or those of each between lines with the delimiters. -/
inductive BlockLaid (c : Comment) (column limit : Int) : List Paragraph → List Bytes → Prop
  | oneLine {p : Paragraph} {line : Bytes} (hpre : p.pre = [])
      (hline : line = c.opening ++ ascii " " ++ joinWords p.words ++ ascii " */")
      (hfits : Width.advance column c.options.tabstop line ≤ limit) :
      BlockLaid c column limit [p] [line]
  | lines {p : Paragraph} {ps : List Paragraph} {first : List Bytes} {rest : List (List Bytes)}
      (hfirst : LaysOut c.options.tabstop column limit true p first)
      (hrest : List.Forall₂ (LaysOut c.options.tabstop column limit false) ps rest) :
      BlockLaid c column limit (p :: ps) ([c.opening] ++ (first ++ rest.flatten) ++ [ascii " */"])

/-- Whether lines are filled with what a comment says. -/
def IsFilled (c : Comment) (column limit : Int) (lines : List Bytes) : Prop :=
  if c.style = .line then
    ∃ parts, List.Forall₂ (LineLaid c.options.tabstop column limit) c.raw parts ∧
      lines = parts.flatten
  else BlockLaid c column limit (ofBody c.mode c.body) lines

/-- The lines that a comment is laid out as when it is reflowed. -/
inductive FilledLine (c : Comment) (column limit : Int) : Bytes → Prop
  | fits {l : Bytes} (h : Width.advance column c.options.tabstop l ≤ limit) :
      FilledLine c column limit l
  | single {lead w : Bytes} (hlead : c.IsLead lead) (hw : w ∈ c.words) :
      FilledLine c column limit (lead ++ w)
  | copied {p : Paragraph} {l : Bytes} (hstyle : c.style ≠ .line) (hp : p ∈ ofBody c.mode c.body)
      (hl : l ∈ p.pre) : FilledLine c column limit (starLine l)
  | fixed {l : Bytes} (h : l ∈ [ascii "/*", ascii "/**", ascii " *", ascii " */"]) :
      FilledLine c column limit l
  | short {raw : Bytes} (hstyle : c.style = .line) (hraw : raw ∈ c.raw)
      (h : (lineWords raw).length < 2) : FilledLine c column limit (trimLine raw)

/-- Whether what one line comment is laid out by fits in words: the column behind it, and the room
behind its slashes, with a space behind them or none. -/
structure LineInWords (size column limit : Int) (raw : Bytes) : Prop where
  line : Width.InWord (Width.advance column size (trimLine raw))
  room : Width.InWord (limit - column - (slashes raw).length)
  spaced : Width.InWord (limit - column - (slashes raw).length - 1)

/-- Whether the columns and the room that a comment is laid out by fit in words, so that none of
them wraps around. -/
def InWords (c : Comment) (column limit : Int) : Prop :=
  Width.InWord column ∧
    if c.style = .line then ∀ raw ∈ c.raw, LineInWords c.options.tabstop column limit raw
    else ∀ p ∈ ofBody c.mode c.body, RoomInWords column limit p ∧
      Width.InWord (Width.advance column c.options.tabstop
        (c.opening ++ ascii " " ++ joinWords p.words ++ ascii " */"))

variable {c : Comment} {column limit : Int} {lines : List Bytes} {p : Paragraph}

theorem lineLaid_reflowLine {size : Int} {raw : Bytes} (hcolumn : Width.InWord column)
    (h : LineInWords size column limit raw) :
    LineLaid size column limit raw (reflowLine size column limit raw) := by
  rcases reflowLine_cases size column limit raw with
    ⟨heq, hkept⟩ | ⟨marker, blank, body, hraw, hmarker, hbody, hblank, -, heq⟩
  · rw [Width.advanceWord_eq size _ hcolumn.1 h.line.2] at hkept
    rw [heq]
    exact .kept hkept
  · have hall : ∀ b ∈ marker, decide (b = 47) = true := by simpa using hmarker
    have hnone : body.takeWhile (· = 47) = [] := by
      cases body with
      | nil => rfl
      | cons b body => exact List.takeWhile_cons_of_neg (by simpa using hbody)
    have hmark : slashes raw = marker := by
      rw [slashes, hraw, List.takeWhile_append_of_pos hall, hnone, List.append_nil]
    have hwords : lineWords raw = body.words := by
      have hdrop : body.dropWhile (· = 47) = body := by
        have hsplit := List.takeWhile_append_dropWhile (p := fun b : UInt8 => b = 47) (l := body)
        rwa [hnone] at hsplit
      rw [lineWords, hraw, List.dropWhile_append_of_pos hall, hdrop]
    have hlead : (marker ++ blank).IsPrintable := by
      refine Bytes.IsPrintable.append (fun b hb => ?_) ?_
      · rw [hmarker b hb]
        decide
      · obtain rfl | rfl := hblank <;> decide
    have hroom : room column limit (Width.text (marker ++ blank)) =
        limit - column - ((marker ++ blank).length : Nat) := by
      rw [room, Width.text_printable hlead, List.length_append]
      obtain rfl | rfl := hblank
      · simpa [hmark] using h.room.word_eq
      · simpa [hmark, sub_sub, add_assoc] using h.spaced.word_eq
    obtain ⟨hpacked, hflatten⟩ :=
      pack_spec body.words (limit - column - ((marker ++ blank).length : Nat))
    have hspaced : ∀ ws ∈ pack body.words (limit - column - ((marker ++ blank).length : Nat)),
        ∀ w ∈ ws, IsSpaced w := fun ws hws w hw =>
      have hword := Bytes.isWord_of_mem_words (pack_subset hws hw)
      isSpaced_of_isWord hword (List.infix_refl w) hword.ne_nil
    have htext (rows : List (List Bytes)) : (rows.map fun ws => marker ++ blank ++ joinWords ws) =
        (rows.map (Row.mk (marker ++ blank))).map Row.text := by
      rw [List.map_map]
      rfl
    rw [heq, htext, hroom]
    have hfilled := filled_of_packed size hlead hspaced hpacked
    rw [hflatten] at hfilled
    refine .wrapped hblank (List.forall_mem_map.mpr fun ws _ => by rw [hmark]) ?_
    rwa [hwords]

theorem blockLaid_formed {ps : List Paragraph} (hps : ∀ p ∈ ps, p.All IsSpaced IsTrimmed)
    (hne : ps ≠ []) (hcolumn : Width.InWord column)
    (hwords : ∀ p ∈ ps, RoomInWords column limit p ∧
      Width.InWord (Width.advance column c.options.tabstop
        (c.opening ++ ascii " " ++ joinWords p.words ++ ascii " */"))) :
    BlockLaid c column limit ps (c.formed column limit ps).lines := by
  cases hone : c.oneLine? c.opening column limit ps with
  | some line =>
      obtain ⟨p, rfl, hline⟩ := oneLine?_eq_some hone
      obtain ⟨-, -, hpre, -, hfits⟩ := oneLine?_eq_some_iff.mp hone
      obtain ⟨-, hadvance⟩ := hwords p (List.mem_singleton_self p)
      rw [← hline] at hadvance
      rw [Width.advanceWord_eq _ line hcolumn.1 hadvance.2] at hfits
      rw [formed_some hne hone]
      exact .oneLine hpre hline hfits
  | none =>
      obtain ⟨p, ps, rfl⟩ := List.exists_cons_of_ne_nil hne
      obtain ⟨hp, hps⟩ := List.forall_mem_cons.mp hps
      rw [formed_none hne hone, blockLines, List.flatMap_def]
      obtain ⟨hfirst, hrest⟩ := List.forall_mem_cons.mp hwords
      refine .lines (laysOut_paragraphLines _ true hp hfirst.1) ?_
      rw [List.forall₂_map_right_iff, List.forall₂_same]
      exact fun q hq => laysOut_paragraphLines _ false (hps q hq) (hrest q hq).1

/-- A comment that is not reflowed is laid out as it was written. -/
theorem render_of_not_isReflowed (h : ¬c.IsReflowed) : c.render column limit = c.asWritten := by
  rw [IsReflowed, not_and] at h
  cases hreflow : c.options.reflow with
  | false => rw [render, hreflow, Bool.not_false, if_pos rfl]
  | true =>
      have hnot := h hreflow
      rw [not_or] at hnot
      obtain ⟨hline, hblock⟩ := hnot
      have hform : (c.style = .block ∨ c.style = .doc) →
          (if isByHand c.text then c.asWritten else c.reflowBlock column limit) = c.asWritten := by
        intro hstyle
        split_ifs with hhand
        · rfl
        · have hnil : ofBody c.mode c.body = [] := by
            by_contra hne
            exact hblock ⟨hstyle, Bool.eq_false_iff.mpr hhand, hne⟩
          change c.formed column limit (ofBody c.mode c.body) = _
          rw [hnil, formed]
      rw [render, hreflow, Bool.not_true, if_neg Bool.false_ne_true]
      cases hstyle : c.style with
      | line => exact absurd hstyle hline
      | block => exact hform (Or.inl hstyle)
      | doc => exact hform (Or.inr hstyle)
      | none => rfl

/-- A comment that is reflowed is laid out line comment by line comment, or from the paragraphs of
its body. -/
theorem IsReflowed.render_eq (h : c.IsReflowed) (column limit : Int) :
    (c.style = .line ∧ c.render column limit =
      ⟨c.raw.flatMap (reflowLine c.options.tabstop column limit), true⟩) ∨
    (c.style ≠ .line ∧ ofBody c.mode c.body ≠ [] ∧
      c.render column limit = c.formed column limit (ofBody c.mode c.body)) := by
  obtain ⟨hreflow, hline | ⟨hblock, hhand, hne⟩⟩ := h
  · exact Or.inl ⟨hline, by rw [render_of_line hline, hreflow]; rfl⟩
  · refine Or.inr ⟨?_, hne, ?_⟩
    · rcases hblock with hblock | hblock <;> rw [hblock] <;> nofun
    · rw [render, hreflow, Bool.not_true, if_neg Bool.false_ne_true, hhand,
        if_neg Bool.false_ne_true]
      rcases hblock with hblock | hblock <;> rw [hblock] <;> rfl

/-- A comment that is reflowed is filled. -/
theorem isFilled_render (h : c.IsReflowed) (hwords : c.InWords column limit) :
    c.IsFilled column limit (c.render column limit).lines := by
  obtain ⟨hcolumn, hwords⟩ := hwords
  rcases h.render_eq column limit with ⟨hline, hrender⟩ | ⟨hline, hne, hrender⟩
  · rw [IsFilled, if_pos hline, hrender]
    refine ⟨c.raw.map (reflowLine c.options.tabstop column limit), ?_, List.flatMap_def ..⟩
    rw [List.forall₂_map_right_iff, List.forall₂_same]
    rw [if_pos hline] at hwords
    exact fun raw hraw => lineLaid_reflowLine hcolumn (hwords raw hraw)
  · rw [IsFilled, if_neg hline, hrender]
    rw [if_neg hline] at hwords
    exact blockLaid_formed all_isSpaced hne hcolumn hwords

theorem Filled.filledLine {words : List Bytes} {rows : List Row}
    (h : Filled c.options.tabstop column limit words rows) (hwords : words ⊆ c.words)
    (hlead : ∀ r ∈ rows, c.IsLead r.lead) : ∀ r ∈ rows, FilledLine c column limit r.text := by
  intro r hr
  rcases h.fits r hr with hfits | ⟨w, hw⟩
  · exact .fits hfits
  · have hmem : w ∈ words := by
      rw [← h.words]
      exact List.mem_flatMap.mpr ⟨r, hr, by rw [hw]; exact List.mem_singleton_self w⟩
    rw [Row.text, hw, joinWords_singleton]
    exact .single (hlead r hr) (hwords hmem)

theorem LaysOut.filledLine {isFirst : Bool} (hstyle : c.style ≠ .line)
    (hp : p ∈ ofBody c.mode c.body)
    (h : LaysOut c.options.tabstop column limit isFirst p lines) :
    ∀ l ∈ lines, FilledLine c column limit l := by
  obtain ⟨rows, rfl, hfilled, hfirst, hrest⟩ := h
  intro l hl
  simp only [List.mem_append] at hl
  rcases hl with (hblank | hkept) | hrow
  · split_ifs at hblank
    · exact .fixed (by simp [List.mem_singleton.mp hblank])
    · cases hblank
  · obtain ⟨k, hk, rfl⟩ := List.mem_map.mp hkept
    exact .copied hstyle hp hk
  · obtain ⟨r, hr, rfl⟩ := List.mem_map.mp hrow
    refine hfilled.filledLine (fun w hw => ?_) (fun r hr => ?_) r hr
    · rw [words, if_neg hstyle]
      exact List.mem_flatMap.mpr ⟨p, hp, hw⟩
    · rw [IsLead, if_neg hstyle]
      cases rows with
      | nil => cases hr
      | cons r' rows =>
          rcases List.mem_cons.mp hr with rfl | hr
          · exact ⟨_, hfirst r rfl⟩
          · exact ⟨_, hrest r hr⟩

/-- Each line of a comment that is filled is one of the kinds of lines. -/
theorem IsFilled.filledLine (h : c.IsFilled column limit lines) :
    ∀ l ∈ lines, FilledLine c column limit l := by
  rw [IsFilled] at h
  split_ifs at h with hstyle
  · obtain ⟨parts, hparts, rfl⟩ := h
    intro l hl
    obtain ⟨part, hpart, hl⟩ := List.mem_flatten.mp hl
    obtain ⟨raw, hraw, hlaid⟩ := exists_mem_of_forall₂ hparts hpart
    cases hlaid with
    | kept hkept =>
        obtain rfl := List.mem_singleton.mp hl
        rcases hkept with hfits | hshort
        · exact .fits hfits
        · exact .short hstyle hraw hshort
    | wrapped hblank hlead hrows =>
        obtain ⟨r, hr, rfl⟩ := List.mem_map.mp hl
        refine hrows.filledLine (fun w hw => ?_) (fun r hr => ?_) r hr
        · rw [words, if_pos hstyle]
          exact List.mem_flatMap.mpr ⟨raw, hraw, hw⟩
        · rw [IsLead, if_pos hstyle, hlead r hr]
          refine ⟨raw, hraw, ?_⟩
          obtain rfl | rfl := hblank
          · exact Or.inl (List.append_nil _)
          · exact Or.inr rfl
  · generalize hps : ofBody c.mode c.body = ps at h
    cases h with
    | oneLine hpre hline hfits => exact List.forall_mem_singleton.mpr (.fits hfits)
    | @lines p ps first rest hfirst hrest =>
        intro l hl
        simp only [List.mem_append, List.mem_singleton] at hl
        rcases hl with (rfl | hl | hl) | rfl
        · refine .fixed ?_
          rw [opening]
          split_ifs <;> simp
        · exact hfirst.filledLine hstyle (hps ▸ List.mem_cons_self) l hl
        · obtain ⟨part, hpart, hl⟩ := List.mem_flatten.mp hl
          obtain ⟨q, hq, hlaid⟩ := exists_mem_of_forall₂ hrest hpart
          exact hlaid.filledLine hstyle (hps ▸ List.mem_cons_of_mem p hq) l hl
        · exact .fixed (by simp)

/-- A comment that is reflowed is filled, and so each of its lines ends within the limit, has a
single word behind its lead, is copied, holds no words, or is a line comment of less than two
words. This holds as long as nothing that it is laid out by wraps around. -/
theorem render_filled (h : c.IsReflowed) (hwords : c.InWords column limit) :
    c.IsFilled column limit (c.render column limit).lines ∧
      ∀ l ∈ (c.render column limit).lines, c.FilledLine column limit l :=
  ⟨isFilled_render h hwords, (isFilled_render h hwords).filledLine⟩

/-- A doc comment with a tag and a word that is too wide. -/
def taggedComment : Comment :=
  ofRaw [ascii "/** @a one two\n * unbreakable words */"]
    { reflow := true, join := true, rootTags := true }

theorem render_filled_tagged : taggedComment.IsReflowed ∧ taggedComment.InWords 2 14 ∧
    (taggedComment.render 2 14).lines =
      [ascii "/**", ascii " * @a one", ascii " *    two", ascii " *    unbreakable",
        ascii " *    words", ascii " */"] ∧
    taggedComment.IsFilled 2 14 (taggedComment.render 2 14).lines ∧
    ∀ l ∈ (taggedComment.render 2 14).lines, taggedComment.FilledLine 2 14 l := by
  have hreflowed : taggedComment.IsReflowed :=
    ⟨rfl, Or.inr ⟨Or.inr (by decide), by decide +kernel, by decide +kernel⟩⟩
  have hwords : taggedComment.InWords 2 14 := by
    refine ⟨by decide, ?_⟩
    rw [if_neg (by decide)]
    decide +kernel
  exact ⟨hreflowed, hwords, by decide +kernel, render_filled hreflowed hwords⟩

/-- A line comment of three words. -/
def threeWords : Comment :=
  ofRaw [ascii "// one two three"] { reflow := true }

/-- From the first column on, and within the least limit that a word can hold, the room behind the
slashes wraps around to more than all words take. So they are left on one line, which ends behind
the limit. -/
theorem render_filled_wraps : threeWords.IsReflowed ∧
    (threeWords.render 0 (-2 ^ 63)).lines = [ascii "// one two three"] ∧
      ¬threeWords.FilledLine 0 (-2 ^ 63) (ascii "// one two three") := by
  refine ⟨⟨rfl, Or.inl rfl⟩, by decide +kernel, fun hline => ?_⟩
  generalize htext : ascii "// one two three" = line at hline
  cases hline with
  | fits h =>
      rw [← htext] at h
      revert h
      decide +kernel
  | @single lead w hlead hw =>
      have hwords : threeWords.words = [ascii "one", ascii "two", ascii "three"] := by
        decide +kernel
      have hslashes : slashes (ascii "// one two three") = ascii "//" := by decide
      have hstyle : threeWords.style = .line := rfl
      rw [IsLead, if_pos hstyle] at hlead
      obtain ⟨raw, hraw, hlead⟩ := hlead
      obtain rfl := List.mem_singleton.mp hraw
      rw [hslashes] at hlead
      rw [hwords] at hw
      simp only [List.mem_cons, List.not_mem_nil, or_false] at hw
      rcases hlead with rfl | rfl <;> rcases hw with rfl | rfl | rfl <;> revert htext <;> decide
  | copied hstyle => exact hstyle rfl
  | fixed h =>
      rw [← htext] at h
      revert h
      decide
  | @short raw hstyle hraw h =>
      obtain rfl := List.mem_singleton.mp hraw
      revert h
      decide +kernel

end Comments

end Comment

end CodeLayout
