import CodeLayout.Layout.Basic
import CodeLayout.Output
import CodeLayout.Proofs.Alike.Output
import CodeLayout.Proofs.Formatter
import CodeLayout.Proofs.Style.Normal
import CodeLayout.Proofs.Text.Printable
import CodeLayout.Token.Lexer

/-!
# The column of a writer

A text ends at a column if its last line is made of tabs and printable characters behind them, and
takes that many columns. The text of an indentation, behind a line break, ends at the column that
laying out reckons with.

A writer stands at a column if all that it has written ends there together with the white space
that it holds back. A request for white space moves the column like laying out does: to the
indentation of a new line, over a space, or nowhere. A token moves it over its text.
-/

namespace CodeLayout

/-- What the columns of a style rely on: its separator is a line break, and its indentation is
written with a known choice. -/
structure Style.IsProper (style : Style) : Prop where
  separator : style.separator ∈ separators
  indentChar : ∀ code, style.indentChar ≠ .unknown code

theorem Style.normalize_isProper (style : Style) : style.normalize.1.IsProper := by
  refine ⟨style.normalize_separator, fun code => ?_⟩
  change (normalIndentChar style.indentChar).1 ≠ _
  cases style.indentChar <;> exact nofun

namespace Bytes

/-- The part of a text behind its last line break, a carriage return or a line feed. -/
def openLine (s : Bytes) : Bytes :=
  (s.reverse.takeWhile fun b => !Lexer.isEol b).reverse

/-- Whether the last line of a text is made of tabs and printable characters behind them, and takes
a number of columns. -/
def EndsAt (size : Int) (s : Bytes) (column : Int) : Prop :=
  ∃ above k line, s = above ++ (List.replicate k 9 ++ line) ∧
    (∀ b ∈ above.getLast?, Lexer.isEol b = true) ∧ IsPrintable line ∧
    column = k * Width.tabstop size + line.length

variable {size column : Int} {s t : Bytes}

theorem EndsAt.nil : EndsAt size [] 0 :=
  ⟨[], 0, [], rfl, nofun, nofun, by simp⟩

theorem EndsAt.append (h : EndsAt size s column) (ht : IsPrintable t) :
    EndsAt size (s ++ t) (column + t.length) := by
  obtain ⟨above, k, line, rfl, habove, hline, rfl⟩ := h
  refine ⟨above, k, line ++ t, by simp, habove, hline.append ht, ?_⟩
  rw [List.length_append]
  push_cast
  ring

theorem isEol_printable (h : IsPrintable s) : ∀ b ∈ s, Lexer.isEol b = false := by
  have hall : ∀ b : UInt8, 32 ≤ b → Lexer.isEol b = false := by
    intro b hb
    simp only [Lexer.isEol, Bool.or_eq_false_iff, decide_eq_false_iff_not]
    constructor <;> rintro rfl <;> exact absurd hb (by decide)
  exact fun b hb => hall b (h b hb).1

/-- The last line of such a text ends at its column. -/
theorem EndsAt.advance_openLine (h : EndsAt size s column) :
    Width.advance 0 size s.openLine = column := by
  obtain ⟨above, k, line, rfl, habove, hline, rfl⟩ := h
  have hopen : openLine (above ++ (List.replicate k 9 ++ line)) = List.replicate k 9 ++ line := by
    have hpass : ∀ b ∈ (List.replicate k 9 ++ line).reverse, (!Lexer.isEol b) = true := by
      intro b hb
      rcases List.mem_append.mp (List.mem_reverse.mp hb) with hb | hb
      · rw [List.eq_of_mem_replicate hb]
        rfl
      · rw [isEol_printable hline b hb]
        rfl
    have hstop : above.reverse.takeWhile (fun b => !Lexer.isEol b) = [] := by
      cases hlast : above.reverse with
      | nil => rfl
      | cons b bs =>
          have hb : Lexer.isEol b = true :=
            habove b (by simp [List.getLast?_eq_head?_reverse, hlast])
          exact List.takeWhile_cons_of_neg (by simp [hb])
    rw [openLine, List.reverse_append, List.takeWhile_append_of_pos hpass, hstop, List.append_nil,
      List.reverse_reverse]
  rw [hopen, Width.advance_line size k hline]

theorem dropEnding_append (s t : Bytes) : dropEnding t (s ++ t) = s := by
  rw [dropEnding, if_pos (List.isSuffixOf_iff_suffix.mpr (List.suffix_append s t)),
    List.length_append, Nat.add_sub_cancel, List.take_left]

end Bytes

namespace Style

variable {style : Style}

/-- A separator ends a line. -/
theorem isEol_separator {sep : Bytes} (hsep : sep ∈ separators) :
    ∃ b, sep.getLast? = some b ∧ Lexer.isEol b = true := by
  have hall : ∀ sep ∈ separators, ∃ b ∈ sep.getLast?, Lexer.isEol b = true := by decide
  exact hall sep hsep

/-- A text that does not end a line does not end in a separator. -/
theorem dropEnding_separator {sep s : Bytes} (hsep : sep ∈ separators) {b : UInt8}
    (hb : s.getLast? = some b) (hopen : Lexer.isEol b = false) : Bytes.dropEnding sep s = s := by
  obtain ⟨last, hlast, heol⟩ := isEol_separator hsep
  refine if_neg fun hsuffix => ?_
  obtain ⟨t, rfl⟩ := List.isSuffixOf_iff_suffix.mp hsuffix
  rw [List.getLast?_append, hlast, Option.some_or] at hb
  rw [Option.some.inj hb, hopen] at heol
  cases heol

theorem isPrintable_replicate (n : Nat) : Bytes.IsPrintable (List.replicate n 32) := by
  intro b hb
  rw [List.eq_of_mem_replicate hb]
  decide

/-- The text of an indentation is made of tabs and of spaces behind them, for as many columns as its
levels take and for those that are aligned. -/
theorem textBy_eq (hchar : ∀ code, style.indentChar ≠ .unknown code) {keep : Int → Int}
    {level : Int} (htab : style.indentChar = .tab →
      style.columnsBy keep level = style.levelColumns level)
    (hcolumns : 0 ≤ style.columnsBy keep level) (align : Int) : ∃ k n : Nat,
      style.textBy keep level align = List.replicate k 9 ++ List.replicate (n + align.toNat) 32 ∧
        style.columnsBy keep level = k * Width.tabstop style.tabSize + n := by
  have hspaces : ∀ k m : Nat, List.replicate k (9 : UInt8) ++ List.replicate m 32 ++
      List.replicate align.toNat 32 =
        List.replicate k 9 ++ List.replicate (m + align.toNat) 32 := by
    intro k m
    rw [List.append_assoc, List.replicate_append_replicate]
  by_cases hindents : style.indents level = true
  · have hpos := hindents
    simp only [indents, Bool.and_eq_true, decide_eq_true_eq] at hpos
    obtain ⟨⟨hsize, -⟩, hlevel⟩ := hpos
    have hstop : Width.tabstop style.tabSize = style.tabSize := max_eq_left hsize
    rw [levelColumns, columnsBy, columnsBy, if_pos hindents, if_pos hindents] at htab
    rw [columnsBy, if_pos hindents] at hcolumns ⊢
    rw [textBy, if_pos hindents, hstop]
    cases hchoice : style.indentChar with
    | tab =>
        rw [hchoice] at htab
        refine ⟨level.toNat, 0, by rw [Nat.zero_add], (htab rfl).trans ?_⟩
        rw [Int.toNat_of_nonneg hlevel.le, Nat.cast_zero, add_zero]
        rfl
    | space =>
        rw [hchoice] at hcolumns
        refine ⟨0, (keep (level * style.indentSize)).toNat, hspaces 0 _, ?_⟩
        rw [Int.toNat_of_nonneg hcolumns, Nat.cast_zero, zero_mul, zero_add]
    | mixed =>
        rw [hchoice] at hcolumns
        refine ⟨(keep (level * style.indentSize) / style.tabSize).toNat,
          (keep (level * style.indentSize) % style.tabSize).toNat, hspaces _ _, ?_⟩
        rw [Int.toNat_of_nonneg (Int.ediv_nonneg hcolumns hsize.le),
          Int.toNat_of_nonneg (Int.emod_nonneg _ hsize.ne'), Int.ediv_mul_add_emod]
    | unknown code => exact absurd hchoice (hchar code)
  · rw [textBy, columnsBy, if_neg hindents, if_neg hindents]
    exact ⟨0, 0, by simp, by simp⟩

theorem levelColumns_nonneg (style : Style) (level : Int) : 0 ≤ style.levelColumns level := by
  rw [levelColumns, columnsBy]
  split_ifs with hindents
  · simp only [indents, Bool.and_eq_true, decide_eq_true_eq] at hindents
    obtain ⟨⟨hsize, hindent⟩, hlevel⟩ := hindents
    have htabs : 0 ≤ level * style.tabSize := Int.mul_nonneg hlevel.le hsize.le
    have hspaces : 0 ≤ level * style.indentSize := Int.mul_nonneg hlevel.le hindent.le
    cases style.indentChar <;> assumption
  · exact le_refl 0

theorem indentColumns_eq (style : Style) (level : Int) :
    style.indentColumns level = Width.word (style.levelColumns level) := by
  rw [indentColumns, levelColumns, columnsBy, columnsBy]
  split_ifs
  · cases style.indentChar <;> rfl
  · rfl

/-- Columns of levels that fit in a word are kept. -/
theorem indentColumns_of_lt {level : Int} (h : style.levelColumns level < 2 ^ 63) :
    style.indentColumns level = style.levelColumns level := by
  have hlo := style.levelColumns_nonneg level
  rw [indentColumns_eq, Width.word_eq (by omega) h]

/-- The text of an indentation leads from the start of a line to the column that is reckoned for its
levels, and behind it by the columns that are aligned, if any. This holds as long as the columns of
the levels fit in a word; where these are not written with tabs alone, it is enough that they do not
become negative. -/
theorem advance_indentation (hchar : ∀ code, style.indentChar ≠ .unknown code) (level align : Int)
    (hfit : style.levelColumns level < 2 ^ 63 ∨
      style.indentChar ≠ .tab ∧ 0 ≤ style.indentColumns level) :
    ∃ text, style.indentation? level align = some text ∧
      Width.advanceWord 0 style.tabSize text =
        Width.word (style.indentColumns level + max align 0) := by
  have hcolumns : 0 ≤ style.indentColumns level := by
    rcases hfit with hfit | ⟨-, hcolumns⟩
    · rw [indentColumns_of_lt hfit]
      exact style.levelColumns_nonneg level
    · exact hcolumns
  have htab (h : style.indentChar = .tab) : style.indentColumns level = style.levelColumns level :=
    indentColumns_of_lt (hfit.resolve_right fun hother => hother.1 h)
  obtain ⟨k, n, htext, heq⟩ := textBy_eq hchar htab hcolumns align
  refine ⟨_, if_neg (by simp [hcolumns]), ?_⟩
  -- Each tab stop up to the last one fits in a word, as the columns of the levels do.
  have hkept : ∀ i : Nat, i ≤ k →
      Width.word (i * Width.tabstop style.tabSize) = i * Width.tabstop style.tabSize := by
    intro i hi
    have hstop := Width.one_le_tabstop style.tabSize
    have hle : i * Width.tabstop style.tabSize ≤ k * Width.tabstop style.tabSize :=
      Int.mul_le_mul_of_nonneg_right (Int.ofNat_le.mpr hi) (by omega)
    have hnonneg : 0 ≤ i * Width.tabstop style.tabSize :=
      Int.mul_nonneg (Int.natCast_nonneg i) (by omega)
    have hlt := Width.word_lt (style.levelColumns level)
    rw [← indentColumns_eq] at hlt
    change style.indentColumns level = _ at heq
    exact Width.word_eq (by omega) (by omega)
  rw [htext, Width.advanceWord,
    Width.advanceBy_line style.tabSize k (isPrintable_replicate (n + align.toNat)) hkept,
    List.length_replicate]
  change style.indentColumns level = _ at heq
  rw [heq, ← Int.toNat_eq_max]
  push_cast
  rw [add_assoc]

/-- Fifteen columns of indentation are a tab and seven spaces, and two more are aligned. -/
theorem advance_indentation_mixed :
    let style : Style := { indentChar := .mixed, tabSize := 8, indentSize := 3 }
    (∀ code, style.indentChar ≠ .unknown code) ∧ style.levelColumns 5 < 2 ^ 63 ∧
      style.indentation? 5 2 = some (9 :: List.replicate 9 32) ∧
      ∃ text, style.indentation? 5 2 = some text ∧
        Width.advanceWord 0 style.tabSize text = 17 := by
  intro style
  have hchar : ∀ code, style.indentChar ≠ .unknown code := nofun
  have hfit : style.levelColumns 5 < 2 ^ 63 := by decide
  exact ⟨hchar, hfit, by decide, advance_indentation hchar 5 2 (Or.inl hfit)⟩

/-- Three tabs of `2 ^ 62 + 1` columns wrap around: they lead to column zero, and another column is
reckoned for them. As many levels of spaces cannot be written at all. -/
theorem advance_indentation_wraps :
    let tabs : Style := { indentChar := .tab, tabSize := 2 ^ 62 + 1, indentSize := 1 }
    let spaces : Style := { indentChar := .space, tabSize := 1, indentSize := 2 ^ 62 + 1 }
    tabs.indentation? 3 0 = some [9, 9, 9] ∧ Width.advanceWord 0 tabs.tabSize [9, 9, 9] = 0 ∧
      Width.word (tabs.indentColumns 3 + max 0 0) = -4611686018427387901 ∧
      spaces.indentation? 3 0 = none := by
  decide

/-- Levels whose columns fit in a word are written as the same text in words. -/
theorem indentation?_of_lt {level : Int} (align : Int) (h : style.levelColumns level < 2 ^ 63) :
    style.indentation? level align = some (style.indentation level align) := by
  have hlo := style.levelColumns_nonneg level
  have htext : style.textBy Width.word level align = style.textBy id level align := by
    rw [levelColumns, columnsBy] at h hlo
    rw [textBy, textBy]
    split_ifs at h hlo ⊢ with hindents
    · cases hchoice : style.indentChar with
      | tab | unknown => rfl
      | space | mixed =>
          rw [hchoice] at h hlo
          have hkept : Width.word (level * style.indentSize) = level * style.indentSize :=
            Width.word_eq (le_trans (by decide) hlo) h
          dsimp only [id_eq]
          rw [hkept]
    · rfl
  rw [indentation?, indentColumns_of_lt h, if_neg (by simp [hlo]), htext]
  rfl

/-- In a normalized style the levels below `2 ^ 57` take the same columns in words and are written
as the same text. -/
theorem normalize_indentation (style : Style) {level : Int} (align : Int) (h : level < 2 ^ 57) :
    style.normalize.1.indentColumns level = style.normalize.1.levelColumns level ∧
      style.normalize.1.indentation? level align =
        some (style.normalize.1.indentation level align) := by
  have htab : style.normalize.1.tabSize ≤ 64 := (clamp_bounds _ (by decide) _).2
  have hindent : style.normalize.1.indentSize ≤ 64 := (clamp_bounds _ (by decide) _).2
  have hfit : style.normalize.1.levelColumns level < 2 ^ 63 := by
    rw [levelColumns, columnsBy]
    split_ifs with hindents
    · simp only [indents, Bool.and_eq_true, decide_eq_true_eq] at hindents
      have hmul {size : Int} (hsize : size ≤ 64) : level * size < 2 ^ 63 := by
        have hle : level * size ≤ level * 64 := Int.mul_le_mul_of_nonneg_left hsize hindents.2.le
        omega
      cases style.normalize.1.indentChar <;> exact hmul (by assumption)
    · decide
  exact ⟨indentColumns_of_lt hfit, indentation?_of_lt align hfit⟩

/-- A line that starts with an indentation. -/
theorem endsAt_indentation (hchar : ∀ code, style.indentChar ≠ .unknown code) {above : Bytes}
    (habove : ∀ b ∈ above.getLast?, Lexer.isEol b = true) (level : Int) {align : Int}
    (halign : 0 ≤ align) :
    Bytes.EndsAt style.tabSize (above ++ style.indentation level align)
      (style.levelColumns level + align) := by
  have hnonneg : 0 ≤ style.columnsBy id level := style.levelColumns_nonneg level
  obtain ⟨k, n, htext, hcolumns⟩ := textBy_eq hchar (fun _ => rfl) hnonneg align
  refine ⟨above, k, _, congrArg (above ++ ·) htext, habove, isPrintable_replicate _, ?_⟩
  change style.levelColumns level = _ at hcolumns
  rw [hcolumns, List.length_replicate]
  push_cast
  rw [Int.toNat_of_nonneg halign, add_assoc]

end Style

end CodeLayout

namespace CodeLayout.Writer

variable {y : Context} {w w' : Writer} {column : Int} {fresh : Bool} {t : Traits} {p : Placement}
  {text : Bytes}

/-- A writer of plain code stands at a column. If the line is fresh then a line break is held back
or nothing has been written; else the writer is behind a text. -/
structure At (y : Context) (column : Int) (fresh : Bool) (w : Writer) : Prop where
  copied : w.copied = 0
  behindCode : w.behindLineComment = false
  behindOwn : w.behindCopiedBreak = false
  empty : w.started = false → w.written = []
  breaks : fresh = true → w.started = true → w.gap.newLine = true
  begun : fresh = false → w.started = true ∧ w.gap.newLine = false
  ends : Bytes.EndsAt y.style.tabSize (w.written ++ gapText y w) column

/-- A writer stands behind a text, with no space held back. -/
structure Settled (y : Context) (column : Int) (w : Writer) : Prop extends At y column false w where
  unspaced : w.gap.space = false
  closed : ∃ b ∈ w.written.getLast?, Lexer.isEol b = false

theorem at_start (y : Context) (input : Int) : At y 0 true (Writer.anchor {} input) :=
  ⟨rfl, rfl, rfl, fun _ => rfl, fun _ => nofun, nofun, Bytes.EndsAt.nil⟩

theorem started_request (w : Writer) (t : Traits) (p : Placement) :
    (w.request t p).started = w.started := by
  obtain ⟨gap, heq⟩ := request_eq w t p
  rw [heq]

theorem gapText_of_space (h : At y column false w) :
    gapText y w = if w.gap.space then [32] else [] := by
  obtain ⟨hstarted, hline⟩ := h.begun rfl
  simp [gapText, breaksLine, hstarted, hline, h.behindCode, h.behindOwn]

theorem Settled.gapText_eq (h : Settled y column w) : gapText y w = [] := by
  rw [gapText_of_space h.toAt, h.unspaced]
  rfl

theorem Settled.ends_written (h : Settled y column w) :
    Bytes.EndsAt y.style.tabSize w.written column := by
  have hends := h.ends
  rwa [h.gapText_eq, List.append_nil] at hends

/-- The line breaks of a gap end a line. -/
theorem isEol_separators (hsep : y.style.separator ∈ Style.separators) (s : Bytes) (n : Nat) :
    ∀ b ∈ (s ++ (separator y ++ (List.replicate n (separator y)).flatten)).getLast?,
      Lexer.isEol b = true := by
  have hshift : separator y ++ (List.replicate n (separator y)).flatten =
      (List.replicate n (separator y)).flatten ++ separator y := by
    rw [← List.flatten_cons, ← List.replicate_succ, List.replicate_succ', List.flatten_append]
    simp
  obtain ⟨last, hlast, heol⟩ := Style.isEol_separator hsep
  intro b hb
  rw [hshift, ← List.append_assoc, separator_eq hsep,
    List.getLast?_append, hlast, Option.some_or] at hb
  exact Option.some.inj hb ▸ heol

/-- A chunk that starts a line moves the writer to the indentation of the line. -/
theorem At.request_break (h : At y column fresh w) (hproper : y.style.IsProper)
    (hp : p.newLine = true) (halign : 0 ≤ p.indent.align)
    (hstart : w.started = true ∨ y.style.levelColumns p.indent.level + p.indent.align = 0) :
    At y (y.style.levelColumns p.indent.level + p.indent.align) true (w.request t p) := by
  have hrequest : w.request t p = { w with gap := { w.gap with
      newLine := true, indent := p.indent, blank := max w.gap.blank t.blank } } := if_pos hp
  rw [hrequest]
  refine ⟨h.copied, h.behindCode, h.behindOwn, h.empty, fun _ _ => rfl, nofun, ?_⟩
  change Bytes.EndsAt _ (w.written ++ _) _
  by_cases hstarted : w.started = true
  · have hgap : gapText y { w with gap := { w.gap with
        newLine := true, indent := p.indent, blank := max w.gap.blank t.blank } } =
          separator y ++ (List.replicate (max w.gap.blank t.blank).toNat (separator y)).flatten ++
            indentText y p.indent := by
      simp [gapText, breaksLine, nextLine, hstarted, h.behindOwn]
    rw [hgap, ← List.append_assoc]
    exact Style.endsAt_indentation hproper.indentChar (isEol_separators hproper.separator _ _) _
      halign
  · have hempty := h.empty (Bool.eq_false_iff.mpr hstarted)
    have hgap : gapText y { w with gap := { w.gap with
        newLine := true, indent := p.indent, blank := max w.gap.blank t.blank } } = [] := by
      simp [gapText, hstarted]
    rw [hgap, hempty, hstart.resolve_left hstarted]
    exact Bytes.EndsAt.nil

/-- A chunk that starts no line moves the writer over its space, unless the line is fresh. -/
theorem At.request_stay (h : At y column fresh w) (hp : p.newLine = false)
    (hspace : fresh = false → t.space = true → w.gap.space = false) :
    At y (if !fresh && t.space then column + 1 else column) fresh (w.request t p) := by
  have hline : ¬p.newLine = true := by simp [hp]
  by_cases ht : t.space = true
  · have hrequest : w.request t p = { w with gap := { w.gap with space := true } } :=
      (if_neg hline).trans (if_pos ht)
    rw [hrequest]
    refine ⟨h.copied, h.behindCode, h.behindOwn, h.empty, h.breaks, h.begun, ?_⟩
    have hends := h.ends
    change Bytes.EndsAt _ (w.written ++ _) _
    cases fresh with
    | false =>
        rw [gapText_of_space h, hspace rfl ht, if_neg (by simp), List.append_nil] at hends
        have hgap : gapText y { w with gap := { w.gap with space := true } } = [32] := by
          obtain ⟨hstarted, hline⟩ := h.begun rfl
          simp [gapText, breaksLine, hstarted, hline, h.behindCode, h.behindOwn]
        rw [hgap, ht]
        exact hends.append (t := [32]) (by decide)
    | true =>
        have hgap : gapText y { w with gap := { w.gap with space := true } } = gapText y w := by
          by_cases hstarted : w.started = true
          · simp [gapText, breaksLine, nextLine, hstarted, h.breaks rfl hstarted]
          · simp [gapText, hstarted]
        rw [hgap]
        exact hends
  · have hrequest : w.request t p = w := (if_neg hline).trans (if_neg ht)
    rw [hrequest, if_neg (by simp [ht])]
    exact h

/-- Without regions, and with nothing copied, every leaf is written that is in order. -/
theorem leaf_eq_write {write : Writer → Writer} (hregions : y.regions = .empty)
    (hcopied : w.copied = 0) (hw : w.leaf y t write = .ok w') :
    ∃ last, w' = write { w with last } := by
  rw [leaf] at hw
  split at hw
  · exact ⟨w.last, (Except.ok.inj hw).symm⟩
  · rename_i hstart
    split at hw
    · cases hw
    · have hbehind : ¬t.start < w.copied := by rwa [hcopied]
      simp only [if_neg hbehind, hregions, Regions.at?_empty] at hw
      exact ⟨t.stop, (Except.ok.inj hw).symm⟩

/-- A token moves the writer over its text. -/
theorem At.leaf (h : At y column fresh w) (hregions : y.regions = .empty) (htext : text ≠ [])
    (hprint : Bytes.IsPrintable text)
    (hw : w.leaf y t (fun w => w.token y t text) = .ok w') :
    Settled y (Width.advance column y.style.tabSize text) w' := by
  obtain ⟨last, rfl⟩ := leaf_eq_write hregions h.copied hw
  obtain ⟨anchors, size, heq⟩ : ∃ anchors size, ({ w with last } : Writer).token y t text = { w with
      pieces := text :: gapText y w :: w.pieces, size, anchors, last, line := w.nextLine
      gap := { indent := w.nextLine }, started := true, behindCopiedBreak := false
      behindLineComment := false } := by
    rw [token, if_neg (by simpa using htext)]
    dsimp only
    split_ifs
    · exact ⟨_, _, rfl⟩
    · exact ⟨_, _, rfl⟩
  have hwritten : (({ w with last } : Writer).token y t text).written =
      w.written ++ gapText y w ++ text := by
    simp [heq, written]
  have hgap : gapText y (({ w with last } : Writer).token y t text) = [] := by
    rw [heq]
    rfl
  rw [Width.advance_printable column y.style.tabSize hprint]
  obtain ⟨b, hb⟩ := Option.ne_none_iff_exists'.mp (mt List.getLast?_eq_none_iff.mp htext)
  have hlast : (({ w with last } : Writer).token y t text).written.getLast? = some b := by
    rw [hwritten, List.getLast?_append_of_ne_nil _ htext, hb]
  refine ⟨⟨?_, ?_, ?_, ?_, by rintro ⟨⟩, ?_, ?_⟩, ?_, b, hlast, ?_⟩
  · rw [heq]
    exact h.copied
  · rw [heq]
  · rw [heq]
  · rw [heq]
    rintro ⟨⟩
  · rw [heq]
    exact fun _ => ⟨rfl, rfl⟩
  · rw [hgap, List.append_nil, hwritten]
    exact h.ends.append hprint
  · rw [heq]
  · exact Bytes.isEol_printable hprint b (List.mem_of_getLast? hb)

/-- Behind the last piece of text, only the line break that ends the input is written. -/
theorem Settled.advance_finish (h : Settled y column w)
    (hsep : y.style.separator ∈ Style.separators) :
    Width.advance 0 y.style.tabSize
      (Bytes.openLine (Bytes.dropEnding y.style.separator (w.finish y).text)) = column := by
  have hdrop : Bytes.dropEnding y.style.separator (w.finish y).text = w.written := by
    rw [finish]
    dsimp only
    split
    · change Bytes.dropEnding _ ((separator y :: w.pieces).reverse.flatten) = _
      rw [List.reverse_cons, List.flatten_append, List.flatten_singleton, separator_eq hsep]
      exact Bytes.dropEnding_append _ _
    · obtain ⟨b, hb, hopen⟩ := h.closed
      exact Style.dropEnding_separator hsep hb hopen
  rw [hdrop]
  exact h.ends_written.advance_openLine

end CodeLayout.Writer
