import CodeLayout.Proofs.Comment.Filled
import CodeLayout.Proofs.LineComments

/-!
# Nothing blank at the end of a line

A written text is made of marks: the texts of tokens and the regions that are copied, the lines of
comments, spaces and tabs, and line separators. Spaces and tabs are written only where a piece or a
line of a comment follows them, and no line of a comment ends in any. So whatever is blank at the
end of a line is a token's or a region's own.
-/

namespace CodeLayout

namespace Comment

open Paragraph

variable {c : Comment} {column limit : Int} {l : Bytes}

theorem trimLine_of_mem_asWritten (hl : l ∈ c.asWritten.lines) : trimLine l = l := by
  rw [asWritten] at hl
  split_ifs at hl with hstyle
  · obtain ⟨raw, -, rfl⟩ := List.mem_map.mp hl
    exact trimLine_trimLine raw
  · have htext : ∀ k ∈ textLines c.text, trimLine k = k := fun k hk => (mem_textLines hk).2
    split at hl
    · cases hl
    · rename_i first rest heq
      rw [heq] at htext
      split_ifs at hl with hstars
      · rcases List.mem_cons.mp hl with rfl | hl
        · exact htext l List.mem_cons_self
        · obtain ⟨k, hk, rfl⟩ := List.mem_map.mp hl
          exact trimLine_append [32] (trim_ne_nil_of_isStarred (List.all_eq_true.mp hstars k hk))
            (trimLine_of_trim (Bytes.trim_trim k))
      · exact htext l hl

theorem trimLine_of_mem_reflowLine {size : Int} {raw : Bytes}
    (hl : l ∈ reflowLine size column limit raw) : trimLine l = l := by
  rcases reflowLine_cases size column limit raw with
    ⟨heq, -⟩ | ⟨marker, blank, body, -, -, -, -, -, heq⟩
  · rw [heq, List.mem_singleton] at hl
    rw [hl, trimLine_trimLine]
  · rw [heq] at hl
    obtain ⟨ws, hws, rfl⟩ := List.mem_map.mp hl
    exact trimLine_append_joinWords (mem_pack_ne_nil hws)
      (fun w hw => Bytes.isWord_of_mem_words (pack_subset hws hw)) _

theorem trimLine_of_mem_formed {ps : List Paragraph} (hps : ∀ p ∈ ps, p.All IsSpaced IsTrimmed)
    (hne : ps ≠ []) (hl : l ∈ (c.formed column limit ps).lines) : trimLine l = l := by
  cases hone : c.oneLine? c.opening column limit ps with
  | some line =>
      obtain ⟨p, -, hline⟩ := oneLine?_eq_some hone
      rw [formed_some hne hone, List.mem_singleton] at hl
      rw [hl, hline]
      exact trimLine_append _ (by decide) (by decide)
  | none =>
      rw [formed_none hne hone, blockLines_eq_map hps] at hl
      simp only [List.mem_append, List.mem_singleton] at hl
      rcases hl with (rfl | hl) | rfl
      · exact (opening_props c).2.1
      · obtain ⟨k, hk, rfl⟩ := List.mem_map.mp hl
        exact (isTrimmed_starLine (isTrimmed_of_mem_bareBlock hps hk)).trimLine
      · decide

/-- Nothing that is trimmed is left at the end of a line of a comment. -/
theorem trimLine_of_mem_render (hl : l ∈ (c.render column limit).lines) : trimLine l = l := by
  by_cases hreflowed : c.IsReflowed
  · rcases hreflowed.render_eq column limit with ⟨-, hrender⟩ | ⟨-, hne, hrender⟩
    · rw [hrender] at hl
      obtain ⟨raw, -, hl⟩ := List.mem_flatMap.mp hl
      exact trimLine_of_mem_reflowLine hl
    · rw [hrender] at hl
      exact trimLine_of_mem_formed all_isSpaced hne hl
  · rw [render_of_not_isReflowed hreflowed] at hl
    exact trimLine_of_mem_asWritten hl

/-- A comment is laid out as at least one line, and the first one is not empty. -/
theorem exists_first_line {text rest : Bytes} {more : List Bytes} (h : IsComment text rest)
    (options : CommentOptions) (column limit : Int) : ∃ first lines,
      ((ofRaw (text :: more) options).render column limit).lines = first :: lines ∧ first ≠ [] := by
  by_cases hline : CommentStyle.ofText text = .line
  · have htext := (h.isLineComment hline).1
    rw [render_of_line (c := ofRaw (text :: more) options) hline]
    cases hreflow : options.reflow with
    | true =>
        obtain ⟨first, lines, hlines⟩ :=
          List.exists_cons_of_ne_nil (reflowLine_ne_nil options.tabstop column limit text)
        refine ⟨first, lines ++ more.flatMap (reflowLine options.tabstop column limit), ?_, ?_⟩
        · simp [ofRaw, hreflow, hlines]
        · exact (reflowLine_isLineComment htext (by rw [hlines]; exact List.mem_cons_self)).ne_nil
    | false =>
        refine ⟨trimLine text, more.map trimLine, ?_, (trimLine_isLineComment htext).ne_nil⟩
        simp [ofRaw, hreflow]
  · obtain ⟨closed, body, rfl, hclosed⟩ := h.closes hline
    obtain ⟨first, lines, hlines, -, -⟩ := encloses_render
      (c := ofRaw ((47 :: 42 :: body) :: more) options) column limit rfl rfl hclosed
    exact ⟨_, lines, hlines, List.cons_ne_nil _ _⟩

end Comment

/-- A part of a written text, by where it comes from. -/
inductive Mark where
  /-- The text of a token, or a region that is copied. -/
  | own (text : Bytes)
  /-- A line of a comment. -/
  | line (text : Bytes)
  /-- Spaces and tabs. -/
  | blank (text : Bytes)
  | separator
  deriving DecidableEq, Repr, Inhabited

namespace Mark

variable (sep : Bytes)

/-- What is written for a mark, where lines end in a separator. -/
def text : Mark → Bytes
  | .own text | .line text | .blank text => text
  | .separator => sep

/-- What is written for marks. -/
def textAll (ms : List Mark) : Bytes :=
  ms.flatMap (text sep)

/-- One line of a comment behind its first. An empty one stays empty. -/
def behind (hanging line : Bytes) : List Mark :=
  .separator :: if line.isEmpty then [] else [.blank hanging, .line line]

/-- The lines of a comment. -/
def ofLines (hanging : Bytes) : List Bytes → List Mark
  | [] => []
  | first :: rest => .line first :: rest.flatMap (behind hanging)

/-- Whether each space or tab right in front of a line separator or at the end is the last byte of a
token or a region. -/
def NoTrailing (ms : List Mark) : Prop :=
  ∀ before after, ms = before ++ after → after = [] ∨ after.head? = some .separator →
    ∀ b ∈ (textAll sep before).getLast?, b = 32 ∨ b = 9 →
      ∃ front t, before = front ++ [.own t] ∧ t.getLast? = some b

/-- Whether a line may end behind a mark. -/
def Ends : Mark → Prop
  | .own text => text ≠ []
  | .line text => text ≠ [] ∧ Comment.trimLine text = text
  | .blank _ => False
  | .separator => True

/-- Whether lines end only where they may, and so does the text. -/
structure Sound (ms : List Mark) : Prop where
  chain : ms.IsChain fun m m' => m' = .separator → m.Ends
  last : ∀ m ∈ ms.getLast?, m.Ends

section Sound

variable {sep : Bytes} {ms ms' : List Mark} {first l : Bytes} {rest : List Bytes}

theorem textAll_append (ms ms' : List Mark) :
    textAll sep (ms ++ ms') = textAll sep ms ++ textAll sep ms' :=
  List.flatMap_append

theorem textAll_separators (n : Nat) :
    textAll sep (List.replicate n .separator) = (List.replicate n sep).flatten := by
  rw [textAll, List.flatMap_replicate]
  rfl

theorem sound_nil : Sound [] :=
  ⟨.nil, nofun⟩

theorem sound_singleton {m : Mark} (h : m.Ends) : Sound [m] :=
  ⟨.singleton m, by simpa using h⟩

theorem Sound.append (h : Sound ms) (h' : Sound ms') : Sound (ms ++ ms') := by
  refine ⟨h.chain.append h'.chain fun m hm m' _ _ => h.last m hm, fun m hm => ?_⟩
  rw [List.getLast?_append] at hm
  cases hlast : ms'.getLast? with
  | some m' =>
      rw [hlast] at hm
      exact h'.last m (by rw [hlast]; exact hm)
  | none =>
      rw [hlast] at hm
      exact h.last m hm

/-- What is blank is followed by a piece or a line. -/
theorem Sound.behind_blank (h : Sound ms) (hne : ms ≠ [])
    (hhead : ms.head? ≠ some .separator) (t : Bytes) : Sound (.blank t :: ms) := by
  obtain ⟨m, ms, rfl⟩ := List.exists_cons_of_ne_nil hne
  refine ⟨List.isChain_cons_cons.mpr ⟨fun hm => absurd (congrArg some hm) hhead, h.chain⟩, ?_⟩
  rw [List.getLast?_cons_cons]
  exact h.last

theorem sound_separators (n : Nat) : Sound (List.replicate n .separator) := by
  induction n with
  | zero => exact sound_nil
  | succ n ih => exact (sound_singleton (m := .separator) trivial).append ih

theorem sound_flatMap {α : Type} {f : α → List Mark} {as : List α} (h : ∀ a ∈ as, Sound (f a)) :
    Sound (as.flatMap f) := by
  induction as with
  | nil => exact sound_nil
  | cons a as ih =>
      obtain ⟨ha, has⟩ := List.forall_mem_cons.mp h
      exact ha.append (ih has)

theorem sound_behind (hanging : Bytes) (h : Comment.trimLine l = l) : Sound (behind hanging l) := by
  have hseparator : Sound [.separator] := sound_singleton (m := .separator) trivial
  rw [behind]
  split_ifs with hempty
  · exact hseparator
  · have hline : Sound [.line l] := sound_singleton (m := .line l) ⟨by simpa using hempty, h⟩
    exact hseparator.append (hline.behind_blank (List.cons_ne_nil _ _) nofun hanging)

theorem sound_ofLines (hanging : Bytes) (hne : first ≠ [])
    (h : ∀ l ∈ first :: rest, Comment.trimLine l = l) :
    Sound (ofLines hanging (first :: rest)) := by
  obtain ⟨hfirst, hrest⟩ := List.forall_mem_cons.mp h
  exact (sound_singleton (m := .line first) ⟨hne, hfirst⟩).append
    (sound_flatMap fun l hl => sound_behind hanging (hrest l hl))

/-- Where lines end only where they may, nothing blank is left in front of their ends. -/
theorem Sound.noTrailing (h : Sound ms) (hne : sep ≠ []) (hsep : ∀ b ∈ sep, b ≠ 32 ∧ b ≠ 9) :
    NoTrailing sep ms := by
  rintro before after rfl hafter b hb hblank
  rcases List.eq_nil_or_concat' before with rfl | ⟨front, m, rfl⟩
  · cases hb
  have hends : m.Ends := by
    rcases hafter with rfl | hseparator
    · exact h.last m (by simp)
    · obtain ⟨-, -, hnext⟩ := List.isChain_append.mp h.chain
      exact hnext m (by simp) .separator hseparator rfl
  have hlast : m.text sep ≠ [] → (m.text sep).getLast? = some b := by
    intro htext
    rw [textAll_append, textAll, textAll, List.flatMap_singleton,
      List.getLast?_append_of_ne_nil _ htext] at hb
    exact hb
  cases m with
  | own t => exact ⟨front, t, rfl, hlast hends⟩
  | line t =>
      have hkept := Comment.trimLine_eq_self_iff.mp hends.2 b (hlast hends.1)
      rcases hblank with rfl | rfl <;> cases hkept
  | blank t => exact hends.elim
  | separator =>
      have hin := hsep b (List.mem_of_getLast? (hlast hne))
      exact absurd hblank (not_or.mpr hin)

end Sound

end Mark

namespace Piece

variable (s : TokenStream) (style : Style)

/-- The marks of a piece. -/
def marks : Piece → List Mark
  | .token id => [.own (s.tokenAt id).text]
  | .comment ids p =>
    let r := (Build.commentOf (s.buildContext style) ids).render p.column style.commentWidth
    let hanging := Placing.alignedAt ⟨style, ⟨[], []⟩, 0⟩ p
    Mark.ofLines (if r.aligned then style.indentation hanging.level hanging.align else []) r.lines
  | .region v => [.own (s.file.text.slice v.start v.stop)]

end Piece

namespace Stroke

variable (s : TokenStream) (style : Style)

/-- Whether marks are those of a stroke: line separators and then what is blank in front of the
marks of its piece. -/
def Marked (k : Stroke) (ms : List Mark) : Prop :=
  ∃ n blank, k.gap = (List.replicate n style.separator).flatten ++ blank ∧
    (∀ b ∈ blank, b = 32 ∨ b = 9) ∧
    ms = List.replicate n .separator ++ .blank blank :: k.piece.marks s style

/-- The mark behind all strokes, if the last line is ended. -/
def endMarks (ks : List Stroke) : List Mark :=
  if !ks.isEmpty && !copiedBreak s ks && s.file.text.endsLine then [.separator] else []

end Stroke

section Strokes

variable {s : TokenStream} {style : Style} {regions : Regions} {k : Stroke} {ks : List Stroke}
  {ms : List Mark}

theorem Style.separator_notBlank (h : style.separator ∈ Style.separators) :
    style.separator ≠ [] ∧ ∀ b ∈ style.separator, b ≠ 32 ∧ b ≠ 9 := by
  have hall : ∀ sep ∈ Style.separators, sep ≠ [] ∧ sep.all (fun b => b ≠ 32 && b ≠ 9) := by decide
  obtain ⟨hne, hblank⟩ := hall _ h
  exact ⟨hne, by simpa using hblank⟩

/-- A comment that a stroke stands for is laid out as at least one line. -/
theorem Piece.exists_first_line (style : Style) {ids : List Nat} {position : Position}
    (hof : s.tokens.toList = Token.ofText s.file.text)
    (h : (Piece.comment ids position).Valid s regions) (hids : ∀ id ∈ ids, id ∈ s.significant) :
    ∃ first lines, ((Build.commentOf (s.buildContext style) ids).render position.column
      style.commentWidth).lines = first :: lines ∧ first ≠ [] := by
  obtain ⟨hne, hkinds, -⟩ := h
  obtain ⟨id, more, rfl⟩ := List.exists_cons_of_ne_nil hne
  have hmem := TokenStream.tokenAt_mem (hids id List.mem_cons_self)
  rw [hof] at hmem
  exact Comment.exists_first_line (Token.isComment hmem (hkinds id List.mem_cons_self).1) _ _ _

variable (hsep : style.separator ∈ Style.separators)
  (hof : s.tokens.toList = Token.ofText s.file.text)
include hof

/-- The marks of a piece are what is written for it, and lines end in them only where they may. -/
theorem Piece.sound_marks (style : Style) (hin : Token.InOrder 0 s.file.text.length s.tokens.toList)
    {p : Piece} (hids : ∀ id ∈ p.ids s, id ∈ s.significant) (h : p.Valid s regions) :
    (p.marks s style).head? ≠ some .separator ∧ p.marks s style ≠ [] ∧
      Mark.Sound (p.marks s style) := by
  cases p with
  | token id =>
      have hmem := TokenStream.tokenAt_mem (hids id (List.mem_singleton_self id))
      rw [hof] at hmem
      exact ⟨nofun, List.cons_ne_nil _ _,
        Mark.sound_singleton (m := .own _) (Token.text_ne_nil hmem)⟩
  | comment ids position =>
      obtain ⟨first, lines, hlines, hne⟩ :=
        Piece.exists_first_line style hof h hids
      have htrim : ∀ l ∈ first :: lines, Comment.trimLine l = l := fun l hl =>
        Comment.trimLine_of_mem_render (hlines ▸ hl)
      simp only [marks, hlines]
      exact ⟨nofun, List.cons_ne_nil _ _, Mark.sound_ofLines _ hne htrim⟩
  | region v =>
      obtain ⟨id, hid⟩ := List.exists_mem_of_ne_nil _ h.2
      have hb := hin.bounds _ (TokenStream.tokenAt_mem (hids id hid))
      have hinside := VerbatimSpan.mem_ids_region.mp hid
      refine ⟨nofun, List.cons_ne_nil _ _, Mark.sound_singleton (m := .own _) fun hnil => ?_⟩
      have hlength := congrArg List.length hnil
      simp only [Bytes.slice, List.length_take, List.length_drop, List.length_nil] at hlength
      omega

include hsep

theorem Piece.text_marks {p : Piece} (hids : ∀ id ∈ p.ids s, id ∈ s.significant)
    (h : p.Valid s regions) :
    Mark.textAll style.separator (p.marks s style) = p.text s style := by
  cases p with
  | token id => exact List.flatMap_singleton ..
  | comment ids position =>
      obtain ⟨first, lines, hlines, -⟩ :=
        Piece.exists_first_line style hof h hids
      have hseparator : Writer.separator ⟨style, [], .empty, #[]⟩ = style.separator :=
        Writer.separator_eq hsep
      have hbehind : ∀ hanging l : Bytes, Mark.textAll style.separator (Mark.behind hanging l) =
          Writer.commentLine ⟨style, [], .empty, #[]⟩ hanging l := by
        intro hanging l
        rw [Mark.behind, Writer.commentLine, hseparator]
        split_ifs <;> simp [Mark.textAll, Mark.text]
      rw [text, Comment.textAt, Writer.commentText_cons _ _ rfl hlines]
      simp only [marks, hlines, Mark.ofLines]
      rw [Mark.textAll, List.flatMap_cons, List.flatMap_assoc]
      exact congrArg _ (List.flatMap_congr fun l _ => hbehind _ l)
  | region v => exact List.flatMap_singleton ..

/-- The marks of a stroke. -/
theorem Stroke.exists_marks (hin : Token.InOrder 0 s.file.text.length s.tokens.toList)
    (hids : ∀ id ∈ k.piece.ids s, id ∈ s.significant) (hvalid : k.piece.Valid s regions)
    (hparting : k.IsParting style.separator) :
    ∃ ms, k.Marked s style ms ∧ Mark.textAll style.separator ms = k.text s style ∧
      Mark.Sound ms := by
  obtain ⟨n, blank, hgap, hblank⟩ := hparting
  obtain ⟨hhead, hne, hsound⟩ := Piece.sound_marks hof style hin hids hvalid
  refine ⟨_, ⟨n, blank, hgap, hblank, rfl⟩, ?_,
    (Mark.sound_separators n).append (hsound.behind_blank hne hhead blank)⟩
  rw [Mark.textAll_append, Mark.textAll_separators, Stroke.text, hgap,
    ← Piece.text_marks hsep hof hids hvalid, List.append_assoc]
  rfl

/-- The marks of strokes. -/
theorem Stroke.exists_marksAll (hin : Token.InOrder 0 s.file.text.length s.tokens.toList)
    (h : ∀ k ∈ ks, (∀ id ∈ k.piece.ids s, id ∈ s.significant) ∧ k.piece.Valid s regions ∧
      k.IsParting style.separator) :
    ∃ mss, List.Forall₂ (Stroke.Marked s style) ks mss ∧
      Mark.textAll style.separator mss.flatten = Stroke.textAll s style ks ∧
      Mark.Sound mss.flatten := by
  induction ks with
  | nil => exact ⟨[], .nil, rfl, Mark.sound_nil⟩
  | cons k ks ih =>
      obtain ⟨⟨hids, hvalid, hparting⟩, hrest⟩ := List.forall_mem_cons.mp h
      obtain ⟨mss, hmarked, htext, hsound⟩ := ih hrest
      obtain ⟨ms, hmarks, hfirst, hsound'⟩ := Stroke.exists_marks hsep hof hin hids hvalid hparting
      refine ⟨ms :: mss, .cons hmarks hmarked, ?_, hsound'.append hsound⟩
      rw [List.flatten_cons, Mark.textAll_append, hfirst, htext]
      rfl

end Strokes

namespace Stroke

variable {s : TokenStream} {sep : Bytes} {ks : List Stroke}

theorem textAll_endMarks : Mark.textAll sep (endMarks s ks) = ending s sep ks := by
  rw [endMarks, ending]
  split_ifs
  · exact List.flatMap_singleton ..
  · rfl

theorem sound_endMarks : Mark.Sound (endMarks s ks) := by
  rw [endMarks]
  split_ifs
  · exact Mark.sound_singleton (m := .separator) trivial
  · exact Mark.sound_nil

end Stroke

namespace Formatter

/-- Formatting leaves nothing blank at the end of a line: either a step meets a fault and the text
is left as it is, or the result is written in strokes, the marks of these put it together, and a
space or tab in front of a line separator that is written or at the end of the result is the last
byte of a token or of a region. -/
theorem format_noTrailing (f : Formatter) (text : Bytes) (hmax : text.length < 2 ^ 63) :
    (∃ fault, (Formatted.ofFile ⟨[], text⟩ f.kind f.effective.1).1 = .error fault ∧
      (f.format text).1 = text) ∨
    ∃ ks mss, Stroke.Cover (TokenStream.ofFile ⟨[], text⟩) f.effective.1
        (Regions.ofStream (TokenStream.ofFile ⟨[], text⟩) f.effective.1)
        f.effective.1.separator ks ∧
      (f.format text).1 = (Stroke.output (TokenStream.ofFile ⟨[], text⟩) f.effective.1
        f.effective.1.separator ks).text ∧
      List.Forall₂ (Stroke.Marked (TokenStream.ofFile ⟨[], text⟩) f.effective.1) ks mss ∧
      Mark.textAll f.effective.1.separator
          (mss.flatten ++ Stroke.endMarks (TokenStream.ofFile ⟨[], text⟩) ks) =
        (f.format text).1 ∧
      Mark.NoTrailing f.effective.1.separator
        (mss.flatten ++ Stroke.endMarks (TokenStream.ofFile ⟨[], text⟩) ks) := by
  refine (format_cases f text).imp_right ?_
  rintro ⟨formatted, hrun, htext⟩
  have hsep : f.effective.1.separator ∈ Style.separators := Style.normalize_separator _
  obtain ⟨hsepNe, hsepBlank⟩ := Style.separator_notBlank hsep
  obtain ⟨ks, hcover, -, hout, hparting, -⟩ := Formatted.ofFile_traced hmax hsep hrun
  obtain ⟨mss, hmarked, hmarks, hsound⟩ := Stroke.exists_marksAll hsep rfl
    (TokenStream.ofFile_inOrder ⟨[], text⟩) fun k hk =>
      ⟨fun id => hcover.mem_significant hk, (hcover.valid k hk).piece, hparting k hk⟩
  refine ⟨ks, mss, hcover, htext.trans (by rw [hout]), hmarked, ?_,
    (hsound.append Stroke.sound_endMarks).noTrailing hsepNe hsepBlank⟩
  rw [Mark.textAll_append, hmarks, Stroke.textAll_endMarks, htext, hout]
  rfl

/-- A declaration with blanks behind it and behind its comment, and a literal that is not closed and
ends in blanks. -/
def blankEnds : Bytes :=
  ascii "int x;  \n// c  \ns = \"ab  "

/-- The blanks of the literal are left, and no other ones. -/
theorem format_noTrailing_blankEnds :
    blankEnds.length < 2 ^ 63 ∧
    ((format {} blankEnds).1 = ascii "int x;\n// c\ns = \"ab  ") ∧
    ∃ ks mss, List.Forall₂ (Stroke.Marked (TokenStream.ofFile ⟨[], blankEnds⟩) (effective {}).1)
        ks mss ∧
      Mark.textAll (effective {}).1.separator
          (mss.flatten ++ Stroke.endMarks (TokenStream.ofFile ⟨[], blankEnds⟩) ks) =
        (format {} blankEnds).1 ∧
      Mark.NoTrailing (effective {}).1.separator
        (mss.flatten ++ Stroke.endMarks (TokenStream.ofFile ⟨[], blankEnds⟩) ks) := by
  have hlength : blankEnds.length < 2 ^ 63 := by decide
  have hok :
      (Formatted.ofFile ⟨[], blankEnds⟩ .unit (effective {}).1).1.toOption.isSome = true := by
    decide +kernel
  refine ⟨hlength, by decide +kernel, ?_⟩
  rcases format_noTrailing {} blankEnds hlength with ⟨fault, herror, -⟩ | hmarks
  · change (Formatted.ofFile ⟨[], blankEnds⟩ .unit (effective {}).1).1 = _ at herror
    rw [herror] at hok
    cases hok
  · obtain ⟨ks, mss, -, -, hmarked, htext, hblank⟩ := hmarks
    exact ⟨ks, mss, hmarked, htext, hblank⟩

end Formatter

end CodeLayout
