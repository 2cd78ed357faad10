import CodeLayout.Proofs.Comment.Lines
import CodeLayout.Proofs.Formatter

/-!
# Nothing behind a line comment

A line comment goes on to the end of its line, so what is written behind one on the same line would
become a part of it. A line break is behind every line comment that is written and behind every
region that ends in one. Only a region is copied right behind the comment that opens it, and then it
starts with a line break itself.
-/

namespace CodeLayout

/-- Whether the last comment of a region is a line comment. -/
def VerbatimSpan.EndsInLineComment (s : TokenStream) (v : VerbatimSpan) : Prop :=
  ∃ t ∈ s.tokens.toList, t.kind = .comment ∧ CommentStyle.ofText t.text = .line ∧
    v.start ≤ t.start ∧ t.stop ≤ v.stop ∧
    ∀ u ∈ s.tokens.toList, u.kind = .comment → t.stop ≤ u.start → v.stop ≤ u.start

/-- Whether a piece is made of line comments, or is a region whose last comment is one. -/
def Piece.EndsInLineComment (s : TokenStream) : Piece → Prop
  | .token _ => False
  | .comment ids _ => ∃ id ∈ ids, CommentStyle.ofText (s.tokenAt id).text = .line
  | .region v => v.EndsInLineComment s

/-- Whether a line break, or nothing at all, follows a stroke in a text that is written in strokes.
The line break is that of the white space in front of the next stroke, or the first byte of the
region that the stroke opens. -/
def Stroke.BreaksLine (s : TokenStream) (style : Style) (k : Stroke) (after : List Stroke) : Prop :=
  after = [] ∨ ∃ l rest, after = l :: rest ∧
    (style.separator <+: l.gap ∨
      ∃ gap id position v, k = ⟨gap, .comment [id] position⟩ ∧ l = ⟨[], .region v⟩ ∧
        v.OpensBehind s style id ∧
        ∃ b ∈ (s.file.text.slice v.start v.stop).head?, Lexer.isEol b = true)

/-- Whether a text is made of line comments on lines of their own, with nothing but indentation in
front of them. -/
def Bytes.IsLineComments (separator : Bytes) (text : Bytes) : Prop :=
  ∃ (lines : List Bytes) (hanging : Bytes), lines ≠ [] ∧ (∀ l ∈ lines, l.IsLineComment) ∧
    (∀ b ∈ hanging, b = 32 ∨ b = 9) ∧ text = Bytes.join (separator ++ hanging) lines

/-- Whether in a text that is written in strokes nothing is behind a line comment on its line: each
line of a piece made of line comments is followed by a line break and so is the piece, and so is
each region whose last comment is a line comment. -/
def Stroke.BreaksLines (s : TokenStream) (style : Style) (ks : List Stroke) : Prop :=
  ∀ before k after, ks = before ++ k :: after → k.piece.EndsInLineComment s →
    k.BreaksLine s style after ∧
    Bytes.StartsLine (Stroke.textAll s style after ++ Stroke.ending s style.separator ks) ∧
    ∀ ids position, k.piece = .comment ids position →
      Bytes.IsLineComments style.separator (k.piece.text s style)

/-- Whether in the text of a stream nothing is behind a line comment on its line. -/
def TokenStream.BreaksLines (s : TokenStream) (regions : Regions) : Prop :=
  (∀ t ∈ s.tokens.toList, t.kind = .comment → CommentStyle.ofText t.text = .line →
    t.text.IsLineComment ∧ Bytes.StartsLine (s.file.text.drop t.stop)) ∧
  ∀ v ∈ regions.spans, v.EndsInLineComment s → Bytes.StartsLine (s.file.text.drop v.stop)

section Regions

variable {file : SourceFile} {style : Style} {v : VerbatimSpan}

/-- A region whose last comment is a line comment ends in it, or reaches to the end of the text. -/
theorem VerbatimSpan.EndsInLineComment.cases (hmax : file.text.length < 2 ^ 63)
    (hv : v ∈ (Regions.ofStream (TokenStream.ofFile file) style).spans)
    (h : v.EndsInLineComment (TokenStream.ofFile file)) :
    v.stop = file.text.length ∨ (v.lineComment = true ∧
      ∃ t ∈ (TokenStream.ofFile file).tokens.toList, t.kind = .comment ∧
        CommentStyle.ofText t.text = .line ∧ v.start ≤ t.start ∧ t.stop = v.stop) := by
  have hin := TokenStream.ofFile_inOrder file
  rw [Regions.ofStream_spans hmax] at hv
  obtain ⟨t, ht, hkind, hline, hlo, hhi, hlast⟩ := h
  refine (Regions.spansOf_ends hv).2.imp_right ?_
  rintro ⟨u, hu, hstop, hukind, huline⟩
  have htb := hin.bounds t ht
  have hub := hin.bounds u hu
  rcases hin.apart ht hu with rfl | hbehind | hbefore
  · exact ⟨by simp [huline, hline], t, ht, hkind, hline, hlo, hstop⟩
  · have := hlast u hu hukind hbehind
    omega
  · omega

/-- What goes up to the end of a token and starts in front of it ends as the token. -/
theorem Token.exists_slice {s : Bytes} {t : Token} {start : Nat} (ht : t ∈ ofText s)
    (hstart : start ≤ t.start) : ∃ front, s.slice start t.stop = front ++ t.text := by
  obtain ⟨before, after, hs, hbefore⟩ := exists_split ht
  have htake : s.take t.stop = before ++ t.text := by
    rw [hs, List.take_left']
    simp [stop, hbefore]
  exact ⟨before.drop start, by
    rw [Bytes.slice, ← List.drop_take, htake, List.drop_append_of_le_length (by omega)]⟩

/-- A region that ends in a line comment ends in no line break. -/
theorem slice_endsLine {s : Bytes} {t : Token} {start : Nat} (ht : t ∈ Token.ofText s)
    (hkind : t.kind = .comment) (hline : CommentStyle.ofText t.text = .line)
    (hstart : start ≤ t.start) : (s.slice start t.stop).endsLine = false := by
  have hcomment := ((Token.isComment ht hkind).isLineComment hline).1
  obtain ⟨front, hslice⟩ := Token.exists_slice ht hstart
  rw [hslice, Bytes.endsLine_append front hcomment.ne_nil]
  exact hcomment.isUnbroken.endsLine

/-- What follows the last comment of a region that ends in a line comment starts a line. -/
theorem VerbatimSpan.EndsInLineComment.startsLine (hmax : file.text.length < 2 ^ 63)
    (hv : v ∈ (Regions.ofStream (TokenStream.ofFile file) style).spans)
    (h : v.EndsInLineComment (TokenStream.ofFile file)) :
    Bytes.StartsLine (file.text.drop v.stop) := by
  rcases h.cases hmax hv with hend | ⟨-, t, ht, hkind, hline, -, hstop⟩
  · rw [hend, List.drop_length]
    nofun
  · rw [← hstop]
    exact ((Token.isComment ht hkind).isLineComment hline).2

/-- A region that opens behind a line comment starts with a line break. -/
theorem VerbatimSpan.OpensBehind.startsLine {id : Nat} (hmax : file.text.length < 2 ^ 63)
    (hv : v ∈ (Regions.ofStream (TokenStream.ofFile file) style).spans)
    (h : v.OpensBehind (TokenStream.ofFile file) style id)
    (hid : id ∈ (TokenStream.ofFile file).significant)
    (hline : CommentStyle.ofText ((TokenStream.ofFile file).tokenAt id).text = .line) :
    ∃ b ∈ (file.text.slice v.start v.stop).head?, Lexer.isEol b = true := by
  have hb := (Regions.ofStream_fit hmax).inOrder.bounds v hv
  have hmem := TokenStream.tokenAt_mem hid
  have hrest := ((Token.isComment hmem h.comment).isLineComment hline).2
  rw [h.stop] at hrest
  change Bytes.StartsLine (file.text.drop v.start) at hrest
  have hne : file.text.drop v.start ≠ [] := by
    rw [ne_eq, List.drop_eq_nil_iff]
    omega
  obtain ⟨b, more, hdrop⟩ := List.exists_cons_of_ne_nil hne
  obtain ⟨n, hn⟩ : ∃ n, v.stop - v.start = n + 1 := ⟨v.stop - v.start - 1, by omega⟩
  rw [hdrop] at hrest
  rw [Bytes.slice, hdrop, hn, List.take_succ_cons]
  exact ⟨b, rfl, hrest b rfl⟩

end Regions

namespace Stroke

variable {s : TokenStream} {style : Style} {regions : Regions} {separator : Bytes} {k l : Stroke}
  {ks before after : List Stroke} {v : VerbatimSpan}

namespace Cover

variable (h : Cover s style regions separator ks)
  (hin : Token.InOrder 0 s.file.text.length s.tokens.toList)
include h hin

/-- Only one stroke copies a region. -/
theorem eq_of_region {before' after' : List Stroke} {k' : Stroke}
    (hks : ks = before ++ k :: after) (hks' : ks = before' ++ k' :: after')
    (hk : k.piece = .region v) (hk' : k'.piece = .region v) : before = before' := by
  have hmem : k ∈ ks := by simp [hks]
  obtain ⟨id, hid⟩ := List.exists_mem_of_ne_nil _ (h.valid k hmem).piece.ids_ne_nil
  have hid' : id ∈ k'.piece.ids s := by rwa [hk', ← hk]
  have hlt := h.start_lt_stop hin hmem hid
  rw [hks] at hks'
  rcases List.append_eq_append_iff.mp hks' with ⟨more, hbefore, htail⟩ | ⟨more, hbefore, htail⟩
  · cases more with
    | nil => simpa using hbefore.symm
    | cons first more =>
        obtain ⟨rfl, rfl⟩ := List.cons.inj htail
        have hle := h.stop_le_start hin hks hid (l := k') (by simp) hid'
        omega
  · cases more with
    | nil => simpa using hbefore
    | cons first more =>
        obtain ⟨rfl, rfl⟩ := List.cons.inj htail
        have hle := h.stop_le_start hin (hks.trans hks') hid' (l := k) (by simp) hid
        omega

/-- Right in front of a region is the comment that opens it. -/
theorem opensBehind (hfit : regions.Fit s.file.text.length s.tokens.toList)
    (hopen : ∀ v ∈ regions.spans, ∃ t ∈ s.tokens.toList, t.kind = .comment ∧
      Verbatim.startsWith style.disablingTag.squeeze t.text = true ∧
      Verbatim.hasTag t.text style = true ∧ t.stop = v.start ∧ t.IsOutside regions)
    (hks : ks = before ++ k :: l :: after) (hl : l.piece = .region v) :
    ∃ gap id position, k = ⟨gap, .comment [id] position⟩ ∧ l = ⟨[], .region v⟩ ∧
      v.OpensBehind s style id ∧ id ∈ s.significant ∧ v ∈ regions.spans := by
  have hmem : l ∈ ks := by simp [hks]
  have hvalid := (h.valid l hmem).piece
  rw [hl] at hvalid
  obtain ⟨t, ht, hkind, htag, hhas, hstop, hout⟩ := hopen v hvalid.1
  obtain ⟨before', gap, id, position, after', htoken, hks'⟩ :=
    h.exists_opening hin ht hkind hhas hout
  rw [← htoken] at hkind htag hstop
  have hid : id ∈ Piece.ids s (.comment [id] position) := by simp [Piece.ids]
  obtain ⟨rest, rfl⟩ := h.copied_next hin hfit hks' hid hstop hvalid.1
    (VerbatimSpan.isFilled_iff.mpr hvalid.2)
  have heq : before ++ [k] = before' ++ [⟨gap, .comment [id] position⟩] :=
    h.eq_of_region hin (by simpa using hks) (by simpa using hks') hl rfl
  obtain ⟨-, hk⟩ := List.append_inj' heq rfl
  refine ⟨gap, id, position, (List.cons.inj hk).1, ?_, ⟨hkind, htag, hstop⟩,
    h.mem_significant (k := ⟨gap, .comment [id] position⟩) (by simp [hks']) hid, hvalid.1⟩
  have hgap := (h.valid l hmem).direct v hl
  obtain ⟨gap', piece⟩ := l
  simp only at hgap hl
  rw [hgap, hl]

/-- Nothing is written behind a region that reaches to the end of the text. -/
theorem nothing_behind_region (hfit : regions.Fit s.file.text.length s.tokens.toList)
    (hks : ks = before ++ k :: after) (hk : k.piece = .region v)
    (hend : v.stop = s.file.text.length) : after = [] := by
  by_contra hne
  obtain ⟨l, rest, rfl⟩ := List.exists_cons_of_ne_nil hne
  have hmem : k ∈ ks := by simp [hks]
  have hlmem : l ∈ ks := by simp [hks]
  obtain ⟨id, hid⟩ := List.exists_mem_of_ne_nil _ (h.valid k hmem).piece.ids_ne_nil
  obtain ⟨j, hj⟩ := List.exists_mem_of_ne_nil _ (h.valid l hlmem).piece.ids_ne_nil
  have hle := h.stop_le_start hin hks hid List.mem_cons_self hj
  have hjlt := h.start_lt_stop hin hlmem hj
  have hjb := hin.bounds _ (TokenStream.tokenAt_mem (h.mem_significant hlmem hj))
  have hvalid := (h.valid k hmem).piece
  rw [hk] at hvalid hid
  have hidb := VerbatimSpan.mem_ids_region.mp hid
  have hlt := h.start_lt_stop hin hmem (hk ▸ hid)
  have hregion := h.piece_eq_region hin hfit hvalid.1 hlmem hj ⟨by omega, by omega⟩
  have hsame : before = before ++ [k] :=
    h.eq_of_region hin hks (by simpa using hks) hk hregion
  simp at hsame

end Cover

theorem style_commentOf {ids : List Nat}
    (h : ∀ id ∈ ids, CommentStyle.ofText (s.tokenAt id).text = .line) :
    (Build.commentOf (s.buildContext style) ids).style = .line := by
  cases ids with
  | nil => rfl
  | cons id ids => exact h id List.mem_cons_self

theorem Cover.all_line (h : Cover s style regions separator ks) (hk : k ∈ ks) {ids : List Nat}
    {position : Position} (hpiece : k.piece = .comment ids position)
    (hends : k.piece.EndsInLineComment s) :
    ∀ id ∈ ids, CommentStyle.ofText (s.tokenAt id).text = .line := by
  have hvalid := (h.valid k hk).piece
  rw [hpiece] at hends hvalid
  obtain ⟨id, hid, hline⟩ := hends
  rcases hvalid.2.2 with ⟨only, rfl⟩ | hall
  · intro j hj
    rw [List.mem_singleton] at hid hj
    rwa [hj, ← hid]
  · exact hall

end Stroke

theorem Style.startsLine_separator {style : Style} (h : style.separator ∈ Style.separators)
    (rest : Bytes) : Bytes.StartsLine (style.separator ++ rest) := by
  have hfirst : ∀ sep ∈ Style.separators, sep.head?.any Lexer.isEol = true := by decide
  have hsep := hfirst _ h
  intro b hb
  cases hcons : style.separator with
  | nil => simp [hcons] at hsep
  | cons c more =>
      rw [hcons] at hsep hb
      rw [← Option.some.inj hb]
      exact hsep

section File

variable {file : SourceFile} {style : Style} {ks before after : List Stroke} {k : Stroke}

/-- A comment piece made of line comments is written as line comments. -/
theorem Piece.isLineComments {ids : List Nat} {position : Position}
    (hsep : style.separator ∈ Style.separators) (hne : ids ≠ [])
    (hids : ∀ id ∈ ids, id ∈ (TokenStream.ofFile file).significant ∧
      ((TokenStream.ofFile file).tokenAt id).kind = .comment)
    (hline : ∀ id ∈ ids, CommentStyle.ofText ((TokenStream.ofFile file).tokenAt id).text = .line) :
    Bytes.IsLineComments style.separator
      (Piece.text (TokenStream.ofFile file) style (.comment ids position)) := by
  have hraw : ∀ text ∈ ids.map (Build.textOf ((TokenStream.ofFile file).buildContext style)),
      text.IsLineComment := by
    intro text htext
    obtain ⟨id, hid, rfl⟩ := List.mem_map.mp htext
    obtain ⟨hsig, hkind⟩ := hids id hid
    exact ((Token.isComment (TokenStream.tokenAt_mem hsig) hkind).isLineComment (hline id hid)).1
  have hlines : ((Build.commentOf ((TokenStream.ofFile file).buildContext style) ids).render
      position.column style.commentWidth).lines ≠ [] :=
    Comment.render_lines_ne_nil _ hraw (by simpa using hne) _ _
  have hall : ∀ l ∈ ((Build.commentOf ((TokenStream.ofFile file).buildContext style) ids).render
      position.column style.commentWidth).lines, l.IsLineComment :=
    (Comment.render_isLineComment _ hraw _ _).2
  have htext := Writer.commentText_eq_join ⟨style, [], .empty, #[]⟩
    (Build.commentOf ((TokenStream.ofFile file).buildContext style) ids).text
    (p := { rendered := some _, hanging := Placing.alignedAt ⟨style, ⟨[], []⟩, 0⟩ position }) rfl
    hlines fun l hl => (hall l hl).ne_nil
  have hseparator : Writer.separator ⟨style, [], .empty, #[]⟩ = style.separator := by
    have hnonempty : ∀ sep ∈ Style.separators, ¬sep.isEmpty = true := by decide
    exact if_neg (hnonempty _ hsep)
  rw [hseparator] at htext
  refine ⟨_, _, hlines, hall, fun b hb => ?_, htext⟩
  split_ifs at hb
  · exact Style.indentation_blank _ _ _ b hb
  · simp at hb

variable (hmax : file.text.length < 2 ^ 63)
  (hcover : Stroke.Cover (TokenStream.ofFile file) style
    (Regions.ofStream (TokenStream.ofFile file) style) style.separator ks)
  (hparted : ks.IsChain (Stroke.Parted (TokenStream.ofFile file) style style.separator))
include hmax hcover hparted

/-- Behind a stroke that ends in a line comment a line break follows, or nothing at all. -/
theorem Stroke.breaksLine (hks : ks = before ++ k :: after)
    (hends : k.piece.EndsInLineComment (TokenStream.ofFile file)) :
    k.BreaksLine (TokenStream.ofFile file) style after := by
  have hin := TokenStream.ofFile_inOrder file
  have hfit := @Regions.ofStream_fit file style hmax
  have hmem : k ∈ ks := by simp [hks]
  cases after with
  | nil => exact Or.inl rfl
  | cons l rest =>
      refine Or.inr ⟨l, rest, rfl, ?_⟩
      rw [hks, List.isChain_append, List.isChain_cons_cons] at hparted
      have hparted := hparted.2.1.1
      by_cases hregion : ∃ v, l.piece = .region v
      · obtain ⟨v, hl⟩ := hregion
        obtain ⟨gap, id, position, rfl, rfl, hopens, hsig, hv⟩ := hcover.opensBehind hin hfit
          (fun v hv => Regions.ofStream_opening hmax hv) hks hl
        have hline := hcover.all_line hmem rfl hends id List.mem_cons_self
        exact Or.inr ⟨gap, id, position, v, rfl, rfl, hopens,
          hopens.startsLine hmax hv hsig hline⟩
      · refine Or.inl ?_
        obtain ⟨gap, piece⟩ := k
        cases piece with
        | token id => cases hends
        | comment ids position =>
            have hnext := hparted
              (decide_eq_true (style_commentOf (hcover.all_line hmem rfl hends)))
            rcases hnext with hcopied | hgap | hregion'
            · cases hcopied
            · exact hgap
            · exact absurd hregion' hregion
        | region v =>
            have hv := (hcover.valid _ hmem).piece.1
            rcases VerbatimSpan.EndsInLineComment.cases hmax hv hends with
              hend | ⟨hline, t, ht, hkind, htline, hlo, hstop⟩
            · have hnil := hcover.nothing_behind_region hin hfit hks rfl hend
              cases hnil
            · rcases hparted hline with hcopied | hgap | hregion'
              · have hunbroken := slice_endsLine ht hkind htline hlo
                rw [hstop] at hunbroken
                change (file.text.slice v.start v.stop).endsLine = true at hcopied
                rw [hunbroken] at hcopied
                cases hcopied
              · exact hgap
              · exact absurd hregion' hregion

/-- In a text that is written in strokes nothing is behind a line comment on its line. -/
theorem Stroke.breaksLines (hsep : style.separator ∈ Style.separators) :
    Stroke.BreaksLines (TokenStream.ofFile file) style ks := by
  intro before k after hks hends
  have hmem : k ∈ ks := by simp [hks]
  have hbreak := Stroke.breaksLine hmax hcover hparted hks hends
  have hnext : ∀ {out : Bytes}, style.separator <+: out → out.StartsLine := by
    rintro _ ⟨rest, rfl⟩
    exact Style.startsLine_separator hsep rest
  refine ⟨hbreak, ?_, fun ids position hpiece => ?_⟩
  · rcases hbreak with rfl | ⟨l, rest, rfl, hgap | ⟨gap, id, position, v, -, rfl, -, hfirst⟩⟩
    · change Bytes.StartsLine (Stroke.ending _ _ _)
      rw [Stroke.ending]
      split_ifs
      · exact hnext (List.prefix_refl _)
      · exact Bytes.startsLine_nil
    · refine hnext (hgap.trans ?_)
      simp only [Stroke.textAll, Stroke.text, List.flatMap_cons, List.append_assoc]
      exact List.prefix_append _ _
    · obtain ⟨b, hb, heol⟩ := hfirst
      intro c hc
      simp only [Stroke.textAll, Stroke.text, Piece.text, List.flatMap_cons, List.nil_append,
        List.append_assoc, List.head?_append] at hc
      rw [Option.mem_def.mp hb] at hc
      rwa [← Option.some.inj hc]
  · have hvalid := (hcover.valid k hmem).piece
    have hline := hcover.all_line hmem hpiece hends
    have hids : ∀ id ∈ ids, id ∈ k.piece.ids (TokenStream.ofFile file) := by
      rw [hpiece]
      exact fun id hid => hid
    rw [hpiece] at hvalid ⊢
    exact Piece.isLineComments hsep hvalid.1 (fun id hid =>
      ⟨hcover.mem_significant hmem (hids id hid), (hvalid.2.1 id hid).1⟩) hline

end File

/-- In a text nothing is behind a line comment on its line. -/
theorem TokenStream.ofFile_breaksLines {file : SourceFile} (style : Style)
    (hmax : file.text.length < 2 ^ 63) :
    (TokenStream.ofFile file).BreaksLines (Regions.ofStream (TokenStream.ofFile file) style) :=
  ⟨fun _ ht hkind hline => (Token.isComment ht hkind).isLineComment hline,
    fun _ hv hends => hends.startsLine hmax hv⟩

namespace Formatter

/-- Code never ends up behind a line comment: either a step meets a fault and the text is left as it
is, with nothing behind any of its line comments on their lines, or the result is written in strokes
for the tokens, comments and regions of the text with nothing behind any line comment on its
line. -/
theorem format_breaksLines (f : Formatter) (text : Bytes) (hmax : text.length < 2 ^ 63) :
    ((∃ fault, (Formatted.ofFile ⟨[], text⟩ f.kind f.effective.1).1 = .error fault ∧
      (f.format text).1 = text) ∧
      (TokenStream.ofFile ⟨[], text⟩).BreaksLines
        (Regions.ofStream (TokenStream.ofFile ⟨[], text⟩) f.effective.1)) ∨
    ∃ ks, Stroke.Cover (TokenStream.ofFile ⟨[], text⟩) f.effective.1
        (Regions.ofStream (TokenStream.ofFile ⟨[], text⟩) f.effective.1)
        f.effective.1.separator ks ∧
      (f.format text).1 = (Stroke.output (TokenStream.ofFile ⟨[], text⟩) f.effective.1
        f.effective.1.separator ks).text ∧
      Stroke.BreaksLines (TokenStream.ofFile ⟨[], text⟩) f.effective.1 ks := by
  cases hrun : (Formatted.ofFile ⟨[], text⟩ f.kind f.effective.1).1 with
  | error fault =>
      refine Or.inl ⟨⟨fault, rfl, ?_⟩, TokenStream.ofFile_breaksLines _ hmax⟩
      simp only [format, run, hrun]
  | ok formatted =>
      have hsep : f.effective.1.separator ∈ Style.separators := Style.normalize_separator _
      obtain ⟨ks, hcover, hparted, hout⟩ := Formatted.ofFile_parted hmax hsep hrun
      refine Or.inr ⟨ks, hcover, ?_, Stroke.breaksLines hmax hcover hparted hsep⟩
      simp only [format, run, hrun, hout]

/-- A call with a line comment between any two of its tokens. -/
def commentedCall : Bytes :=
  ascii "f // 1\n( // 2\nx // 3\n) // 4\n;"

/-- The line comments of the call stay at the ends of their lines. -/
theorem format_breaksLines_commentedCall :
    commentedCall.length < 2 ^ 63 ∧
    ∃ ks, Stroke.Cover (TokenStream.ofFile ⟨[], commentedCall⟩) (effective { kind := .body }).1
        (Regions.ofStream (TokenStream.ofFile ⟨[], commentedCall⟩) (effective { kind := .body }).1)
        (effective { kind := .body }).1.separator ks ∧
      (format { kind := .body } commentedCall).1 =
        (Stroke.output (TokenStream.ofFile ⟨[], commentedCall⟩) (effective { kind := .body }).1
          (effective { kind := .body }).1.separator ks).text ∧
      Stroke.BreaksLines (TokenStream.ofFile ⟨[], commentedCall⟩) (effective { kind := .body }).1
        ks := by
  have hlength : commentedCall.length < 2 ^ 63 := by decide
  have hok : (Formatted.ofFile ⟨[], commentedCall⟩ .body
      (effective { kind := .body }).1).1.toOption.isSome = true := by decide +kernel
  refine ⟨hlength, (format_breaksLines { kind := .body } _ hlength).resolve_left ?_⟩
  rintro ⟨⟨fault, herror, -⟩, -⟩
  change (Formatted.ofFile ⟨[], commentedCall⟩ .body (effective { kind := .body }).1).1 = _
    at herror
  rw [herror] at hok
  cases hok

end Formatter

end CodeLayout
