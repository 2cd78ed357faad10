import CodeLayout.Proofs.Trailing

/-!
# The end of the last line

A text that is written ends as its last piece does, with one line separator behind it if the input
ends in a line break. A token is written as it is, and a comment ends in a line break exactly if its
text does without what is trimmed behind it. So the result ends as the input unless the last token
or comment ends in a line break itself.
-/

namespace CodeLayout

namespace Bytes

variable {s t : Bytes}

/-- Whether a text ends as another does: in one line separator and no other line break, or in no
line break at all. -/
def EndsAs (separator s t : Bytes) : Prop :=
  if s.endsLine then ∃ front, t = front ++ separator ∧ front.endsLine = false
  else t.endsLine = false

/-- A text with a separator behind it as in another one ends as that one unless it ends in a line
break itself. -/
theorem endsAs_append_iff {separator : Bytes} :
    EndsAs separator s (t ++ if s.endsLine then separator else []) ↔ t.endsLine = false := by
  rw [EndsAs]
  split_ifs
  · refine ⟨?_, fun h => ⟨t, rfl, h⟩⟩
    rintro ⟨front, happend, hfront⟩
    rwa [List.append_cancel_right happend]
  · rw [List.append_nil]

end Bytes

namespace Comment

variable {c : Comment} {column limit : Int} {l s : Bytes}

/-- A line that is trimmed ends in no line break. -/
theorem endsLine_of_trimLine (hmem : newline ∉ l) (h : trimLine l = l) : l.endsLine = false := by
  refine Bytes.endsLine_eq_false_iff.mpr fun b hb => ?_
  have hkept := trimLine_eq_self_iff.mp h b hb
  have hb10 : b ≠ 10 := by
    rintro rfl
    exact hmem (List.mem_of_getLast? hb)
  simp only [isTrailing, Bool.or_eq_false_iff, decide_eq_false_iff_not] at hkept
  simp [Lexer.isEol, hkept.2, hb10]

/-- A trimmed text ends in a line break exactly if its last line is blank. -/
theorem isEmpty_last_textLines (hhead : ∃ b rest, s = b :: rest ∧ isTrailing b = false)
    (hl : l ∈ (textLines s).getLast?) : l.isEmpty = (trimLine s).endsLine := by
  obtain ⟨hmem, htrim⟩ := mem_textLines (List.mem_of_getLast? hl)
  have hpieces := Bytes.join_pieces newline s
  obtain ⟨ps, q, hsplit⟩ :=
    (List.eq_nil_or_concat' (s.pieces newline)).resolve_left (Bytes.pieces_ne_nil newline s)
  rw [textLines, hsplit, List.map_append, List.map_singleton, List.getLast?_concat] at hl
  obtain rfl : trimLine q = l := Option.some.inj hl
  rw [hsplit] at hpieces
  cases ps with
  | nil =>
      obtain rfl : q = s := hpieces
      obtain ⟨b, rest, rfl, hb⟩ := hhead
      rw [endsLine_of_trimLine hmem htrim, trimLine, Bytes.trimRight_cons hb]
      rfl
  | cons p ps =>
      rw [List.cons_append, Bytes.join_eq_flatMap, List.flatMap_append, List.flatMap_singleton,
        ← List.append_assoc, List.append_cons] at hpieces
      have hfront : trimLine (p ++ ps.flatMap (newline :: ·) ++ [newline]) =
          p ++ ps.flatMap (newline :: ·) ++ [newline] := trimLine_append _ (by decide) (by decide)
      rw [← hpieces, trimLine_append_left hfront]
      by_cases hq : trimLine q = []
      · rw [hq, List.append_nil, Bytes.endsLine_append _ (by decide)]
        decide
      · rw [Bytes.endsLine_append _ hq, endsLine_of_trimLine hmem htrim]
        simpa using hq

/-- What a comment ends in as it was written is its text without what is trimmed. -/
theorem last_asWritten (hstyle : c.style ≠ .line)
    (hhead : ∃ b rest, c.text = b :: rest ∧ isTrailing b = false)
    (hl : l ∈ c.asWritten.lines.getLast?) :
    l.endsLine = false ∧ l.isEmpty = (trimLine c.text).endsLine := by
  have hkept : ∀ k ∈ (textLines c.text).getLast?, k.endsLine = false ∧
      k.isEmpty = (trimLine c.text).endsLine := fun k hk => by
    obtain ⟨hmem, htrim⟩ := mem_textLines (List.mem_of_getLast? hk)
    exact ⟨endsLine_of_trimLine hmem htrim, isEmpty_last_textLines hhead hk⟩
  rw [asWritten, if_neg hstyle] at hl
  split at hl
  · cases hl
  · rename_i first rest heq
    rw [heq] at hkept
    split_ifs at hl with hstars
    · rcases List.eq_nil_or_concat' rest with rfl | ⟨front, k, rfl⟩
      · exact hkept l hl
      · rw [List.map_append, List.map_singleton, ← List.cons_append, List.getLast?_concat] at hl
        rw [← List.cons_append, List.getLast?_concat] at hkept
        have hk := (hkept k rfl).2
        have hmem : k ∈ textLines c.text := by simp [heq]
        have hne := trim_ne_nil_of_isStarred (List.all_eq_true.mp hstars k (by simp))
        have hkne : k.isEmpty = false := by
          rw [List.isEmpty_eq_false_iff]
          rintro rfl
          exact hne rfl
        obtain rfl : 32 :: k.trim = l := Option.some.inj hl
        refine ⟨?_, by rw [← hk, hkne]; rfl⟩
        rw [← List.singleton_append, Bytes.endsLine_append _ hne]
        exact endsLine_of_trimLine (fun hin => (mem_textLines hmem).1
          ((Bytes.trim_isInfix k).subset hin)) (trimLine_of_trim (Bytes.trim_trim k))
    · exact hkept l hl

/-- The last line of a comment that is laid out from its paragraphs closes it. -/
theorem last_formed {ps : List Paragraph} (hne : ps ≠ [])
    (hl : l ∈ (c.formed column limit ps).lines.getLast?) : ∃ front, l = front ++ ascii " */" := by
  cases hone : c.oneLine? c.opening column limit ps with
  | some line =>
      obtain ⟨p, -, hline⟩ := oneLine?_eq_some hone
      rw [formed_some hne hone] at hl
      obtain rfl := Option.some.inj hl
      exact ⟨_, hline⟩
  | none =>
      rw [formed_none hne hone, List.getLast?_append] at hl
      obtain rfl := Option.some.inj hl
      exact ⟨[], rfl⟩

/-- A block comment or a doc comment ends in a line without anything exactly if its text does
without what is trimmed, and in no other line break. -/
theorem last_render (hstyle : c.style ≠ .line)
    (hhead : ∃ b rest, c.text = b :: rest ∧ isTrailing b = false)
    (hl : l ∈ (c.render column limit).lines.getLast?) :
    l.endsLine = false ∧ l.isEmpty = (trimLine c.text).endsLine := by
  by_cases hreflowed : c.IsReflowed
  · obtain ⟨-, hline | ⟨-, hhand, -⟩⟩ := id hreflowed
    · exact absurd hline hstyle
    rcases hreflowed.render_eq column limit with ⟨hline, -⟩ | ⟨-, hne, hrender⟩
    · exact absurd hline hstyle
    · rw [hrender] at hl
      obtain ⟨front, rfl⟩ := last_formed hne hl
      have hclosed : ascii "*/" <:+ c.text := by
        simp only [isByHand, Bool.or_eq_false_iff, Bool.not_eq_false', List.isSuffixOf_iff_suffix]
          at hhand
        exact hhand.1.1.1
      obtain ⟨inner, hinner⟩ := hclosed
      rw [← hinner, trimLine_append inner (by decide) (by decide),
        Bytes.endsLine_append inner (by decide), Bytes.endsLine_append front (by decide)]
      refine ⟨by decide, ?_⟩
      rw [List.isEmpty_eq_false_iff.mpr (List.append_ne_nil_of_right_ne_nil front (by decide))]
      decide
  · rw [render_of_not_isReflowed hreflowed] at hl
    exact last_asWritten hstyle hhead hl

end Comment

/-- Whether a token ends in a line break. What is trimmed at the end of a comment does not count. -/
def Token.endsLine (t : Token) : Bool :=
  if t.kind = .comment then (Comment.trimLine t.text).endsLine else t.text.endsLine

/-- Whether the last token or comment of a stream ends in a line break. -/
def TokenStream.lastEndsLine (s : TokenStream) : Bool :=
  s.significant.getLast?.any fun id => (s.tokenAt id).endsLine

/-- A comment that something follows ends in no line break. -/
theorem IsComment.endsLine {text rest : Bytes} (h : IsComment text rest) (hrest : rest ≠ []) :
    text ≠ [] ∧ text.endsLine = false ∧ (Comment.trimLine text).endsLine = false := by
  by_cases hline : CommentStyle.ofText text = .line
  · have hcomment := (h.isLineComment hline).1
    exact ⟨hcomment.ne_nil, hcomment.isUnbroken.endsLine,
      (Comment.trimLine_isLineComment hcomment).isUnbroken.endsLine⟩
  · cases h with
    | line hbody _ => exact absurd (CommentStyle.ofText_line _) hline
    | @closed body rest hbody =>
        obtain ⟨inner, hinner, -⟩ : body.Closes true := lengthThrough?_eq_length_iff.mp hbody
        have htext : 47 :: 42 :: body = (47 :: 42 :: inner) ++ commentEnd := by
          rw [hinner]
          rfl
        have hend : commentEnd.endsLine = false := by decide
        rw [htext, Comment.trimLine_append _ (by decide) (by decide),
          Bytes.endsLine_append _ (by decide)]
        exact ⟨List.cons_ne_nil _ _, hend, hend⟩
    | unclosed _ => exact absurd rfl hrest

theorem Style.separator_endsLine {style : Style} (h : style.separator ∈ Style.separators) :
    style.separator ≠ [] ∧ style.separator.endsLine = true := by
  have hall : ∀ sep ∈ Style.separators, sep ≠ [] ∧ sep.endsLine = true := by decide
  exact hall _ h

theorem Writer.endsLine_commentLine {x : Context} (hne : separator x ≠ [])
    (hends : (separator x).endsLine = true) (hanging l : Bytes) :
    commentLine x hanging l ≠ [] ∧
      (commentLine x hanging l).endsLine = (l.isEmpty || l.endsLine) := by
  refine ⟨List.append_ne_nil_of_left_ne_nil hne _, ?_⟩
  cases l with
  | nil => rw [commentLine, List.isEmpty_nil, if_pos rfl, List.append_nil, hends, Bool.true_or]
  | cons b l =>
      rw [commentLine, List.isEmpty_cons, if_neg Bool.false_ne_true, ← List.append_assoc,
        Bytes.endsLine_append _ (List.cons_ne_nil b l), Bool.false_or]

/-- A comment is written with a line break at its end if its last line is empty or ends in one. -/
theorem Comment.endsLine_textAt {style : Style} (hsep : style.separator ∈ Style.separators)
    {c : Comment} {p : Position} {first l : Bytes} {rest : List Bytes}
    (hlines : (c.render p.column style.commentWidth).lines = first :: rest) (hne : first ≠ [])
    (hl : l ∈ (first :: rest).getLast?) :
    c.textAt style p ≠ [] ∧ (c.textAt style p).endsLine = (l.isEmpty || l.endsLine) := by
  obtain ⟨hsepNe, hsepEnds⟩ := Style.separator_endsLine hsep
  have hseparator : Writer.separator ⟨style, [], .empty, #[]⟩ = style.separator :=
    Writer.separator_eq hsep
  rw [textAt, Writer.commentText_cons _ _ rfl hlines]
  refine ⟨List.append_ne_nil_of_left_ne_nil hne _, ?_⟩
  rcases List.eq_nil_or_concat' rest with rfl | ⟨front, k, rfl⟩
  · obtain rfl : first = l := Option.some.inj hl
    rw [List.flatMap_nil, List.append_nil, List.isEmpty_eq_false_iff.mpr hne, Bool.false_or]
  · rw [← List.cons_append, List.getLast?_concat] at hl
    obtain rfl : k = l := Option.some.inj hl
    rw [← hseparator] at hsepNe hsepEnds
    obtain ⟨hlineNe, hline⟩ := Writer.endsLine_commentLine hsepNe hsepEnds
      (if (c.render p.column style.commentWidth).aligned then
        Writer.indentText ⟨style, [], .empty, #[]⟩ (Placing.alignedAt ⟨style, ⟨[], []⟩, 0⟩ p)
      else []) k
    rw [List.flatMap_append, List.flatMap_singleton, ← List.append_assoc,
      Bytes.endsLine_append _ hlineNe, hline]

/-- No token or comment is behind the last one. -/
theorem TokenStream.stop_le_last {s : TokenStream} {length id : Nat} {t : Token}
    (hin : Token.InOrder 0 length s.tokens.toList) (hid : id ∈ s.significant.getLast?)
    (ht : t ∈ s.tokens.toList) (hkind : t.kind ≠ .space) :
    s.tokenAt id = t ∨ t.stop ≤ (s.tokenAt id).start := by
  obtain ⟨i, hget⟩ := List.mem_iff_getElem?.mp ht
  rw [Array.getElem?_toList] at hget
  obtain ⟨front, hfront⟩ := List.getLast?_eq_some_iff.mp hid
  have hmem : i ∈ s.significant := mem_significant_iff.mpr ⟨t, hget, hkind⟩
  have hpairwise := significant_pairwise hin
  rw [hfront] at hmem hpairwise
  rw [← tokenAt_of_getElem? hget]
  rcases List.mem_append.mp hmem with hbefore | hlast
  · exact Or.inr ((List.pairwise_append.mp hpairwise).2.2 i hbefore id (List.mem_singleton_self id))
  · rw [List.mem_singleton.mp hlast]
    exact Or.inl rfl

section File

variable {file : SourceFile} {style : Style} {regions : Regions} {ks : List Stroke}
  {v : VerbatimSpan} {id : Nat}

/-- A comment is written with a line break at its end if its text has one there without what is
trimmed. -/
theorem Piece.endsLine_comment (hsep : style.separator ∈ Style.separators) {ids : List Nat}
    {position : Position} (hids : ∀ id ∈ ids, id ∈ (TokenStream.ofFile file).significant)
    (hvalid : (Piece.comment ids position).Valid (TokenStream.ofFile file) regions)
    (hid : id ∈ ids.getLast?) :
    (Piece.comment ids position).text (TokenStream.ofFile file) style ≠ [] ∧
      ((Piece.comment ids position).text (TokenStream.ofFile file) style).endsLine =
        ((TokenStream.ofFile file).tokenAt id).endsLine := by
  have hcomment := fun id (hid : id ∈ ids) =>
    Token.isComment (TokenStream.tokenAt_mem (hids id hid)) (hvalid.2.1 id hid).1
  have hmem := List.mem_of_getLast? hid
  obtain ⟨first, rest, hlines, hne⟩ :=
    Piece.exists_first_line style rfl hvalid hids
  obtain ⟨l, hl⟩ := Option.isSome_iff_exists.mp
    (List.getLast?_isSome.mpr (List.cons_ne_nil first rest))
  obtain ⟨hwritten, hends⟩ := Comment.endsLine_textAt hsep hlines hne hl
  refine ⟨hwritten, hends.trans ?_⟩
  rw [Token.endsLine, if_pos (hvalid.2.1 id hmem).1]
  rw [← hlines] at hl
  by_cases hall :
      ∀ id ∈ ids, CommentStyle.ofText ((TokenStream.ofFile file).tokenAt id).text = .line
  · have hraw : ∀ text ∈ ids.map (Build.textOf ((TokenStream.ofFile file).buildContext style)),
        text.IsLineComment := by
      intro text htext
      obtain ⟨id, hid, rfl⟩ := List.mem_map.mp htext
      exact ((hcomment id hid).isLineComment (hall id hid)).1
    have hline := (Comment.render_isLineComment _ hraw _ _).2 l (List.mem_of_getLast? hl)
    have htext := ((hcomment id hmem).isLineComment (hall id hmem)).1
    rw [List.isEmpty_eq_false_iff.mpr hline.ne_nil, hline.isUnbroken.endsLine,
      (Comment.trimLine_isLineComment htext).isUnbroken.endsLine]
    rfl
  · obtain ⟨id', rfl⟩ := hvalid.2.2.resolve_right hall
    obtain rfl : id' = id := Option.some.inj hid
    rw [List.forall_mem_singleton] at hall
    obtain ⟨closed, body, htext, -⟩ := (hcomment id' hmem).closes hall
    obtain ⟨hbreak, hempty⟩ := Comment.last_render
      (c := Build.commentOf ((TokenStream.ofFile file).buildContext style) [id']) hall
      ⟨47, _, htext, by decide⟩ hl
    rw [hbreak, hempty, Bool.or_false]
    rfl

variable (hmax : file.text.length < 2 ^ 63)
include hmax

/-- A region that does not reach to the end of the text ends in the comment that ends it, and in no
line break. -/
theorem VerbatimSpan.endsLine (hv : v ∈ (Regions.ofStream (TokenStream.ofFile file) style).spans)
    (hstop : v.stop ≠ file.text.length) (hid : id ∈ (TokenStream.ofFile file).significant.getLast?)
    (hmem : id ∈ (Piece.region v).ids (TokenStream.ofFile file)) :
    file.text.slice v.start v.stop ≠ [] ∧ (file.text.slice v.start v.stop).endsLine = false ∧
      ((TokenStream.ofFile file).tokenAt id).endsLine = false := by
  have hin := TokenStream.ofFile_inOrder file
  have hfit := @Regions.ofStream_fit file style hmax
  obtain ⟨hsig, hlo, hhi⟩ := VerbatimSpan.mem_ids_region.mp hmem
  have hidb := hin.bounds _ (TokenStream.tokenAt_mem hsig)
  have hspans := hv
  rw [Regions.ofStream_spans hmax] at hspans
  obtain ⟨t, ht, hend, hkind, -⟩ := (Regions.spansOf_ends hspans).2.resolve_left hstop
  have htb := hin.bounds t ht
  have hrest : file.text.drop t.stop ≠ [] := by
    rw [ne_eq, List.drop_eq_nil_iff]
    omega
  obtain ⟨hne, htext, htrim⟩ := (Token.isComment ht hkind).endsLine hrest
  obtain rfl : (TokenStream.ofFile file).tokenAt id = t := by
    have hspace : t.kind ≠ .space := by
      rw [hkind]
      decide
    exact (TokenStream.stop_le_last hin hid ht hspace).resolve_right (by omega)
  have hstart : v.start ≤ ((TokenStream.ofFile file).tokenAt id).start := hlo
  obtain ⟨front, hslice⟩ := Token.exists_slice ht hstart
  rw [← hend, hslice, Bytes.endsLine_append front hne]
  refine ⟨List.append_ne_nil_of_right_ne_nil front hne, htext, ?_⟩
  rw [Token.endsLine, if_pos hkind, htrim]

/-- The last stroke ends as the last token or comment does, and in no line break that was copied. -/
theorem Stroke.endsLine (hsep : style.separator ∈ Style.separators) {k : Stroke}
    (hvalid : k.piece.Valid (TokenStream.ofFile file)
      (Regions.ofStream (TokenStream.ofFile file) style))
    (hopen : ∀ v ∈ (Regions.ofStream (TokenStream.ofFile file) style).spans,
      v.stop ≠ file.text.length)
    (hids : ∀ id ∈ k.piece.ids (TokenStream.ofFile file),
      id ∈ (TokenStream.ofFile file).significant)
    (hlast : id ∈ (TokenStream.ofFile file).significant.getLast?)
    (hid : id ∈ (k.piece.ids (TokenStream.ofFile file)).getLast?) :
    k.text (TokenStream.ofFile file) style ≠ [] ∧
      (k.text (TokenStream.ofFile file) style).endsLine =
        ((TokenStream.ofFile file).tokenAt id).endsLine ∧
      Stroke.copiedBreak (TokenStream.ofFile file) [k] = false := by
  have hmem := List.mem_of_getLast? hid
  obtain ⟨gap, piece⟩ := k
  cases piece with
  | token i =>
      obtain rfl : i = id := Option.some.inj hid
      have htoken := TokenStream.tokenAt_mem (hids i hmem)
      have hkind : ((TokenStream.ofFile file).tokenAt i).kind ≠ .comment := fun heq => by
        have hskippable := hvalid.1
        rw [heq] at hskippable
        cases hskippable
      have hne := Token.text_ne_nil htoken
      refine ⟨List.append_ne_nil_of_right_ne_nil gap hne, ?_, rfl⟩
      rw [text, Piece.text, Bytes.endsLine_append gap hne, Token.endsLine, if_neg hkind]
  | comment ids position =>
      obtain ⟨hne, hends⟩ :=
        Piece.endsLine_comment hsep hids hvalid hid
      exact ⟨List.append_ne_nil_of_right_ne_nil gap hne,
        (Bytes.endsLine_append gap hne).trans hends, rfl⟩
  | region v =>
      obtain ⟨hne, hslice, hends⟩ :=
        VerbatimSpan.endsLine hmax hvalid.1 (hopen v hvalid.1) hlast hmem
      exact ⟨List.append_ne_nil_of_right_ne_nil gap hne,
        (Bytes.endsLine_append gap hne).trans (hslice.trans hends.symm), hslice⟩

/-- A text that is written ends as its last token or comment does, and in a separator if the input
ends in a line break. -/
theorem Stroke.Cover.output_text (hsep : style.separator ∈ Style.separators)
    (hcover : Stroke.Cover (TokenStream.ofFile file) style
      (Regions.ofStream (TokenStream.ofFile file) style) style.separator ks)
    (hparted : ks.IsChain (Stroke.Parted (TokenStream.ofFile file) style style.separator))
    (hne : (TokenStream.ofFile file).significant ≠ [])
    (hopen : ∀ v ∈ (Regions.ofStream (TokenStream.ofFile file) style).spans,
      v.stop ≠ file.text.length) :
    (Stroke.output (TokenStream.ofFile file) style style.separator ks).text =
        Stroke.textAll (TokenStream.ofFile file) style ks ++
          (if file.text.endsLine then style.separator else []) ∧
      (Stroke.textAll (TokenStream.ofFile file) style ks).endsLine =
        (TokenStream.ofFile file).lastEndsLine := by
  rcases List.eq_nil_or_concat' ks with rfl | ⟨front, k, rfl⟩
  · exact absurd hcover.ids.symm hne
  have hmem : k ∈ front ++ [k] := by simp
  have hvalid := (hcover.valid k hmem).piece
  obtain ⟨id, hid⟩ := Option.isSome_iff_exists.mp (List.getLast?_isSome.mpr hvalid.ids_ne_nil)
  have hlast : (TokenStream.ofFile file).significant.getLast? = some id := by
    rw [← hcover.ids, List.flatMap_append, List.flatMap_singleton, List.getLast?_append, hid]
    rfl
  obtain ⟨hkne, hends, hcopied⟩ := Stroke.endsLine hmax hsep hvalid hopen
    (fun id hid => hcover.mem_significant hmem hid) hlast hid
  have hcopied' : Stroke.copiedBreak (TokenStream.ofFile file) (front ++ [k]) = false := by
    rwa [Stroke.copiedBreak, List.getLast?_concat]
  constructor
  · have hfull : (front ++ [k]).isEmpty = false := by simp
    rw [Stroke.output, Stroke.ending, hfull, hcopied']
    rfl
  · rw [Stroke.textAll_append, Stroke.textAll_singleton, Bytes.endsLine_append _ hkne, hends,
      TokenStream.lastEndsLine, hlast]
    rfl

end File

namespace Formatter

/-- How a result ends: either a step meets a fault and the text is left as it is, or the result ends
as the text, in one line separator or in no line break, exactly if the last token or comment of the
text ends in no line break itself. -/
theorem format_endsAs_iff (f : Formatter) (text : Bytes) (hmax : text.length < 2 ^ 63)
    (hne : (TokenStream.ofFile ⟨[], text⟩).significant ≠ [])
    (hopen : ∀ v ∈ (Regions.ofStream (TokenStream.ofFile ⟨[], text⟩) f.effective.1).spans,
      v.stop ≠ text.length) :
    (∃ fault, (Formatted.ofFile ⟨[], text⟩ f.kind f.effective.1).1 = .error fault ∧
      (f.format text).1 = text) ∨
    (Bytes.EndsAs f.effective.1.separator text (f.format text).1 ↔
      (TokenStream.ofFile ⟨[], text⟩).lastEndsLine = false) := by
  refine (format_cases f text).imp_right ?_
  rintro ⟨formatted, hrun, htext⟩
  have hsep : f.effective.1.separator ∈ Style.separators := Style.normalize_separator _
  obtain ⟨ks, hcover, hparted, hout⟩ := Formatted.ofFile_parted hmax hsep hrun
  obtain ⟨hwritten, hlast⟩ := hcover.output_text hmax hsep hparted hne hopen
  rw [htext, hout, hwritten, Bytes.endsAs_append_iff, hlast]

/-- A declaration on a line of its own. -/
theorem format_endsAs_iff_declaration :
    (ascii "int x;\n").length < 2 ^ 63 ∧
    (TokenStream.ofFile ⟨[], ascii "int x;\n"⟩).significant ≠ [] ∧
    (∀ v ∈ (Regions.ofStream (TokenStream.ofFile ⟨[], ascii "int x;\n"⟩) (effective {}).1).spans,
      v.stop ≠ (ascii "int x;\n").length) ∧
    (TokenStream.ofFile ⟨[], ascii "int x;\n"⟩).lastEndsLine = false ∧
    Bytes.EndsAs (effective {}).1.separator (ascii "int x;\n")
      (format {} (ascii "int x;\n")).1 := by
  have hlength : (ascii "int x;\n").length < 2 ^ 63 := by decide
  have hne : (TokenStream.ofFile ⟨[], ascii "int x;\n"⟩).significant ≠ [] := by decide +kernel
  have hopen : ∀ v ∈ (Regions.ofStream (TokenStream.ofFile ⟨[], ascii "int x;\n"⟩)
      (effective {}).1).spans, v.stop ≠ (ascii "int x;\n").length := by decide +kernel
  have hlast : (TokenStream.ofFile ⟨[], ascii "int x;\n"⟩).lastEndsLine = false := by
    decide +kernel
  have hok : (Formatted.ofFile ⟨[], ascii "int x;\n"⟩ .unit
      (effective {}).1).1.toOption.isSome = true := by decide +kernel
  refine ⟨hlength, hne, hopen, hlast, ?_⟩
  rcases format_endsAs_iff {} _ hlength hne hopen with ⟨fault, herror, -⟩ | hiff
  · change (Formatted.ofFile ⟨[], ascii "int x;\n"⟩ .unit (effective {}).1).1 = _ at herror
    rw [herror] at hok
    cases hok
  · exact hiff.mpr hlast

/-- Behind a comment that is not closed and ends in a line break the result has a line break too
many. -/
theorem not_endsAs_unclosed :
    (Formatted.ofFile ⟨[], ascii "/* abc\n"⟩ .unit (effective {}).1).1.toOption.isSome = true ∧
    (TokenStream.ofFile ⟨[], ascii "/* abc\n"⟩).significant ≠ [] ∧
    (Regions.ofStream (TokenStream.ofFile ⟨[], ascii "/* abc\n"⟩) (effective {}).1).spans = [] ∧
    (format {} (ascii "/* abc\n")).1 = ascii "/* abc\n\n" ∧
    ¬Bytes.EndsAs (effective {}).1.separator (ascii "/* abc\n")
      (format {} (ascii "/* abc\n")).1 := by
  have hformat : (format {} (ascii "/* abc\n")).1 = ascii "/* abc\n\n" := by decide +kernel
  have hseparator : (effective {}).1.separator = ascii "\n" := by decide +kernel
  have hends : (ascii "/* abc\n").endsLine = true := by decide
  have hsplit : ascii "/* abc\n\n" = ascii "/* abc\n" ++
      if (ascii "/* abc\n").endsLine then ascii "\n" else [] := by decide
  refine ⟨by decide +kernel, by decide +kernel, by decide +kernel, hformat, ?_⟩
  rw [hformat, hseparator, hsplit, Bytes.endsAs_append_iff, hends]
  decide

end Formatter

end CodeLayout
