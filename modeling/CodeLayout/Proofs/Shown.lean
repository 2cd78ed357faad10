import CodeLayout.Proofs.Alike.Stream
import CodeLayout.Proofs.Comment.Written
import CodeLayout.Proofs.Token.Shown

/-!
# Formatted texts show the same tokens

Each stroke of a text that is written in strokes stands in front of the text of the others: a
comment between delimiters is closed, or nothing is behind it, line comments are at the ends of
their lines, and a region is shown as its own tokens. So what is written for a text shows the tokens
with structure of this text, and is lexed into them if no two of them are written too close
together.
-/

namespace CodeLayout

namespace TokenStream

variable {s : TokenStream}

/-- The kinds and texts of the tokens with structure at some indices. -/
def signsAt (s : TokenStream) (ids : List Nat) : List (TokenKind × Bytes) :=
  ((ids.map s.tokenAt).filter fun t => !t.kind.isSkippable).map Token.sign

theorem signsAt_append (ids ids' : List Nat) :
    s.signsAt (ids ++ ids') = s.signsAt ids ++ s.signsAt ids' := by
  simp [signsAt]

theorem map_tokenAt_significant (s : TokenStream) :
    s.significant.map s.tokenAt = s.tokens.toList.filter fun t => t.kind != .space := by
  have hget : ∀ e ∈ s.tokens.toList.zipIdx, s.tokenAt e.2 = e.1 := fun e he => by
    have hi := List.mem_zipIdx_iff_getElem?.mp he
    exact tokenAt_of_getElem? (by simpa using hi)
  have hfst : s.tokens.toList.zipIdx.map Prod.fst = s.tokens.toList := List.zipIdx_map_fst ..
  rw [significant, List.map_map, ← hfst, List.filter_map, hfst]
  exact List.map_congr_left fun e he => hget e (List.mem_filter.mp he).1

theorem signsAt_significant (s : TokenStream) :
    s.signsAt s.significant = s.visible.map Token.sign := by
  rw [signsAt, map_tokenAt_significant, List.filter_filter, visible]
  congr 2
  ext t
  cases t.kind <;> rfl

end TokenStream

section File

variable {file : SourceFile} {style : Style} {ks before after : List Stroke} {k : Stroke}
  {rest : Bytes} {signs : List (TokenKind × Bytes)}

/-- Tokens with structure of a region, by the indices of all that is in it. -/
theorem TokenStream.signsAt_region {v : VerbatimSpan} {s : TokenStream}
    {front mid back : List Token} {last : Nat} (hsplit : s.tokens.toList = front ++ (mid ++ back))
    (hin : Token.InOrder 0 last s.tokens.toList) (hfront : Token.Tile 0 v.start front)
    (hmid : Token.Tile v.start v.stop mid) (hback : Token.Tile v.stop last back) :
    s.signsAt (Piece.ids s (.region v)) =
      (mid.filter fun t => !t.kind.isSkippable).map Token.sign := by
  have hids : (Piece.ids s (.region v)).map s.tokenAt =
      (s.tokens.toList.filter fun t => t.kind != .space).filter fun t =>
        v.start ≤ t.start && t.stop ≤ v.stop := by
    rw [← TokenStream.map_tokenAt_significant, List.filter_map]
    rfl
  have hne : ∀ t ∈ s.tokens.toList, t.start < t.stop := fun t ht => (hin.bounds t ht).2.1
  rw [signsAt, hids, List.filter_filter, List.filter_filter]
  rw [hsplit] at hne ⊢
  have hnone : ∀ ts : List Token,
      (∀ t ∈ ts, t.start < t.stop ∧ (t.stop ≤ v.start ∨ v.stop ≤ t.start)) →
      (ts.filter fun t => !t.kind.isSkippable && (v.start ≤ t.start && t.stop ≤ v.stop) &&
        t.kind != .space) = [] := by
    intro ts hts
    rw [List.filter_eq_nil_iff]
    intro t ht
    have hcases := hts t ht
    simp only [Bool.and_eq_true, decide_eq_true_eq]
    omega
  have hall : (mid.filter fun t => !t.kind.isSkippable && (v.start ≤ t.start && t.stop ≤ v.stop) &&
      t.kind != .space) = mid.filter fun t => !t.kind.isSkippable := by
    refine List.filter_congr fun t ht => ?_
    have hb := hmid.bounds t ht
    cases t.kind <;> simp [TokenKind.isSkippable, hb]
  rw [List.filter_append, List.filter_append, hall, hnone front, hnone back, List.append_nil,
    List.nil_append]
  · exact fun t ht => ⟨hne t (by simp [ht]), Or.inr (hback.bounds t ht).1⟩
  · exact fun t ht => ⟨hne t (by simp [ht]), Or.inl (hfront.bounds t ht).2⟩

/-- A region is shown as its tokens, if nothing is behind it on the line of a line comment and
nothing at all behind a comment that is not closed. -/
theorem Piece.shows_region {v : VerbatimSpan} (hmax : file.text.length < 2 ^ 63)
    (hv : v ∈ (Regions.ofStream (TokenStream.ofFile file) style).spans)
    (hlast : v.EndsInLineComment (TokenStream.ofFile file) → rest.StartsLine)
    (hend : v.stop = file.text.length → rest = [])
    (h : Bytes.Shows rest signs) :
    Bytes.Shows (Piece.text (TokenStream.ofFile file) style (.region v) ++ rest)
      ((TokenStream.ofFile file).signsAt (Piece.ids (TokenStream.ofFile file) (.region v)) ++
        signs) := by
  have hin := TokenStream.ofFile_inOrder file
  have hfit := @Regions.ofStream_fit file style hmax
  have hreads := Pattern.reads_tokensFrom file.text.length 0 file.text (Nat.le_refl _)
  have htile := hreads.tile
  have hflat := hreads.flatMap_text
  obtain ⟨-, hne, hle⟩ := hfit.inOrder.bounds v hv
  have hapart : ∀ t ∈ Token.ofText file.text, t.stop ≤ v.start ∨
      (v.start ≤ t.start ∧ t.stop ≤ v.stop) ∨ v.stop ≤ t.start :=
    fun t ht => hfit.apart t ht v hv
  rw [Nat.zero_add] at htile
  obtain ⟨front, more, hmore, hfront, hrest⟩ := htile.exists_append (Nat.zero_le v.start)
    (by omega) fun t ht => (hapart t ht).imp_right fun h => by omega
  obtain ⟨mid, back, rfl, hmid, hback⟩ := hrest.exists_append (Nat.le_of_lt hne) hle
    fun t ht => by
      have ht := hapart t (by rw [Token.ofText, hmore]; exact List.mem_append_right _ ht)
      omega
  have hslice : file.text.slice v.start v.stop = mid.flatMap Token.text := by
    have hlength := hfront.length_flatMap
    have hlength' := hmid.length_flatMap
    rw [← hflat, hmore, List.flatMap_append, List.flatMap_append, ← List.append_assoc,
      ← hlength', ← hlength, Nat.zero_add]
    exact Bytes.slice_between _ _ _
  rw [TokenStream.signsAt_region hmore hin hfront hmid hback]
  change Bytes.Shows (file.text.slice v.start v.stop ++ rest) _
  rw [hslice]
  have hmem : ∀ t ∈ mid, t ∈ Token.ofText file.text := by
    intro t ht
    rw [Token.ofText, hmore]
    simp [ht]
  refine Bytes.Shows.segment hmem hmid (fun t ht hkind => ?_) h
  have hin' := hmem t (List.mem_of_getLast? ht)
  have hstop := hmid.stop_getLast? t ht
  have hstart := (hmid.bounds t (List.mem_of_getLast? ht)).1
  have hcomment := Token.isComment hin' hkind
  refine hcomment.of_cases (fun hline => hlast ⟨t, hin', hkind, hline, hstart, hstop.le, ?_⟩)
    fun hnil => hend ?_
  · exact fun u _ _ hu => hstop ▸ hu
  · rw [hstop, List.drop_eq_nil_iff] at hnil
    omega

theorem Style.isSpace_separator {separator : Bytes} (h : separator ∈ Style.separators) :
    ∀ b ∈ separator, Lexer.isSpace b = true := by
  have hall : ∀ sep ∈ Style.separators, sep.all Lexer.isSpace = true := by decide
  exact List.all_eq_true.mp (hall _ h)

/-- Line comments on lines of their own are shown in front of what starts a line. -/
theorem Bytes.Shows.lines {hanging : Bytes} {lines : List Bytes}
    (hsep : style.separator ∈ Style.separators) (hhang : ∀ b ∈ hanging, b = 32 ∨ b = 9)
    (hlines : ∀ l ∈ lines, l.IsLineComment) (hrest : rest.StartsLine) (h : Bytes.Shows rest signs) :
    Bytes.Shows (Bytes.join (style.separator ++ hanging) lines ++ rest) signs := by
  have hcomment : ∀ {l behind : Bytes}, l.IsLineComment → behind.StartsLine →
      IsComment l behind := by
    rintro _ _ ⟨body, rfl, hbody⟩ hbehind
    exact .line hbody hbehind
  have hgap : ∀ b ∈ style.separator ++ hanging, Lexer.isSpace b = true := by
    refine List.forall_mem_append.mpr ⟨Style.isSpace_separator hsep, fun b hb => ?_⟩
    rcases hhang b hb with rfl | rfl <;> rfl
  fun_induction Bytes.join (style.separator ++ hanging) lines with
  | case1 => exact h
  | case2 l => exact h.comment (hcomment (hlines l List.mem_cons_self) hrest)
  | case3 l m ls ih =>
      obtain ⟨hl, hlines⟩ := List.forall_mem_cons.mp hlines
      have hnext := (ih hlines).blank_append hgap
      rw [List.append_assoc, List.append_assoc]
      refine hnext.comment (hcomment hl ?_)
      rw [List.append_assoc]
      exact Style.startsLine_separator hsep _

/-- A comment between delimiters is shown in front of another text. If it is not closed, only the
end of its line may follow it. -/
theorem Piece.shows_block {id : Nat} {position : Position}
    (hsep : style.separator ∈ Style.separators)
    (hid : id ∈ (TokenStream.ofFile file).significant)
    (hkind : ((TokenStream.ofFile file).tokenAt id).kind = .comment)
    (hline : CommentStyle.ofText ((TokenStream.ofFile file).tokenAt id).text ≠ .line)
    (hend : file.text.drop ((TokenStream.ofFile file).tokenAt id).stop = [] →
      (rest = [] ∨ rest = style.separator) ∧ signs = [])
    (h : Bytes.Shows rest signs) :
    Bytes.Shows (Piece.text (TokenStream.ofFile file) style (.comment [id] position) ++ rest)
      signs := by
  have hcomment := Token.isComment (TokenStream.tokenAt_mem hid) hkind
  obtain ⟨out, hwritten⟩ :
      ∃ out, Piece.text (TokenStream.ofFile file) style (.comment [id] position) = out := ⟨_, rfl⟩
  obtain ⟨htokens, hstyle, hclosed⟩ := Comment.ofText_written_block
    (x := ⟨style, [], .empty, #[]⟩) hsep _ position.column style.commentWidth
    { hanging := Placing.alignedAt ⟨style, ⟨[], []⟩, 0⟩ position } hcomment hline hwritten
  have hout : IsComment out [] := by
    have hmem : (⟨.comment, 0, out⟩ : Token) ∈ Token.ofText out := by simp [htokens]
    have hread := Token.isComment hmem rfl
    rwa [Token.stop, Nat.zero_add, List.drop_length] at hread
  rw [hwritten]
  cases hout with
  | line => exact absurd (hstyle.symm.trans (CommentStyle.ofText_line _)) hline
  | closed hbody => exact h.comment (.closed hbody)
  | @unclosed body hbody =>
      have hopen : body.Closes false := lengthThrough?_eq_none_iff.mp hbody
      rw [hopen.isClosed_eq] at hclosed
      obtain ⟨hrest, rfl⟩ := hend (hcomment.eq_nil hline hclosed.symm)
      rcases hrest with rfl | rfl
      · exact h.comment (.unclosed hbody)
      · -- The end of the line is a part of a comment that is not closed.
        have heol : ∀ b ∈ style.separator.head?, b ≠ 47 := by
          have hall : ∀ sep ∈ Style.separators, sep.head? ≠ some 47 := by decide
          exact fun b hb hslash => hall _ hsep (hslash ▸ hb)
        have hstar : Bytes.IsOpen style.separator := by
          have hall : ∀ sep ∈ Style.separators, 42 ∉ sep := by decide
          exact .of_not_mem (hall _ hsep)
        have hlonger : Bytes.IsOpen (body ++ style.separator) :=
          Bytes.IsOpen.append_of_head hopen hstar fun hslash => heol 47 hslash rfl
        have hnothing : Bytes.Shows [] [] := .blank (List.forall_mem_nil _)
        have hshows := hnothing.comment (.unclosed (lengthThrough?_eq_none_iff.mpr hlonger))
        rwa [List.append_nil] at hshows

theorem Assembled.isSpace {separator out : Bytes} {texts : List Bytes}
    (hsep : ∀ b ∈ separator, Lexer.isSpace b = true) (h : Assembled separator texts out)
    (htexts : texts = []) : ∀ b ∈ out, Lexer.isSpace b = true := by
  induction h with
  | empty => simp
  | piece => simp at htexts
  | space _ ih => exact List.forall_mem_append.mpr ⟨ih htexts, List.forall_mem_singleton.mpr rfl⟩
  | tab _ ih => exact List.forall_mem_append.mpr ⟨ih htexts, List.forall_mem_singleton.mpr rfl⟩
  | lineBreak _ ih => exact List.forall_mem_append.mpr ⟨ih htexts, hsep⟩

namespace Stroke

variable {s : TokenStream} {regions : Regions} {separator : Bytes}

/-- Nothing is written behind what reaches to the end of the text. -/
theorem Cover.eq_nil_of_stop (h : Cover s style regions separator ks)
    (hin : Token.InOrder 0 s.file.text.length s.tokens.toList) (hks : ks = before ++ k :: after)
    {id : Nat} (hid : id ∈ k.piece.ids s) (hstop : s.file.text.length ≤ (s.tokenAt id).stop) :
    after = [] := by
  by_contra hne
  obtain ⟨l, rest, rfl⟩ := List.exists_cons_of_ne_nil hne
  have hl : l ∈ ks := by simp [hks]
  obtain ⟨j, hj⟩ := List.exists_mem_of_ne_nil _ (h.valid l hl).piece.ids_ne_nil
  have hle := h.stop_le_start hin hks hid List.mem_cons_self hj
  have hb := hin.bounds _ (TokenStream.tokenAt_mem (h.mem_significant hl hj))
  omega

/-- No line break is put behind a region that reaches to the end of the text. -/
theorem ending_region {v : VerbatimSpan} (hks : ks = before ++ [k]) (hpiece : k.piece = .region v)
    (hlt : v.start < v.stop) (hstop : v.stop = s.file.text.length) :
    ending s separator ks = [] := by
  have hslice : s.file.text.slice v.start v.stop = s.file.text.drop v.start := by
    rw [Bytes.slice, List.take_of_length_le]
    rw [List.length_drop, hstop]
  have hne : s.file.text.drop v.start ≠ [] := by
    rw [ne_eq, List.drop_eq_nil_iff]
    omega
  have hcopied : copiedBreak s ks = s.file.text.endsLine := by
    have hends := Bytes.endsLine_append (s.file.text.take v.start) hne
    rw [List.take_append_drop] at hends
    simp [copiedBreak, hks, hpiece, hslice, hends]
  rw [ending, hcopied]
  cases s.file.text.endsLine <;> simp

end Stroke

/-- A text that is written in strokes shows the tokens with structure that its strokes stand for. -/
theorem Stroke.shows (hmax : file.text.length < 2 ^ 63) (hsep : style.separator ∈ Style.separators)
    (hcover : Stroke.Cover (TokenStream.ofFile file) style
      (Regions.ofStream (TokenStream.ofFile file) style) style.separator ks)
    (hparted : ks.IsChain (Stroke.Parted (TokenStream.ofFile file) style style.separator))
    (hks : ks = before ++ after) :
    Bytes.Shows (Stroke.textAll (TokenStream.ofFile file) style after ++
        Stroke.ending (TokenStream.ofFile file) style.separator ks)
      ((TokenStream.ofFile file).signsAt
        (after.flatMap fun k => k.piece.ids (TokenStream.ofFile file))) := by
  have hin := TokenStream.ofFile_inOrder file
  have hfit := @Regions.ofStream_fit file style hmax
  have hlines := Stroke.breaksLines hmax hcover hparted hsep
  have hspace := Style.isSpace_separator hsep
  induction after generalizing before with
  | nil =>
      refine Bytes.Shows.blank fun b hb => ?_
      simp only [Stroke.textAll, List.flatMap_nil, List.nil_append, Stroke.ending] at hb
      split_ifs at hb
      · exact hspace b hb
      · cases hb
  | cons k after ih =>
      have hks' : ks = (before ++ [k]) ++ after := by simpa using hks
      have hrest := ih hks'
      have hk : k ∈ ks := by simp [hks]
      have hvalid := hcover.valid k hk
      have hsig : ∀ id ∈ k.piece.ids (TokenStream.ofFile file),
          id ∈ (TokenStream.ofFile file).significant := fun id hid => hcover.mem_significant hk hid
      have htext : Stroke.textAll (TokenStream.ofFile file) style (k :: after) =
          k.gap ++ (k.piece.text (TokenStream.ofFile file) style ++
            Stroke.textAll (TokenStream.ofFile file) style after) := by
        simp [Stroke.textAll, Stroke.text]
      rw [htext, List.append_assoc, List.append_assoc, List.flatMap_cons,
        TokenStream.signsAt_append]
      refine Bytes.Shows.blank_append (hvalid.blank.isSpace hspace rfl) ?_
      have hpieceValid := hvalid.piece
      have hends := hlines before k after hks
      cases hpiece : k.piece with
      | token id =>
          rw [hpiece] at hpieceValid hsig
          obtain ⟨hkind, -⟩ := hpieceValid
          have hmem := TokenStream.tokenAt_mem (hsig id (List.mem_singleton_self id))
          have hne : ((TokenStream.ofFile file).tokenAt id).kind ≠ .space := by
            intro hspace
            rw [hspace] at hkind
            cases hkind
          rcases Token.isWhole hmem hne with ⟨hcomment, -⟩ | ⟨-, hfirst⟩
          · rw [hcomment] at hkind
            cases hkind
          · have hsign : (TokenStream.ofFile file).signsAt
                (Piece.ids (TokenStream.ofFile file) (.token id)) =
                  [((TokenStream.ofFile file).tokenAt id).sign] := by
              simp [TokenStream.signsAt, Piece.ids, hkind]
            rw [hsign]
            exact hrest.token hkind hfirst
      | comment ids position =>
          rw [hpiece] at hpieceValid hsig
          obtain ⟨hne, hids, hjoins⟩ := hpieceValid
          have hnone : (TokenStream.ofFile file).signsAt
              (Piece.ids (TokenStream.ofFile file) (.comment ids position)) = [] := by
            simp only [TokenStream.signsAt, Piece.ids, List.map_eq_nil_iff, List.filter_eq_nil_iff,
              List.forall_mem_map]
            intro id hid
            rw [(hids id hid).1]
            decide
          rw [hnone, List.nil_append]
          by_cases hline : k.piece.EndsInLineComment (TokenStream.ofFile file)
          · obtain ⟨-, hstarts, htext⟩ := hends hline
            obtain ⟨lines, hanging, -, hlines, hhang, htext⟩ := htext ids position hpiece
            rw [← hpiece, htext]
            exact Bytes.Shows.lines hsep hhang hlines hstarts hrest
          · rw [hpiece] at hline
            obtain ⟨id, rfl⟩ := hjoins.resolve_right fun hall => by
              obtain ⟨id, hid⟩ := List.exists_mem_of_ne_nil _ hne
              exact hline ⟨id, hid, hall id hid⟩
            have hid := List.mem_singleton_self id
            refine Piece.shows_block hsep (hsig id hid) (hids id hid).1
              (fun hstyle => hline ⟨id, hid, hstyle⟩) (fun hnil => ?_) hrest
            have hmem : id ∈ k.piece.ids (TokenStream.ofFile file) := by
              rw [hpiece]
              exact hid
            obtain rfl := hcover.eq_nil_of_stop hin hks hmem (List.drop_eq_nil_iff.mp hnil)
            refine ⟨?_, rfl⟩
            rw [Stroke.textAll, List.flatMap_nil, List.nil_append, Stroke.ending]
            split_ifs
            · exact Or.inr rfl
            · exact Or.inl rfl
      | region v =>
          rw [hpiece] at hpieceValid
          refine Piece.shows_region hmax hpieceValid.1
            (fun hline => (hends (hpiece ▸ hline)).2.1) (fun hend => ?_) hrest
          obtain rfl := hcover.nothing_behind_region hin hfit hks hpiece hend
          have hb := hfit.inOrder.bounds v hpieceValid.1
          rw [Stroke.textAll, List.flatMap_nil, List.nil_append]
          exact Stroke.ending_region hks hpiece hb.2.1 hend

end File

namespace Formatter

/-- What is written for a text shows the tokens with structure of the text. -/
theorem shows (f : Formatter) (text : Bytes) (hmax : text.length < 2 ^ 63) :
    Bytes.Shows (f.format text).1
      ((TokenStream.ofFile ⟨[], text⟩).visible.map Token.sign) := by
  rcases f.format_cases text with ⟨fault, -, hout⟩ | ⟨formatted, hrun, hout⟩
  · rw [hout]
    exact Bytes.shows_self text
  · have hsep : f.effective.1.separator ∈ Style.separators := Style.normalize_separator _
    obtain ⟨ks, hcover, hparted, heq⟩ := Formatted.ofFile_parted hmax hsep hrun
    have hshows := Stroke.shows hmax hsep hcover hparted (List.nil_append ks).symm
    rw [hcover.ids, TokenStream.signsAt_significant] at hshows
    rw [hout, heq]
    exact hshows

/-- What is written for a text shows the tokens with structure of the text, each in order and of the
same kind and text, with comments and nothing but white space around them: no comment, no region and
no end of a line ever hides one of them or adds one. So the result is lexed into the same tokens
exactly if none of them is written so close to what is behind it that they fuse, unless a slash is
written in front of a slash or a star and so opens a comment. -/
theorem format_shows (f : Formatter) (text : Bytes) (hmax : text.length < 2 ^ 63) :
    ∃ ts, Token.Shown 0 (f.format text).1 ts ∧
      (ts.filter fun t => !t.kind.isSkippable).map Token.sign =
        (TokenStream.ofFile ⟨[], text⟩).visible.map Token.sign ∧
      (((Token.ofText (f.format text).1).filter fun t => t.kind != .space).map Token.sign =
          ts.map Token.sign ↔ ∀ t ∈ ts, ¬t.Fuses (f.format text).1) ∧
      ((∀ t ∈ ts, ¬t.Fuses (f.format text).1) →
        (TokenStream.ofFile ⟨[], (f.format text).1⟩).visible.map Token.sign =
          (TokenStream.ofFile ⟨[], text⟩).visible.map Token.sign) ∧
      ((TokenStream.ofFile ⟨[], (f.format text).1⟩).visible.map Token.sign =
          (TokenStream.ofFile ⟨[], text⟩).visible.map Token.sign →
        (∀ t ∈ ts, ¬t.Fuses (f.format text).1) ∨ ∃ t ∈ ts, t.OpensComment (f.format text).1) := by
  obtain ⟨ts, hshown, hsigns⟩ := f.shows text hmax 0
  have hiff := hshown.structural_eq_iff
  rw [hsigns] at hiff
  refine ⟨ts, hshown, hsigns, hshown.solid_eq_iff, fun hapart => ?_, fun heq => ?_⟩
  · refine (hiff fun t ht hopens => ?_).mpr hapart
    exact hapart t ht (hshown.fuses_of_opensComment ht hopens)
  · refine or_iff_not_imp_right.mpr fun hnone => (hiff fun t ht hopens => ?_).mp heq
    exact hnone ⟨t, ht, hopens⟩

/-- An import with white space inside the name. -/
def spacedImport : Bytes :=
  ascii "import a b;\n"

/-- The four tokens of the import are shown, but one of them fuses. -/
theorem format_shows_import :
    spacedImport.length < 2 ^ 63 ∧
    ∃ ts, Token.Shown 0 (({} : Formatter).format spacedImport).1 ts ∧
      (ts.filter fun t => !t.kind.isSkippable).map Token.sign =
        [(.ident, ascii "import"), (.ident, ascii "a"), (.ident, ascii "b"), (.punct, ascii ";")] ∧
      ∃ t ∈ ts, t.Fuses (({} : Formatter).format spacedImport).1 := by
  have hlength : spacedImport.length < 2 ^ 63 := by decide
  obtain ⟨ts, hshown, hsigns, -, hsame, -⟩ := format_shows {} spacedImport hlength
  refine ⟨hlength, ts, hshown, hsigns.trans (by decide +kernel), ?_⟩
  by_contra hnone
  have heq := hsame fun t ht hfuses => hnone ⟨t, ht, hfuses⟩
  revert heq
  decide +kernel

/-- The two words of the import are written as one, so the result has other tokens. -/
theorem format_fuses_words :
    (({} : Formatter).format spacedImport).1 = ascii "import ab;\n" ∧
    (TokenStream.ofFile ⟨[], (({} : Formatter).format spacedImport).1⟩).visible.map Token.sign ≠
      (TokenStream.ofFile ⟨[], spacedImport⟩).visible.map Token.sign := by
  decide +kernel

end Formatter

end CodeLayout
