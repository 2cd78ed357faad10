import CodeLayout.Output
import CodeLayout.Proofs.Chunk.OfNode
import CodeLayout.Proofs.Layout
import CodeLayout.Proofs.Verbatim

/-!
# Texts written in strokes

What a text that was formatted must be made of: the tokens outside of all regions as they are, the
comments outside of all regions as they are laid out, and the regions that hold a token or a comment
as they are. Between these pieces there is nothing but white space.

A writer puts down one stroke after the other: white space, and then a piece. What it has written,
the anchors it has noted and the state it is in are those of its strokes.
-/

namespace CodeLayout

/-- A text that consists of pieces in order, with nothing but spaces, tabs and line separators
before, between and behind them. -/
inductive Assembled (separator : Bytes) : List Bytes → Bytes → Prop
  | empty : Assembled separator [] []
  | piece {texts : List Bytes} {out : Bytes} (text : Bytes) (h : Assembled separator texts out) :
      Assembled separator (texts ++ [text]) (out ++ text)
  | space {texts : List Bytes} {out : Bytes} (h : Assembled separator texts out) :
      Assembled separator texts (out ++ [32])
  | tab {texts : List Bytes} {out : Bytes} (h : Assembled separator texts out) :
      Assembled separator texts (out ++ [9])
  | lineBreak {texts : List Bytes} {out : Bytes} (h : Assembled separator texts out) :
      Assembled separator texts (out ++ separator)

/-- The token at an index of a stream. -/
def TokenStream.tokenAt (s : TokenStream) (id : Nat) : Token :=
  s.tokens.getD id default

/-- Whether a token is outside of all regions. -/
def Token.IsOutside (regions : Regions) (t : Token) : Prop :=
  ∀ v ∈ regions.spans, t.stop ≤ v.start ∨ v.stop ≤ t.start

/-- The text of a comment that is laid out at a position. -/
def Comment.textAt (style : Style) (c : Comment) (p : Position) : Bytes :=
  Writer.commentText ⟨style, [], .empty, #[]⟩ c.text
    { rendered := some (c.render p.column style.commentWidth)
      hanging := Placing.alignedAt ⟨style, ⟨[], []⟩, 0⟩ p }

/-- A piece of a written text, by the indices of its tokens or comments in the stream. -/
inductive Piece where
  | token (id : Nat)
  /-- A comment, or line comments taken together, laid out at a position. -/
  | comment (ids : List Nat) (position : Position)
  | region (span : VerbatimSpan)

namespace Piece

variable (s : TokenStream) (style : Style) (regions : Regions)

/-- The indices of the tokens and comments that a piece stands for. A region stands for all in
it. -/
def ids : Piece → List Nat
  | .token id => [id]
  | .comment ids _ => ids
  | .region v => s.significant.filter fun id =>
      v.start ≤ (s.tokenAt id).start && (s.tokenAt id).stop ≤ v.stop

/-- The text of a piece. -/
def text : Piece → Bytes
  | .token id => (s.tokenAt id).text
  | .comment ids p => (Build.commentOf (s.buildContext style) ids).textAt style p
  | .region v => s.file.text.slice v.start v.stop

/-- Tokens and comments are written as such outside of all regions, and a region is copied if it
holds any of them. No comments but line comments are taken together. -/
def Valid : Piece → Prop
  | .token id => (s.tokenAt id).kind.isSkippable = false ∧ (s.tokenAt id).IsOutside regions
  | .comment ids _ => ids ≠ [] ∧ (∀ id ∈ ids,
      (s.tokenAt id).kind = .comment ∧ (s.tokenAt id).IsOutside regions) ∧
    ((∃ id, ids = [id]) ∨ ∀ id ∈ ids, CommentStyle.ofText (s.tokenAt id).text = .line)
  | .region v => v ∈ regions.spans ∧ ids s (.region v) ≠ []

end Piece

/-- A text consists of pieces that together stand for every token and comment of a stream, each once
and in the order of the stream. -/
def TokenStream.IsWrittenAs (s : TokenStream) (style : Style) (regions : Regions) (out : Bytes) :
    Prop :=
  ∃ ps : List Piece, (∀ p ∈ ps, p.Valid s regions) ∧ ps.flatMap (Piece.ids s) = s.significant ∧
    Assembled style.separator (ps.map (Piece.text s style)) out

namespace Assembled

variable {separator : Bytes} {texts : List Bytes} {out : Bytes}

theorem blanks (h : Assembled separator texts out) {gap : Bytes}
    (hgap : ∀ b ∈ gap, b = 32 ∨ b = 9) : Assembled separator texts (out ++ gap) := by
  induction gap generalizing out with
  | nil => simpa using h
  | cons b gap ih =>
      have hrest : ∀ d ∈ gap, d = 32 ∨ d = 9 := fun d hd => hgap d (List.mem_cons_of_mem b hd)
      have hstep : Assembled separator texts (out ++ [b]) := by
        rcases hgap b List.mem_cons_self with rfl | rfl
        · exact h.space
        · exact h.tab
      simpa using ih hstep hrest

theorem lineBreaks (h : Assembled separator texts out) (n : Nat) :
    Assembled separator texts (out ++ (List.replicate n separator).flatten) := by
  induction n generalizing out with
  | zero => simpa using h
  | succ n ih => simpa [List.replicate_succ] using ih h.lineBreak

end Assembled

theorem Style.indentation_blank (style : Style) (level align : Int) :
    ∀ b ∈ style.indentation level align, b = 32 ∨ b = 9 := by
  intro b hb
  simp only [indentation, textBy, List.mem_append] at hb
  rcases hb with hb | hb
  · split at hb
    · split at hb
      · exact Or.inr (List.eq_of_mem_replicate hb)
      · exact Or.inl (List.eq_of_mem_replicate hb)
      · rcases List.mem_append.mp hb with hb | hb
        · exact Or.inr (List.eq_of_mem_replicate hb)
        · exact Or.inl (List.eq_of_mem_replicate hb)
      · simp at hb
    · simp at hb
  · exact Or.inl (List.eq_of_mem_replicate hb)

namespace TokenStream

variable {s : TokenStream} {length : Nat} {id : Nat}

theorem tokenAt_of_getElem? {t : Token} (h : s.tokens[id]? = some t) : s.tokenAt id = t := by
  simp [tokenAt, h]

theorem mem_significant_iff :
    id ∈ s.significant ↔ ∃ t, s.tokens[id]? = some t ∧ t.kind ≠ .space := by
  simp only [significant, List.mem_map, List.mem_filter, List.mem_zipIdx_iff_getElem?, Prod.exists,
    Array.getElem?_toList, bne_iff_ne]
  constructor
  · rintro ⟨t, i, ⟨hget, hkind⟩, rfl⟩
    exact ⟨t, hget, hkind⟩
  · rintro ⟨t, hget, hkind⟩
    exact ⟨t, id, ⟨hget, hkind⟩, rfl⟩

/-- The tokens and comments of a stream follow each other. -/
theorem significant_pairwise (h : Token.InOrder 0 length s.tokens.toList) :
    s.significant.Pairwise fun i j => (s.tokenAt i).stop ≤ (s.tokenAt j).start := by
  have hzip : s.tokens.toList.zipIdx.Pairwise fun a b => a.1.stop ≤ b.1.start := by
    rw [← List.pairwise_map (f := Prod.fst) (R := fun a b : Token => a.stop ≤ b.start),
      List.zipIdx_map_fst]
    exact h.pairwise
  refine List.pairwise_map.mpr ((hzip.filter _).imp_of_mem fun {a b} ha hb hle => ?_)
  have hget : ∀ e ∈ s.tokens.toList.zipIdx, s.tokenAt e.2 = e.1 := fun e he => by
    have := List.mem_zipIdx_iff_getElem?.mp he
    exact tokenAt_of_getElem? (by simpa using this)
  rw [hget a (List.mem_filter.mp ha).1, hget b (List.mem_filter.mp hb).1]
  exact hle

theorem tokenAt_mem (h : id ∈ s.significant) : s.tokenAt id ∈ s.tokens.toList := by
  obtain ⟨t, hget, -⟩ := mem_significant_iff.mp h
  rw [tokenAt_of_getElem? hget]
  exact List.mem_of_getElem? (by simpa using hget)

end TokenStream

namespace Assembled

variable {separator : Bytes} {texts texts' : List Bytes} {out out' : Bytes}

theorem append (h : Assembled separator texts out) (h' : Assembled separator texts' out') :
    Assembled separator (texts ++ texts') (out ++ out') := by
  induction h' with
  | empty => simpa using h
  | piece text _ ih =>
      rw [← List.append_assoc, ← List.append_assoc]
      exact ih.piece text
  | space _ ih =>
      rw [← List.append_assoc]
      exact ih.space
  | tab _ ih =>
      rw [← List.append_assoc]
      exact ih.tab
  | lineBreak _ ih =>
      rw [← List.append_assoc]
      exact ih.lineBreak

end Assembled

/-- The offsets of the input at the ends of a piece, if they are noted. A comment may be laid out
anew, so its ends are not. -/
def Piece.ends? (s : TokenStream) : Piece → Option (Nat × Nat)
  | .token id => some ((s.tokenAt id).start, (s.tokenAt id).stop)
  | .comment _ _ => none
  | .region v => some (v.start, v.stop)

/-- A piece of a written text and the white space in front of it. -/
structure Stroke where
  gap : Bytes
  piece : Piece

namespace Stroke

section Text

variable (s : TokenStream) (style : Style)

/-- The text of a stroke. -/
def text (k : Stroke) : Bytes :=
  k.gap ++ k.piece.text s style

/-- The text of strokes. -/
def textAll (ks : List Stroke) : Bytes :=
  ks.flatMap (text s style)

/-- The anchors of a stroke that has a number of bytes in front of it. -/
def anchors (size : Nat) (k : Stroke) : List Anchor :=
  match k.piece.ends? s with
  | none => []
  | some (start, stop) => [⟨start, size + k.gap.length⟩, ⟨stop, size + (k.text s style).length⟩]

/-- The anchors of strokes that have a number of bytes in front of them. -/
def anchorsAll (size : Nat) : List Stroke → List Anchor
  | [] => []
  | k :: ks => k.anchors s style size ++ anchorsAll (size + (k.text s style).length) ks

/-- Whether strokes end in a line break that was copied. -/
def copiedBreak (ks : List Stroke) : Bool :=
  ks.getLast?.any fun k =>
    match k.piece with
    | .region v => (s.file.text.slice v.start v.stop).endsLine
    | _ => false

/-- What is written behind all strokes: the last line is ended if the input does so. -/
def ending (separator : Bytes) (ks : List Stroke) : Bytes :=
  if !ks.isEmpty && !copiedBreak s ks && s.file.text.endsLine then separator else []

/-- A text that is written in strokes, with its anchors. -/
def output (separator : Bytes) (ks : List Stroke) : Output where
  text := textAll s style ks ++ ending s separator ks
  anchors := ⟨0, 0⟩ :: anchorsAll s style 0 ks ++
    [⟨s.file.text.length, (textAll s style ks ++ ending s separator ks).length⟩]

end Text

/-- What is known of each stroke of a writer. Nothing is in front of a region, so that it is
directly behind the comment that opens it; this comment is taken together with no other. -/
structure Valid (s : TokenStream) (style : Style) (regions : Regions) (separator : Bytes)
    (k : Stroke) : Prop where
  piece : k.piece.Valid s regions
  blank : Assembled separator [] k.gap
  direct : ∀ v, k.piece = .region v → k.gap = []
  alone : ∀ ids p, k.piece = .comment ids p → (∃ id, ids = [id]) ∨
    ∀ id ∈ ids, Verbatim.hasTag (s.tokenAt id).text style = false

/-- Strokes that stand for every token and comment of a stream, each once and in order. -/
structure Cover (s : TokenStream) (style : Style) (regions : Regions) (separator : Bytes)
    (ks : List Stroke) : Prop where
  valid : ∀ k ∈ ks, k.Valid s style regions separator
  ids : ks.flatMap (fun k => k.piece.ids s) = s.significant

variable {s : TokenStream} {style : Style} {regions : Regions} {separator : Bytes} {k : Stroke}
  {ks ls : List Stroke}

@[simp] theorem textAll_append :
    textAll s style (ks ++ ls) = textAll s style ks ++ textAll s style ls := by
  simp [textAll]

theorem textAll_singleton : textAll s style [k] = k.text s style := by
  simp [textAll]

theorem anchorsAll_append (size : Nat) :
    anchorsAll s style size (ks ++ ls) = anchorsAll s style size ks ++
      anchorsAll s style (size + (textAll s style ks).length) ls := by
  induction ks generalizing size with
  | nil => simp [anchorsAll, textAll]
  | cons k ks ih => simp [anchorsAll, textAll, ih, Nat.add_assoc]

theorem anchorsAll_singleton (size : Nat) :
    anchorsAll s style size [k] = k.anchors s style size := by
  simp [anchorsAll]

/-- The white space of strokes is nothing but white space. -/
theorem assembled (s : TokenStream) (style : Style)
    (h : ∀ k ∈ ks, Assembled separator [] k.gap) :
    Assembled separator (ks.map fun k => k.piece.text s style) (textAll s style ks) := by
  induction ks with
  | nil => exact Assembled.empty
  | cons k ks ih =>
      have hfirst := (h k List.mem_cons_self).piece (k.piece.text s style)
      exact hfirst.append (ih fun l hl => h l (List.mem_cons_of_mem k hl))

/-- Whether a stroke ends in a line comment. -/
def isLineComment (s : TokenStream) (style : Style) (k : Stroke) : Bool :=
  match k.piece with
  | .token _ => false
  | .comment ids _ => (Build.commentOf (s.buildContext style) ids).style = .line
  | .region v => v.lineComment

/-- Whether a line break parts two strokes if the first one ends in a line comment. Nothing is in
front of a region, and none is needed behind a line break that was copied. -/
def Parted (s : TokenStream) (style : Style) (separator : Bytes) (k l : Stroke) : Prop :=
  isLineComment s style k = true →
    copiedBreak s [k] = true ∨ separator <+: l.gap ∨ ∃ v, l.piece = .region v

/-- Whether the white space in front of a piece is so many line breaks and then nothing but spaces
and tabs. -/
def IsPartedBy (separator : Bytes) (n : Nat) (k : Stroke) : Prop :=
  ∃ blank, k.gap = (List.replicate n separator).flatten ++ blank ∧ ∀ b ∈ blank, b = 32 ∨ b = 9

/-- Whether the white space in front of a piece is line breaks and then nothing but spaces and
tabs. -/
def IsParting (separator : Bytes) (k : Stroke) : Prop :=
  ∃ n blank, k.gap = (List.replicate n separator).flatten ++ blank ∧ ∀ b ∈ blank, b = 32 ∨ b = 9

/-- A text that is written in strokes consists of the pieces of these strokes. -/
theorem Cover.isWrittenAs (h : Cover s style regions style.separator ks) :
    s.IsWrittenAs style regions (output s style style.separator ks).text := by
  refine ⟨ks.map Stroke.piece, ?_, ?_, ?_⟩
  · intro p hp
    obtain ⟨k, hk, rfl⟩ := List.mem_map.mp hp
    exact (h.valid k hk).piece
  · rw [List.flatMap_map]
    exact h.ids
  · have hstrokes := assembled s style fun k hk => (h.valid k hk).blank
    rw [List.map_map]
    change Assembled _ _ (textAll s style ks ++ ending s style.separator ks)
    rw [ending]
    split_ifs
    · exact hstrokes.lineBreak
    · rw [List.append_nil]
      exact hstrokes

end Stroke

namespace Writer

/-- The text so far. -/
def written (w : Writer) : Bytes :=
  w.pieces.reverse.flatten

theorem written_put (w : Writer) (text : Bytes) : (w.put text).written = w.written ++ text := by
  simp [written, put]

/-- What a writer has written, noted and is in the state of. -/
structure Wrote (s : TokenStream) (style : Style) (separator : Bytes) (ks : List Stroke)
    (w : Writer) : Prop where
  written : w.written = Stroke.textAll s style ks
  size : w.size = (Stroke.textAll s style ks).length
  anchors : w.anchors.reverse = ⟨0, 0⟩ :: Stroke.anchorsAll s style 0 ks
  started : w.started = !ks.isEmpty
  copiedBreak : w.behindCopiedBreak = Stroke.copiedBreak s ks
  lineComment : w.behindLineComment = ks.getLast?.any (Stroke.isLineComment s style)
  parted : ks.IsChain (Stroke.Parted s style separator)

/-- Behind a line comment that no line break was copied with, the white space before a piece starts
with a line break. -/
theorem separator_isPrefix_gapText {x : Context} {w : Writer} (hstarted : w.started = true)
    (hline : w.behindLineComment = true) (hbreak : w.behindCopiedBreak = false) :
    separator x <+: gapText x w := by
  have hbreaks : w.breaksLine = true := by simp [breaksLine, hline]
  rw [gapText, if_neg (by simp [hstarted]), if_pos hbreaks, if_neg (by simp [hbreak]),
    List.append_assoc]
  exact List.prefix_append _ _

namespace Wrote

variable {s : TokenStream} {style : Style} {sep : Bytes} {x : Context} {ks : List Stroke}
  {w w' : Writer}

/-- White space that is held back is not written. -/
theorem still (h : Wrote s style sep ks w) (gap : Gap) (last : Int) :
    Wrote s style sep ks { w with gap, last } :=
  ⟨h.written, h.size, h.anchors, h.started, h.copiedBreak, h.lineComment, h.parted⟩

/-- One more stroke. -/
theorem push (h : Wrote s style sep ks w) {k : Stroke}
    (hwritten : w'.written = w.written ++ k.text s style)
    (hsize : w'.size = w.size + (k.text s style).length)
    (hanchors : w'.anchors.reverse = w.anchors.reverse ++ k.anchors s style w.size)
    (hstarted : w'.started = true)
    (hbreak : w'.behindCopiedBreak = Stroke.copiedBreak s [k])
    (hline : w'.behindLineComment = Stroke.isLineComment s style k)
    (hgap : w.started = true → w.behindLineComment = true → w.behindCopiedBreak = false →
      sep <+: k.gap ∨ ∃ v, k.piece = .region v) :
    Wrote s style sep (ks ++ [k]) w' where
  written := by rw [hwritten, h.written, Stroke.textAll_append, Stroke.textAll_singleton]
  size := by
    rw [hsize, h.size, Stroke.textAll_append, Stroke.textAll_singleton, List.length_append]
  anchors := by
    rw [hanchors, h.anchors, h.size, Stroke.anchorsAll_append, Stroke.anchorsAll_singleton,
      Nat.zero_add, List.cons_append]
  started := by simp [hstarted]
  copiedBreak := by simp [hbreak, Stroke.copiedBreak]
  lineComment := by simp [hline]
  parted := by
    refine h.parted.append (.singleton k) fun l hl k' hk hcomment => ?_
    obtain rfl := Option.some.inj hk
    have hlast := Option.mem_def.mp hl
    have hne : ks ≠ [] := by rintro rfl; cases hlast
    refine or_iff_not_imp_left.mpr fun hcopied => hgap ?_ ?_ ?_
    · simp [h.started, hne]
    · simp [h.lineComment, hlast, hcomment]
    · simpa [h.copiedBreak, Stroke.copiedBreak, hlast] using hcopied

theorem token (h : Wrote s style (separator x) ks w) {t : Traits} {id : Nat}
    (hstart : t.start = (s.tokenAt id).start) (hstop : t.stop = (s.tokenAt id).stop)
    (htext : (s.tokenAt id).text ≠ []) :
    Wrote s style (separator x) (ks ++ [⟨gapText x w, .token id⟩])
      (w.token x t (s.tokenAt id).text) := by
  have hpos : 0 ≤ ((s.tokenAt id).start : Int) := Int.natCast_nonneg _
  rw [Writer.token, if_neg (by simpa using htext)]
  simp only [hstart, hstop, if_pos hpos]
  refine h.push ?_ ?_ ?_ rfl rfl rfl fun h₁ h₂ h₃ => Or.inl (separator_isPrefix_gapText h₁ h₂ h₃)
  · simp [Writer.written, anchor, put, flush, Stroke.text, Piece.text]
  · simp [anchor, put, flush, Stroke.text, Piece.text, Nat.add_assoc]
  · simp [anchor, put, flush, Stroke.anchors, Piece.ends?, Stroke.text, Piece.text, Nat.add_assoc]

theorem comment (h : Wrote s style (separator x) ks w) {text : Bytes} {p : Placement}
    {ids : List Nat} {position : Position}
    (htext : commentText x text p = Piece.text s style (.comment ids position)) :
    Wrote s style (separator x) (ks ++ [⟨gapText x w, .comment ids position⟩])
      (w.comment x text (some (Build.commentOf (s.buildContext style) ids)) p) := by
  refine h.push ?_ ?_ ?_ rfl rfl rfl fun h₁ h₂ h₃ => Or.inl (separator_isPrefix_gapText h₁ h₂ h₃)
  · simp [Writer.written, Writer.comment, put, flush, Stroke.text, htext]
  · simp [Writer.comment, put, flush, Stroke.text, htext, Nat.add_assoc]
  · simp [Writer.comment, put, flush, Stroke.anchors, Piece.ends?]

theorem copy (h : Wrote s style sep ks w) (hinput : x.input = s.file.text)
    (v : VerbatimSpan) : Wrote s style sep (ks ++ [⟨[], .region v⟩]) (w.copy x v) := by
  refine h.push ?_ ?_ ?_ rfl ?_ rfl fun _ _ _ => Or.inr ⟨v, rfl⟩
  · simp [Writer.written, Writer.copy, settle, anchor, put, Stroke.text, Piece.text, hinput]
  · simp [Writer.copy, settle, anchor, put, Stroke.text, Piece.text, hinput]
  · simp [Writer.copy, settle, anchor, put, Stroke.anchors, Piece.ends?, Stroke.text, Piece.text,
      hinput]
  · simp [Writer.copy, settle, Stroke.copiedBreak, hinput]

/-- The text behind all strokes and the last anchor. -/
theorem finish_eq (h : Wrote s style (separator x) ks w) (hinput : x.input = s.file.text) :
    finish x w = Stroke.output s style (separator x) ks := by
  have hlast : ∀ {w' : Writer} {out : Bytes}, w'.written = out → w'.size = out.length →
      w'.anchors = w.anchors →
      (⟨(w'.anchor s.file.text.length).written,
        (w'.anchor s.file.text.length).anchors.reverse⟩ : Output) =
        ⟨out, ⟨0, 0⟩ :: Stroke.anchorsAll s style 0 ks ++ [⟨s.file.text.length, out.length⟩]⟩ := by
    rintro w' _ rfl hsize hanchors
    simp [anchor, hanchors, h.anchors, hsize, Writer.written]
  rw [finish, Stroke.output, Stroke.ending, h.started, h.copiedBreak, hinput]
  split_ifs
  · exact hlast (by rw [written_put, h.written]) (by simp [put, h.size]) rfl
  · exact hlast (by rw [h.written, List.append_nil]) (by simp [h.size]) rfl

end Wrote

end Writer

end CodeLayout
