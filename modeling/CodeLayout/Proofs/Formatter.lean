import CodeLayout.Formatter
import CodeLayout.Proofs.Regions
import CodeLayout.Proofs.Syntax.Tree

/-!
# Formatting loses nothing

A text that is formatted without a fault is put together from its own tokens, comments and regions.
The regions that hold any of these are in the result as they are. The edits of a text come to the
same as formatting it.
-/

namespace CodeLayout

/-- The leaves of the tree of a stream are tokens of the stream. -/
theorem Node.ofStream_within {s : TokenStream} {kind : SourceKind} {tree : Node}
    (h : (Node.ofStream s kind).tree = .ok tree) : tree.Within s.tokens := by
  obtain ⟨tree', htree, hcov⟩ := Node.ofStream_covers s kind
  obtain rfl := Except.ok.inj (h.symm.trans htree)
  intro l hl
  have hmem : l ∈ s.structural := by
    refine hcov.sublist.subset ?_
    rwa [Node.leavesList_singleton]
  obtain ⟨⟨t, i⟩, hfilter, rfl⟩ := List.mem_map.mp hmem
  obtain ⟨hzip, hkind⟩ := List.mem_filter.mp hfilter
  have hget := List.mem_zipIdx_iff_getElem?.mp hzip
  rw [Array.getElem?_toList] at hget
  exact ⟨hget, by simpa using hkind⟩

/-- The separator of a style in which all fields are in their ranges. -/
theorem Style.normalize_separator (style : Style) : style.normalize.1.separator ∈ separators := by
  change (normalSeparator style.separator).1 ∈ separators
  rw [normalSeparator]
  split
  · rename_i hmem
    simpa using hmem
  · exact List.mem_cons_self

theorem Leaf.Shows.contents {x : BuildContext} {regions : Regions} {ls : List Leaf}
    {idss : List (List Nat)} (h : List.Forall₂ (Leaf.Shows x regions) ls idss) (start stop : Int)
    (text : Bytes) : Leaf.comment start stop text none ∉ ls := by
  induction h with
  | nil => simp
  | cons hleaf _ ih =>
      rintro (_ | ⟨_, hmem⟩)
      · obtain ⟨_, _, _, _, _, _, hnone⟩ := hleaf.comment_inv
        cases hnone
      · exact ih hmem

theorem exists_of_bind_eq_ok {α β : Type} {e : Except Fault α} {f : α → Except Fault β} {b : β}
    (h : e.bind f = .ok b) : ∃ a, e = .ok a ∧ f a = .ok b := by
  cases e with
  | error fault => cases h
  | ok a => exact ⟨a, rfl, h⟩

theorem exists_of_map_eq_ok {α β : Type} {e : Except Fault α} {f : α → β} {b : β}
    (h : e.map f = .ok b) : ∃ a, e = .ok a ∧ f a = b := by
  cases e with
  | error fault => cases h
  | ok a => exact ⟨a, rfl, Except.ok.inj h⟩

/-- The steps that a text went through. -/
theorem Formatted.ofFile_eq_ok {file : SourceFile} {kind : SourceKind} {style : Style}
    {formatted : Formatted} (h : (Formatted.ofFile file kind style).1 = .ok formatted) :
    ∃ tree chunk p, (Node.ofStream (TokenStream.ofFile file) kind).tree = .ok tree ∧
      Chunk.ofNode (TokenStream.ofFile file) tree style
        (Regions.ofStream (TokenStream.ofFile file) style) = .ok chunk ∧
      formatted.chunk = chunk ∧ (Layout.ofChunk chunk file style).position = .ok p ∧
      Output.ofLayout (Layout.ofChunk chunk file style).layout file style
        (Regions.ofStream (TokenStream.ofFile file) style) = .ok formatted.output := by
  simp only [ofFile] at h
  split at h
  · cases h
  · rename_i tree chunk hchunks
    obtain ⟨tree', htree, hmap⟩ := exists_of_bind_eq_ok hchunks
    obtain ⟨chunk', hchunk, hpair⟩ := exists_of_map_eq_ok hmap
    cases hpair
    obtain ⟨p, hposition, hwritten⟩ := exists_of_bind_eq_ok h
    obtain ⟨output, houtput, hformatted⟩ := exists_of_bind_eq_ok hwritten
    obtain rfl := Except.ok.inj hformatted
    exact ⟨tree, chunk, p, htree, hchunk, rfl, hposition, houtput⟩

theorem Formatted.layout_eq {file : SourceFile} {kind : SourceKind} {style : Style}
    {formatted : Formatted} (h : (Formatted.ofFile file kind style).1 = .ok formatted) :
    formatted.layout = (Layout.ofChunk formatted.chunk file style).layout := by
  simp only [ofFile] at h
  split at h
  · cases h
  · obtain ⟨p, -, hwritten⟩ := exists_of_bind_eq_ok h
    obtain ⟨output, -, hformatted⟩ := exists_of_bind_eq_ok hwritten
    obtain rfl := Except.ok.inj hformatted
    rfl

/-- A text that goes through all steps is written in strokes for its own tokens and comments, with a
line break behind every line comment. The strokes fall into those for each chunk, and each of them
stems from a chunk. -/
theorem Formatted.ofFile_traced {file : SourceFile} {kind : SourceKind} {style : Style}
    {formatted : Formatted} (hmax : file.text.length < 2 ^ 63)
    (hsep : style.separator ∈ Style.separators)
    (h : (Formatted.ofFile file kind style).1 = .ok formatted) :
    ∃ ks, Stroke.Cover (TokenStream.ofFile file) style
        (Regions.ofStream (TokenStream.ofFile file) style) style.separator ks ∧
      ks.IsChain (Stroke.Parted (TokenStream.ofFile file) style style.separator) ∧
      formatted.output = Stroke.output (TokenStream.ofFile file) style style.separator ks ∧
      (∀ k ∈ ks, k.IsParting style.separator) ∧
      Writer.Traced (TokenStream.ofFile file) (Regions.ofStream (TokenStream.ofFile file) style)
        ⟨style, file.text, Regions.ofStream (TokenStream.ofFile file) style,
          formatted.layout.placements⟩
        (Writer.anchor {} 0) formatted.layout.chunk.walk ks ∧
      ∀ k ∈ ks, Writer.Stems (TokenStream.ofFile file)
        ⟨style, file.text, Regions.ofStream (TokenStream.ofFile file) style,
          formatted.layout.placements⟩
        (Writer.anchor {} 0) formatted.layout.chunk.walk k := by
  have hlayout := layout_eq h
  obtain ⟨tree, chunk, -, htree, hchunk, heq, -, houtput⟩ := ofFile_eq_ok h
  rw [heq] at hlayout
  rw [← hlayout] at houtput
  obtain ⟨⟨t, items, rfl⟩, idss, hshows, hids⟩ :=
    Chunk.ofNode_shows (Node.ofStream_within htree) hchunk
  have hplaced := Layout.ofChunk_shows file style (Leaf.Shows.contents hshows)
  rw [← hlayout] at hplaced
  obtain ⟨w, hfold, hfinish⟩ := exists_of_map_eq_ok houtput
  rw [← Chunk.content_annotate style.tabSize 0] at hshows
  change List.Forall₂ _ (Layout.ofChunk (.block t none none false items) file
    style).layout.chunk.content _ at hshows
  rw [← hlayout] at hshows
  have hseparator : Writer.separator ⟨style, file.text,
      Regions.ofStream (TokenStream.ofFile file) style, formatted.layout.placements⟩ =
        style.separator := Writer.separator_eq hsep
  have hstrokes := Writer.finish_strokes (TokenStream.ofFile_inOrder file)
    (Regions.ofStream_fit hmax) rfl rfl hshows hids rfl hplaced hfold
  rwa [hseparator, hfinish] at hstrokes

theorem Formatted.ofFile_parted {file : SourceFile} {kind : SourceKind} {style : Style}
    {formatted : Formatted} (hmax : file.text.length < 2 ^ 63)
    (hsep : style.separator ∈ Style.separators)
    (h : (Formatted.ofFile file kind style).1 = .ok formatted) :
    ∃ ks, Stroke.Cover (TokenStream.ofFile file) style
        (Regions.ofStream (TokenStream.ofFile file) style) style.separator ks ∧
      ks.IsChain (Stroke.Parted (TokenStream.ofFile file) style style.separator) ∧
      formatted.output = Stroke.output (TokenStream.ofFile file) style style.separator ks := by
  obtain ⟨ks, hcover, hparted, hout, -⟩ := ofFile_traced hmax hsep h
  exact ⟨ks, hcover, hparted, hout⟩

/-- A text that goes through all steps is written in strokes for its own tokens and comments. -/
theorem Formatted.ofFile_strokes {file : SourceFile} {kind : SourceKind} {style : Style}
    {formatted : Formatted} (hmax : file.text.length < 2 ^ 63)
    (hsep : style.separator ∈ Style.separators)
    (h : (Formatted.ofFile file kind style).1 = .ok formatted) :
    ∃ ks, Stroke.Cover (TokenStream.ofFile file) style
        (Regions.ofStream (TokenStream.ofFile file) style) style.separator ks ∧
      formatted.output = Stroke.output (TokenStream.ofFile file) style style.separator ks := by
  obtain ⟨ks, hcover, -, hout⟩ := ofFile_parted hmax hsep h
  exact ⟨ks, hcover, hout⟩

/-- A text that goes through all steps is put together from its own pieces. -/
theorem Formatted.ofFile_isWrittenAs {file : SourceFile} {kind : SourceKind} {style : Style}
    {formatted : Formatted} (hmax : file.text.length < 2 ^ 63)
    (hsep : style.separator ∈ Style.separators)
    (h : (Formatted.ofFile file kind style).1 = .ok formatted) :
    (TokenStream.ofFile file).IsWrittenAs style
      (Regions.ofStream (TokenStream.ofFile file) style) formatted.output.text := by
  obtain ⟨ks, hcover, hout⟩ := ofFile_strokes hmax hsep h
  rw [hout]
  exact hcover.isWrittenAs

namespace Formatter

/-- Either a step meets a fault and the text is left as it is, or the text goes through all
steps. -/
theorem format_cases (f : Formatter) (text : Bytes) :
    (∃ fault, (Formatted.ofFile ⟨[], text⟩ f.kind f.effective.1).1 = .error fault ∧
      (f.format text).1 = text) ∨
    ∃ formatted, (Formatted.ofFile ⟨[], text⟩ f.kind f.effective.1).1 = .ok formatted ∧
      (f.format text).1 = formatted.output.text := by
  cases hrun : (Formatted.ofFile ⟨[], text⟩ f.kind f.effective.1).1 with
  | error fault => exact Or.inl ⟨fault, rfl, by simp only [format, run, hrun]⟩
  | ok formatted => exact Or.inr ⟨formatted, rfl, by simp only [format, run, hrun]⟩

/-- Formatting loses, doubles and moves nothing: either a step meets a fault and the text is left as
it is, or the result is put together from the tokens and comments of the text outside of all regions
and from the regions that hold any, each once and in order, with nothing but white space between
them. -/
theorem format_isWrittenAs (f : Formatter) (text : Bytes) (hmax : text.length < 2 ^ 63) :
    (∃ fault, (Formatted.ofFile ⟨[], text⟩ f.kind f.effective.1).1 = .error fault ∧
      (f.format text).1 = text) ∨
    (TokenStream.ofFile ⟨[], text⟩).IsWrittenAs f.effective.1
      (Regions.ofStream (TokenStream.ofFile ⟨[], text⟩) f.effective.1) (f.format text).1 := by
  cases hrun : (Formatted.ofFile ⟨[], text⟩ f.kind f.effective.1).1 with
  | error fault =>
      refine Or.inl ⟨fault, rfl, ?_⟩
      simp only [format, run, hrun]
  | ok formatted =>
      refine Or.inr ?_
      have hsep : f.effective.1.separator ∈ Style.separators := Style.normalize_separator _
      have htext : (f.format text).1 = formatted.output.text := by
        simp only [format, run, hrun]
      rw [htext]
      exact Formatted.ofFile_isWrittenAs hmax hsep hrun

/-- A declaration with a comment behind it meets no fault. -/
theorem format_isWrittenAs_declaration :
    (ascii "int x; // c\n").length < 2 ^ 63 ∧
      (TokenStream.ofFile ⟨[], ascii "int x; // c\n"⟩).IsWrittenAs (effective {}).1
        (Regions.ofStream (TokenStream.ofFile ⟨[], ascii "int x; // c\n"⟩) (effective {}).1)
        (format {} (ascii "int x; // c\n")).1 := by
  have hlength : (ascii "int x; // c\n").length < 2 ^ 63 := by decide
  have hok : (Formatted.ofFile ⟨[], ascii "int x; // c\n"⟩ .unit
      (effective {}).1).1.toOption.isSome = true := by decide +kernel
  refine ⟨hlength, (format_isWrittenAs {} _ hlength).resolve_left ?_⟩
  rintro ⟨fault, herror, -⟩
  change (Formatted.ofFile ⟨[], ascii "int x; // c\n"⟩ .unit (effective {}).1).1 = _ at herror
  rw [herror] at hok
  cases hok

/-- What becomes of the regions of a text: either a step meets a fault and the text is left as it
is, or the result is written in strokes, of which some copy the regions that hold a token or a
comment, in their order. The bytes of a region are in the result directly behind the written form of
the comment that opens it exactly if the region is one of these, or if it is white space at the end
of the text that the line end written there agrees with. -/
theorem format_keeps_regions_iff (f : Formatter) (text : Bytes) (hmax : text.length < 2 ^ 63) :
    (∃ fault, (Formatted.ofFile ⟨[], text⟩ f.kind f.effective.1).1 = .error fault ∧
      (f.format text).1 = text) ∨
    ∃ ks, Stroke.Cover (TokenStream.ofFile ⟨[], text⟩) f.effective.1
        (Regions.ofStream (TokenStream.ofFile ⟨[], text⟩) f.effective.1)
        f.effective.1.separator ks ∧
      (f.format text).1 = (Stroke.output (TokenStream.ofFile ⟨[], text⟩) f.effective.1
        f.effective.1.separator ks).text ∧
      ks.filterMap Stroke.region? =
        (Regions.ofStream (TokenStream.ofFile ⟨[], text⟩) f.effective.1).spans.filter
          (fun v => v.IsFilled (TokenStream.ofFile ⟨[], text⟩)) ∧
      ∀ v ∈ (Regions.ofStream (TokenStream.ofFile ⟨[], text⟩) f.effective.1).spans,
        Stroke.Keeps (TokenStream.ofFile ⟨[], text⟩) f.effective.1 f.effective.1.separator ks v ↔
          v.IsFilled (TokenStream.ofFile ⟨[], text⟩) = true ∨
            text.slice v.start v.stop <+:
              if text.endsLine then f.effective.1.separator else [] := by
  cases hrun : (Formatted.ofFile ⟨[], text⟩ f.kind f.effective.1).1 with
  | error fault =>
      refine Or.inl ⟨fault, rfl, ?_⟩
      simp only [format, run, hrun]
  | ok formatted =>
      have hsep : f.effective.1.separator ∈ Style.separators := Style.normalize_separator _
      have hin := TokenStream.ofFile_inOrder ⟨[], text⟩
      have hfit := @Regions.ofStream_fit ⟨[], text⟩ f.effective.1 hmax
      obtain ⟨ks, hcover, hout⟩ := Formatted.ofFile_strokes hmax hsep hrun
      refine Or.inr ⟨ks, hcover, ?_, hcover.regions_eq hin hfit, fun v hv => ?_⟩
      · simp only [format, run, hrun, hout]
      · exact hcover.keeps_iff hin hfit hv (Regions.ofStream_opening hmax hv)
          (Regions.isFilled_or_stop_eq hmax hv)

/-- A formatter that leaves regions alone. -/
def tagged : Formatter where
  style := { Style.default with useTags := true }

/-- A text with two regions: a declaration with the comment behind it, and two line breaks. -/
def twoRegions : Bytes :=
  ascii "x; // @formatter:off\nint   y; // @formatter:on\nz; // @formatter:off\n\n"

/-- The first region is copied and kept; the second is not. -/
theorem format_keeps_regions_iff_two :
    twoRegions.length < 2 ^ 63 ∧ ∃ ks, (tagged.format twoRegions).1 =
        (Stroke.output (TokenStream.ofFile ⟨[], twoRegions⟩) tagged.effective.1
          tagged.effective.1.separator ks).text ∧
      ks.filterMap Stroke.region? = [⟨20, 46, true⟩] ∧
      Stroke.Keeps (TokenStream.ofFile ⟨[], twoRegions⟩) tagged.effective.1
        tagged.effective.1.separator ks ⟨20, 46, true⟩ ∧
      ¬Stroke.Keeps (TokenStream.ofFile ⟨[], twoRegions⟩) tagged.effective.1
        tagged.effective.1.separator ks ⟨67, 69, false⟩ := by
  have hlength : twoRegions.length < 2 ^ 63 := by decide
  have hok : (Formatted.ofFile ⟨[], twoRegions⟩ tagged.kind
      tagged.effective.1).1.toOption.isSome = true := by decide +kernel
  have hspans : (Regions.ofStream (TokenStream.ofFile ⟨[], twoRegions⟩)
      tagged.effective.1).spans = [⟨20, 46, true⟩, ⟨67, 69, false⟩] := by decide +kernel
  have hfilled : [⟨20, 46, true⟩, ⟨67, 69, false⟩].map
      (VerbatimSpan.IsFilled (TokenStream.ofFile ⟨[], twoRegions⟩)) = [true, false] := by
    decide +kernel
  have hend : ¬(twoRegions.slice 67 69 <+:
      if twoRegions.endsLine then tagged.effective.1.separator else []) := by decide +kernel
  simp only [List.map_cons, List.map_nil, List.cons.injEq, and_true] at hfilled
  refine ⟨hlength, ?_⟩
  rcases format_keeps_regions_iff tagged twoRegions hlength with
    ⟨fault, herror, -⟩ | ⟨ks, -, htext, hcopied, hkeeps⟩
  · rw [herror] at hok
    cases hok
  · rw [hspans] at hcopied hkeeps
    refine ⟨ks, htext, ?_, ?_, ?_⟩
    · rw [hcopied, List.filter_cons_of_pos hfilled.1,
        List.filter_cons_of_neg (by simp [hfilled.2]), List.filter_nil]
    · exact (hkeeps _ (by simp)).mpr (Or.inl hfilled.1)
    · intro hkept
      rcases (hkeeps _ (by simp)).mp hkept with htrue | hprefix
      · rw [hfilled.2] at htrue
        cases htrue
      · exact hend hprefix

/-- Line breaks that are left alone at the end of a text are not in the result. -/
theorem format_drops_region :
    (Regions.ofStream (TokenStream.ofFile ⟨[], ascii "int x; // @formatter:off\n\n"⟩)
      tagged.effective.1).spans = [⟨24, 26, false⟩] ∧
    (tagged.format (ascii "int x; // @formatter:off\n\n")).1 =
      ascii "int x; // @formatter:off\n" ∧
    ¬((ascii "int x; // @formatter:off\n\n").slice 24 26 <:+:
      (tagged.format (ascii "int x; // @formatter:off\n\n")).1) := by
  decide +kernel

/-- The edits of formatting a file rewrite it into what formatting comes to. -/
theorem run_rewrites (f : Formatter) (file : SourceFile) (hmax : file.text.length < 2 ^ 63) :
    Edit.Rewrites file.text 0 ((f.run file).1.edits file.text) (f.run file).1.text := by
  cases hrun : (Formatted.ofFile file f.kind f.effective.1).1 with
  | error fault =>
      simp only [run, hrun]
      exact Edit.Rewrites.rest (Nat.zero_le _)
  | ok formatted =>
      have hsep : f.effective.1.separator ∈ Style.separators := Style.normalize_separator _
      obtain ⟨ks, hcover, hout⟩ := Formatted.ofFile_strokes hmax hsep hrun
      simp only [run, hrun, hout]
      exact hcover.edits_rewrites (TokenStream.ofFile_inOrder file) (Regions.ofStream_fit hmax)

/-- Edits and formatting agree: applying the edits of a whole text gives the text that formatting
gives, and none of the edits is left out. -/
theorem apply_edits (f : Formatter) (text : Bytes) (hmax : text.length < 2 ^ 63) :
    Edit.apply text (f.edits text 0 (Int64.ofNat text.length)).1 = .ok (f.format text).1 ∧
      Edit.admitted text 0 (Edit.sort (f.edits text 0 (Int64.ofNat text.length)).1) =
        (f.edits text 0 (Int64.ofNat text.length)).1 := by
  have hrewrites := f.run_rewrites ⟨[], text⟩ hmax
  have hall : (f.edits text 0 (Int64.ofNat text.length)).1 =
      (f.run ⟨[], text⟩).1.edits text := hrewrites.filter_touches hmax
  rw [hall]
  exact hrewrites.apply_eq hmax

/-- The edits of a class on two lines: they open up its body and take a space out of a field. -/
theorem apply_edits_class :
    (ascii "class A\x7bint  x;// c\n\x7d").length < 2 ^ 63 ∧
      (edits {} (ascii "class A\x7bint  x;// c\n\x7d") 0 (Int64.ofNat
        (ascii "class A\x7bint  x;// c\n\x7d").length)).1 =
          [⟨7, 0, [32]⟩, ⟨8, 0, [10, 9]⟩, ⟨12, 1, []⟩, ⟨15, 0, [32]⟩] ∧
      Edit.apply (ascii "class A\x7bint  x;// c\n\x7d")
        (edits {} (ascii "class A\x7bint  x;// c\n\x7d") 0 (Int64.ofNat
          (ascii "class A\x7bint  x;// c\n\x7d").length)).1 =
            .ok (format {} (ascii "class A\x7bint  x;// c\n\x7d")).1 := by
  have hlength : (ascii "class A\x7bint  x;// c\n\x7d").length < 2 ^ 63 := by decide
  exact ⟨hlength, by decide +kernel, (apply_edits {} _ hlength).1⟩

end Formatter

end CodeLayout
