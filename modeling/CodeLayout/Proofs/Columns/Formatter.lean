import CodeLayout.Proofs.Alike.Chunk.Declaration
import CodeLayout.Proofs.Columns.Tree
import CodeLayout.Proofs.Covered

/-!
# The column behind a formatted text

Of a text without comments whose tokens are printable, laying out knows the column of every chunk
that is written, and so the one behind the last chunk.
-/

namespace CodeLayout

variable {file : SourceFile} {kind : SourceKind} {style : Style} {tree : Node} {chunk : Chunk}
  {formatted : Formatted}

/-- A text without comments whose tokens are printable. -/
structure SourceFile.IsPlain (file : SourceFile) : Prop where
  code : ∀ t ∈ (TokenStream.ofFile file).tokens.toList, t.kind ≠ .comment
  printable : ∀ t ∈ (TokenStream.ofFile file).tokens.toList, t.kind ≠ .space →
    Bytes.IsPrintable t.text

theorem Leaf.Shows.of_mem {x : BuildContext} {regions : Regions} {ls : List Leaf}
    {idss : List (List Nat)} (h : List.Forall₂ (Leaf.Shows x regions) ls idss) {l : Leaf}
    (hl : l ∈ ls) : ∃ ids, l.Shows x regions ids := by
  induction h with
  | nil => cases hl
  | cons hleaf _ ih =>
      rcases List.mem_cons.mp hl with rfl | hl
      · exact ⟨_, hleaf⟩
      · exact ih hl

/-- What is written of a plain text are printable tokens. -/
theorem Leaf.Shows.printable {regions : Regions} {l : Leaf} {ids : List Nat}
    (hplain : file.IsPlain)
    (h : l.Shows ((TokenStream.ofFile file).buildContext style) regions ids) :
    ∃ start stop text, l = .token start stop text ∧ Bytes.IsPrintable text := by
  have hmem : ∀ {id : Nat} {t : Token}, (TokenStream.ofFile file).tokens[id]? = some t →
      t ∈ (TokenStream.ofFile file).tokens.toList := fun hget =>
    Array.mem_toList_iff.mpr (Array.mem_of_getElem? hget)
  cases h with
  | token hget hkind =>
      refine ⟨_, _, _, rfl, hplain.printable _ (hmem hget) ?_⟩
      rintro hspace
      rw [hspace] at hkind
      cases hkind
  | comment hrun =>
      obtain ⟨id, hid⟩ := List.exists_mem_of_ne_nil _ hrun.nonempty
      obtain ⟨t, hget, hkind⟩ := hrun.comments id hid
      exact absurd hkind (hplain.code t (hmem hget))

/-- The items of a plain text are plain once they are numbered and measured. -/
theorem Chunk.isPlain_annotate {regions : Regions} {idss : List (List Nat)} {items : List Chunk}
    {t : Traits} (hplain : file.IsPlain) (tabstop : Int) (hheads : ∀ c ∈ items, c.IsHead)
    (hshows : List.Forall₂ (Leaf.Shows ((TokenStream.ofFile file).buildContext style) regions)
      (block t none none false items).content idss) :
    IsPlain (walkList (annotateList tabstop 1 items).1) := by
  have hsub : (walkList (annotateList tabstop 1 items).1).Sublist
      (annotate tabstop 0 (block t none none false items)).1.walk := by
    simp [annotate, walk]
  have hready := Chunk.ready_annotate tabstop (Leaf.Shows.contents hshows)
  have hnumbered := nodup_ids_annotate tabstop (block t none none false items)
  have hleaf : ∀ d ∈ walkList (annotateList tabstop 1 items).1, ∀ l, d.leaf? = some l →
      ∃ start stop text, l = .token start stop text ∧ Bytes.IsPrintable text := by
    intro d hd l hl
    have hcontent := leaf_mem_content (hsub.subset hd) hl
    rw [content_annotate] at hcontent
    obtain ⟨ids, hl⟩ := Leaf.Shows.of_mem hshows hcontent
    exact hl.printable hplain
  refine ⟨hready.mono hsub.subset, hnumbered.sublist (hsub.map _), ?_, fun t s hmem => ?_,
    fun t s b hmem => ?_⟩
  · refine neat_walkList.mpr fun c hc => ?_
    exact (isHead_of_mem_annotateList hheads (fun c _ hneat n => hneat.annotate n) hc).neat
  · obtain ⟨_, _, _, htoken, hprint⟩ := hleaf _ hmem _ rfl
    cases htoken
    exact hprint
  · obtain ⟨_, _, _, htoken, -⟩ := hleaf _ hmem _ rfl
    cases htoken

/-- Laying out the items of a plain text comes to the column behind all that is written, unless
nothing is written. -/
theorem Layout.settled_ofChunk {t : Traits} {items : List Chunk} {p : Position} {w : Writer}
    (hproper : style.IsProper) (ht : t.space = false) (hheads : ∀ c ∈ items, c.IsHead)
    (hall : Chunk.IsPlain (Chunk.walkList (Chunk.annotateList style.tabSize 1 items).1))
    (hposition : (ofChunk (.block t none none false items) file style).position = .ok p)
    (hfold : (ofChunk (.block t none none false items) file style).layout.chunk.walk.foldlM
      (Writer.write ⟨style, file.text, .empty,
        (ofChunk (.block t none none false items) file style).layout.placements⟩)
      (Writer.anchor {} 0) = .ok w) :
    w.started = false ∧ w.written = [] ∧ p.column = 0 ∨
      Writer.Settled ⟨style, file.text, .empty,
        (ofChunk (.block t none none false items) file style).layout.placements⟩ p.column w := by
  have hfirst : ∀ d ∈ (Chunk.annotateList style.tabSize 1 items).1.head?,
      d.isBraceless = false := fun d hd =>
    (Chunk.isHead_of_mem_annotateList hheads (fun c _ hneat n => hneat.annotate n)
      (List.mem_of_mem_head? hd)).braced
  obtain ⟨q, s, hrun, -, -, hpost⟩ := Placing.sets_root
    (x := ⟨style, file, budget (Chunk.annotate style.tabSize 0 (.block t none none false items)).2⟩)
    (t := { t with id := 0, measure := _ }) hproper ht hall hfirst
    (Chunk.nodup_ids_annotate style.tabSize (.block t none none false items))
    { placements := Array.replicate
        (Chunk.annotate style.tabSize 0 (.block t none none false items)).2 {} }
    fun id hid => by
      obtain ⟨d, hd, rfl⟩ := List.mem_map.mp hid
      simpa using Chunk.id_lt (c := .block t none none false items) hd
  have hq : (ofChunk (.block t none none false items) file style).position = .ok q :=
    congrArg (fun r => r.1) hrun
  have hplaced : (ofChunk (.block t none none false items) file style).layout.placements =
      s.placements := congrArg (fun r => r.2.placements) hrun
  obtain rfl := Except.ok.inj (hposition.symm.trans hq)
  rw [hplaced] at hfold ⊢
  exact hpost _ ⟨rfl, rfl⟩ (fun _ _ => rfl) w hfold

/-- Laying out and writing agree on columns. Whatever kind of source a plain text is read as, if no
step meets a fault then the position that laying it out comes to is at the column at which the last
line of the result ends, before the line break at the end of the text. -/
theorem Formatted.column_eq (hplain : file.IsPlain)
    (h : (Formatted.ofFile file kind style.normalize.1).1 = .ok formatted) :
    ∃ p, (Layout.ofChunk formatted.chunk file style.normalize.1).position = .ok p ∧
      p.column = Width.advance 0 style.normalize.1.tabSize (Bytes.openLine
        (Bytes.dropEnding style.normalize.1.separator formatted.output.text)) := by
  have hproper := style.normalize_isProper
  generalize style.normalize.1 = style at h hproper ⊢
  obtain ⟨tree, chunk, p, htree, hchunk, hsame, hposition, houtput⟩ := ofFile_eq_ok h
  rw [hsame]
  refine ⟨p, hposition, ?_⟩
  obtain ⟨-, idss, hshows, -⟩ := Chunk.ofNode_shows (Node.ofStream_within htree) hchunk
  obtain ⟨items, rfl, hheads⟩ := Chunk.ofNode_heads htree hchunk
  obtain ⟨w, hfold, hfinish⟩ := exists_of_map_eq_ok houtput
  have hall := Chunk.isPlain_annotate hplain style.tabSize hheads hshows
  rw [Regions.ofStream_eq_empty hplain.code] at hfold hfinish
  rw [← hfinish]
  obtain ⟨hstarted, hwritten, hcolumn⟩ | hsettled :=
    Layout.settled_ofChunk hproper rfl hheads hall hposition hfold
  · rw [Writer.finish, hstarted, hcolumn]
    change 0 = Width.advance 0 _ (Bytes.openLine (Bytes.dropEnding _ w.written))
    have hdrop : Bytes.dropEnding style.separator [] = [] := by simp [Bytes.dropEnding]
    rw [hwritten, hdrop]
    exact Bytes.EndsAt.nil.advance_openLine.symm
  · exact (hsettled.advance_finish hproper.separator).symm

/-- A narrow style. -/
def Style.narrow : Style :=
  { Style.default with pageWidth := 20 }

/-- A call that is wrapped on a narrow page. -/
def SourceFile.wrappedCall : SourceFile :=
  ⟨[], ascii "x = f(alpha, beta, gamma);\n"⟩

/-- The last argument is on a line that is indented by two tabs, and the call ends at column 15. -/
theorem Formatted.column_eq_wrappedCall :
    SourceFile.wrappedCall.IsPlain ∧
    ∃ formatted, (Formatted.ofFile SourceFile.wrappedCall .body Style.narrow.normalize.1).1 =
        .ok formatted ∧
      formatted.output.text = ascii "x = f(alpha, beta,\n\t\tgamma);\n" ∧
      ∃ p, (Layout.ofChunk formatted.chunk SourceFile.wrappedCall
          Style.narrow.normalize.1).position = .ok p ∧ p.column = 15 := by
  have hplain : SourceFile.wrappedCall.IsPlain :=
    ⟨by decide +kernel, by decide +kernel⟩
  have htext : (Formatted.ofFile SourceFile.wrappedCall .body
      Style.narrow.normalize.1).1.toOption.map (·.output.text) =
        some (ascii "x = f(alpha, beta,\n\t\tgamma);\n") := by decide +kernel
  have hcolumn : Width.advance 0 Style.narrow.normalize.1.tabSize (Bytes.openLine
      (Bytes.dropEnding Style.narrow.normalize.1.separator
        (ascii "x = f(alpha, beta,\n\t\tgamma);\n"))) = 15 := by decide +kernel
  cases h : (Formatted.ofFile SourceFile.wrappedCall .body Style.narrow.normalize.1).1 with
  | error fault =>
      rw [h] at htext
      cases htext
  | ok formatted =>
      rw [h] at htext
      have hout : formatted.output.text = ascii "x = f(alpha, beta,\n\t\tgamma);\n" :=
        Option.some.inj htext
      obtain ⟨p, hposition, heq⟩ := Formatted.column_eq hplain h
      rw [hout, hcolumn] at heq
      exact ⟨hplain, formatted, rfl, hout, p, hposition, heq⟩

end CodeLayout
