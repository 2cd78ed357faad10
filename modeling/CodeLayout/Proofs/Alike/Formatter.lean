import CodeLayout.Proofs.Alike.Chunk.Declaration
import CodeLayout.Proofs.Alike.Output
import CodeLayout.Proofs.Alike.Stream

/-!
# Formatting does not look at the layout of the input

All texts become one that show the same tokens with the same comments, line breaks and blank lines
around them, as far as the style looks at these. The trees of two such texts are alike, hence their
chunks, hence their layouts and what is written. In a style that keeps neither line breaks nor blank
lines of the input, the tokens of texts without comments are all that counts. A result that shows
the same as the text it was made of is formatted into itself.
-/

namespace CodeLayout

/-- Nothing counts around the tokens of a text without comments where neither its line breaks nor
its blank lines count. -/
theorem TriviaIndex.look_of_uncommented {s : TokenStream} {style : Style}
    (hs : ∀ t ∈ s.tokens.toList, t.kind ≠ .comment) (hjoins : style.joinWrapped = true)
    (hblank : style.blankLines = 0) (regions : Regions) (id : Option Nat) :
    (s.buildContext style).look ((ofStream s style regions).get id) = ⟨[], none, 0, false⟩ := by
  have hnone : ((ofStream s style regions).get id).runs = [] := by
    apply List.eq_nil_iff_forall_not_mem.mpr
    intro run hrun
    have hfits := ofStream_all s style regions id run hrun
    obtain ⟨i, hi⟩ := List.exists_mem_of_ne_nil _ hfits.nonempty
    obtain ⟨t, hget, hkind⟩ := hfits.comments i hi
    rw [← Array.getElem?_toList] at hget
    exact hs t (List.mem_of_getElem? hget) hkind
  generalize (ofStream s style regions).get id = t at hnone
  obtain ⟨hleading, htrailing⟩ := List.append_eq_nil_iff.mp hnone
  rw [Option.toList_eq_nil_iff] at htrailing
  have hzero : min (t.blank : Int) (s.buildContext style).style.blankLines = 0 := by
    change min (t.blank : Int) style.blankLines = 0
    omega
  have hjoined : (s.buildContext style).style.joinWrapped = true := hjoins
  rw [BuildContext.look, hleading, htrailing, hzero, hjoined]
  rfl

/-- Texts without comments that show the same tokens have the same around them. -/
theorem TokenStream.surroundings_of_uncommented {s s' : TokenStream} {style : Style}
    (hs : ∀ t ∈ s.tokens.toList, t.kind ≠ .comment)
    (hs' : ∀ t ∈ s'.tokens.toList, t.kind ≠ .comment) (hjoins : style.joinWrapped = true)
    (hblank : style.blankLines = 0) (halike : s.Alike s') :
    s.surroundings style = s'.surroundings style := by
  have hlength : s.structural.length = s'.structural.length := by
    have hvisible := congrArg List.length halike.signs
    simpa only [← structural_map_snd, List.length_map] using hvisible
  simp only [surroundings, TriviaIndex.look_of_uncommented hs hjoins hblank,
    TriviaIndex.look_of_uncommented hs' hjoins hblank, List.map_const', hlength]

/-- Whether a problem is a fault that a step met. -/
def Problem.isFault : Problem → Bool
  | .recovered .. => true
  | _ => false

namespace Formatter

/-- A text without comments that the grammar makes sense of and that no step meets a fault on. -/
structure Handles (f : Formatter) (text : Bytes) : Prop where
  uncommented : ∀ t ∈ (TokenStream.ofFile ⟨[], text⟩).tokens.toList, t.kind ≠ .comment
  understood : ∃ tree, (Node.ofStream (TokenStream.ofFile ⟨[], text⟩) f.kind).tree = .ok tree ∧
    tree.Understood
  undisturbed : ∀ d ∈ (f.format text).2, d.problem.isFault = false

variable {f : Formatter} {a b text : Bytes}

theorem understood_iff {r : Except Fault Node} :
    (∃ tree, r = .ok tree ∧ tree.Understood) ↔
      (r.toOption.any fun tree => decide tree.Understood) = true := by
  cases r with
  | error fault => exact ⟨nofun, nofun⟩
  | ok tree =>
      constructor
      · rintro ⟨_, htree, hread⟩
        exact decide_eq_true (Except.ok.inj htree ▸ hread)
      · intro hread
        exact ⟨tree, rfl, of_decide_eq_true hread⟩

theorem handles_iff : f.Handles text ↔
    (∀ t ∈ (TokenStream.ofFile ⟨[], text⟩).tokens.toList, t.kind ≠ .comment) ∧
      ((Node.ofStream (TokenStream.ofFile ⟨[], text⟩) f.kind).tree.toOption.any fun tree =>
        decide tree.Understood) = true ∧
      ∀ d ∈ (f.format text).2, d.problem.isFault = false := by
  rw [← understood_iff]
  exact ⟨fun h => ⟨h.uncommented, h.understood, h.undisturbed⟩, fun h => ⟨h.1, h.2.1, h.2.2⟩⟩

instance (f : Formatter) (text : Bytes) : Decidable (f.Handles text) :=
  decidable_of_iff _ handles_iff.symm

/-- The style that is used in place of one that gives up line breaks. -/
theorem effective_of_joins (h : f.style.joinWrapped = true) :
    f.effective.1 = f.style.normalize.1 := by
  have hset : f.style.agrees .bare = false := by
    simp [Style.agrees, h, Style.bare]
  simp only [effective, hset, Bool.false_eq_true, if_false]

theorem effective_joinWrapped (h : f.style.joinWrapped = true) :
    f.effective.1.joinWrapped = true := by
  rw [effective_of_joins h]
  exact h

theorem effective_blankLines (h : f.style.joinWrapped = true) (hblank : f.style.blankLines = 0) :
    f.effective.1.blankLines = 0 := by
  rw [effective_of_joins h]
  change (Style.clamp _ 0 Style.maxBlank f.style.blankLines).1 = 0
  rw [hblank]
  rfl

/-- What the steps from a tree of a text of which nothing is left alone to the result come to. -/
structure Writes (f : Formatter) (text : Bytes) (tree : Node) (out : Bytes) : Prop where
  free : Regions.ofStream (TokenStream.ofFile ⟨[], text⟩) f.effective.1 = .empty
  parsed : (Node.ofStream (TokenStream.ofFile ⟨[], text⟩) f.kind).tree = .ok tree
  written : ∃ chunk output,
    Chunk.ofNode (TokenStream.ofFile ⟨[], text⟩) tree f.effective.1 .empty = .ok chunk ∧
      Output.ofLayout (Layout.ofChunk chunk ⟨[], text⟩ f.effective.1).layout ⟨[], text⟩
        f.effective.1 .empty = .ok output ∧ out = output.text

/-- A text that goes through all steps. -/
theorem exists_writes {formatted : Formatted}
    (hfree : Regions.ofStream (TokenStream.ofFile ⟨[], text⟩) f.effective.1 = .empty)
    (hrun : (Formatted.ofFile ⟨[], text⟩ f.kind f.effective.1).1 = .ok formatted) :
    ∃ tree, f.Writes text tree formatted.output.text := by
  obtain ⟨tree, chunk, -, htree, hchunk, -, -, houtput⟩ := Formatted.ofFile_eq_ok hrun
  rw [hfree] at hchunk houtput
  exact ⟨tree, hfree, htree, chunk, _, hchunk, houtput, rfl⟩

/-- What is written for a text on which no step meets a fault. -/
theorem Handles.writes (h : f.Handles text) : ∃ tree, f.Writes text tree (f.format text).1 := by
  rcases f.format_cases text with ⟨fault, hrun, -⟩ | ⟨formatted, hrun, hout⟩
  · have hrecorded := h.undisturbed
      { level := .remark, problem := .recovered (ascii "formatting") fault, span := {} }
    simp only [format, run, hrun, Report.recover, List.mem_append, List.mem_singleton, or_true,
      forall_const] at hrecorded
    cases hrecorded
  · rw [hout]
    exact exists_writes (Regions.ofStream_eq_empty h.uncommented _) hrun

/-- The same is written for trees of texts that show the same tokens with the same around them. -/
theorem Writes.eq_of_alike {tree tree' : Node} {out out' : Bytes} (ha : f.Writes a tree out)
    (hb : f.Writes b tree' out') (hunderstood : tree.Understood)
    (halike : (TokenStream.ofFile ⟨[], a⟩).Alike (TokenStream.ofFile ⟨[], b⟩))
    (hlook : (TokenStream.ofFile ⟨[], a⟩).surroundings f.effective.1 =
      (TokenStream.ofFile ⟨[], b⟩).surroundings f.effective.1)
    (hlines : a.endsLine = b.endsLine) : out = out' := by
  let _ : SideBySide := ⟨f.effective.1, TokenStream.ofFile ⟨[], a⟩, TokenStream.ofFile ⟨[], b⟩⟩
  obtain ⟨chunk, output, hchunk, houtput, rfl⟩ := ha.written
  obtain ⟨chunk', output', hchunk', houtput', rfl⟩ := hb.written
  rw [← ha.free] at hchunk
  rw [← hb.free] at hchunk'
  have hcursor := Cursor.ofStream_alike halike (TokenStream.ofFile_inOrder _)
    (TokenStream.ofFile_inOrder _) (TokenStream.ofFile_isChain _) (TokenStream.ofFile_isChain _)
  obtain ⟨_, _, _, _, ns, ms, rfl, rfl, hitems⟩ :=
    Node.ofStream_alike hcursor ha.parsed hb.parsed
  have hchunks : chunk.Alike chunk' := Chunk.ofNode_alike hlook hitems
    (fun _ hn => hunderstood.child hn) hchunk hchunk'
  obtain ⟨hlaid, hplaced⟩ := Layout.ofChunk_alike hchunks ⟨[], a⟩ ⟨[], b⟩ f.effective.1
  exact Output.ofLayout_alike hlaid hplaced hlines houtput houtput'

/-- Formatting does not look at the layout of its input: where neither line breaks nor blank lines
of the input count, two texts without comments that show the same tokens, of which either both end
in a line break or neither does, become the same text. -/
theorem format_eq_of_alike (hjoins : f.style.joinWrapped = true) (hblank : f.style.blankLines = 0)
    (ha : f.Handles a) (hb : f.Handles b)
    (halike : (TokenStream.ofFile ⟨[], a⟩).Alike (TokenStream.ofFile ⟨[], b⟩))
    (hlines : a.endsLine = b.endsLine) : (f.format a).1 = (f.format b).1 := by
  obtain ⟨tree, hwrites⟩ := ha.writes
  obtain ⟨tree', hwrites'⟩ := hb.writes
  obtain ⟨_, hread, hunderstood⟩ := ha.understood
  obtain rfl := Except.ok.inj (hwrites.parsed.symm.trans hread)
  have hlook := TokenStream.surroundings_of_uncommented ha.uncommented hb.uncommented
    (effective_joinWrapped hjoins) (effective_blankLines hjoins hblank) halike
  exact hwrites.eq_of_alike hwrites' hunderstood halike hlook hlines

/-- A formatter that gives up line breaks and blank lines of the input. -/
def joining : Formatter where
  style := { Style.default with blankLines := 0 }
  kind := .body

/-- A field on one line. -/
def fieldOnOneLine : Bytes :=
  ascii "A<B<C>> x=d>e;"

/-- The same field with other white space. Its closing brackets touch where they did. -/
def fieldOnManyLines : Bytes :=
  ascii "A<B\n<C>>\n\nx= d\n>e ;"

/-- Both forms of a field become the same. -/
theorem format_eq_of_alike_field :
    joining.style.joinWrapped = true ∧ joining.style.blankLines = 0 ∧
      joining.Handles fieldOnOneLine ∧ joining.Handles fieldOnManyLines ∧
      (TokenStream.ofFile ⟨[], fieldOnOneLine⟩).Alike (TokenStream.ofFile ⟨[], fieldOnManyLines⟩) ∧
      fieldOnOneLine.endsLine = fieldOnManyLines.endsLine ∧
      (joining.format fieldOnOneLine).1 = ascii "A<B<C>> x = d > e;" ∧
      (joining.format fieldOnOneLine).1 = (joining.format fieldOnManyLines).1 := by
  have ha : joining.Handles fieldOnOneLine := by decide +kernel
  have hb : joining.Handles fieldOnManyLines := by decide +kernel
  have halike : (TokenStream.ofFile ⟨[], fieldOnOneLine⟩).Alike
      (TokenStream.ofFile ⟨[], fieldOnManyLines⟩) := by decide +kernel
  have hlines : fieldOnOneLine.endsLine = fieldOnManyLines.endsLine := by decide +kernel
  exact ⟨rfl, rfl, ha, hb, halike, hlines, by decide +kernel,
    format_eq_of_alike rfl rfl ha hb halike hlines⟩

/-- Formatting its own result changes nothing if the grammar makes sense of the text, the result
shows the same tokens with the same around them as the style sees it, nothing is left alone in
either, and either both end in a line break or neither does. -/
theorem format_again
    (hunderstood : ∀ tree, (Node.ofStream (TokenStream.ofFile ⟨[], text⟩) f.kind).tree = .ok tree →
      tree.Understood)
    (hfree : Regions.ofStream (TokenStream.ofFile ⟨[], text⟩) f.effective.1 = .empty)
    (hfree' : Regions.ofStream (TokenStream.ofFile ⟨[], (f.format text).1⟩) f.effective.1 = .empty)
    (halike : (TokenStream.ofFile ⟨[], text⟩).Alike (TokenStream.ofFile ⟨[], (f.format text).1⟩))
    (hlook : (TokenStream.ofFile ⟨[], text⟩).surroundings f.effective.1 =
      (TokenStream.ofFile ⟨[], (f.format text).1⟩).surroundings f.effective.1)
    (hlines : text.endsLine = (f.format text).1.endsLine) :
    (f.format (f.format text).1).1 = (f.format text).1 := by
  rcases f.format_cases text with ⟨-, -, hout⟩ | ⟨formatted, hrun, hout⟩
  · rw [hout, hout]
  · rcases f.format_cases (f.format text).1 with ⟨-, -, hkept⟩ | ⟨formatted', hrun', hout'⟩
    · exact hkept
    · obtain ⟨tree, hwrites⟩ := exists_writes hfree hrun
      obtain ⟨tree', hwrites'⟩ := exists_writes hfree' hrun'
      rw [hout', hout]
      rw [hout] at halike hlook hlines hwrites'
      exact (hwrites.eq_of_alike hwrites' (hunderstood tree hwrites.parsed) halike hlook
        hlines).symm

/-- A class with comments and blank lines, not laid out well. -/
def looseClass : Bytes :=
  ascii "class A\x7b // a\n\n\n /** Adds. */ int  f()\x7b\x7d\x7d\n"

/-- The same class, laid out well. -/
def neatClass : Bytes :=
  ascii "class A \x7b // a\n\n\t/** Adds. */ int f() \x7b\x7d\n\x7d\n"

/-- In the style that is used by default the class is the same after formatting it once or twice. -/
theorem format_again_class :
    (∃ tree, (Node.ofStream (TokenStream.ofFile ⟨[], looseClass⟩) ({} : Formatter).kind).tree =
        .ok tree ∧ tree.Understood) ∧
      Regions.ofStream (TokenStream.ofFile ⟨[], looseClass⟩) ({} : Formatter).effective.1 =
        .empty ∧
      Regions.ofStream (TokenStream.ofFile ⟨[], neatClass⟩) ({} : Formatter).effective.1 =
        .empty ∧
      (TokenStream.ofFile ⟨[], looseClass⟩).Alike (TokenStream.ofFile ⟨[], neatClass⟩) ∧
      (TokenStream.ofFile ⟨[], looseClass⟩).surroundings ({} : Formatter).effective.1 =
        (TokenStream.ofFile ⟨[], neatClass⟩).surroundings ({} : Formatter).effective.1 ∧
      looseClass.endsLine = neatClass.endsLine ∧
      (({} : Formatter).format looseClass).1 = neatClass ∧
      (({} : Formatter).format neatClass).1 = neatClass := by
  have hread : ∃ tree, (Node.ofStream (TokenStream.ofFile ⟨[], looseClass⟩)
      ({} : Formatter).kind).tree = .ok tree ∧ tree.Understood :=
    understood_iff.mpr (by decide +kernel)
  have hfree : ∀ text, Regions.ofStream (TokenStream.ofFile ⟨[], text⟩)
      ({} : Formatter).effective.1 = .empty := fun _ => rfl
  have halike : (TokenStream.ofFile ⟨[], looseClass⟩).Alike
      (TokenStream.ofFile ⟨[], neatClass⟩) := by decide +kernel
  have hlook : (TokenStream.ofFile ⟨[], looseClass⟩).surroundings ({} : Formatter).effective.1 =
      (TokenStream.ofFile ⟨[], neatClass⟩).surroundings ({} : Formatter).effective.1 := by
    decide +kernel
  have hlines : looseClass.endsLine = neatClass.endsLine := by decide +kernel
  have hout : (({} : Formatter).format looseClass).1 = neatClass := by decide +kernel
  refine ⟨hread, hfree _, hfree _, halike, hlook, hlines, hout, ?_⟩
  rw [← hout] at halike hlook hlines
  have hagain := format_again (fun tree htree => ?_) (hfree _) (hfree _) halike hlook hlines
  · rw [hout] at hagain
    exact hagain
  · obtain ⟨_, htree', hunderstood⟩ := hread
    exact Except.ok.inj (htree'.symm.trans htree) ▸ hunderstood

/-- A doc comment whose preformatted text is not closed. -/
def unclosedPre : Bytes :=
  ascii "int x;\n/** <pre> */\n"

/-- A comment whose preformatted text is not closed gets one more line each time. -/
theorem format_grows :
    (({} : Formatter).format unclosedPre).1 = ascii "int x;\n/**\n * <pre>\n */\n" ∧
    (({} : Formatter).format (({} : Formatter).format unclosedPre).1).1 =
      ascii "int x;\n/**\n * <pre>\n *\n */\n" ∧
    (({} : Formatter).format (({} : Formatter).format unclosedPre).1).1 ≠
      (({} : Formatter).format unclosedPre).1 := by
  decide +kernel

end Formatter

end CodeLayout
