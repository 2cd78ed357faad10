import CodeLayout.Proofs.Kept.Trivia
import CodeLayout.Proofs.Strokes

/-!
# Stacks of comments

The tokens with structure and the runs around them list every token and comment of a file once, in
the order of the file. A run with more than one comment is a stack: line comments at one column with
one line break from each to the next, none of which is in a region or mentions a tag.

While runs are collected, the last comment of the last run is followed by white space only, and its
line breaks have been counted. So the next comment is told to stand under that one exactly if one
line break is between them.
-/

namespace CodeLayout

namespace Trivia

variable {s : Source} {all es front pending : List Entry} {first e : Entry}

/-- Whether a comment continues another one and one line break is between them. -/
def Under (s : Source) (all : List Entry) (a b : Entry) : Prop :=
  standsUnder s a b = true ∧
    ∃ gap, a :: (gap ++ [b]) <:+: all ∧ Bytes.newlines (gap.flatMap (·.2.text)) = 1

/-- Whether each comment of a run, but for the first one, stands under the one before it. -/
def IsStack (s : Source) (all : List Entry) (run : CommentRun) : Prop :=
  ∃ ds : List Entry, run.ids = ds.map (·.1) ∧ ds.IsChain (Under s all)

theorem isStack_singleton {run : CommentRun} (h : run.ids = [e.1]) : IsStack s all run :=
  ⟨[e], h, List.isChain_singleton e⟩

theorem isChain_stackedUnder (h : first :: es <:+: all) :
    (first :: (stackedUnder s first es).1).IsChain (Under s all) := by
  induction first, es using stackedUnder.induct s with
  | case1 last space comment rest hcond more left heq ih =>
      rw [stackedUnder, if_pos hcond, heq]
      rw [heq] at ih
      simp only [Bool.and_eq_true, decide_eq_true_eq] at hcond
      have hrest : comment :: rest <:+: all :=
        (List.suffix_append [last, space] (comment :: rest)).isInfix.trans h
      have hpair : last :: ([space] ++ [comment]) <:+: all :=
        (List.prefix_append [last, space, comment] rest).isInfix.trans h
      exact List.isChain_cons_cons.mpr ⟨⟨hcond.2, [space], hpair, by simp [hcond.1.1.2]⟩, ih hrest⟩
  | case2 last space comment rest hcond =>
      rw [stackedUnder, if_neg hcond]
      exact List.isChain_singleton last
  | case3 last rest hshort =>
      rw [stackedUnder_of_short hshort]
      exact List.isChain_singleton last

theorem isStack_splitTrailing (atEnd : Bool) (h : pending <:+: all) :
    ∀ run ∈ (splitTrailing s atEnd pending).1, IsStack s all run := by
  rcases splitTrailing_cases s atEnd pending with heq |
    ⟨front, first, rest, rfl, -, -, heq | heq⟩ <;> rw [heq]
  · exact nofun
  · rintro run ⟨⟩
    have hrest : first :: rest <:+: all :=
      (List.suffix_append front (first :: rest)).isInfix.trans h
    exact ⟨_, rfl, isChain_stackedUnder hrest⟩
  · rintro run ⟨⟩
    exact isStack_singleton rfl

namespace Runs

/-- Whether all runs that are collected from some entries are stacks. Behind the last comment of the
last run, the entries hold as many line breaks as were counted. -/
structure AreStacks (s : Source) (all front : List Entry) (r : Runs) : Prop where
  done : ∀ run ∈ r.done, IsStack s all run
  last : ∀ run e, r.last = some (run, e) → ∃ ds gap, run.ids = (ds ++ [e]).map (·.1) ∧
    (ds ++ [e]).IsChain (Under s all) ∧ e :: gap <:+ front ∧
      Bytes.newlines (gap.flatMap (·.2.text)) = r.newlines

variable {r : Runs}

theorem AreStacks.close (h : r.AreStacks s all front) : ∀ run ∈ r.close, IsStack s all run := by
  intro run hrun
  rw [Runs.close] at hrun
  split at hrun
  · rename_i last e hlast
    obtain ⟨ds, -, hids, hchain, -⟩ := h.last last e hlast
    rcases List.mem_cons.mp hrun with rfl | hrun
    · exact ⟨_, hids, hchain⟩
    · exact h.done run hrun
  · exact h.done run hrun

theorem AreStacks.start (h : r.AreStacks s all front) (e : Entry) :
    (r.start e).AreStacks s all (front ++ [e]) := by
  refine ⟨h.close, ?_⟩
  rintro _ _ ⟨⟩
  exact ⟨[], [], rfl, List.isChain_singleton e, List.suffix_append front [e], rfl⟩

/-- Adding white space or a comment keeps that all runs are stacks. -/
theorem AreStacks.add (h : r.AreStacks s all front) (hall : front ++ [e] <:+: all) :
    (r.add s e).AreStacks s all (front ++ [e]) := by
  cases hspace : isSpace e with
  | true =>
      rw [Runs.add, if_pos hspace]
      refine ⟨h.done, fun run prev hlast => ?_⟩
      obtain ⟨ds, gap, hids, hchain, ⟨before, rfl⟩, hcount⟩ := h.last run prev hlast
      refine ⟨ds, gap ++ [e], hids, hchain, ⟨before, by simp⟩, ?_⟩
      rw [List.flatMap_append, List.flatMap_singleton, Bytes.newlines, List.count_append]
      exact congrArg (· + e.2.text.newlines) hcount
  | false =>
      rw [Runs.add, if_neg (by simp [hspace])]
      cases hlast : r.last with
      | none => exact h.start e
      | some pair =>
          obtain ⟨run, prev⟩ := pair
          dsimp only
          split_ifs with hunder
          · simp only [Bool.and_eq_true, decide_eq_true_eq] at hunder
            obtain ⟨ds, gap, hids, hchain, ⟨before, rfl⟩, hcount⟩ := h.last run prev hlast
            have hpair : prev :: (gap ++ [e]) <:+: all :=
              List.IsInfix.trans ⟨before, [], by simp⟩ hall
            refine ⟨h.done, ?_⟩
            rintro _ _ ⟨⟩
            refine ⟨ds ++ [prev], [], by simp [hids], ?_, List.suffix_append _ [e], rfl⟩
            refine List.isChain_append.mpr ⟨hchain, List.isChain_singleton e, ?_⟩
            rintro a ha b ⟨⟩
            obtain rfl : prev = a := by simpa using ha
            exact ⟨hunder.2, gap, hpair, hcount.trans hunder.1⟩
          · exact h.start e

theorem AreStacks.foldl (h : r.AreStacks s all front) (hall : front ++ es <:+: all) :
    (es.foldl (Runs.add s) r).AreStacks s all (front ++ es) := by
  induction es generalizing r front with
  | nil => simpa using h
  | cons e es ih =>
      have hfirst : front ++ [e] <:+: all :=
        List.IsInfix.trans ⟨[], es, by simp⟩ hall
      simpa using ih (h.add hfirst) (by simpa using hall)

end Runs

/-- All runs of a stream are stacks. -/
theorem isStack_ofStream (s : TokenStream) (style : Style) (regions : Regions) :
    (TriviaIndex.ofStream s style regions).All (IsStack ⟨s.file, style, regions⟩ s.entries) := by
  refine TriviaIndex.all_ofStream (fun atEnd es h => isStack_splitTrailing atEnd h.1)
    fun n es h => ?_
  have hstart : Runs.AreStacks ⟨s.file, style, regions⟩ s.entries [] { newlines := n } :=
    ⟨nofun, nofun⟩
  exact (hstart.foldl h.1).close

end Trivia

/-- Whether tokens of a file are line comments that make up a stack: they start at one column with
one line break from each to the next, and each mentions no tag and starts in no region. -/
structure Token.AreStacked (file : SourceFile) (style : Style) (regions : Regions)
    (ts : List Token) : Prop where
  line : ∀ t ∈ ts, t.kind = .comment ∧ CommentStyle.ofText t.text = .line
  column : ∃ column, ∀ t ∈ ts, file.displayColumn t.start style.tabSize = column
  breaks : ts.IsChain fun t u => Bytes.newlines (file.text.slice t.stop u.start) = 1
  untagged : ∀ t ∈ ts, Verbatim.hasTag t.text style = false
  outside : ∀ t ∈ ts, ∀ v ∈ regions.spans, ¬v.Has t.start

/-- The elements of a chain with more than one element are related to others. -/
theorem forall_mem_of_isChain {α : Type} {R : α → α → Prop} {P : α → Prop} {as : List α}
    (h : as.IsChain R) (hP : ∀ a b, R a b → P a ∧ P b) (hlength : 1 < as.length) :
    ∀ a ∈ as, P a := by
  intro a ha
  obtain ⟨i, hi, rfl⟩ := List.mem_iff_getElem.mp ha
  rw [List.isChain_iff_getElem] at h
  cases i with
  | zero => exact (hP _ _ (h 0 hlength)).1
  | succ i => exact (hP _ _ (h i hi)).2

namespace Trivia

variable {file : SourceFile} {style : Style} {regions : Regions} {ds : List Entry}

theorem mem_of_isChain {s : Source} {all : List Entry} (hchain : ds.IsChain (Under s all))
    (hlength : 1 < ds.length) : ∀ e ∈ ds, e ∈ all ∧ mayStack s e = true := by
  refine forall_mem_of_isChain hchain (fun a b hunder => ?_) hlength
  obtain ⟨hstands, gap, hall, -⟩ := hunder
  simp only [standsUnder, Bool.and_eq_true] at hstands
  exact ⟨⟨hall.subset (by simp), hstands.1.1⟩, ⟨hall.subset (by simp), hstands.1.2⟩⟩

/-- Entries that stand under each other start at the column of the first one. -/
theorem column_of_isChain {s : Source} {all : List Entry} {first : Entry}
    (hchain : (first :: ds).IsChain (Under s all)) : ∀ e ∈ first :: ds,
      s.file.displayColumn e.2.start s.style.tabSize =
        s.file.displayColumn first.2.start s.style.tabSize := by
  have hsame : ((first :: ds).map fun e =>
      s.file.displayColumn e.2.start s.style.tabSize).IsChain (· = ·) := by
    refine (List.isChain_map _).mpr (hchain.imp fun a b hunder => ?_)
    simpa using (Bool.and_eq_true_iff.mp hunder.1).2
  have hall := List.isChain_eq_iff_eq_replicate.mp hsame _ rfl
  exact fun e he => List.eq_of_mem_replicate (hall ▸ List.mem_map.mpr ⟨e, he, rfl⟩)

/-- One line break is between two tokens of a file of which one stands under the other. -/
theorem newlines_of_under {a b : Entry}
    (h : Under ⟨file, style, regions⟩ (TokenStream.ofFile file).entries a b) :
    Bytes.newlines (file.text.slice a.2.stop b.2.start) = 1 := by
  obtain ⟨-, gap, ⟨before, after, hsplit⟩, hcount⟩ := h
  have hentries : (TokenStream.ofFile file).entries = before ++ a :: (gap ++ b :: after) := by
    simp [← hsplit]
  rw [TokenStream.slice_between hentries]
  exact hcount

/-- Entries of a file that stand under each other, if there are at least two, are a stack. -/
theorem areStacked_of_isChain (hlength : 1 < ds.length)
    (hchain : ds.IsChain (Under ⟨file, style, regions⟩ (TokenStream.ofFile file).entries))
    (hregions : regions.Fit file.text.length (TokenStream.ofFile file).tokens.toList)
    (hkind : ∀ e ∈ ds, e.2.kind = .comment) :
    Token.AreStacked file style regions (ds.map (·.2)) := by
  have hstack := mem_of_isChain hchain hlength
  simp only [mayStack, isLineComment, decide_eq_true_eq, Bool.and_eq_true, Bool.not_eq_true',
    Option.isNone_iff_eq_none] at hstack
  constructor
  case line => exact List.forall_mem_map.mpr fun e he => ⟨hkind e he, (hstack e he).2.1.1⟩
  case column =>
    obtain ⟨first, rest, rfl⟩ := List.exists_cons_of_length_pos (Nat.zero_lt_of_lt hlength)
    refine ⟨file.displayColumn first.2.start style.tabSize, List.forall_mem_map.mpr fun e he => ?_⟩
    exact column_of_isChain hchain e he
  case breaks =>
    exact (List.isChain_map _).mpr (hchain.imp fun a b hunder => newlines_of_under hunder)
  case untagged => exact List.forall_mem_map.mpr fun e he => (hstack e he).2.1.2
  case outside =>
    refine List.forall_mem_map.mpr fun e he => ?_
    have htoken := TokenStream.getElem?_of_mem_entries (hstack e he).1
    have hbounds := (TokenStream.ofFile_inOrder file).bounds e.2
      (List.mem_of_getElem? (by simpa using htoken))
    exact (hregions.at?_eq_none_iff (by omega)).mp (hstack e he).2.2

end Trivia

/-- The indices of all tokens and comments are those of the stream in its order. -/
theorem TokenStream.significant_sublist (s : TokenStream) :
    s.significant.Sublist (List.range s.tokens.size) := by
  have hids : s.tokens.toList.zipIdx.map (·.2) = List.range s.tokens.size := by
    simp [List.zipIdx_map_snd, List.range_eq_range']
  exact hids ▸ List.filter_sublist.map _

namespace TriviaIndex

/-- The indices of the tokens with structure in order, each with the comments around it, and then
those of the comments at the end of the text. -/
def reading (x : TriviaIndex) (s : TokenStream) : List Nat :=
  x.owed (s.structural.map (·.1))

/-- The tokens with structure and the runs around them, read in order, list each token and comment
of a file once and in its order. A run with more than one comment is a stack. -/
theorem ofStream_partition (file : SourceFile) (style : Style) (hmax : file.text.length < 2 ^ 63) :
    let s := TokenStream.ofFile file
    let regions := Regions.ofStream s style
    let x := TriviaIndex.ofStream s style regions
    (x.reading s).Pairwise (· < ·) ∧
      (∀ id, id ∈ x.reading s ↔ ∃ t, s.tokens[id]? = some t ∧ t.kind ≠ .space) ∧
      x.All fun run => 1 < run.ids.length →
        Token.AreStacked file style regions (run.ids.map s.tokenAt) := by
  intro s regions x
  have hreading : x.reading s = s.significant := (Build.owes_ofStream s style regions).account
  refine ⟨?_, fun id => ?_, fun id run hrun hlength => ?_⟩
  · rw [hreading]
    exact List.pairwise_lt_range.sublist s.significant_sublist
  · rw [hreading]
    exact TokenStream.mem_significant_iff
  · obtain ⟨ds, hids, hchain⟩ := Trivia.isStack_ofStream s style regions id run hrun
    rw [hids, List.length_map] at hlength
    have hentry : ∀ e ∈ ds, s.tokens[e.1]? = some e.2 := fun e he =>
      TokenStream.getElem?_of_mem_entries (Trivia.mem_of_isChain hchain hlength e he).1
    have hcomment : ∀ e ∈ ds, e.2.kind = .comment := fun e he => by
      obtain ⟨t, hget, hkind⟩ := (ofStream_all s style regions id run hrun).comments e.1
        (hids ▸ List.mem_map_of_mem he)
      rw [hentry e he] at hget
      exact Option.some.inj hget ▸ hkind
    have htokens : run.ids.map s.tokenAt = ds.map (·.2) := by
      rw [hids, List.map_map]
      exact List.map_congr_left fun e he => TokenStream.tokenAt_of_getElem? (hentry e he)
    rw [htokens]
    exact Trivia.areStacked_of_isChain hlength hchain (Regions.ofStream_fit hmax) hcomment

/-- A comment that trails a token, and one stacked under it in a text with tabs. -/
theorem ofStream_partition_two :
    let file : SourceFile := ⟨[], ascii "e\n\tf // a\n\t  // b\n\ng"⟩
    let s := TokenStream.ofFile file
    let regions := Regions.ofStream s Style.default
    let x := TriviaIndex.ofStream s Style.default regions
    file.text.length < 2 ^ 63 ∧ (x.reading s).Pairwise (· < ·) ∧
      { ids := [4, 6], newline := true } ∈ (x.get (some 2)).runs ∧
      Token.AreStacked file Style.default regions ([4, 6].map s.tokenAt) := by
  intro file s regions x
  have hmax : file.text.length < 2 ^ 63 := by decide
  have hrun : { ids := [4, 6], newline := true } ∈ (x.get (some 2)).runs := by decide +kernel
  obtain ⟨horder, -, hstacks⟩ := ofStream_partition file Style.default hmax
  exact ⟨hmax, horder, hrun, hstacks (some 2) _ hrun (by decide)⟩

end TriviaIndex

end CodeLayout
