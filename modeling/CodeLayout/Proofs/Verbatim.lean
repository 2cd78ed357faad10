import CodeLayout.Proofs.IntervalMap
import CodeLayout.Proofs.Text.Words
import CodeLayout.Proofs.Verbatim.Reading
import Mathlib.Algebra.Group.Nat.Defs

/-!
# Where regions lie

The regions of a file are the spans that are read from its comments. They follow each other and are
not empty, so that none of them gets lost on the way into a map of intervals and each is found at
its offsets. A region starts where a comment ends and ends where a comment or the text does, so that
a token lies inside of it or outside.
-/

namespace CodeLayout

namespace Verbatim

variable {first length : Nat}

/-- The entry of a span in the regions. -/
def entry (v : VerbatimSpan) : Interval VerbatimSpan :=
  ⟨Int64.ofNat v.start, Int64.ofNat v.stop, v⟩

theorem toInt_entry {v : VerbatimSpan} (h : v.start < v.stop) (hlen : v.stop ≤ length)
    (hmax : length < 2 ^ 63) :
    (entry v).start.toInt = v.start ∧ (entry v).stop.toInt = v.stop :=
  ⟨Int64.toInt_ofNat_of_lt (by omega), Int64.toInt_ofNat_of_lt (by omega)⟩

/-- Spans that are in order are all added to the regions before them. -/
theorem foldl_addSpan (hmax : length < 2 ^ 63) {vs : List VerbatimSpan} {r : Regions}
    (hvs : VerbatimSpan.InOrder first length vs)
    (hr : ∀ e ∈ r.entries, e.stop.toInt ≤ (first : Int)) :
    (vs.foldl addSpan r).entries = r.entries ++ vs.map entry := by
  induction vs generalizing first r with
  | nil => simp
  | cons v vs ih =>
      obtain ⟨hfirst, hrest⟩ := List.pairwise_cons.mp hvs.pairwise
      obtain ⟨hlo, hne, hhi⟩ := hvs.bounds v List.mem_cons_self
      obtain ⟨hstart, hstop⟩ := toInt_entry hne hhi hmax
      have hadd : addSpan r v = ⟨r.entries ++ [entry v]⟩ := by
        have hins := IntervalMap.insert_behind (m := r) (i := entry v) (by omega) fun e he => by
          have hle := hr e he
          omega
        simp only [addSpan]
        rw [show (⟨Int64.ofNat v.start, Int64.ofNat v.stop, v⟩ : Interval VerbatimSpan) = entry v
          from rfl, hins]
      have hvs' : VerbatimSpan.InOrder v.stop length vs :=
        ⟨hrest, fun w hw => ⟨hfirst w hw, (hvs.bounds w (List.mem_cons_of_mem v hw)).2⟩⟩
      rw [List.foldl_cons, hadd, ih hvs']
      · simp
      · intro e he
        simp only [List.mem_append, List.mem_singleton] at he
        rcases he with he | rfl
        · have hle := hr e he
          omega
        · omega

end Verbatim

namespace Regions

variable {file : SourceFile} {style : Style}

/-- The spans of a file that a style leaves alone. -/
def spansOf (file : SourceFile) (style : Style) : List VerbatimSpan :=
  if style.useTags && !style.disablingTag.squeeze.isEmpty then
    Verbatim.spansFrom style.disablingTag.squeeze style.enablingTag.squeeze file.text.length none
      (TokenStream.ofFile file).tokens.toList
  else []

theorem spansOf_inOrder (file : SourceFile) (style : Style) :
    VerbatimSpan.InOrder 0 file.text.length (spansOf file style) := by
  rw [spansOf]
  split
  · have hts := TokenStream.ofFile_inOrder file
    exact (Verbatim.areRead_spansFrom _ _ hts).inOrder hts
  · exact VerbatimSpan.InOrder.nil

/-- All spans of a file are entered into its regions. -/
theorem ofStream_entries (hmax : file.text.length < 2 ^ 63) :
    (ofStream (TokenStream.ofFile file) style).entries =
      (spansOf file style).map Verbatim.entry := by
  have hin := spansOf_inOrder file style
  rw [spansOf] at hin ⊢
  simp only [ofStream]
  split_ifs at hin ⊢
  · exact Verbatim.foldl_addSpan hmax hin (by simp [IntervalMap.empty])
  · rfl

theorem ofStream_spans (hmax : file.text.length < 2 ^ 63) :
    (ofStream (TokenStream.ofFile file) style).spans = spansOf file style := by
  simp [spans, ofStream_entries hmax, Verbatim.entry, Function.comp_def]

/-- If a style leaves a span alone, its spans are what is read from the comments. -/
theorem spansOf_areRead {v : VerbatimSpan} (hv : v ∈ spansOf file style) :
    style.useTags = true ∧
      VerbatimSpan.AreRead style.disablingTag.squeeze style.enablingTag.squeeze file.text.length
        (TokenStream.ofFile file).tokens.toList (spansOf file style) := by
  rw [spansOf] at hv ⊢
  split_ifs at hv ⊢ with htags
  · exact ⟨(Bool.and_eq_true_iff.mp htags).1,
      Verbatim.areRead_spansFrom _ _ (TokenStream.ofFile_inOrder file)⟩
  · cases hv

/-- A span starts behind a token and ends behind a comment or at the end of the text. It knows
whether that comment is a line comment. -/
theorem spansOf_ends {v : VerbatimSpan} (hv : v ∈ spansOf file style) :
    (∃ t ∈ (TokenStream.ofFile file).tokens.toList, t.stop = v.start) ∧
      (v.stop = file.text.length ∨
        ∃ t ∈ (TokenStream.ofFile file).tokens.toList, t.stop = v.stop ∧ t.kind = .comment ∧
          v.lineComment = decide (CommentStyle.ofText t.text = .line)) := by
  obtain ⟨-, t, ht, -, -, hstart, hends⟩ := ((spansOf_areRead hv).2.mem_iff v).mp hv
  constructor
  · exact ⟨t, ht, hstart.symm⟩
  · rcases hends with ⟨u, hu, hstop, hline⟩ | ⟨-, hstop, -⟩
    · exact Or.inr ⟨u, hu.mem, hstop.symm, hu.bears.1, hline⟩
    · exact Or.inl hstop

/-- What is known of the regions of a text: its spans are in order, a lookup finds the span that an
offset lies in, and each of the given tokens is inside of a span or outside. -/
structure Fit (r : Regions) (length : Nat) (ts : List Token) : Prop where
  inOrder : VerbatimSpan.InOrder 0 length r.spans
  at?_eq_some_iff : ∀ {offset v}, offset < length →
    (r.at? (Int64.ofNat offset) = some v ↔ v ∈ r.spans ∧ v.Has offset)
  apart : ∀ t ∈ ts, ∀ v ∈ r.spans,
    t.stop ≤ v.start ∨ (v.start ≤ t.start ∧ t.stop ≤ v.stop) ∨ v.stop ≤ t.start

theorem Fit.at?_eq_none_iff {r : Regions} {length : Nat} {ts : List Token} (h : r.Fit length ts)
    {offset : Nat} (hlt : offset < length) :
    r.at? (Int64.ofNat offset) = none ↔ ∀ v ∈ r.spans, ¬v.Has offset := by
  rw [Option.eq_none_iff_forall_not_mem]
  constructor
  · intro hnone v hv hin
    exact hnone v ((h.at?_eq_some_iff hlt).mpr ⟨hv, hin⟩)
  · intro hnone v hsome
    obtain ⟨hv, hin⟩ := (h.at?_eq_some_iff hlt).mp hsome
    exact hnone v hv hin

/-- The regions of a file fit its tokens. -/
theorem ofStream_fit (hmax : file.text.length < 2 ^ 63) :
    (ofStream (TokenStream.ofFile file) style).Fit file.text.length
      (TokenStream.ofFile file).tokens.toList := by
  have hentries := @ofStream_entries file style hmax
  have hspans := @ofStream_spans file style hmax
  have hin := spansOf_inOrder file style
  have htoInt : ∀ v ∈ spansOf file style, (Verbatim.entry v).start.toInt = v.start ∧
      (Verbatim.entry v).stop.toInt = v.stop := fun v hv =>
    Verbatim.toInt_entry (hin.bounds v hv).2.1 (hin.bounds v hv).2.2 hmax
  have hordered : IntervalMap.Ordered (ofStream (TokenStream.ofFile file) style).entries := by
    rw [hentries]
    constructor
    · refine List.pairwise_map.mpr (hin.pairwise.imp_of_mem fun {v w} hv hw hle => ?_)
      rw [(htoInt v hv).2, (htoInt w hw).1]
      omega
    · rintro _ he
      obtain ⟨v, hv, rfl⟩ := List.mem_map.mp he
      rw [(htoInt v hv).1, (htoInt v hv).2]
      have hne := (hin.bounds v hv).2.1
      omega
  refine ⟨hspans ▸ hin, fun {offset v} hlt => ?_, fun t ht v hv => ?_⟩
  · have hkey : (Int64.ofNat offset).toInt = offset := Int64.toInt_ofNat_of_lt (by omega)
    have hfound := fun i => @IntervalMap.get?_eq_some_iff _ _ i (Int64.ofNat offset) hordered
      (by omega)
    rw [at?, Option.map_eq_some_iff, hspans]
    constructor
    · rintro ⟨i, hget, rfl⟩
      obtain ⟨hi, hcontains⟩ := (hfound i).mp hget
      rw [hentries] at hi
      obtain ⟨v, hv, rfl⟩ := List.mem_map.mp hi
      rw [IntervalMap.contains_iff, (htoInt v hv).1, (htoInt v hv).2, hkey] at hcontains
      exact ⟨hv, by simp only [Verbatim.entry, VerbatimSpan.Has]; omega⟩
    · rintro ⟨hv, hhas⟩
      refine ⟨Verbatim.entry v, (hfound _).mpr ⟨?_, ?_⟩, rfl⟩
      · rw [hentries]
        exact List.mem_map_of_mem hv
      · rw [IntervalMap.contains_iff, (htoInt v hv).1, (htoInt v hv).2, hkey]
        simp only [VerbatimSpan.Has] at hhas
        omega
  · rw [hspans] at hv
    have htokens := TokenStream.ofFile_inOrder file
    have htb := htokens.bounds t ht
    obtain ⟨⟨u, hu, hstart⟩, hstop⟩ := spansOf_ends hv
    have hub := htokens.bounds u hu
    rcases htokens.apart ht hu with rfl | hbefore | hbehind
    · omega
    · omega
    · rcases hstop with hstop | ⟨w, hw, hstop, -⟩
      · omega
      · have hwb := htokens.bounds w hw
        rcases htokens.apart ht hw with rfl | hle | hle <;> omega

/-- A region opens behind a comment that starts with the disabling tag and is in no region. -/
theorem ofStream_opening (hmax : file.text.length < 2 ^ 63) {v : VerbatimSpan}
    (hv : v ∈ (ofStream (TokenStream.ofFile file) style).spans) :
    ∃ t ∈ (TokenStream.ofFile file).tokens.toList, t.kind = .comment ∧
      Verbatim.startsWith style.disablingTag.squeeze t.text = true ∧
      Verbatim.hasTag t.text style = true ∧ t.stop = v.start ∧
      ∀ u ∈ (ofStream (TokenStream.ofFile file) style).spans,
        t.stop ≤ u.start ∨ u.stop ≤ t.start := by
  rw [ofStream_spans hmax] at hv ⊢
  obtain ⟨htags, hread⟩ := spansOf_areRead hv
  obtain ⟨-, t, ht, hbears, hout, hstart, -⟩ := (hread.mem_iff v).mp hv
  have hstarts := (Token.bears_iff.mp hbears).2
  obtain ⟨hkind, hne, hlead⟩ := hbears
  refine ⟨t, ht, hkind, hstarts, ?_, hstart.symm, fun u hu => ?_⟩
  · simp [Verbatim.hasTag, htags, hne,
      Bytes.has_iff_isInfix.mpr hlead.isInfix]
  · have hapart := hout u hu
    omega

/-- The regions of a file whose style has a disabling tag are what is read from its comments and
nothing else; no two of them have an offset in common; and a lookup finds the one that has an
offset, if there is one. -/
theorem ofStream_areRead (file : SourceFile) (style : Style) (hmax : file.text.length < 2 ^ 63)
    (htags : style.useTags = true) (hoff : style.disablingTag.squeeze ≠ []) :
    (∀ vs, VerbatimSpan.AreRead style.disablingTag.squeeze style.enablingTag.squeeze
        file.text.length (TokenStream.ofFile file).tokens.toList vs ↔
      vs = (ofStream (TokenStream.ofFile file) style).spans) ∧
    ((ofStream (TokenStream.ofFile file) style).spans.Pairwise fun v w =>
      ∀ offset, ¬(v.Has offset ∧ w.Has offset)) ∧
    ∀ offset v, offset < file.text.length →
      ((ofStream (TokenStream.ofFile file) style).at? (Int64.ofNat offset) = some v ↔
        v ∈ (ofStream (TokenStream.ofFile file) style).spans ∧ v.Has offset) := by
  have hfit := @ofStream_fit file style hmax
  have hread := Verbatim.areRead_spansFrom style.disablingTag.squeeze style.enablingTag.squeeze
    (TokenStream.ofFile_inOrder file)
  have hspans : spansOf file style = Verbatim.spansFrom style.disablingTag.squeeze
      style.enablingTag.squeeze file.text.length none (TokenStream.ofFile file).tokens.toList := by
    rw [spansOf, if_pos (by simp [htags, hoff])]
  rw [← hspans, ← ofStream_spans hmax] at hread
  refine ⟨fun vs => ⟨fun h => h.eq hread, fun h => h ▸ hread⟩, ?_, fun offset v hlt =>
    hfit.at?_eq_some_iff hlt⟩
  refine hfit.inOrder.pairwise.imp fun hle offset => ?_
  simp only [VerbatimSpan.Has]
  omega

/-- A region between two line comments, in which the disabling tag stands once more, and one that is
never closed. -/
theorem ofStream_areRead_two :
    let text := ascii "//  off \na // off\n// on\nb /* off */ c"
    let style : Style := { useTags := true, disablingTag := ascii "off", enablingTag := ascii "on" }
    text.length < 2 ^ 63 ∧ style.useTags = true ∧ style.disablingTag.squeeze ≠ [] ∧
      VerbatimSpan.AreRead style.disablingTag.squeeze style.enablingTag.squeeze text.length
        (TokenStream.ofFile ⟨[], text⟩).tokens.toList [⟨8, 23, true⟩, ⟨35, 37, false⟩] := by
  intro text style
  have hmax : text.length < 2 ^ 63 := by decide
  have hoff : style.disablingTag.squeeze ≠ [] := by decide
  refine ⟨hmax, rfl, hoff, ?_⟩
  exact ((ofStream_areRead ⟨[], text⟩ style hmax rfl hoff).1 _).mpr (by decide +kernel)

end Regions

end CodeLayout
