import CodeLayout.Proofs.Account.Partition
import CodeLayout.Proofs.Kept.Basic
import CodeLayout.Proofs.Token.Lossless
import Mathlib.Data.List.DropRight

/-!
# White space between tokens

What surrounds a token tells whether a line break of the input is anywhere between the token and the
one with structure before it, and how many blank lines are right before the token and before each of
its comments.
-/

namespace CodeLayout

/-- Whether a line break of the input is between the token that starts at an offset and the one with
structure before it. -/
def TokenStream.BreaksBefore (s : TokenStream) (start : Int) : Prop :=
  ∃ p t, [p, t] <:+: s.structural ∧ (t.2.start : Int) = start ∧
    newline ∈ s.file.text.slice p.2.stop t.2.start

/-- The tokens that start before an offset. -/
def TokenStream.startingBefore (s : TokenStream) (start : Int) : List Token :=
  s.tokens.toList.filter fun t => (t.start : Int) < start

/-- The number of line breaks in the white space right before an offset. -/
def TokenStream.newlinesBefore (s : TokenStream) (start : Int) : Nat :=
  Bytes.newlines (((s.startingBefore start).rtakeWhile fun t => t.kind = .space).flatMap Token.text)

namespace Trivia

variable {s : Source} {es es' pending : List Entry} {x : TriviaIndex} {prev next : Option Entry}
  {i : Nat}

/-- What stands before a token. -/
def before (t : Trivia) : Trivia :=
  { t with trailing := none }

/-- A change of what trails a token does not matter for what stands before tokens. -/
theorem before_modify_trailing {trailing : Option CommentRun} (hi : i < x.tokens.size) (j : Nat) :
    ((x.modify (some j) fun t => { t with trailing }).get (some i)).before =
      (x.get (some i)).before := by
  by_cases hj : j = i
  · subst hj
    rw [TriviaIndex.get_modify_self hi]
    rfl
  · exact congrArg before (TriviaIndex.get_modify_of_ne hj)

theorem before_addGap (hi : i < x.tokens.size) (hnext : ∀ e ∈ next, e.1 ≠ i) :
    ((addGap s x prev pending next).get (some i)).before = (x.get (some i)).before := by
  obtain ⟨trailing, leading, blank, broken, -, -, heq⟩ :=
    addGap_eq (s := s) (x := x) prev pending next
  rw [heq]
  have hlast {y : TriviaIndex} (hy : i < y.tokens.size) :
      (y.modify (next.map (·.1)) fun t => { t with leading, blank, broken }).get (some i) =
        y.get (some i) := by
    cases next with
    | none => exact TriviaIndex.get_modify_none hy
    | some e => exact TriviaIndex.get_modify_of_ne (hnext e rfl)
  cases prev with
  | none => exact congrArg before (hlast hi)
  | some p =>
      refine (congrArg before (hlast ?_)).trans (before_modify_trailing hi p.1)
      simpa [TriviaIndex.modify] using hi

theorem before_addGaps (hi : i < x.tokens.size) (hes : ∀ e ∈ es, e.1 ≠ i) :
    ((addGaps s x prev pending es).get (some i)).before = (x.get (some i)).before := by
  induction es generalizing x prev pending with
  | nil => exact before_addGap hi (by rintro _ ⟨⟩)
  | cons e es ih =>
      obtain ⟨he, hrest⟩ := List.forall_mem_cons.mp hes
      rw [addGaps]
      split_ifs
      · exact ih hi hrest
      · rw [ih (by rwa [size_addGap]) hrest]
        exact before_addGap hi (by simpa using he)

theorem size_addGaps : (addGaps s x prev pending es).tokens.size = x.tokens.size := by
  induction es generalizing x prev pending with
  | nil => exact size_addGap
  | cons e es ih =>
      rw [addGaps]
      split_ifs
      · exact ih
      · exact ih.trans size_addGap

theorem broken_addGaps (hi : i < x.tokens.size) (hes : ∀ e ∈ es, e.1 ≠ i) :
    ((addGaps s x prev pending es).get (some i)).broken = (x.get (some i)).broken := by
  have hsame : ((addGaps s x prev pending es).get (some i)).before.broken =
      (x.get (some i)).before.broken := by rw [before_addGaps hi hes]
  exact hsame

/-- A line break between two tokens is found at the second one. -/
theorem broken_addGap_self {p e : Entry} (hi : e.1 < x.tokens.size)
    (hbreak : newline ∈ pending.flatMap fun d => d.2.text) :
    ((addGap s x (some p) pending (some e)).get (some e.1)).broken = true := by
  obtain ⟨d, hd, hmem⟩ := List.mem_flatMap.mp hbreak
  have hlt : e.1 < (x.modify (some p.1) fun t =>
      { t with trailing := (splitTrailing s false pending).1 }).tokens.size := by
    simpa [TriviaIndex.modify] using hi
  refine (congrArg Trivia.broken (TriviaIndex.get_modify_self hlt)).trans ?_
  simp only [Option.isSome_some, Bool.true_and, List.any_eq_true]
  exact ⟨d, hd, by simpa using hmem⟩

/-- What comes first may be passed over. -/
theorem addGaps_append : ∃ y prev' pending', y.tokens.size = x.tokens.size ∧
    addGaps s x prev pending (es ++ es') = addGaps s y prev' pending' es' := by
  induction es generalizing x prev pending with
  | nil => exact ⟨x, prev, pending, rfl, rfl⟩
  | cons e es ih =>
      rw [List.cons_append, addGaps]
      split_ifs
      · exact ih
      · obtain ⟨y, prev', pending', hsize, heq⟩ := ih
        exact ⟨y, prev', pending', hsize.trans size_addGap, heq⟩

theorem addGaps_skip {gap : List Entry} (hgap : ∀ e ∈ gap, e.2.kind.isSkippable = true) :
    addGaps s x prev pending (gap ++ es) = addGaps s x prev (gap.reverse ++ pending) es := by
  induction gap generalizing pending with
  | nil => rfl
  | cons e gap ih =>
      obtain ⟨he, hrest⟩ := List.forall_mem_cons.mp hgap
      rw [List.cons_append, addGaps, if_pos he, ih hrest]
      simp

/-- A line break in the gap before a token is found at that token. -/
theorem broken_addGaps_gap {before gap after : List Entry} {p e : Entry}
    (hp : p.2.kind.isSkippable = false) (he : e.2.kind.isSkippable = false)
    (hgap : ∀ d ∈ gap, d.2.kind.isSkippable = true) (hafter : ∀ d ∈ after, d.1 ≠ e.1)
    (hi : e.1 < x.tokens.size) (hbreak : newline ∈ gap.flatMap fun d => d.2.text) :
    ((addGaps s x prev pending (before ++ p :: (gap ++ e :: after))).get (some e.1)).broken =
      true := by
  obtain ⟨y, prev', pending', hsize, heq⟩ : ∃ y prev' pending', y.tokens.size = x.tokens.size ∧
      addGaps s x prev pending (before ++ p :: (gap ++ e :: after)) =
        addGaps s y prev' pending' (p :: (gap ++ e :: after)) := addGaps_append
  rw [heq, addGaps, if_neg (by simp [hp]), addGaps_skip hgap, addGaps, if_neg (by simp [he])]
  have hlt : e.1 < (addGap s y prev' pending'.reverse (some p)).tokens.size := by
    rwa [size_addGap, hsize]
  rw [broken_addGaps (by rwa [size_addGap]) hafter]
  exact broken_addGap_self hlt (by simpa using hbreak)

/-- The number of line breaks right before what comes behind a token, if `n` are right before the
token. -/
def linesAfter (n : Nat) (t : Token) : Nat :=
  if t.kind = .space then n + t.text.newlines else 0

/-- Behind something else than white space, only the white space since then is of account. -/
theorem foldl_linesAfter {n : Nat} {ts : List Token} (h : ∃ t ∈ ts, t.kind ≠ .space) :
    ts.foldl linesAfter n =
      Bytes.newlines ((ts.rtakeWhile fun t => t.kind = .space).flatMap Token.text) := by
  induction ts using List.reverseRecOn with
  | nil => simp at h
  | append_singleton ts t ih =>
      rw [List.foldl_append, List.foldl_cons, List.foldl_nil, linesAfter]
      by_cases hspace : t.kind = .space
      · have hts : ∃ t ∈ ts, t.kind ≠ .space := by
          obtain ⟨u, hu, hkind⟩ := h
          rcases List.mem_append.mp hu with hu | hu
          · exact ⟨u, hu, hkind⟩
          · exact absurd hspace (List.mem_singleton.mp hu ▸ hkind)
        rw [if_pos hspace, ih hts, List.rtakeWhile_concat_pos _ _ _ (by simpa using hspace),
          List.flatMap_append, List.flatMap_singleton, Bytes.newlines, Bytes.newlines,
          Bytes.newlines, List.count_append]
      · rw [if_neg hspace, List.rtakeWhile_concat_neg _ _ _ (by simpa using hspace)]
        rfl

/-- Whether a function tells how many line breaks are right before each of some entries, if `n` are
before the first one. -/
def Counts (lines : Nat → Nat) : Nat → List Entry → Prop
  | _, [] => True
  | n, e :: es => lines e.1 = n ∧ Counts lines (linesAfter n e.2) es

/-- Whether a run has all blank lines before it that are in the white space before its first
comment. -/
def IsTimed (lines : Nat → Nat) (run : CommentRun) : Prop :=
  run.ids ≠ [] ∧ run.blank = lines (run.ids.headD 0) - 1

section Counts

variable {lines : Nat → Nat} {n : Nat} {e : Entry}

theorem linesAfter_space (h : isSpace e = true) : linesAfter n e.2 = n + e.2.text.newlines :=
  if_pos (of_decide_eq_true h)

theorem linesAfter_of_not (h : isSpace e = false) : linesAfter n e.2 = 0 :=
  if_neg (of_decide_eq_false h)

theorem linesAfter_stays (h : e.2.text.contains newline = false) : linesAfter 0 e.2 = 0 := by
  rw [linesAfter]
  split_ifs
  · rw [Nat.zero_add, Bytes.newlines, List.count_eq_zero]
    simpa using h
  · rfl

theorem counts_stackedUnder {last : Entry} {es : List Entry} (tail : List Entry)
    (h : Counts lines 0 (es ++ tail)) : Counts lines 0 ((stackedUnder s last es).2 ++ tail) := by
  induction last, es using stackedUnder.induct s with
  | case1 last space comment rest hcond more left heq ih =>
      rw [stackedUnder, if_pos hcond, heq]
      rw [heq] at ih
      simp only [Bool.and_eq_true, Bool.not_eq_true'] at hcond
      have hrest : Counts lines (linesAfter _ comment.2) (rest ++ tail) := h.2.2
      rw [linesAfter_of_not hcond.1.2] at hrest
      exact ih hrest
  | case2 last space comment rest hcond =>
      rw [stackedUnder, if_neg hcond]
      exact h
  | case3 last rest hshort =>
      rw [stackedUnder_of_short hshort]
      exact h

theorem counts_of_spaces {front es : List Entry}
    (hfront : ∀ e ∈ front, isSpace e = true ∧ e.2.text.contains newline = false)
    (h : Counts lines 0 (front ++ es)) : Counts lines 0 es := by
  induction front with
  | nil => exact h
  | cons e front ih =>
      obtain ⟨⟨-, he⟩, hrest⟩ := List.forall_mem_cons.mp hfront
      exact ih hrest (linesAfter_stays he ▸ h.2)

/-- No line break is before the run that trails a token, and what is left is counted on. -/
theorem counts_splitTrailing (atEnd : Bool) {pending : List Entry} (tail : List Entry)
    (h : Counts lines 0 (pending ++ tail)) :
    (∀ run ∈ (splitTrailing s atEnd pending).1, IsTimed lines run) ∧
      Counts lines 0 ((splitTrailing s atEnd pending).2 ++ tail) := by
  rcases splitTrailing_cases s atEnd pending with heq |
    ⟨front, first, rest, rfl, hspace, hfront, heq⟩
  · rw [heq]
    exact ⟨nofun, h⟩
  · obtain ⟨hfirst, hrest⟩ : Counts lines 0 (first :: (rest ++ tail)) :=
      counts_of_spaces hfront (by simpa using h)
    rw [linesAfter_of_not hspace] at hrest
    rcases heq with heq | heq <;> rw [heq]
    · refine ⟨?_, counts_stackedUnder tail hrest⟩
      rintro _ ⟨⟩
      exact ⟨List.cons_ne_nil _ _, by simp [hfirst]⟩
    · refine ⟨?_, hrest⟩
      rintro _ ⟨⟩
      exact ⟨List.cons_ne_nil _ _, by simp [hfirst]⟩

namespace Runs

/-- Whether all runs that are collected have their blank lines. -/
structure AreTimed (lines : Nat → Nat) (r : Runs) : Prop where
  done : ∀ run ∈ r.done, IsTimed lines run
  last : ∀ run e, r.last = some (run, e) → IsTimed lines run

variable {r : Runs}

theorem AreTimed.close (h : r.AreTimed lines) : ∀ run ∈ r.close, IsTimed lines run := by
  intro run hrun
  simp only [Runs.close] at hrun
  split at hrun
  · rename_i last prev hlast
    rcases List.mem_cons.mp hrun with rfl | hrun
    · exact h.last last prev hlast
    · exact h.done run hrun
  · exact h.done run hrun

theorem AreTimed.start (h : r.AreTimed lines) (he : lines e.1 = r.newlines) :
    (r.start e).AreTimed lines := by
  refine ⟨h.close, ?_⟩
  rintro _ _ ⟨⟩
  exact ⟨List.cons_ne_nil _ _, by simp [he]⟩

theorem AreTimed.add (h : r.AreTimed lines) (he : lines e.1 = r.newlines) :
    (r.add s e).AreTimed lines ∧ (r.add s e).newlines = linesAfter r.newlines e.2 := by
  cases hspace : isSpace e with
  | true =>
      rw [Runs.add, if_pos hspace, linesAfter_space hspace]
      exact ⟨⟨h.done, h.last⟩, rfl⟩
  | false =>
      rw [Runs.add, if_neg (by simp [hspace]), linesAfter_of_not hspace]
      cases hlast : r.last with
      | none => exact ⟨h.start he, rfl⟩
      | some pair =>
          obtain ⟨run, prev⟩ := pair
          obtain ⟨hne, hblank⟩ := h.last run prev hlast
          dsimp only
          split_ifs
          · -- The first comment of the run stays.
            refine ⟨⟨h.done, ?_⟩, rfl⟩
            rintro _ _ ⟨⟩
            obtain ⟨i, is, his⟩ := List.exists_cons_of_ne_nil hne
            exact ⟨by simp, by simpa [his] using hblank⟩
          · exact ⟨h.start he, rfl⟩

theorem AreTimed.foldl {es : List Entry} (tail : List Entry) (h : r.AreTimed lines)
    (hes : Counts lines r.newlines (es ++ tail)) : (es.foldl (Runs.add s) r).AreTimed lines ∧
      Counts lines (es.foldl (Runs.add s) r).newlines tail := by
  induction es generalizing r with
  | nil => exact ⟨h, hes⟩
  | cons e es ih =>
      obtain ⟨he, hrest⟩ := hes
      obtain ⟨hadd, hnewlines⟩ := h.add (s := s) he
      exact ih hadd (hnewlines ▸ hrest)

end Runs

/-- Between two tokens all runs get their blank lines, and so does the second token. -/
theorem timed_addGap (hx : x.All (IsTimed lines)) (prev next : Option Entry) {pending : List Entry}
    (h : Counts lines (if prev.isNone then 1 else 0) (pending ++ next.toList)) :
    (addGap s x prev pending next).All (IsTimed lines) ∧ ∀ e ∈ next, e.1 < x.tokens.size →
      ((addGap s x prev pending next).get (some e.1)).blank = lines e.1 - 1 := by
  have hlead : ∀ {y : TriviaIndex} {rest : List Entry} (n : Nat) (broken : Bool),
      y.All (IsTimed lines) → y.tokens.size = x.tokens.size →
      Counts lines n (rest ++ next.toList) →
      let runs := rest.foldl (Runs.add s) { newlines := n }
      let z := y.modify (next.map (·.1)) fun t =>
        { t with leading := runs.close.reverse, blank := runs.newlines - 1, broken }
      z.All (IsTimed lines) ∧ ∀ e ∈ next, e.1 < x.tokens.size →
        (z.get (some e.1)).blank = lines e.1 - 1 := by
    intro y rest n broken hy hsize hcounts runs z
    obtain ⟨hruns, hnext⟩ := Runs.AreTimed.foldl (s := s) (r := { newlines := n }) next.toList
      ⟨nofun, nofun⟩ hcounts
    refine ⟨hy.modify _ fun t ht run hrun => ?_, ?_⟩
    · rcases List.mem_append.mp hrun with hrun | hrun
      · exact hruns.close run (List.mem_reverse.mp hrun)
      · exact ht run (List.mem_append_right _ hrun)
    · rintro e rfl hlt
      refine (congrArg Trivia.blank (TriviaIndex.get_modify_self (hsize ▸ hlt))).trans ?_
      rw [hnext.1]
  cases prev with
  | none => exact hlead 1 _ hx rfl h
  | some p =>
      obtain ⟨htrail, hleft⟩ := counts_splitTrailing (s := s) next.isNone next.toList h
      refine hlead 0 _ (hx.modify _ fun t ht run hrun => ?_) (by simp [TriviaIndex.modify]) hleft
      rcases List.mem_append.mp hrun with hrun | hrun
      · exact ht run (List.mem_append_left _ hrun)
      · exact htrail run (Option.mem_toList.mp hrun)

theorem counts_append {es es' : List Entry} : Counts lines n (es ++ es') ↔
    Counts lines n es ∧ Counts lines ((es.map (·.2)).foldl linesAfter n) es' := by
  induction es generalizing n with
  | nil => simp [Counts]
  | cons e es ih => simp [Counts, ih, and_assoc]

theorem counts_of_split {es : List Entry} (h : ∀ front e back, es = front ++ e :: back →
    lines e.1 = (front.map (·.2)).foldl linesAfter n) : Counts lines n es := by
  induction es generalizing n with
  | nil => trivial
  | cons e es ih =>
      exact ⟨h [] e es rfl, ih fun front d back heq => h (e :: front) d back (by rw [heq]; rfl)⟩

/-- All runs and all tokens get their blank lines. -/
theorem timed_addGaps (hx : x.All (IsTimed lines)) (prev : Option Entry) (pending : List Entry)
    {es : List Entry} (h : Counts lines (if prev.isNone then 1 else 0) (pending.reverse ++ es))
    (hnodup : (es.map (·.1)).Nodup) (hlt : ∀ e ∈ es, e.1 < x.tokens.size) :
    (addGaps s x prev pending es).All (IsTimed lines) ∧
      ∀ e ∈ es, e.2.kind.isSkippable = false →
        ((addGaps s x prev pending es).get (some e.1)).blank = lines e.1 - 1 := by
  induction es generalizing x prev pending with
  | nil => exact ⟨(timed_addGap hx prev none h).1, nofun⟩
  | cons e es ih =>
      obtain ⟨he, hrest⟩ := List.nodup_cons.mp hnodup
      obtain ⟨hlte, hlts⟩ := List.forall_mem_cons.mp hlt
      rw [addGaps]
      split_ifs with hskip
      · obtain ⟨hall, hblank⟩ := ih hx prev (e :: pending) (by simpa using h) hrest hlts
        exact ⟨hall, List.forall_mem_cons.mpr ⟨fun hkind => by simp [hkind] at hskip, hblank⟩⟩
      · obtain ⟨hgap, hafter⟩ := counts_append.mp (List.append_cons .. ▸ h)
        rw [List.map_append, List.foldl_append] at hafter
        have hspace := isSpace_eq_false (eq_false_of_ne_true hskip)
        obtain ⟨hnow, hblank⟩ := timed_addGap (s := s) hx prev (some e) hgap
        obtain ⟨hall, hlater⟩ := ih hnow (some e) []
          (by simpa [linesAfter_of_not hspace] using hafter) hrest (by rwa [size_addGap])
        refine ⟨hall, List.forall_mem_cons.mpr ⟨fun _ => ?_, hlater⟩⟩
        have hne : ∀ d ∈ es, d.1 ≠ e.1 := fun d hd heq => he (List.mem_map.mpr ⟨d, hd, heq⟩)
        have hsame : ((addGaps s (addGap s x prev pending.reverse (some e)) (some e) [] es).get
            (some e.1)).before.blank =
              ((addGap s x prev pending.reverse (some e)).get (some e.1)).before.blank := by
          rw [before_addGaps (by rwa [size_addGap]) hne]
        exact hsame.trans (hblank e rfl hlte)

end Counts

end Trivia

/-- Two neighbours among the elements that have a property have only others between them. -/
theorem exists_gap_of_infix_filter {α : Type} {P : α → Bool} {a b : α} {as : List α}
    (h : [a, b] <:+: as.filter P) : ∃ before gap after, as = before ++ a :: (gap ++ b :: after) ∧
      P a = true ∧ P b = true ∧ ∀ c ∈ gap, P c = false := by
  obtain ⟨before, after, hsplit⟩ := h
  rw [List.append_assoc] at hsplit
  obtain ⟨first, rest, rfl, -, hrest⟩ := List.filter_eq_append_iff.mp hsplit.symm
  obtain ⟨skipped, rest, rfl, -, ha, hrest⟩ := List.filter_eq_cons_iff.mp hrest
  obtain ⟨gap, rest, rfl, hgap, hb, -⟩ := List.filter_eq_cons_iff.mp hrest
  exact ⟨first ++ skipped, gap, rest, by simp, ha, hb, by simpa using hgap⟩

namespace Token

/-- Tokens that lie side by side start where the texts before them end. -/
theorem Tile.append {first last : Nat} {as bs : List Token} (h : Tile first last (as ++ bs)) :
    Tile (first + (as.flatMap Token.text).length) last bs := by
  induction as generalizing first with
  | nil => exact h
  | cons a as ih =>
      obtain ⟨rfl, hrest⟩ := h
      rw [List.flatMap_cons, List.length_append, ← Nat.add_assoc]
      exact ih hrest

/-- The text between two tokens is that of the tokens between them. -/
theorem Tile.slice_eq {last : Nat} {before gap after : List Token} {p t : Token}
    (h : Tile 0 last (before ++ p :: (gap ++ t :: after))) :
    Bytes.slice ((before ++ p :: (gap ++ t :: after)).flatMap Token.text) p.stop t.start =
      gap.flatMap Token.text := by
  obtain ⟨hp, hrest⟩ := h.append
  obtain ⟨ht, -⟩ := hrest.append
  have hstop : p.stop = (before.flatMap Token.text ++ p.text).length := by
    rw [List.length_append, Token.stop, hp, Nat.zero_add]
  rw [Bytes.slice, ht, Nat.add_sub_cancel_left, hstop, List.flatMap_append, List.flatMap_cons,
    ← List.append_assoc, List.drop_left, List.flatMap_append, List.take_left]

end Token

/-- The text between two tokens of a file is that of the tokens between them. -/
theorem TokenStream.slice_between {file : SourceFile} {p t : Trivia.Entry}
    {before gap after : List Trivia.Entry}
    (h : (ofFile file).entries = before ++ p :: (gap ++ t :: after)) :
    file.text.slice p.2.stop t.2.start = gap.flatMap (·.2.text) := by
  have hreads := Pattern.reads_tokensFrom file.text.length 0 file.text (Nat.le_refl _)
  have htokens : (ofFile file).tokens.toList =
      before.map (·.2) ++ p.2 :: (gap.map (·.2) ++ t.2 :: after.map (·.2)) := by
    rw [← entries_map_snd, h]
    simp
  have htile := hreads.tile
  have htext := hreads.flatMap_text
  change Token.Tile 0 _ (ofFile file).tokens.toList at htile
  change (ofFile file).tokens.toList.flatMap Token.text = _ at htext
  rw [htokens] at htile htext
  rw [← htext, htile.slice_eq, List.flatMap_map]

/-- No two tokens of a file start at one offset. -/
theorem TokenStream.ofFile_inj {file : SourceFile} {i j : Nat} {t u : Token}
    (ht : (ofFile file).tokens[i]? = some t) (hu : (ofFile file).tokens[j]? = some u)
    (h : t.start = u.start) : i = j := by
  have hin := ofFile_inOrder file
  have hpair := List.pairwise_iff_getElem.mp hin.pairwise
  rw [← Array.getElem?_toList] at ht hu
  obtain ⟨hi, rfl⟩ := List.getElem?_eq_some_iff.mp ht
  obtain ⟨hj, rfl⟩ := List.getElem?_eq_some_iff.mp hu
  have hti := (hin.bounds _ (List.getElem_mem hi)).2.1
  have htj := (hin.bounds _ (List.getElem_mem hj)).2.1
  rcases Nat.lt_trichotomy i j with hij | rfl | hij
  · have := hpair i j hi hj hij
    omega
  · rfl
  · have := hpair j i hj hi hij
    omega

/-- All line breaks between the tokens of a file are found. -/
theorem TriviaIndex.broken_ofStream {file : SourceFile} {style : Style} {regions : Regions}
    {i : Nat} {t : Token} (ht : (TokenStream.ofFile file).tokens[i]? = some t)
    (h : (TokenStream.ofFile file).BreaksBefore t.start) :
    ((ofStream (TokenStream.ofFile file) style regions).get (some i)).broken = true := by
  obtain ⟨p, e, hinfix, hstart, hbreak⟩ := h
  rw [TokenStream.structural_eq_filter] at hinfix
  obtain ⟨before, gap, after, hsplit, hp, he, hgap⟩ := exists_gap_of_infix_filter hinfix
  have hmem : e ∈ (TokenStream.ofFile file).entries := by simp [hsplit]
  have hget := TokenStream.getElem?_of_mem_entries hmem
  -- The token at the offset is the one with this index.
  obtain rfl : e.1 = i := TokenStream.ofFile_inj hget ht (Int.ofNat_inj.mp hstart)
  obtain ⟨hlt, -⟩ := Array.getElem?_eq_some_iff.mp hget
  change newline ∈ file.text.slice p.2.stop e.2.start at hbreak
  rw [TokenStream.slice_between hsplit] at hbreak
  have hnodup : (before.map (·.1) ++ p.1 :: (gap.map (·.1) ++ e.1 :: after.map (·.1))).Nodup := by
    have hids := (TokenStream.ofFile file).entries_map_fst ▸ List.nodup_range
    rw [hsplit] at hids
    simpa using hids
  change ((Trivia.addGaps _ _ none [] (TokenStream.ofFile file).entries).get _).broken = true
  rw [hsplit]
  refine Trivia.broken_addGaps_gap (by simpa using hp) (by simpa using he) (by simpa using hgap) ?_
    (by simpa using hlt) hbreak
  intro d hd heq
  refine (List.nodup_cons.mp (hnodup.of_append_right.of_cons.of_append_right)).1 ?_
  exact heq ▸ List.mem_map_of_mem hd

namespace TokenStream

/-- The white space of the input that a style keeps. The start of the text counts as a line
break. -/
def spacing (s : TokenStream) (style : Style) : Spacing where
  breaks start := style.joinWrapped = false ∧ s.BreaksBefore start
  blank start :=
    min (((s.startingBefore start).foldl Trivia.linesAfter 1 - 1 : Nat) : Int) style.blankLines

variable {file : SourceFile} {style : Style} {start : Int} {t : Token}

/-- Behind the first token or comment, the line breaks right before an offset count. -/
theorem spacing_blank {s : TokenStream} (h : ∃ t ∈ s.startingBefore start, t.kind ≠ .space) :
    (s.spacing style).blank start =
      min ((s.newlinesBefore start - 1 : Nat) : Int) style.blankLines := by
  rw [newlinesBefore, ← Trivia.foldl_linesAfter h]
  rfl

/-- The tokens that start before a token of a file are those in front of it. -/
theorem startingBefore_eq {front back : List Token}
    (h : (ofFile file).tokens.toList = front ++ t :: back) :
    (ofFile file).startingBefore t.start = front := by
  have hin := ofFile_inOrder file
  rw [h] at hin
  obtain ⟨-, hback, hfront⟩ := List.pairwise_append.mp hin.pairwise
  have hbefore : front.filter (fun u => (u.start : Int) < t.start) = front := by
    refine List.filter_eq_self.mpr fun u hu => ?_
    have hle := hfront u hu t List.mem_cons_self
    have hlt := (hin.bounds u (List.mem_append_left _ hu)).2.1
    exact decide_eq_true (by omega)
  have hbehind : back.filter (fun u => (u.start : Int) < t.start) = [] := by
    refine List.filter_eq_nil_iff.mpr fun u hu => ?_
    have hle := (List.pairwise_cons.mp hback).1 u hu
    have hlt := (hin.bounds t (List.mem_append_right _ List.mem_cons_self)).2.1
    simp only [decide_eq_true_eq]
    omega
  rw [startingBefore, h, List.filter_append, List.filter_cons_of_neg (by simp), hbefore, hbehind,
    List.append_nil]

/-- The number of line breaks right before each token of a file. -/
theorem counts_entries :
    Trivia.Counts (fun i => ((ofFile file).startingBefore
      ((ofFile file).tokens.getD i default).start).foldl Trivia.linesAfter 1) 1
      (ofFile file).entries := by
  refine Trivia.counts_of_split fun front e back heq => ?_
  have hget := getElem?_of_mem_entries (s := ofFile file) (e := e) (by simp [heq])
  have htokens : (ofFile file).tokens.toList = front.map (·.2) ++ e.2 :: back.map (·.2) := by
    rw [← entries_map_snd, heq]
    simp
  rw [Array.getD_eq_getD_getElem?, hget, Option.getD_some, startingBefore_eq htokens]

end TokenStream

/-- Where building starts, all that is to be kept of the white space of a file is known. -/
theorem Build.knows_ofStream (file : SourceFile) (style : Style) (regions : Regions) :
    Knows ((TokenStream.ofFile file).buildContext style) ((TokenStream.ofFile file).spacing style)
      { trivia := TriviaIndex.ofStream (TokenStream.ofFile file) style regions } := by
  have hget {e : Trivia.Entry} (he : e ∈ (TokenStream.ofFile file).entries) :
      (TokenStream.ofFile file).tokens[e.1]? = some e.2 := TokenStream.getElem?_of_mem_entries he
  have hcounts : Trivia.Counts _ 1 (TokenStream.ofFile file).entries := TokenStream.counts_entries
  obtain ⟨hall, hblank⟩ := Trivia.timed_addGaps
    (s := ⟨(TokenStream.ofFile file).file, style, regions⟩)
    (x := ⟨Array.replicate (TokenStream.ofFile file).tokens.size {}, {}⟩)
    TriviaIndex.all_replicate none [] hcounts
    ((TokenStream.ofFile file).entries_map_fst ▸ List.nodup_range)
    fun e he => by simpa using (Array.getElem?_eq_some_iff.mp (hget he)).1
  refine ⟨Trivia.size_addGaps.trans Array.size_replicate, ?_, fun id t ht hkind => ?_,
    regions, fun id run hrun => ?_⟩
  · rintro id t ht ⟨hkeep, hbreak⟩
    exact ⟨hkeep, TriviaIndex.broken_ofStream ht hbreak⟩
  · have hmem : (id, t) ∈ (TokenStream.ofFile file).entries := by
      refine List.mem_map.mpr ⟨(t, id), List.mk_mem_zipIdx_iff_getElem?.mpr ?_, rfl⟩
      rwa [Array.getElem?_toList]
    have hlines := hblank _ hmem hkind
    change (TokenStream.ofFile file).tokens[id]? = some t at ht
    refine congrArg (fun n : Nat => min (n : Int) style.blankLines) (hlines.trans ?_)
    simp [Array.getD_eq_getD_getElem?, ht]
  · refine ⟨TriviaIndex.ofStream_all _ _ _ id run hrun, ?_⟩
    exact congrArg (fun n : Nat => min (n : Int) style.blankLines) (hall id run hrun).2

end CodeLayout
