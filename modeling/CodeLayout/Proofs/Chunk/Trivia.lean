import CodeLayout.Chunk.Trivia
import Mathlib.Tactic.SplitIfs

/-!
# Runs of comments

Every run that stands around a token is made of comments of the stream. Only line comments outside
of all regions that mention no tag are joined: a run with any other comment has no second one.

There are two ways for a run to come about: it trails a token, in one of the cases that
`splitTrailing_cases` tells apart, or it is collected from what is left. A property of the runs of
both kinds is one of all runs of a stream.
-/

namespace CodeLayout

variable {ts : Array Token} {style : Style} {regions : Regions}

/-- Whether the token at an index is a line comment in no region that mentions no tag. -/
def IsFree (ts : Array Token) (style : Style) (regions : Regions) (id : Nat) : Prop :=
  ∃ t, ts[id]? = some t ∧ regions.at? (Int64.ofNat t.start) = none ∧
    Verbatim.hasTag t.text style = false ∧ CommentStyle.ofText t.text = .line

/-- A run of comments of a stream. -/
structure CommentRun.Fits (ts : Array Token) (style : Style) (regions : Regions)
    (run : CommentRun) : Prop where
  nonempty : run.ids ≠ []
  comments : ∀ id ∈ run.ids, ∃ t, ts[id]? = some t ∧ t.kind = .comment
  alone : (∃ id, run.ids = [id]) ∨ ∀ id ∈ run.ids, IsFree ts style regions id

/-- The runs around a token. -/
def Trivia.runs (t : Trivia) : List CommentRun :=
  t.leading ++ t.trailing.toList

namespace TokenStream

/-- The tokens of a stream, each with its index in front of it. -/
def entries (s : TokenStream) : List Trivia.Entry :=
  s.tokens.toList.zipIdx.map fun (t, i) => (i, t)

theorem getElem?_of_mem_entries {s : TokenStream} {e : Trivia.Entry} (h : e ∈ s.entries) :
    s.tokens[e.1]? = some e.2 := by
  obtain ⟨⟨t, i⟩, ht, rfl⟩ := List.mem_map.mp h
  simpa using List.mk_mem_zipIdx_iff_getElem?.mp ht

end TokenStream

namespace TriviaIndex

/-- Whether all runs have a property. -/
def All (P : CommentRun → Prop) (x : TriviaIndex) : Prop :=
  ∀ id, ∀ run ∈ (x.get id).runs, P run

variable {P : CommentRun → Prop} {x : TriviaIndex}

/-- A change after which all runs around a token have a property keeps that all runs have it. -/
theorem All.modify (hx : x.All P) (id : Option Nat) {f : Trivia → Trivia}
    (hf : ∀ t, (∀ run ∈ t.runs, P run) → ∀ run ∈ (f t).runs, P run) : (x.modify id f).All P := by
  intro j
  cases id with
  | none =>
      cases j with
      | none => exact hf _ (hx none)
      | some j =>
          have hj := hx (some j)
          simp only [get, TriviaIndex.modify, Array.getD_eq_getD_getElem?] at hj ⊢
          cases hget : x.tokens[j]? with
          | none => exact hf _ (hx none)
          | some t =>
              rw [hget] at hj
              exact hj
  | some i =>
      cases j with
      | none => exact hx none
      | some j =>
          have hj := hx (some j)
          simp only [get, TriviaIndex.modify, Array.getD_eq_getD_getElem?,
            Array.getElem?_modify] at hj ⊢
          cases hget : x.tokens[j]? with
          | none => split <;> exact hx none
          | some t =>
              rw [hget] at hj
              split
              · exact hf t hj
              · exact hj

/-- Dropping runs keeps that all runs have a property. -/
theorem All.drop (hx : x.All P) (id : Option Nat) {f : Trivia → Trivia}
    (hf : ∀ t, (f t).runs ⊆ t.runs) : (x.modify id f).All P :=
  hx.modify id fun t ht run hrun => ht run (hf t hrun)

/-- At first there are no runs. -/
theorem all_replicate {n : Nat} : (TriviaIndex.mk (Array.replicate n {}) {}).All P := by
  intro id run hrun
  cases id with
  | none => simp [get, Trivia.runs] at hrun
  | some id =>
      simp only [get, Array.getD_eq_getD_getElem?, Array.getElem?_replicate] at hrun
      split at hrun <;> simp [Trivia.runs] at hrun

end TriviaIndex

namespace Trivia

/-- Whether an entry is a white space or a comment of the stream. -/
def IsGapEntry (ts : Array Token) (e : Entry) : Prop :=
  ts[e.1]? = some e.2 ∧ e.2.kind.isSkippable = true

/-- Whether some entries stand side by side and none of them has structure. -/
def IsGap (all es : List Entry) : Prop :=
  es <:+: all ∧ ∀ e ∈ es, e.2.kind.isSkippable = true

theorem IsGap.suffix {all es rest : List Entry} (h : IsGap all es) (hrest : rest <:+ es) :
    IsGap all rest :=
  ⟨hrest.isInfix.trans h.1, fun e he => h.2 e (hrest.subset he)⟩

variable {s : Source} {a b e first : Entry} {es pending : List Entry}

theorem IsGapEntry.isComment (h : IsGapEntry ts e) (hspace : isSpace e = false) :
    ∃ t, ts[e.1]? = some t ∧ t.kind = .comment := by
  refine ⟨e.2, h.1, ?_⟩
  have hkind := h.2
  simp only [isSpace, decide_eq_false_iff_not] at hspace
  cases hk : e.2.kind <;> simp_all [TokenKind.isSkippable]

theorem mayStack_isFree (h : IsGapEntry ts e) (hstack : mayStack s e = true) :
    IsFree ts s.style s.regions e.1 := by
  simp only [mayStack, isLineComment, decide_eq_true_eq, Bool.and_eq_true, Bool.not_eq_true',
    Option.isNone_iff_eq_none] at hstack
  exact ⟨e.2, h.1, hstack.2, hstack.1.2, hstack.1.1⟩

theorem standsUnder_isFree (ha : IsGapEntry ts a) (hb : IsGapEntry ts b)
    (h : standsUnder s a b = true) :
    IsFree ts s.style s.regions a.1 ∧ IsFree ts s.style s.regions b.1 := by
  simp only [standsUnder, Bool.and_eq_true] at h
  exact ⟨mayStack_isFree ha h.1.1, mayStack_isFree hb h.1.2⟩

/-- A single comment is a run. -/
theorem fits_singleton (h : IsGapEntry ts e) (hspace : isSpace e = false) {run : CommentRun}
    (hids : run.ids = [e.1]) : run.Fits ts s.style s.regions := by
  refine ⟨by simp [hids], fun id hid => ?_, Or.inl ⟨e.1, hids⟩⟩
  rw [hids, List.mem_singleton] at hid
  rw [hid]
  exact h.isComment hspace

theorem stackedUnder_of_short {last : Entry}
    (hshort : ∀ a b rest, es = a :: b :: rest → False) : stackedUnder s last es = ([], es) := by
  match es, hshort with
  | [], _ => rfl
  | [_], _ => rfl
  | a :: b :: rest, hshort => exact absurd rfl (hshort a b rest)

/-- What is left behind stacked comments is the end of what there was. -/
theorem stackedUnder_suffix (last : Entry) (es : List Entry) :
    (stackedUnder s last es).2 <:+ es := by
  induction last, es using stackedUnder.induct s with
  | case1 last space comment rest hcond more left heq ih =>
      rw [stackedUnder, if_pos hcond, heq]
      rw [heq] at ih
      exact ih.trans (List.suffix_append [space, comment] rest)
  | case2 last space comment rest hcond =>
      have heq : stackedUnder s last (space :: comment :: rest) =
          ([], space :: comment :: rest) := by
        rw [stackedUnder, if_neg hcond]
      simp only [heq, List.suffix_refl]
  | case3 last rest hshort =>
      simp only [stackedUnder_of_short hshort, List.suffix_refl]

/-- The comments stacked under a comment are free, and so is that comment if there are any. -/
theorem stackedUnder_fits (hes : ∀ e ∈ es, IsGapEntry ts e) (hfirst : IsGapEntry ts first) :
    (∀ e ∈ (stackedUnder s first es).1,
      (∃ t, ts[e.1]? = some t ∧ t.kind = .comment) ∧ IsFree ts s.style s.regions e.1) ∧
    ((stackedUnder s first es).1 = [] ∨ IsFree ts s.style s.regions first.1) := by
  induction first, es using stackedUnder.induct s with
  | case1 last space comment rest hcond more left heq ih =>
      simp only [Bool.and_eq_true, Bool.not_eq_true'] at hcond
      have hcomment := hes comment (by simp)
      obtain ⟨hlast, hfree⟩ := standsUnder_isFree hfirst hcomment hcond.2
      obtain ⟨hmore, -⟩ := ih (fun e he => hes e (by simp [he])) hcomment
      rw [heq] at hmore
      rw [stackedUnder, if_pos (by simp [hcond]), heq]
      refine ⟨fun e he => ?_, Or.inr hlast⟩
      rcases List.mem_cons.mp he with rfl | he
      · exact ⟨hcomment.isComment hcond.1.2, hfree⟩
      · exact hmore e he
  | case2 last space comment rest hcond =>
      rw [stackedUnder, if_neg hcond]
      simp
  | case3 last rest hshort =>
      rw [stackedUnder_of_short hshort]
      simp

/-- Nothing trails a token, or a comment does that has at most a white space without a line break in
front of it: a line comment with those stacked under it, or a comment that ends its line. -/
theorem splitTrailing_cases (s : Source) (atEnd : Bool) (pending : List Entry) :
    splitTrailing s atEnd pending = (none, pending) ∨
      ∃ front first rest, pending = front ++ first :: rest ∧ isSpace first = false ∧
        (∀ e ∈ front, isSpace e = true ∧ e.2.text.contains newline = false) ∧
        (splitTrailing s atEnd pending =
            (some { ids := first.1 :: (stackedUnder s first rest).1.map (·.1), newline := true },
              (stackedUnder s first rest).2) ∨
          splitTrailing s atEnd pending = (some { ids := [first.1], newline := true }, rest)) := by
  unfold splitTrailing
  extract_lets behind
  have hbehind : behind = [] ∨ ∃ front, pending = front ++ behind ∧
      ∀ e ∈ front, isSpace e = true ∧ e.2.text.contains newline = false := by
    simp only [behind]
    cases pending with
    | nil => exact Or.inl rfl
    | cons e rest =>
        dsimp only
        split_ifs with hspace hline
        · exact Or.inl rfl
        · refine Or.inr ⟨[e], rfl, fun d hd => ?_⟩
          rw [List.mem_singleton.mp hd]
          exact ⟨hspace, eq_false_of_ne_true hline⟩
        · exact Or.inr ⟨[], rfl, nofun⟩
  clear_value behind
  cases behind with
  | nil => exact Or.inl rfl
  | cons first rest =>
      obtain ⟨front, hsplit, hfront⟩ := hbehind.resolve_left (List.cons_ne_nil _ _)
      dsimp only
      split_ifs with hspace hline hends
      · exact Or.inl rfl
      · exact Or.inr ⟨front, first, rest, hsplit, eq_false_of_ne_true hspace, hfront, Or.inl rfl⟩
      · exact Or.inr ⟨front, first, rest, hsplit, eq_false_of_ne_true hspace, hfront, Or.inr rfl⟩
      · exact Or.inl rfl

/-- What is left behind the run that trails a token is the end of what there was. -/
theorem splitTrailing_suffix (atEnd : Bool) (pending : List Entry) :
    (splitTrailing s atEnd pending).2 <:+ pending := by
  rcases splitTrailing_cases s atEnd pending with heq |
    ⟨front, first, rest, rfl, -, -, heq⟩
  · simp only [heq, List.suffix_refl]
  · have hrest : rest <:+ front ++ first :: rest := (List.suffix_cons first rest).trans
      (List.suffix_append front (first :: rest))
    rcases heq with heq | heq <;> rw [heq]
    · exact (stackedUnder_suffix first rest).trans hrest
    · exact hrest

theorem splitTrailing_fits (atEnd : Bool) (hp : ∀ e ∈ pending, IsGapEntry ts e) :
    ∀ run ∈ (splitTrailing s atEnd pending).1, run.Fits ts s.style s.regions := by
  rcases splitTrailing_cases s atEnd pending with heq |
    ⟨front, first, rest, rfl, hspace, -, heq | heq⟩ <;> rw [heq]
  · exact nofun
  · rintro run ⟨⟩
    have hfirst := hp first (by simp)
    have hrest : ∀ e ∈ rest, IsGapEntry ts e := fun e he => hp e (by simp [he])
    obtain ⟨hmore, hfree⟩ := stackedUnder_fits (s := s) hrest hfirst
    refine ⟨by simp, fun id hid => ?_, ?_⟩
    · rcases List.mem_cons.mp hid with rfl | hid
      · exact hfirst.isComment hspace
      · obtain ⟨e, he, rfl⟩ := List.mem_map.mp hid
        exact (hmore e he).1
    · rcases hfree with hnil | hfree
      · exact Or.inl ⟨first.1, by simp [hnil]⟩
      · refine Or.inr fun id hid => ?_
        rcases List.mem_cons.mp hid with rfl | hid
        · exact hfree
        · obtain ⟨e, he, rfl⟩ := List.mem_map.mp hid
          exact (hmore e he).2
  · rintro run ⟨⟩
    exact fits_singleton (hp first (by simp)) hspace rfl

namespace Runs

/-- Whether all runs that are collected are runs of the stream. The last run is the last comment
alone, or all of its comments are free. -/
structure Fit (ts : Array Token) (style : Style) (regions : Regions) (r : Runs) : Prop where
  done : ∀ run ∈ r.done, run.Fits ts style regions
  last : ∀ run e, r.last = some (run, e) → run.Fits ts style regions ∧ IsGapEntry ts e ∧
    (run.ids = [e.1] ∨ ∀ id ∈ run.ids, IsFree ts style regions id)

variable {r : Runs}

theorem Fit.close (h : r.Fit ts style regions) : ∀ run ∈ r.close, run.Fits ts style regions := by
  intro run hrun
  simp only [Runs.close] at hrun
  split at hrun
  · rename_i last prev hlast
    rcases List.mem_cons.mp hrun with rfl | hrun
    · have hfits := (h.last last prev hlast).1
      exact ⟨hfits.nonempty, hfits.comments, hfits.alone⟩
    · exact h.done run hrun
  · exact h.done run hrun

theorem Fit.start (h : r.Fit ts s.style s.regions) (he : IsGapEntry ts e)
    (hspace : isSpace e = false) : (r.start e).Fit ts s.style s.regions := by
  refine ⟨h.close, fun run prev hlast => ?_⟩
  obtain ⟨rfl, rfl⟩ := Prod.mk.inj (Option.some.inj hlast)
  exact ⟨fits_singleton he hspace rfl, he, Or.inl rfl⟩

/-- Adding white space or a comment of the stream keeps that all runs are runs of the stream. -/
theorem Fit.add (h : r.Fit ts s.style s.regions) (he : IsGapEntry ts e) :
    (r.add s e).Fit ts s.style s.regions := by
  cases hspace : isSpace e with
  | true =>
      rw [Runs.add, if_pos hspace]
      exact ⟨h.done, h.last⟩
  | false =>
      rw [Runs.add, if_neg (by simp [hspace])]
      cases hlast : r.last with
      | none => exact h.start he hspace
      | some pair =>
          obtain ⟨run, prev⟩ := pair
          obtain ⟨hfits, hprev, halone⟩ := h.last run prev hlast
          simp only
          split_ifs with hunder
          · simp only [Bool.and_eq_true, decide_eq_true_eq] at hunder
            obtain ⟨hprevFree, hfree⟩ := standsUnder_isFree hprev he hunder.2
            have hall : ∀ id ∈ run.ids ++ [e.1], IsFree ts s.style s.regions id := by
              intro id hid
              rcases List.mem_append.mp hid with hid | hid
              · rcases halone with hids | hall
                · rw [hids, List.mem_singleton] at hid
                  exact hid ▸ hprevFree
                · exact hall id hid
              · exact List.mem_singleton.mp hid ▸ hfree
            refine ⟨h.done, fun run' e' hlast' => ?_⟩
            obtain ⟨rfl, rfl⟩ := Prod.mk.inj (Option.some.inj hlast')
            refine ⟨⟨by simp, fun id hid => ?_, Or.inr hall⟩, he, Or.inr hall⟩
            rcases List.mem_append.mp hid with hid | hid
            · exact hfits.comments id hid
            · exact List.mem_singleton.mp hid ▸ he.isComment hspace
          · exact h.start he hspace

theorem Fit.foldl (h : r.Fit ts s.style s.regions) (hes : ∀ e ∈ es, IsGapEntry ts e) :
    (es.foldl (Runs.add s) r).Fit ts s.style s.regions := by
  induction es generalizing r with
  | nil => exact h
  | cons e es ih =>
      exact ih (h.add (hes e List.mem_cons_self)) fun d hd => hes d (List.mem_cons_of_mem e hd)

end Runs

end Trivia

namespace TriviaIndex

open Trivia

variable {s : Source} {P : CommentRun → Prop} {x : TriviaIndex} {all es pending : List Entry}

/-- Runs that are put between two tokens have a property if the one that trails the first token has
it, and so have those that are collected from any end of what there is. -/
theorem All.addGap (hx : x.All P) (prev next : Option Entry)
    (htrail : ∀ run ∈ (splitTrailing s next.isNone pending).1, P run)
    (hlead : ∀ rest n, rest <:+ pending →
      ∀ run ∈ (rest.foldl (Runs.add s) { newlines := n }).close, P run) :
    (Trivia.addGap s x prev pending next).All P := by
  have hput : ∀ {y : TriviaIndex} {rest : List Entry} (n blank : Nat) (broken : Bool), y.All P →
      rest <:+ pending → (y.modify (next.map (·.1)) fun t => { t with
        leading := (rest.foldl (Runs.add s) { newlines := n }).close.reverse, blank,
        broken }).All P := by
    intro y rest n blank broken hy hrest
    refine hy.modify _ fun t ht run hrun => ?_
    rcases List.mem_append.mp hrun with hrun | hrun
    · exact hlead rest n hrest run (List.mem_reverse.mp hrun)
    · exact ht run (List.mem_append_right _ hrun)
  cases prev with
  | none => exact hput _ _ _ hx (List.suffix_refl _)
  | some p =>
      refine hput _ _ _ (hx.modify _ fun t ht run hrun => ?_) (splitTrailing_suffix _ _)
      rcases List.mem_append.mp hrun with hrun | hrun
      · exact ht run (List.mem_append_left _ hrun)
      · exact htrail run (Option.mem_toList.mp hrun)

theorem All.addGaps
    (htrail : ∀ atEnd es, IsGap all es → ∀ run ∈ (splitTrailing s atEnd es).1, P run)
    (hlead : ∀ n es, IsGap all es → ∀ run ∈ (es.foldl (Runs.add s) { newlines := n }).close, P run)
    (hx : x.All P) (prev : Option Entry) (hp : ∀ e ∈ pending, e.2.kind.isSkippable = true)
    (hall : pending.reverse ++ es <:+: all) : (Trivia.addGaps s x prev pending es).All P := by
  have hgap : ∀ {x : TriviaIndex} (prev next : Option Entry) {gap : List Entry}, x.All P →
      IsGap all gap → (Trivia.addGap s x prev gap next).All P := fun prev next gap hx hgap =>
    hx.addGap prev next (htrail _ _ hgap) fun rest n hrest => hlead n rest (hgap.suffix hrest)
  induction es generalizing x prev pending with
  | nil => exact hgap prev none hx ⟨by simpa using hall, by simpa using hp⟩
  | cons e es ih =>
      rw [Trivia.addGaps]
      split_ifs with hskip
      · exact ih hx prev (List.forall_mem_cons.mpr ⟨hskip, hp⟩) (by simpa using hall)
      · have hpending : IsGap all pending.reverse :=
          ⟨(List.prefix_append _ (e :: es)).isInfix.trans hall, by simpa using hp⟩
        have hes : es <:+: all := ((List.suffix_cons e es).trans
          (List.suffix_append pending.reverse (e :: es))).isInfix.trans hall
        exact ih (hgap prev (some e) hx hpending) (some e) nofun hes

/-- All runs of a stream have a property if those have it that come from what stands between two of
its tokens, or from the end of that. -/
theorem all_ofStream {s : TokenStream} {style : Style} {regions : Regions}
    (htrail : ∀ atEnd es, IsGap s.entries es →
      ∀ run ∈ (splitTrailing ⟨s.file, style, regions⟩ atEnd es).1, P run)
    (hlead : ∀ n es, IsGap s.entries es →
      ∀ run ∈ (es.foldl (Runs.add ⟨s.file, style, regions⟩) { newlines := n }).close, P run) :
    (ofStream s style regions).All P :=
  All.addGaps htrail hlead all_replicate none nofun (List.infix_refl _)

/-- All runs of a stream are made of its comments. -/
theorem ofStream_all (s : TokenStream) (style : Style) (regions : Regions) :
    (TriviaIndex.ofStream s style regions).All (CommentRun.Fits s.tokens style regions) := by
  have hentry : ∀ {es : List Entry}, IsGap s.entries es → ∀ e ∈ es, IsGapEntry s.tokens e :=
    fun h e he => ⟨TokenStream.getElem?_of_mem_entries (h.1.subset he), h.2 e he⟩
  refine all_ofStream (fun atEnd es h => splitTrailing_fits atEnd (hentry h)) fun n es h => ?_
  have hfit : Runs.Fit s.tokens style regions { newlines := n } := ⟨nofun, nofun⟩
  exact (hfit.foldl (hentry h)).close

end TriviaIndex

end CodeLayout
