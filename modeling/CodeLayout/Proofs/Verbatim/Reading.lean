import CodeLayout.Proofs.Token.Lexer
import CodeLayout.Verbatim
import Mathlib.Data.List.Sort
import Mathlib.Tactic.SplitIfs

/-!
# Spans as a reading of the comments

A comment with the disabling tag opens a span unless it lies in an earlier one. The span goes on to
the end of the first later comment with the enabling tag, or to the end of the text. Only one list
of spans is such a reading of the comments, and the spans of the tokens of a text are that list.
-/

namespace CodeLayout

/-- Whether a token is a comment whose contents, with white space evened out, start with a tag. The
empty tag is in no comment. -/
def Token.Bears (t : Token) (tag : Bytes) : Prop :=
  t.kind = .comment ∧ tag ≠ [] ∧ tag <+: (Verbatim.body t.text).squeeze

theorem Token.bears_iff {t : Token} {tag : Bytes} :
    t.Bears tag ↔ t.kind = .comment ∧ Verbatim.startsWith tag t.text = true := by
  simp [Bears, Verbatim.startsWith]

/-- The first token with a tag, if there is one. -/
theorem Token.exists_first_bears (tag : Bytes) (ts : List Token) :
    (∀ t ∈ ts, ¬t.Bears tag) ∨ ∃ front t rest, ts = front ++ t :: rest ∧
      (∀ w ∈ front, ¬w.Bears tag) ∧ t.Bears tag := by
  classical
  cases hfind : ts.find? fun t => decide (t.Bears tag) with
  | none => exact Or.inl (by simpa using hfind)
  | some t =>
      obtain ⟨ht, front, rest, hsplit, hfront⟩ := List.find?_eq_some_iff_append.mp hfind
      exact Or.inr ⟨front, t, rest, hsplit, by simpa using hfront, by simpa using ht⟩

namespace VerbatimSpan

/-- Whether an offset lies in a span. -/
def Has (v : VerbatimSpan) (offset : Nat) : Prop :=
  v.start ≤ offset ∧ offset < v.stop

/-- Spans of a text of a length that start at an offset or behind it, in order. -/
structure InOrder (first length : Nat) (vs : List VerbatimSpan) : Prop where
  pairwise : vs.Pairwise fun v w => v.stop ≤ w.start
  bounds : ∀ v ∈ vs, first ≤ v.start ∧ v.start < v.stop ∧ v.stop ≤ length

theorem InOrder.nil {first length : Nat} : InOrder first length [] :=
  ⟨List.Pairwise.nil, by simp⟩

/-- At most one span has an offset. -/
theorem InOrder.eq_of_has {first length offset : Nat} {vs : List VerbatimSpan}
    (h : InOrder first length vs) {v w : VerbatimSpan} (hv : v ∈ vs) (hw : w ∈ vs)
    (hvo : v.Has offset) (hwo : w.Has offset) : v = w := by
  obtain ⟨i, hi, rfl⟩ := List.mem_iff_getElem.mp hv
  obtain ⟨j, hj, rfl⟩ := List.mem_iff_getElem.mp hw
  have hpair := List.pairwise_iff_getElem.mp h.pairwise
  simp only [Has] at hvo hwo
  rcases Nat.lt_trichotomy i j with hij | rfl | hij
  · have hle := hpair i j hi hj hij
    omega
  · rfl
  · have hle := hpair j i hj hi hij
    omega

/-- Whether a comment closes what another one opens: it is the first later one with a tag. -/
structure IsClosing (on : Bytes) (ts : List Token) (t u : Token) : Prop where
  mem : u ∈ ts
  le : t.stop ≤ u.start
  bears : u.Bears on
  first : ∀ w ∈ ts, t.stop ≤ w.start → w.Bears on → u.start ≤ w.start

/-- Whether a span is what a comment opens: it starts behind the comment, and ends behind the one
that closes it, or at the end of the text if there is none. -/
def RunsFrom (on : Bytes) (length : Nat) (ts : List Token) (t : Token) (v : VerbatimSpan) : Prop :=
  v.start = t.stop ∧
    ((∃ u, IsClosing on ts t u ∧ v.stop = u.stop ∧
        v.lineComment = decide (CommentStyle.ofText u.text = .line)) ∨
      ((∀ w ∈ ts, t.stop ≤ w.start → ¬w.Bears on) ∧ v.stop = length ∧ v.lineComment = false))

/-- Whether spans are what is read from the comments of a text: they follow each other, and each
comment with the disabling tag that is in no earlier span opens one, unless that span is empty. -/
structure AreRead (off on : Bytes) (length : Nat) (ts : List Token) (vs : List VerbatimSpan) :
    Prop where
  pairwise : vs.Pairwise fun v w => v.stop ≤ w.start
  mem_iff : ∀ v, v ∈ vs ↔ v.start < v.stop ∧ ∃ t ∈ ts, t.Bears off ∧
    (∀ w ∈ vs, w.start < t.stop → w.stop ≤ t.start) ∧ RunsFrom on length ts t v

variable {off on : Bytes} {first length : Nat} {ts front behind : List Token} {t : Token}
  {v w : VerbatimSpan} {vs ws : List VerbatimSpan}

theorem eq_iff : v = w ↔ v.start = w.start ∧ v.stop = w.stop ∧ v.lineComment = w.lineComment := by
  cases v
  cases w
  simp

/-- A comment opens one span only. -/
theorem RunsFrom.eq (hts : Token.InOrder first length ts) (hv : RunsFrom on length ts t v)
    (hw : RunsFrom on length ts t w) : v = w := by
  obtain ⟨hvstart, hv⟩ := hv
  obtain ⟨hwstart, hw⟩ := hw
  have hstart : v.start = w.start := hvstart.trans hwstart.symm
  rcases hv with ⟨u, hu, hvstop, hvline⟩ | ⟨hnone, hvstop, hvline⟩
  · rcases hw with ⟨u', hu', hwstop, hwline⟩ | ⟨hnone, -⟩
    · have hle := hu.first u' hu'.mem hu'.le hu'.bears
      have hge := hu'.first u hu.mem hu.le hu.bears
      have hbounds := hts.bounds u hu.mem
      have hbounds' := hts.bounds u' hu'.mem
      rcases hts.apart hu.mem hu'.mem with rfl | hlt | hlt
      · exact eq_iff.mpr ⟨hstart, hvstop.trans hwstop.symm, hvline.trans hwline.symm⟩
      · omega
      · omega
    · exact absurd hu.bears (hnone u hu.mem hu.le)
  · rcases hw with ⟨u, hu, -⟩ | ⟨-, hwstop, hwline⟩
    · exact absurd hu.bears (hnone u hu.mem hu.le)
    · exact eq_iff.mpr ⟨hstart, hvstop.trans hwstop.symm, hvline.trans hwline.symm⟩

/-- Tokens in front of a comment have no part in the span that it opens. -/
theorem runsFrom_append (hfront : ∀ w ∈ front, w.start < t.stop) :
    RunsFrom on length (front ++ behind) t v ↔ RunsFrom on length behind t v := by
  have hback : ∀ {w}, w ∈ front ++ behind → t.stop ≤ w.start → w ∈ behind := by
    intro w hw hle
    rcases List.mem_append.mp hw with hw | hw
    · have hlt := hfront w hw
      omega
    · exact hw
  have hclosing : ∀ u, IsClosing on (front ++ behind) t u ↔ IsClosing on behind t u := fun u =>
    ⟨fun h => ⟨hback h.mem h.le, h.le, h.bears, fun w hw => h.first w (List.mem_append_right _ hw)⟩,
      fun h => ⟨List.mem_append_right _ h.mem, h.le, h.bears, fun w hw hle =>
        h.first w (hback hw hle) hle⟩⟩
  have hnone : (∀ w ∈ front ++ behind, t.stop ≤ w.start → ¬w.Bears on) ↔
      ∀ w ∈ behind, t.stop ≤ w.start → ¬w.Bears on :=
    ⟨fun h w hw => h w (List.mem_append_right _ hw), fun h w hw hle => h w (hback hw hle) hle⟩
  simp only [RunsFrom, hclosing, hnone]

/-- Whether a comment is in an earlier span is known once the spans in front of it are. So there is
only one reading. -/
theorem AreRead.eq (hvs : AreRead off on length ts vs) (hws : AreRead off on length ts ws) :
    vs = ws := by
  have hmem : ∀ n, ∀ v : VerbatimSpan, v.start < n → (v ∈ vs ↔ v ∈ ws) := by
    intro n
    induction n with
    | zero => exact fun v hlt => absurd hlt (Nat.not_lt_zero _)
    | succ n ih =>
        intro v hlt
        have hearlier : ∀ t : Token, v.start = t.stop →
            ((∀ w ∈ vs, w.start < t.stop → w.stop ≤ t.start) ↔
              ∀ w ∈ ws, w.start < t.stop → w.stop ≤ t.start) := by
          intro t hstart
          constructor
          · exact fun h w hw hwt => h w ((ih w (by omega)).mpr hw) hwt
          · exact fun h w hw hwt => h w ((ih w (by omega)).mp hw) hwt
        rw [hvs.mem_iff, hws.mem_iff]
        constructor
        · rintro ⟨hne, t, ht, hbears, hout, hruns⟩
          exact ⟨hne, t, ht, hbears, (hearlier t hruns.1).mp hout, hruns⟩
        · rintro ⟨hne, t, ht, hbears, hout, hruns⟩
          exact ⟨hne, t, ht, hbears, (hearlier t hruns.1).mpr hout, hruns⟩
  have hstarts : ∀ {us}, AreRead off on length ts us →
      us.Pairwise fun v w => v.start < w.start := by
    intro us hus
    refine hus.pairwise.imp_of_mem fun {v w} hv _ hle => ?_
    have hne := ((hus.mem_iff v).mp hv).1
    omega
  have : Std.Irrefl fun v w : VerbatimSpan => v.start < w.start := ⟨fun _ => Nat.lt_irrefl _⟩
  have : Std.Antisymm fun v w : VerbatimSpan => v.start < w.start :=
    ⟨fun _ _ hlt hgt => absurd hlt (Nat.lt_asymm hgt)⟩
  exact (hstarts hvs).eq_of_mem_iff (hstarts hws) fun v => hmem (v.start + 1) v (Nat.lt_succ_self _)

/-- If each comment with the disabling tag opens an empty span, there are no spans. -/
theorem AreRead.nil
    (h : ∀ t ∈ ts, t.Bears off → ∀ v, RunsFrom on length ts t v → v.stop ≤ v.start) :
    AreRead off on length ts [] := by
  refine ⟨List.Pairwise.nil, fun v => ⟨nofun, ?_⟩⟩
  rintro ⟨hne, t, ht, hbears, -, hruns⟩
  have hle := h t ht hbears v hruns
  omega

/-- A span in front of what is read from the tokens behind it. -/
theorem AreRead.cons (hts : Token.InOrder first length (front ++ behind))
    (hbehind : AreRead off on length behind vs) (ht : t ∈ front) (hbears : t.Bears off)
    (hfirst : ∀ w ∈ front, w.Bears off → t.start ≤ w.start)
    (hv : RunsFrom on length (front ++ behind) t v) (hne : v.start < v.stop)
    (hinside : ∀ w ∈ front, w.stop ≤ v.stop) (hafter : ∀ w ∈ behind, v.stop ≤ w.start)
    (hvs : ∀ w ∈ vs, v.stop ≤ w.start) : AreRead off on length (front ++ behind) (v :: vs) := by
  have hbounds := hts.bounds
  have hbefore : ∀ u ∈ behind, ∀ w ∈ front, w.start < u.stop := by
    intro u hu w hw
    have hle := (List.pairwise_append.mp hts.pairwise).2.2 w hw u hu
    have hw := hbounds w (List.mem_append_left _ hw)
    have hu := hbounds u (List.mem_append_right _ hu)
    omega
  refine ⟨List.pairwise_cons.mpr ⟨hvs, hbehind.pairwise⟩, fun x => ⟨fun hx => ?_, ?_⟩⟩
  · rcases List.mem_cons.mp hx with rfl | hx
    · refine ⟨hne, t, List.mem_append_left _ ht, hbears, fun w hw hlt => ?_, hv⟩
      have hstart := hv.1
      rcases List.mem_cons.mp hw with rfl | hw
      · omega
      · have hle := hvs w hw
        omega
    · obtain ⟨hxne, u, hu, hoff, hout, hruns⟩ := (hbehind.mem_iff x).mp hx
      refine ⟨hxne, u, List.mem_append_right _ hu, hoff, fun w hw hlt => ?_,
        (runsFrom_append (hbefore u hu)).mpr hruns⟩
      rcases List.mem_cons.mp hw with rfl | hw
      · exact hafter u hu
      · exact hout w hw hlt
  · rintro ⟨hxne, u, hu, hoff, hout, hruns⟩
    rcases List.mem_append.mp hu with hu | hu
    · have hle := hfirst u hu hoff
      have hub := hbounds u (List.mem_append_left _ hu)
      have htb := hbounds t (List.mem_append_left _ ht)
      rcases hts.apart (List.mem_append_left _ ht) (List.mem_append_left _ hu) with rfl | hlt | hlt
      · rw [hruns.eq hts hv]
        exact List.mem_cons_self
      · -- A later comment in front of the end of the span is in it.
        have hstart := hv.1
        have hstop := hinside u hu
        have hapart := hout v List.mem_cons_self (by omega)
        omega
      · omega
    · refine List.mem_cons_of_mem v ((hbehind.mem_iff x).mpr ⟨hxne, u, hu, hoff, ?_, ?_⟩)
      · exact fun w hw => hout w (List.mem_cons_of_mem v hw)
      · exact (runsFrom_append (hbefore u hu)).mp hruns

/-- What is read from tokens in order is in order. -/
theorem AreRead.inOrder (hts : Token.InOrder first length ts)
    (h : AreRead off on length ts vs) : InOrder first length vs := by
  refine ⟨h.pairwise, fun v hv => ?_⟩
  obtain ⟨hne, t, ht, -, -, hstart, hends⟩ := (h.mem_iff v).mp hv
  have htb := hts.bounds t ht
  refine ⟨by omega, hne, ?_⟩
  rcases hends with ⟨u, hu, hstop, -⟩ | ⟨-, hstop, -⟩
  · rw [hstop]
    exact (hts.bounds u hu.mem).2.2
  · exact Nat.le_of_eq hstop

end VerbatimSpan

namespace Verbatim

variable {off on : Bytes} {first length : Nat}

/-- Outside of a span only a comment with the disabling tag counts. -/
theorem spansFrom_none_append {front : List Token} (hfront : ∀ w ∈ front, ¬w.Bears off)
    (ts : List Token) :
    spansFrom off on length none (front ++ ts) = spansFrom off on length none ts := by
  induction front with
  | nil => rfl
  | cons t front ih =>
      obtain ⟨ht, hfront⟩ := List.forall_mem_cons.mp hfront
      rw [Token.bears_iff, not_and] at ht
      rw [List.cons_append, spansFrom]
      split_ifs with hkind hoff
      · exact absurd hoff (ht hkind)
      · exact ih hfront
      · exact ih hfront

theorem spansFrom_none_cons {t : Token} (ht : t.Bears off) (ts : List Token) :
    spansFrom off on length none (t :: ts) = spansFrom off on length (some t.stop) ts := by
  obtain ⟨hkind, hoff⟩ := Token.bears_iff.mp ht
  rw [spansFrom, if_pos hkind, if_pos hoff]

/-- In a span only a comment with the enabling tag counts. -/
theorem spansFrom_some_append {front : List Token} (hfront : ∀ w ∈ front, ¬w.Bears on)
    (start : Nat) (ts : List Token) :
    spansFrom off on length (some start) (front ++ ts) =
      spansFrom off on length (some start) ts := by
  induction front with
  | nil => rfl
  | cons t front ih =>
      obtain ⟨ht, hfront⟩ := List.forall_mem_cons.mp hfront
      rw [Token.bears_iff, not_and] at ht
      rw [List.cons_append, spansFrom]
      split_ifs with hkind hon
      · exact absurd hon (ht hkind)
      · exact ih hfront
      · exact ih hfront

theorem spansFrom_some_cons {t : Token} (ht : t.Bears on) (start : Nat) (ts : List Token) :
    spansFrom off on length (some start) (t :: ts) =
      ⟨start, t.stop, CommentStyle.ofText t.text = .line⟩ ::
        spansFrom off on length none ts := by
  obtain ⟨hkind, hon⟩ := Token.bears_iff.mp ht
  rw [spansFrom, if_pos hkind, if_pos hon]

section Step

variable {before inside rest : List Token} {t u : Token} {vs : List VerbatimSpan}

theorem start_le_of_bears (hts : Token.InOrder first length (before ++ t :: rest))
    (hbefore : ∀ w ∈ before, ¬w.Bears off) {w : Token} (hw : w ∈ before ++ t :: rest)
    (hbears : w.Bears off) : t.start ≤ w.start := by
  have ht := hts.bounds t (by simp)
  rcases List.mem_append.mp hw with hw | hw
  · exact absurd hbears (hbefore w hw)
  · rcases List.mem_cons.mp hw with rfl | hw
    · exact Nat.le_refl _
    · have hle := hts.le_of_mem_right hw
      omega

/-- A comment that nothing closes opens a span up to the end of the text. -/
theorem runsFrom_unclosed (hts : Token.InOrder first length (before ++ t :: rest))
    (hrest : ∀ w ∈ rest, ¬w.Bears on) :
    VerbatimSpan.RunsFrom on length (before ++ t :: rest) t ⟨t.stop, length, false⟩ := by
  refine ⟨rfl, Or.inr ⟨fun w hw hle => ?_, rfl, rfl⟩⟩
  have ht := hts.bounds t (by simp)
  have hb := hts.bounds w hw
  rcases List.mem_append.mp hw with hw | hw
  · have hlt := hts.le_of_mem_left hw
    omega
  · rcases List.mem_cons.mp hw with rfl | hw
    · omega
    · exact hrest w hw

/-- The first comment with the enabling tag closes the span. -/
theorem runsFrom_closed (hts : Token.InOrder first length (before ++ t :: (inside ++ u :: rest)))
    (hinside : ∀ w ∈ inside, ¬w.Bears on) (hu : u.Bears on) :
    VerbatimSpan.RunsFrom on length (before ++ t :: (inside ++ u :: rest)) t
      ⟨t.stop, u.stop, CommentStyle.ofText u.text = .line⟩ := by
  refine ⟨rfl, Or.inl ⟨u, ⟨by simp, hts.le_of_mem_right (by simp), hu, fun w hw hle hbears => ?_⟩,
    rfl, rfl⟩⟩
  have ht := hts.bounds t (by simp)
  have hb := hts.bounds w hw
  rcases List.mem_append.mp hw with hw | hw
  · have hlt := hts.le_of_mem_left hw
    omega
  · rcases List.mem_cons.mp hw with rfl | hw
    · omega
    · exact start_le_of_bears hts.append_right.tail hinside hw hbears

/-- What is read if the first comment with the disabling tag is never closed. -/
theorem areRead_unclosed (hts : Token.InOrder first length (before ++ t :: rest))
    (hbefore : ∀ w ∈ before, ¬w.Bears off) (ht : t.Bears off) (hrest : ∀ w ∈ rest, ¬w.Bears on) :
    VerbatimSpan.AreRead off on length (before ++ t :: rest)
      (spansFrom off on length (some t.stop) []) := by
  have hruns := runsFrom_unclosed hts hrest
  rw [spansFrom]
  split_ifs with hlt
  · rw [← List.append_nil (before ++ t :: rest)] at hts hruns ⊢
    refine VerbatimSpan.AreRead.cons hts (.nil (by simp)) (by simp) ht (fun w hw => ?_) hruns hlt
      (fun w hw => ?_) (by simp) (by simp)
    · rw [List.append_nil] at hts
      exact start_le_of_bears hts hbefore hw
    · exact (hts.bounds w (List.mem_append_left _ hw)).2.2
  · refine .nil fun w hw hbears v hv => ?_
    have hle := start_le_of_bears hts hbefore hw hbears
    have hb := hts.bounds w hw
    rcases hts.apart (u := t) hw (by simp) with rfl | hwt | htw
    · obtain rfl := hv.eq hts hruns
      exact Nat.le_of_not_lt hlt
    · omega
    · omega

/-- What is read if the first comment with the disabling tag is closed. -/
theorem areRead_closed (hts : Token.InOrder first length (before ++ t :: (inside ++ u :: rest)))
    (hbefore : ∀ w ∈ before, ¬w.Bears off) (ht : t.Bears off)
    (hinside : ∀ w ∈ inside, ¬w.Bears on) (hu : u.Bears on)
    (hrest : VerbatimSpan.AreRead off on length rest (spansFrom off on length none rest)) :
    VerbatimSpan.AreRead off on length (before ++ t :: (inside ++ u :: rest))
      (⟨t.stop, u.stop, CommentStyle.ofText u.text = .line⟩ ::
        spansFrom off on length none rest) := by
  have hruns := runsFrom_closed hts hinside hu
  have hle := hts.le_of_mem_right (w := u) (by simp)
  have hub := hts.bounds u (by simp)
  have htail := hts.append_right.tail.append_right.tail
  have hfirst : ∀ w ∈ before ++ t :: (inside ++ u :: rest), w.Bears off → t.start ≤ w.start :=
    fun w hw => start_le_of_bears hts hbefore hw
  have hsplit : before ++ t :: (inside ++ u :: rest) =
      (before ++ t :: inside ++ [u]) ++ rest := by
    simp
  rw [hsplit] at hts hruns hfirst ⊢
  refine hrest.cons hts (by simp) ht (fun w hw => hfirst w (List.mem_append_left rest hw)) hruns ?_
    (fun w hw => ?_) (fun w hw => (htail.bounds w hw).1)
    (fun w hw => ((hrest.inOrder htail).bounds w hw).1)
  · simp only
    omega
  · rcases List.mem_append.mp hw with hw | hw
    · have hlt := hts.append_left.le_of_mem_left hw
      simp only
      omega
    · rw [List.mem_singleton.mp hw]

end Step

/-- The spans of tokens in order are what is read from their comments. -/
theorem areRead_spansFrom (off on : Bytes) {ts : List Token}
    (hts : Token.InOrder first length ts) :
    VerbatimSpan.AreRead off on length ts (spansFrom off on length none ts) := by
  induction hn : ts.length using Nat.strong_induction_on generalizing first ts with
  | _ n ih =>
    rcases Token.exists_first_bears off ts with hnone | ⟨before, t, rest, rfl, hbefore, ht⟩
    · have hnil : spansFrom off on length none ts = [] := by
        rw [← List.append_nil ts, spansFrom_none_append hnone]
        rfl
      rw [hnil]
      exact .nil fun t ht hbears => absurd hbears (hnone t ht)
    · rw [spansFrom_none_append hbefore, spansFrom_none_cons ht]
      rcases Token.exists_first_bears on rest with hrest | ⟨inside, u, rest, rfl, hinside, hu⟩
      · have hend : spansFrom off on length (some t.stop) rest =
            spansFrom off on length (some t.stop) [] := by
          rw [← List.append_nil rest, spansFrom_some_append hrest]
        rw [hend]
        exact areRead_unclosed hts hbefore ht hrest
      · rw [spansFrom_some_append hinside, spansFrom_some_cons hu]
        have hlt : rest.length < n := by
          rw [← hn]
          simp only [List.length_append, List.length_cons]
          omega
        exact areRead_closed hts hbefore ht hinside hu
          (ih rest.length hlt hts.append_right.tail.append_right.tail rfl)

end Verbatim

end CodeLayout
