import CodeLayout.Proofs.Strokes

/-!
# Writing keeps every piece

Chunks are written one after the other. The strokes so far stand for all that is not to come,
together with what is to come in the region copied last. A token or a comment outside of all regions
is a stroke of its own, behind the white space that was held back when it was written.
-/

namespace CodeLayout

/-- Whether no region covers an offset of the input. -/
def Regions.Misses (regions : Regions) (start : Int) : Prop :=
  ∀ v ∈ regions.spans, start < v.start ∨ v.stop ≤ start

theorem Regions.Misses.not_has {regions : Regions} {start : Int} {n : Nat} {v : VerbatimSpan}
    (h : regions.Misses start) (hstart : start = n) (hv : v ∈ regions.spans) : ¬v.Has n := by
  rintro ⟨hlo, hhi⟩
  have hout := h v hv
  omega

theorem Token.IsOutside.misses {regions : Regions} {t : Token} (h : t.IsOutside regions)
    (hne : t.start < t.stop) : regions.Misses t.start := by
  intro v hv
  have hout := h v hv
  omega

/-- Whether a piece is the written form of the token or the comment that starts at an offset. -/
def Piece.StandsAt (s : TokenStream) (start : Int) : Piece → Prop
  | .token id => ((s.tokenAt id).start : Int) = start
  | .comment ids _ => ((s.tokenAt (ids.headD 0)).start : Int) = start
  | .region _ => False

/-- The part of a sorted list below a bound, and then the rest of it. -/
theorem filter_lt_append_filter_le {f : Nat → Nat} {l : List Nat} (bound : Nat)
    (h : l.Pairwise fun i j => f i ≤ f j) :
    (l.filter fun i => f i < bound) ++ l.filter (fun i => bound ≤ f i) = l := by
  induction l with
  | nil => rfl
  | cons i l ih =>
      obtain ⟨hi, hl⟩ := List.pairwise_cons.mp h
      by_cases hlt : f i < bound
      · have hle : ¬bound ≤ f i := by omega
        simp [hlt, hle, ih hl]
      · have hnone : l.filter (fun i => f i < bound) = [] := by
          rw [List.filter_eq_nil_iff]
          intro j hj
          have := hi j hj
          simp only [decide_eq_true_eq]
          omega
        have hall : l.filter (fun i => bound ≤ f i) = l := by
          rw [List.filter_eq_self]
          intro j hj
          have := hi j hj
          simp only [decide_eq_true_eq]
          omega
        have hle : bound ≤ f i := by omega
        simp [hlt, hle, hnone, hall]

namespace Writer

/-- What a writer has written: strokes that stand for all tokens and comments but those still to
come that are behind the region copied last. -/
structure Holds (s : TokenStream) (style : Style) (regions : Regions) (separator : Bytes)
    (ks : List Stroke) (w : Writer) (rest : List Nat) : Prop where
  wrote : Wrote s style separator ks w
  valid : ∀ k ∈ ks, k.Valid s style regions separator
  ids : ks.flatMap (fun k => k.piece.ids s) ++
    rest.filter (fun id => w.copied ≤ ((s.tokenAt id).start : Int)) = s.significant
  suffix : rest <:+ s.significant
  copied : w.copied = 0 ∨
    ∃ v ∈ regions.spans, w.copied = v.stop ∧ ∀ id ∈ rest, v.start ≤ (s.tokenAt id).start

/-- Whether strokes are what a token or a comment becomes: if no region covers it, it is one stroke
behind the white space held back, and else no white space is put down. -/
structure Puts (s : TokenStream) (regions : Regions) (x : Context) (w : Writer) (start : Int)
    (ks : List Stroke) : Prop where
  outside : regions.Misses start → ∃ p, ks = [⟨gapText x w, p⟩] ∧ p.StandsAt s start
  inside : ¬regions.Misses start → ∀ k ∈ ks, k.gap = []

/-- Whether the strokes in which chunks are written fall into those for each chunk: in front of a
chunk there are the strokes for what comes before it, and next are those for the chunk itself. -/
def Traced (s : TokenStream) (regions : Regions) (x : Context) (w : Writer) (cs : List Chunk)
    (ks : List Stroke) : Prop :=
  ∀ pre c post, cs = pre ++ c :: post → ∃ w' before now after idss,
    pre.foldlM (Writer.write x) w = .ok w' ∧ ks = before ++ (now ++ after) ∧
    List.Forall₂ (Leaf.Shows (s.buildContext x.style) regions)
      ((c :: post).filterMap Chunk.leaf?) idss ∧
    Holds s x.style regions (separator x) before w' idss.flatten ∧
    ∀ l ∈ c.leaf?, Puts s regions x (w'.request c.traits (x.placements.getD c.traits.id {}))
      l.start now

/-- Whether a stroke has no white space in front of it or is what one of several chunks becomes. -/
def Stems (s : TokenStream) (x : Context) (w : Writer) (cs : List Chunk) (k : Stroke) : Prop :=
  k.gap = [] ∨ ∃ pre c post w' l, cs = pre ++ c :: post ∧ pre.foldlM (Writer.write x) w = .ok w' ∧
    c.leaf? = some l ∧ k.piece.StandsAt s l.start ∧
    k.gap = gapText x (w'.request c.traits (x.placements.getD c.traits.id {}))

section Gap

variable {x : Context} {w : Writer}

theorem separator_eq (h : x.style.separator ∈ Style.separators) :
    separator x = x.style.separator := by
  have hnonempty : ∀ sep ∈ Style.separators, ¬sep.isEmpty = true := by decide
  exact if_neg (hnonempty _ h)

/-- The number of line breaks before the next piece. -/
def gapLines (w : Writer) : Nat :=
  if w.started && w.breaksLine then (if w.behindCopiedBreak then 0 else 1) + w.gap.blank.toNat
  else 0

/-- The white space before a piece is so many line breaks, and then an indentation or a space. -/
theorem isPartedBy_gapText (x : Context) (w : Writer) (p : Piece) :
    Stroke.IsPartedBy (separator x) w.gapLines ⟨gapText x w, p⟩ := by
  have hindent := Style.indentation_blank x.style w.nextLine.level w.nextLine.align
  rw [Stroke.IsPartedBy, gapText, gapLines]
  cases w.started with
  | false => exact ⟨[], rfl, List.forall_mem_nil _⟩
  | true =>
      rw [if_neg (by simp), Bool.true_and]
      split_ifs
      · exact ⟨_, by rw [Nat.zero_add]; rfl, hindent⟩
      · exact ⟨_, by rw [Nat.add_comm, List.replicate_succ]; rfl, hindent⟩
      · exact ⟨[32], rfl, by simp⟩
      · exact ⟨[], rfl, List.forall_mem_nil _⟩

/-- The white space before a piece is line breaks, and then an indentation or a space. -/
theorem isParting_gapText (x : Context) (w : Writer) (p : Piece) :
    Stroke.IsParting (separator x) ⟨gapText x w, p⟩ :=
  ⟨w.gapLines, isPartedBy_gapText x w p⟩

/-- The white space before a piece is white space. -/
theorem assembled_gapText (x : Context) (w : Writer) :
    Assembled (separator x) [] (gapText x w) := by
  obtain ⟨n, blank, hgap, hblank⟩ := isParting_gapText x w (.token 0)
  change gapText x w = _ at hgap
  rw [hgap]
  exact (Assembled.empty.lineBreaks n).blanks hblank

theorem isParting_region {separator : Bytes} (v : VerbatimSpan) :
    ∀ k ∈ [(⟨[], .region v⟩ : Stroke)], k.IsParting separator :=
  List.forall_mem_singleton.mpr ⟨0, [], rfl, List.forall_mem_nil _⟩

/-- The first chunk is written before the others. -/
theorem foldlM_write_cons {w₁ w' : Writer} {c : Chunk} {cs : List Chunk}
    (hfirst : Writer.write x w c = .ok w₁) (h : cs.foldlM (Writer.write x) w₁ = .ok w') :
    (c :: cs).foldlM (Writer.write x) w = .ok w' := by
  rw [List.foldlM_cons, hfirst]
  exact h

theorem Stems.cons {s : TokenStream} {w₁ : Writer} {c : Chunk} {cs : List Chunk} {k : Stroke}
    (hfirst : Writer.write x w c = .ok w₁) (h : Stems s x w₁ cs k) : Stems s x w (c :: cs) k := by
  rcases h with hempty | ⟨pre, d, post, w', l, rfl, hpre, hstem⟩
  · exact Or.inl hempty
  · exact Or.inr ⟨c :: pre, d, post, w', l, rfl, foldlM_write_cons hfirst hpre, hstem⟩

/-- What a chunk becomes stems from it. -/
theorem stems_of_mem {s : TokenStream} {regions : Regions} {c : Chunk} {cs : List Chunk}
    {ks : List Stroke} {k : Stroke} (hnone : c.leaf? = none → ks = [])
    (hputs : ∀ l ∈ c.leaf?, Puts s regions x (w.request c.traits (x.placements.getD c.traits.id {}))
      l.start ks) (hk : k ∈ ks) : Stems s x w (c :: cs) k := by
  cases hleaf : c.leaf? with
  | none => exact absurd hk (by simp [hnone hleaf])
  | some l =>
      obtain ⟨houtside, hinside⟩ := hputs l hleaf
      by_cases hmisses : regions.Misses l.start
      · obtain ⟨p, rfl, hstands⟩ := houtside hmisses
        obtain rfl := List.mem_singleton.mp hk
        exact Or.inr ⟨[], c, cs, w, l, rfl, rfl, hleaf, hstands, rfl⟩
      · exact Or.inl (hinside hmisses k hk)

theorem copied_token (t : Traits) (text : Bytes) : (w.token x t text).copied = w.copied := by
  rw [token]
  split_ifs <;> rfl

end Gap

/-- What becomes of a token or a comment: it is in the region copied last, it is the first of a
region, or it is written. -/
theorem leaf_cases {x : Context} {w w' : Writer} {t : Traits} {write : Writer → Writer} {n : Nat}
    (hstart : t.start = n) (h : w.leaf x t write = .ok w') :
    ((n : Int) < w.copied ∧ w' = { w with last := t.stop }.settle) ∨
      (w.copied ≤ n ∧ ∃ v, x.regions.at? (Int64.ofNat n) = some v ∧
        w' = { w with last := t.stop }.copy x v) ∨
      (w.copied ≤ n ∧ x.regions.at? (Int64.ofNat n) = none ∧
        w' = write { w with last := t.stop }) := by
  have hpos : ¬(n : Int) < 0 := by omega
  rw [leaf, hstart, if_neg hpos] at h
  dsimp only at h
  split_ifs at h with hlast hcopied
  · exact Or.inl ⟨hcopied, (Except.ok.inj h).symm⟩
  · refine Or.inr ?_
    have hle : w.copied ≤ n := Int.not_lt.mp hcopied
    rw [Int64.ofInt_eq_ofNat] at h
    cases hat : x.regions.at? (Int64.ofNat n) with
    | none =>
        rw [hat] at h
        exact Or.inr ⟨hle, rfl, (Except.ok.inj h).symm⟩
    | some v =>
        rw [hat] at h
        exact Or.inl ⟨hle, v, rfl, (Except.ok.inj h).symm⟩

section Steps

variable {s : TokenStream} {style : Style} {regions : Regions} {separator : Bytes}
  {ks : List Stroke} {w w' : Writer} {rest : List Nat} {id : Nat}

/-- What is in the region copied last needs no stroke of its own. -/
theorem Holds.skip (ids : List Nat) (h : Holds s style regions separator ks w (ids ++ rest))
    (hids : ∀ id ∈ ids, ((s.tokenAt id).start : Int) < w.copied) (gap : Gap) (last : Int) :
    Holds s style regions separator ks { w with gap, last } rest := by
  have hnone : ids.filter (fun id => w.copied ≤ ((s.tokenAt id).start : Int)) = [] := by
    rw [List.filter_eq_nil_iff]
    intro id hid
    have := hids id hid
    simp only [decide_eq_true_eq]
    omega
  refine ⟨h.wrote.still gap last, h.valid, ?_, (List.suffix_append ids rest).trans h.suffix, ?_⟩
  · have hids := h.ids
    rw [List.filter_append, hnone, List.nil_append] at hids
    exact hids
  · exact h.copied.imp_right fun ⟨v, hv, heq, hall⟩ =>
      ⟨v, hv, heq, fun id hid => hall id (List.mem_append_right _ hid)⟩

/-- A token or a comment that is written is one more stroke. -/
theorem Holds.write (k : Stroke)
    (h : Holds s style regions separator ks w (k.piece.ids s ++ rest))
    (hvalid : k.Valid s style regions separator)
    (hbehind : ∀ id ∈ k.piece.ids s, w.copied ≤ ((s.tokenAt id).start : Int))
    (hwrote : Wrote s style separator (ks ++ [k]) w') (hcopied : w'.copied = w.copied) :
    Holds s style regions separator (ks ++ [k]) w' rest := by
  have hall : (k.piece.ids s).filter (fun id => w.copied ≤ ((s.tokenAt id).start : Int)) =
      k.piece.ids s := by
    rw [List.filter_eq_self]
    intro id hid
    simpa using hbehind id hid
  refine ⟨hwrote, fun l hl => ?_, ?_, (List.suffix_append _ rest).trans h.suffix, ?_⟩
  · rcases List.mem_append.mp hl with hl | hl
    · exact h.valid l hl
    · exact List.mem_singleton.mp hl ▸ hvalid
  · have heq := h.ids
    rw [List.filter_append, hall] at heq
    rw [hcopied, List.flatMap_append, List.flatMap_singleton, List.append_assoc]
    exact heq
  · rw [hcopied]
    exact h.copied.imp_right fun ⟨v, hv, heq, hall⟩ =>
      ⟨v, hv, heq, fun id hid => hall id (List.mem_append_right _ hid)⟩

/-- A token that no region covers is not in the region copied last. -/
theorem Holds.not_lt_copied (h : Holds s style regions separator ks w (id :: rest))
    (hmisses : regions.Misses (s.tokenAt id).start) : ¬((s.tokenAt id).start : Int) < w.copied := by
  intro hlt
  rcases h.copied with hzero | ⟨v, hv, hcopied, hbehind⟩
  · omega
  · have hfirst := hbehind id List.mem_cons_self
    have hout := hmisses v hv
    omega

variable (hin : Token.InOrder 0 s.file.text.length s.tokens.toList)
  (hfit : regions.Fit s.file.text.length s.tokens.toList)
include hin hfit

/-- A token that starts in a region is inside of it. -/
theorem isInside {v : VerbatimSpan} (hid : id ∈ s.significant) (hv : v ∈ regions.spans)
    (hhas : v.Has (s.tokenAt id).start) :
    v.start ≤ (s.tokenAt id).start ∧ (s.tokenAt id).stop ≤ v.stop := by
  have hmem := TokenStream.tokenAt_mem hid
  have hne := (hin.bounds _ hmem).2.1
  obtain ⟨hlo, hhi⟩ := hhas
  have hapart := hfit.apart _ hmem v hv
  omega

/-- No stroke so far stands for anything in a region that the next token starts. -/
theorem Holds.not_inside (h : Holds s style regions separator ks w (id :: rest))
    (hle : w.copied ≤ ((s.tokenAt id).start : Int)) {v : VerbatimSpan} (hv : v ∈ regions.spans)
    (hhas : v.Has (s.tokenAt id).start) {i : Nat} (hi : i ∈ ks.flatMap fun k => k.piece.ids s) :
    ¬(v.start ≤ (s.tokenAt i).start ∧ (s.tokenAt i).stop ≤ v.stop) := by
  rintro ⟨hlo, hhi⟩
  have hsig : i ∈ s.significant := by
    rw [← h.ids]
    exact List.mem_append_left _ hi
  have hne := (hin.bounds _ (TokenStream.tokenAt_mem hsig)).2.1
  obtain ⟨⟨gap, p⟩, hp, hip⟩ := List.mem_flatMap.mp hi
  have hvalid := (h.valid _ hp).piece
  cases p with
  | token j =>
      rw [Piece.ids, List.mem_singleton] at hip
      have hout := hvalid.2 v hv
      rw [← hip] at hout
      omega
  | comment js p =>
      have hout := (hvalid.2.1 i hip).2 v hv
      omega
  | region u =>
      simp only [Piece.ids, List.mem_filter, Bool.and_eq_true, decide_eq_true_eq] at hip
      have hu : u.Has (s.tokenAt i).start := ⟨by omega, by omega⟩
      have huv : u = v := hfit.inOrder.eq_of_has hvalid.1 hv hu ⟨by omega, by omega⟩
      -- The region was copied before, and so the token was not to come.
      have hid : id ∈ s.significant := h.suffix.subset List.mem_cons_self
      have hpiece : id ∈ ks.flatMap fun k => k.piece.ids s := by
        refine List.mem_flatMap.mpr ⟨⟨gap, .region u⟩, hp, List.mem_filter.mpr ⟨hid, ?_⟩⟩
        obtain ⟨hlo', hhi'⟩ := isInside hin hfit hid hv hhas
        simp [huv, hlo', hhi']
      have hrest : id ∈ (id :: rest).filter
          fun id => w.copied ≤ ((s.tokenAt id).start : Int) := by
        simpa using hle
      have hnodup : s.significant.Nodup := by
        refine (TokenStream.significant_pairwise hin).imp_of_mem fun {a b} ha _ hab heq => ?_
        have hne := (hin.bounds _ (TokenStream.tokenAt_mem ha)).2.1
        rw [heq] at hab hne
        omega
      rw [← h.ids] at hnodup
      exact (List.disjoint_of_nodup_append hnodup) hpiece hrest

/-- A region that is copied is a stroke for all that is in it. -/
theorem Holds.copy {x : Context} (hinput : x.input = s.file.text)
    (h : Holds s style regions separator ks w (id :: rest))
    (hle : w.copied ≤ ((s.tokenAt id).start : Int)) {v : VerbatimSpan} (hv : v ∈ regions.spans)
    (hhas : v.Has (s.tokenAt id).start) :
    Holds s style regions separator (ks ++ [⟨[], .region v⟩]) (w.copy x v) rest := by
  have hid : id ∈ s.significant := h.suffix.subset List.mem_cons_self
  have hinside := isInside hin hfit hid hv hhas
  have horder : (id :: rest).Pairwise fun i j => (s.tokenAt i).stop ≤ (s.tokenAt j).start :=
    (TokenStream.significant_pairwise hin).sublist h.suffix.sublist
  have hbehind : ∀ i ∈ id :: rest, (s.tokenAt id).start ≤ (s.tokenAt i).start := by
    intro i hi
    have hne := (hin.bounds _ (TokenStream.tokenAt_mem hid)).2.1
    rcases List.mem_cons.mp hi with rfl | hi
    · exact Nat.le_refl _
    · have hstop := (List.pairwise_cons.mp horder).1 i hi
      omega
  obtain ⟨hlo, hhi⟩ := hhas
  -- What is still to come splits into what is in the region and what is behind it.
  have hcome : ∀ i ∈ (id :: rest).filter (fun i => w.copied ≤ ((s.tokenAt i).start : Int)),
      (v.start ≤ (s.tokenAt i).start ∧ (s.tokenAt i).stop ≤ v.stop ↔
        (s.tokenAt i).start < v.stop) := by
    intro i hi
    have hi := (List.mem_filter.mp hi).1
    have hsig := h.suffix.subset hi
    have hle := hbehind i hi
    have hne := (hin.bounds _ (TokenStream.tokenAt_mem hsig)).2.1
    constructor
    · rintro ⟨-, hstop⟩
      omega
    · intro hlt
      exact isInside hin hfit hsig hv ⟨by omega, hlt⟩
  have hregion : Piece.ids s (.region v) =
      ((id :: rest).filter fun i => w.copied ≤ ((s.tokenAt i).start : Int)).filter
        fun i => (s.tokenAt i).start < v.stop := by
    have hnone : (ks.flatMap fun k => k.piece.ids s).filter (fun i =>
        v.start ≤ (s.tokenAt i).start && (s.tokenAt i).stop ≤ v.stop) = [] := by
      rw [List.filter_eq_nil_iff]
      intro i hi
      simpa using h.not_inside hin hfit hle hv ⟨hlo, hhi⟩ hi
    rw [Piece.ids, ← h.ids, List.filter_append, hnone, List.nil_append]
    refine List.filter_congr fun i hi => ?_
    rw [← Bool.decide_and]
    exact decide_eq_decide.mpr (hcome i hi)
  have hrest : ((id :: rest).filter fun i => w.copied ≤ ((s.tokenAt i).start : Int)).filter
      (fun i => v.stop ≤ (s.tokenAt i).start) =
        rest.filter fun i => ((v.stop : Int) ≤ ((s.tokenAt i).start : Int)) := by
    rw [List.filter_filter, List.filter_cons_of_neg (by simp; omega)]
    refine List.filter_congr fun i hi => ?_
    have := hbehind i (List.mem_cons_of_mem id hi)
    simp only [← Bool.decide_and]
    exact decide_eq_decide.mpr ⟨by omega, by omega⟩
  have hsorted : ((id :: rest).filter fun i => w.copied ≤ ((s.tokenAt i).start : Int)).Pairwise
      fun i j => (s.tokenAt i).start ≤ (s.tokenAt j).start := by
    refine (horder.imp_of_mem fun {a b} ha _ hab => ?_).filter _
    have hne := (hin.bounds _ (TokenStream.tokenAt_mem (h.suffix.subset ha))).2.1
    omega
  have hvalid : Stroke.Valid s style regions separator ⟨[], .region v⟩ := by
    refine ⟨⟨hv, List.ne_nil_of_mem (a := id) (List.mem_filter.mpr ⟨hid, ?_⟩)⟩, Assembled.empty,
      fun _ _ => rfl, nofun⟩
    simp [hinside]
  refine ⟨h.wrote.copy hinput v, fun k hk => ?_, ?_,
    (List.suffix_cons id rest).trans h.suffix, ?_⟩
  · rcases List.mem_append.mp hk with hk | hk
    · exact h.valid k hk
    · exact List.mem_singleton.mp hk ▸ hvalid
  · change _ ++ rest.filter (fun i => ((v.stop : Int) ≤ ((s.tokenAt i).start : Int))) = _
    rw [List.flatMap_append, List.flatMap_singleton, hregion, ← hrest, List.append_assoc,
      filter_lt_append_filter_le v.stop hsorted]
    exact h.ids
  · refine Or.inr ⟨v, hv, rfl, fun i hi => ?_⟩
    have hle := hbehind i (List.mem_cons_of_mem id hi)
    omega

theorem isOutside (hid : id ∈ s.significant)
    (hat : regions.at? (Int64.ofNat (s.tokenAt id).start) = none) :
    (s.tokenAt id).IsOutside regions := by
  intro v hv
  have hmem := TokenStream.tokenAt_mem hid
  have hb := hin.bounds _ hmem
  have hnot := (hfit.at?_eq_none_iff (by omega)).mp hat v hv
  have hapart := hfit.apart _ hmem v hv
  simp only [VerbatimSpan.Has] at hnot
  omega

end Steps

/-- The text of a comment that has its lines. -/
theorem commentText_eq {x : Context} {y : LayoutContext} {c : Comment} {q : Placement}
    (hstyle : y.style = x.style) (h : q.Shows y c) :
    ∃ p, commentText x c.text q = c.textAt x.style p := by
  obtain ⟨p, hrendered, hhanging⟩ := h
  refine ⟨p, ?_⟩
  rw [hstyle] at hrendered
  have halign : Placing.alignedAt y p = Placing.alignedAt ⟨x.style, ⟨[], []⟩, 0⟩ p := by
    simp [Placing.alignedAt, hstyle]
  simp only [Comment.textAt, commentText, commentLines, hrendered, hhanging, halign]
  rfl

section Run

variable {s : TokenStream} {regions : Regions} {x : Context} {ks : List Stroke} {w w' : Writer}
  {rest : List Nat} {idss : List (List Nat)} {c : Chunk} {cs : List Chunk}

theorem request_eq (w : Writer) (t : Traits) (p : Placement) :
    ∃ gap, w.request t p = { w with gap } := by
  rw [request]
  split_ifs
  · exact ⟨_, rfl⟩
  · exact ⟨_, rfl⟩
  · exact ⟨w.gap, rfl⟩

theorem Holds.request (h : Holds s x.style regions (separator x) ks w rest) (t : Traits)
    (p : Placement) : Holds s x.style regions (separator x) ks (w.request t p) rest := by
  obtain ⟨gap, heq⟩ := request_eq w t p
  rw [heq]
  exact h.skip [] (by simp) gap w.last

theorem Holds.setLast (h : Holds s x.style regions (separator x) ks w rest) (last : Int) :
    Holds s x.style regions (separator x) ks { w with last } rest :=
  h.skip [] (by simp) w.gap last

variable (hin : Token.InOrder 0 s.file.text.length s.tokens.toList)
  (hfit : regions.Fit s.file.text.length s.tokens.toList) (hregions : x.regions = regions)
  (hinput : x.input = s.file.text)
include hin hfit hregions hinput

/-- Writing a token. -/
theorem Holds.token {t : Traits} {token : Token} {id : Nat}
    (h : Holds s x.style regions (separator x) ks w (id :: rest))
    (hget : s.tokens[id]? = some token) (hkind : token.kind.isSkippable = false)
    (hstart : t.start = token.start) (hstop : t.stop = token.stop)
    (hwrite : w.leaf x t (fun w => w.token x t token.text) = .ok w') :
    ∃ more, Holds s x.style regions (separator x) (ks ++ more) w' rest ∧
      (∀ k ∈ more, k.IsParting (separator x)) ∧ Puts s regions x w t.start more := by
  have hid : id ∈ s.significant := h.suffix.subset List.mem_cons_self
  have htoken := TokenStream.tokenAt_of_getElem? hget
  have hb := hin.bounds _ (TokenStream.tokenAt_mem hid)
  rw [← htoken] at hkind hstart hstop hwrite
  rcases leaf_cases hstart hwrite with ⟨hlt, rfl⟩ | ⟨hle, v, hat, rfl⟩ | ⟨hle, hat, rfl⟩
  · refine ⟨[], ?_, List.forall_mem_nil _,
      fun hmisses => absurd hlt (h.not_lt_copied (hstart ▸ hmisses)),
      fun _ => List.forall_mem_nil _⟩
    rw [List.append_nil]
    exact h.skip [id] (by simpa using hlt) _ t.stop
  · rw [hregions] at hat
    obtain ⟨hv, hhas⟩ := (hfit.at?_eq_some_iff (by omega)).mp hat
    refine ⟨_, (h.setLast t.stop).copy hin hfit hinput hle hv hhas, isParting_region v,
      fun hmisses => ?_, fun _ => List.forall_mem_singleton.mpr rfl⟩
    exact absurd hhas (Regions.Misses.not_has hmisses hstart hv)
  · rw [hregions] at hat
    have htext : (s.tokenAt id).text ≠ [] := by
      intro hnil
      simp only [Token.stop, hnil] at hb
      simp at hb
    have hvalid : Stroke.Valid s x.style regions (separator x)
        ⟨gapText x { w with last := t.stop }, .token id⟩ :=
      ⟨⟨hkind, isOutside hin hfit hid hat⟩, assembled_gapText x _, by rintro _ ⟨⟩,
        by rintro _ _ ⟨⟩⟩
    have hlast := h.setLast t.stop
    exact ⟨_, hlast.write _ hvalid (by simpa [Piece.ids] using hle)
      (hlast.wrote.token hstart hstop htext) (copied_token t _),
      List.forall_mem_singleton.mpr (isParting_gapText x _ _), fun _ => ⟨_, rfl, hstart.symm⟩,
      fun hmisses => absurd ((isOutside hin hfit hid hat).misses hb.2.1) (hstart ▸ hmisses)⟩

/-- Writing a comment, or line comments taken together. -/
theorem Holds.comment {t : Traits} {run : CommentRun} {y : LayoutContext} {p : Placement}
    (h : Holds s x.style regions (separator x) ks w (run.ids ++ rest))
    (hrun : run.Fits s.tokens x.style regions)
    (hstart : t.start = (s.tokenAt (run.ids.headD 0)).start) (hstyle : y.style = x.style)
    (hp : p.Shows y (Build.commentOf (s.buildContext x.style) run.ids))
    (hwrite : w.leaf x t (fun w => w.comment x (Build.commentOf (s.buildContext x.style)
      run.ids).text (some (Build.commentOf (s.buildContext x.style) run.ids)) p) = .ok w') :
    ∃ more, Holds s x.style regions (separator x) (ks ++ more) w' rest ∧
      (∀ k ∈ more, k.IsParting (separator x)) ∧ Puts s regions x w t.start more := by
  obtain ⟨first, more, hids⟩ := List.exists_cons_of_ne_nil hrun.nonempty
  have hmem : ∀ id ∈ run.ids, id ∈ s.significant := fun id hid =>
    h.suffix.subset (List.mem_append_left _ hid)
  have hfirst : first ∈ run.ids := by simp [hids]
  have hb := hin.bounds _ (TokenStream.tokenAt_mem (hmem first hfirst))
  rw [hids, List.headD_cons] at hstart
  -- Only a comment by itself can be in a region.
  have halone : (∃ v ∈ regions.spans, v.Has (s.tokenAt first).start) → run.ids = [first] := by
    rintro ⟨v, hv, hhas⟩
    rcases hrun.alone with ⟨id, heq⟩ | hfree
    · rw [heq] at hids ⊢
      rw [(List.cons.inj hids).1]
    · obtain ⟨token, hget, hnone, -⟩ := hfree first hfirst
      rw [← TokenStream.tokenAt_of_getElem? hget] at hnone
      exact absurd hhas ((hfit.at?_eq_none_iff (by omega)).mp hnone v hv)
  rcases leaf_cases hstart hwrite with ⟨hlt, rfl⟩ | ⟨hle, v, hat, rfl⟩ | ⟨hle, hat, rfl⟩
  · have hone : run.ids = [first] := by
      refine halone ?_
      rcases h.copied with hzero | ⟨v, hv, hcopied, hbehind⟩
      · omega
      · exact ⟨v, hv, hbehind first (List.mem_append_left _ hfirst), by omega⟩
    rw [hone] at h
    refine ⟨[], ?_, List.forall_mem_nil _,
      fun hmisses => absurd hlt (h.not_lt_copied (hstart ▸ hmisses)),
      fun _ => List.forall_mem_nil _⟩
    rw [List.append_nil]
    exact h.skip [first] (by simpa using hlt) _ t.stop
  · rw [hregions] at hat
    obtain ⟨hv, hhas⟩ := (hfit.at?_eq_some_iff (by omega)).mp hat
    rw [halone ⟨v, hv, hhas⟩] at h
    refine ⟨_, (h.setLast t.stop).copy hin hfit hinput hle hv hhas, isParting_region v,
      fun hmisses => ?_, fun _ => List.forall_mem_singleton.mpr rfl⟩
    exact absurd hhas (Regions.Misses.not_has hmisses hstart hv)
  · rw [hregions] at hat
    obtain ⟨position, htext⟩ := commentText_eq hstyle hp
    have hvalid : (Piece.comment run.ids position).Valid s regions := by
      refine ⟨hrun.nonempty, fun id hid => ?_, hrun.alone.imp_right fun hfree id hid => ?_⟩
      · obtain ⟨token, hget, hkind⟩ := hrun.comments id hid
        have htoken := TokenStream.tokenAt_of_getElem? hget
        refine ⟨by rw [htoken, hkind], isOutside hin hfit (hmem id hid) ?_⟩
        rcases hrun.alone with ⟨only, heq⟩ | hfree
        · have hsame : id = first := by
            rw [heq] at hid hids
            rw [List.mem_singleton.mp hid, (List.cons.inj hids).1]
          rw [hsame]
          exact hat
        · obtain ⟨token', hget', hnone, -⟩ := hfree id hid
          rw [TokenStream.tokenAt_of_getElem? hget']
          exact hnone
      · obtain ⟨token, hget, -, -, hline⟩ := hfree id hid
        rwa [TokenStream.tokenAt_of_getElem? hget]
    have hbehind : ∀ id ∈ run.ids, w.copied ≤ ((s.tokenAt id).start : Int) := by
      intro id hid
      have horder : (run.ids ++ rest).Pairwise fun i j =>
          (s.tokenAt i).stop ≤ (s.tokenAt j).start :=
        (TokenStream.significant_pairwise hin).sublist h.suffix.sublist
      rw [hids, List.cons_append] at horder
      rw [hids] at hid
      rcases List.mem_cons.mp hid with rfl | hid
      · exact hle
      · have := (List.pairwise_cons.mp horder).1 id (List.mem_append_left _ hid)
        omega
    have hstroke : Stroke.Valid s x.style regions (separator x)
        ⟨gapText x { w with last := t.stop }, .comment run.ids position⟩ := by
      refine ⟨hvalid, assembled_gapText x _, nofun, ?_⟩
      rintro _ _ ⟨⟩
      refine hrun.alone.imp_right fun hfree id hid => ?_
      obtain ⟨token, hget, -, htag, -⟩ := hfree id hid
      rwa [TokenStream.tokenAt_of_getElem? hget]
    have hlast := h.setLast t.stop
    refine ⟨_, hlast.write ⟨_, .comment run.ids position⟩ hstroke
      (fun id hid => hbehind id hid) (hlast.wrote.comment htext) rfl,
      List.forall_mem_singleton.mpr (isParting_gapText x _ _), fun _ => ⟨_, rfl, ?_⟩,
      fun hmisses => absurd ((isOutside hin hfit (hmem first hfirst) hat).misses hb.2.1)
        (hstart ▸ hmisses)⟩
    rw [Piece.StandsAt, hids, List.headD_cons]
    exact hstart.symm

/-- Writing one of several chunks. -/
theorem Holds.chunk {y : LayoutContext}
    (hshows : List.Forall₂ (Leaf.Shows (s.buildContext x.style) regions)
      ((c :: cs).filterMap Chunk.leaf?) idss) (hstyle : y.style = x.style)
    (hplaced : ∀ t text b, c = .comment t text (some b) → (x.placements.getD t.id {}).Shows y b)
    (h : Holds s x.style regions (separator x) ks w idss.flatten)
    (hwrite : Writer.write x w c = .ok w') :
    ∃ more idss', List.Forall₂ (Leaf.Shows (s.buildContext x.style) regions)
        (cs.filterMap Chunk.leaf?) idss' ∧
      Holds s x.style regions (separator x) (ks ++ more) w' idss'.flatten ∧
      (∀ k ∈ more, k.IsParting (separator x)) ∧
      (c.leaf? = none → more = []) ∧
      ∀ l ∈ c.leaf?, Puts s regions x (w.request c.traits (x.placements.getD c.traits.id {}))
        l.start more := by
  cases c with
  | token t text =>
      obtain ⟨ids, idss', hleaf, hmore, rfl⟩ := List.forall₂_cons_left_iff.mp hshows
      obtain ⟨id, token, rfl, hget, hkind, hstart, hstop, rfl⟩ := hleaf.token_inv
      obtain ⟨more, hholds, hparting, hputs⟩ :=
        (h.request t _).token hin hfit hregions hinput hget hkind hstart hstop hwrite
      refine ⟨more, idss', hmore, hholds, hparting, nofun, ?_⟩
      rintro _ ⟨⟩
      exact hputs
  | comment t text contents =>
      obtain ⟨ids, idss', hleaf, hmore, rfl⟩ := List.forall₂_cons_left_iff.mp hshows
      obtain ⟨run, rfl, hrun, hstart, -, rfl, rfl⟩ := hleaf.comment_inv
      obtain ⟨more, hholds, hparting, hputs⟩ :=
        (h.request t _).comment hin hfit hregions hinput hrun hstart hstyle (hplaced t _ _ rfl)
          hwrite
      refine ⟨more, idss', hmore, hholds, hparting, nofun, ?_⟩
      rintro _ ⟨⟩
      exact hputs
  | group t context breakFirst children =>
      obtain rfl := Except.ok.inj hwrite
      refine ⟨[], idss, hshows, ?_, List.forall_mem_nil _, fun _ => rfl, ?_⟩
      · rw [List.append_nil]
        exact h.request t _
      · rintro _ ⟨⟩
  | block t opening closing indented items =>
      obtain rfl := Except.ok.inj hwrite
      refine ⟨[], idss, hshows, ?_, List.forall_mem_nil _, fun _ => rfl, ?_⟩
      · rw [List.append_nil]
        exact h.request t _
      · rintro _ ⟨⟩

/-- Writing the chunks of a tree one after the other. -/
theorem Holds.foldlM {y : LayoutContext}
    (hshows : List.Forall₂ (Leaf.Shows (s.buildContext x.style) regions)
      (cs.filterMap Chunk.leaf?) idss) (hstyle : y.style = x.style)
    (hplaced : ∀ t text b, .comment t text (some b) ∈ cs →
      (x.placements.getD t.id {}).Shows y b)
    (h : Holds s x.style regions (separator x) ks w idss.flatten)
    (hks : ∀ k ∈ ks, k.IsParting (separator x)) (hwrite : cs.foldlM (Writer.write x) w = .ok w') :
    ∃ ks', ks <+: ks' ∧ Holds s x.style regions (separator x) ks' w' [] ∧
      (∀ k ∈ ks', k.IsParting (separator x)) ∧ Traced s regions x w cs ks' ∧
      ∀ k ∈ ks', k ∈ ks ∨ Stems s x w cs k := by
  induction cs generalizing ks w idss with
  | nil =>
      obtain rfl := Except.ok.inj hwrite
      cases hshows
      refine ⟨ks, List.prefix_refl ks, h, hks, fun pre _ _ hsplit => ?_, fun _ => Or.inl⟩
      cases pre <;> cases hsplit
  | cons c cs ih =>
      rw [List.foldlM_cons] at hwrite
      cases hfirst : Writer.write x w c with
      | error fault =>
          rw [hfirst] at hwrite
          cases hwrite
      | ok w₁ =>
          rw [hfirst] at hwrite
          obtain ⟨more, idss', hmore, h₁, hparting, hnone, hputs⟩ :=
            h.chunk hin hfit hregions hinput hshows hstyle
              (fun t text b heq => hplaced t text b (heq ▸ List.mem_cons_self)) hfirst
          obtain ⟨ks', ⟨after, hafter⟩, hholds, hks', htraced, hstems⟩ := ih hmore
            (fun t text b hb => hplaced t text b (List.mem_cons_of_mem c hb)) h₁
            (List.forall_mem_append.mpr ⟨hks, hparting⟩) hwrite
          rw [List.append_assoc] at hafter
          refine ⟨ks', ⟨more ++ after, hafter⟩, hholds, hks', fun pre d post hsplit => ?_,
            fun k hk => ?_⟩
          · cases pre with
            | nil =>
                obtain ⟨rfl, rfl⟩ := List.cons.inj hsplit
                exact ⟨w, ks, more, after, idss, rfl, hafter.symm, hshows, h, hputs⟩
            | cons c' pre =>
                obtain ⟨rfl, hrest⟩ := List.cons.inj hsplit
                obtain ⟨w₂, before, now, after', idss₂, hpre, htail⟩ := htraced pre d post hrest
                exact ⟨w₂, before, now, after', idss₂, foldlM_write_cons hfirst hpre, htail⟩
          · rcases hstems k hk with hk | hstem
            · exact (List.mem_append.mp hk).imp_right fun hk => stems_of_mem hnone hputs hk
            · exact Or.inr (hstem.cons hfirst)

/-- Chunks for all tokens and comments are written in strokes for all of them. -/
theorem finish_strokes {y : LayoutContext}
    (hshows : List.Forall₂ (Leaf.Shows (s.buildContext x.style) regions)
      (cs.filterMap Chunk.leaf?) idss) (hids : idss.flatten = s.significant)
    (hstyle : y.style = x.style)
    (hplaced : ∀ t text b, .comment t text (some b) ∈ cs →
      (x.placements.getD t.id {}).Shows y b)
    (hwrite : cs.foldlM (Writer.write x) (Writer.anchor {} 0) = .ok w) :
    ∃ ks, Stroke.Cover s x.style regions (separator x) ks ∧
      ks.IsChain (Stroke.Parted s x.style (separator x)) ∧
      finish x w = Stroke.output s x.style (separator x) ks ∧
      (∀ k ∈ ks, k.IsParting (separator x)) ∧ Traced s regions x (Writer.anchor {} 0) cs ks ∧
      ∀ k ∈ ks, Stems s x (Writer.anchor {} 0) cs k := by
  have hstart : Holds s x.style regions (separator x) [] (Writer.anchor {} 0) idss.flatten := by
    refine ⟨⟨rfl, rfl, rfl, rfl, rfl, rfl, .nil⟩, by simp, ?_, hids ▸ List.suffix_refl _,
      Or.inl rfl⟩
    rw [hids, List.flatMap_nil, List.nil_append, List.filter_eq_self]
    intro id _
    exact decide_eq_true (Int.natCast_nonneg _)
  obtain ⟨ks, -, hks, hparting, htraced, hstems⟩ :=
    Holds.foldlM hin hfit hregions hinput hshows hstyle hplaced hstart nofun hwrite
  exact ⟨ks, ⟨hks.valid, by simpa using hks.ids⟩, hks.wrote.parted,
    hks.wrote.finish_eq hinput, hparting, htraced, fun k hk => (hstems k hk).resolve_left nofun⟩

end Run

end Writer

end CodeLayout
