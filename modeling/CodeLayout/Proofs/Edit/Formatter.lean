import CodeLayout.Proofs.Formatter

/-!
# The edits of a formatted text

The edits of a text lie between the anchors of its strokes. A token has an anchor at each of its
ends, or it is in a region that has them, and what is written between these two is what the text has
there. So no edit replaces a byte of a token, and whichever of the edits are applied, all tokens are
kept.

The edits of a region of the text are those that touch it, as long as its end is a word: this is a
sum of two words, and a region that reaches past the largest word has no edits at all.
-/

namespace CodeLayout

/-- A text that holds others one after the other, with anything before, between and behind them. -/
inductive Bytes.Holds : List Bytes → Bytes → Prop
  | done (rest : Bytes) : Holds [] rest
  | next {texts : List Bytes} {rest : Bytes} (gap text : Bytes) (h : Holds texts rest) :
      Holds (text :: texts) (gap ++ text ++ rest)

namespace Bytes.Holds

variable {texts texts' : List Bytes} {s s' : Bytes}

theorem behind (gap : Bytes) (h : Holds texts s) : Holds texts (gap ++ s) := by
  cases h with
  | done rest => exact .done _
  | next gap' text h =>
      rw [← List.append_assoc, ← List.append_assoc]
      exact .next _ text h

theorem append (h : Holds texts s) (h' : Holds texts' s') : Holds (texts ++ texts') (s ++ s') := by
  induction h with
  | done rest => exact h'.behind rest
  | next gap text _ ih =>
      rw [List.append_assoc _ _ s']
      exact .next gap text ih

end Bytes.Holds

namespace Token.InOrder

variable {first last : Nat} {ts us : List Token}

/-- Some of the tokens that follow each other, between two other offsets. -/
theorem of_sublist (h : InOrder first last ts) (hsub : us.Sublist ts) {start stop : Nat}
    (hbounds : ∀ t ∈ us, start ≤ t.start ∧ t.stop ≤ stop) : InOrder start stop us :=
  ⟨h.pairwise.sublist hsub, fun t ht =>
    ⟨(hbounds t ht).1, (h.bounds t (hsub.subset ht)).2.1, (hbounds t ht).2⟩⟩

/-- Tokens none of which has a byte between two offsets are in front of these or behind them. -/
theorem exists_append (h : InOrder first last ts) {start stop : Nat}
    (hspare : ∀ t ∈ ts, t.stop ≤ start ∨ stop ≤ t.start) :
    ∃ before after, ts = before ++ after ∧ (∀ t ∈ before, t.stop ≤ start) ∧
      ∀ t ∈ after, stop ≤ t.start := by
  induction ts generalizing first with
  | nil => exact ⟨[], [], rfl, by simp, by simp⟩
  | cons t ts ih =>
      rcases hspare t List.mem_cons_self with hfront | hback
      · obtain ⟨before, after, rfl, hbefore, hafter⟩ :=
          ih h.tail fun u hu => hspare u (List.mem_cons_of_mem t hu)
        exact ⟨t :: before, after, rfl, List.forall_mem_cons.mpr ⟨hfront, hbefore⟩, hafter⟩
      · refine ⟨[], t :: ts, rfl, by simp, List.forall_mem_cons.mpr ⟨hback, fun u hu => ?_⟩⟩
        have ht := h.bounds t List.mem_cons_self
        have hu := h.tail.bounds u hu
        omega

/-- What stands in a part of a text that is kept. -/
theorem holds_slice {text : Bytes} {start stop : Nat} (hts : InOrder start stop ts)
    (htext : ∀ t ∈ ts, text.slice t.start t.stop = t.text) :
    Bytes.Holds (ts.map Token.text) (text.slice start stop) := by
  induction ts generalizing start with
  | nil => exact .done _
  | cons t ts ih =>
      have hb := hts.bounds t List.mem_cons_self
      have hrest := ih hts.tail fun u hu => htext u (List.mem_cons_of_mem t hu)
      rw [← Bytes.slice_append_slice hb.1 (Nat.le_trans hb.2.1.le hb.2.2),
        ← Bytes.slice_append_slice hb.2.1.le hb.2.2, htext t List.mem_cons_self,
        ← List.append_assoc]
      exact .next _ _ hrest

end Token.InOrder

namespace Edit

/-- Whether an edit replaces bytes of a text, and none that its replacement shares with them at
either end. -/
structure Trims (text : Bytes) (e : Edit) : Prop where
  start : 0 ≤ e.offset.toInt
  length : 0 ≤ e.length.toInt
  reach : e.reach ≤ text.length
  trimmed : IsTrimmed (text.slice e.offset.toInt.toNat e.reach.toNat) e.text

/-- Whether an edit replaces nothing between two offsets. -/
def Spares (start stop : Int) (e : Edit) : Prop :=
  e.reach ≤ start ∨ stop ≤ e.offset.toInt

namespace Rewrites

variable {text out : Bytes} {done : Nat} {es fs : List Edit}

/-- Any of the edits that rewrite a text rewrite it as well. -/
theorem exists_of_sublist (h : Rewrites text done es out) (hsub : fs.Sublist es) :
    ∃ out', Rewrites text done fs out' := by
  induction h generalizing fs with
  | rest h =>
      rw [List.sublist_nil.mp hsub]
      exact ⟨_, .rest h⟩
  | edit hdone hstart hstop hoffset hend h ih =>
      cases hsub with
      | cons _ hsub =>
          obtain ⟨out', hout⟩ := ih hsub
          exact ⟨_, hout.extend (Nat.le_trans hdone hstart)⟩
      | cons_cons _ hsub =>
          obtain ⟨out', hout⟩ := ih hsub
          exact ⟨_, .edit hdone hstart hstop hoffset hend hout⟩

/-- A text that is rewritten by edits that spare tokens holds these. -/
theorem holds (hmax : text.length < 2 ^ 63) (h : Rewrites text done es out) {ts : List Token}
    (hts : Token.InOrder done text.length ts) (htext : ∀ t ∈ ts, text.slice t.start t.stop = t.text)
    (hspare : ∀ e ∈ es, ∀ t ∈ ts, e.Spares t.start t.stop) :
    Bytes.Holds (ts.map Token.text) out := by
  induction h generalizing ts with
  | rest h =>
      have hslice := hts.holds_slice htext
      rwa [Bytes.slice, List.take_of_length_le (by simp)] at hslice
  | @edit done start stop e es out hdone hstart hstop hoffset hend h ih =>
      have he : e.offset.toInt = start ∧ e.reach = stop := by
        have hall := Rewrites.edit hdone hstart hstop hoffset hend h
        rw [← hall.toInt_stop hmax e List.mem_cons_self, hoffset, hend, toInt_ofNat hmax hstop,
          toInt_ofNat hmax (Nat.le_trans hstart hstop)]
        exact ⟨rfl, rfl⟩
      have hapart : ∀ t ∈ ts, t.stop ≤ start ∨ stop ≤ t.start := by
        intro t ht
        have hte := hspare e List.mem_cons_self t ht
        rw [Spares] at hte
        omega
      obtain ⟨before, after, rfl, hbefore, hafter⟩ := hts.exists_append hapart
      have hfront : Token.InOrder done start before :=
        hts.of_sublist (List.sublist_append_left _ _) fun t ht =>
          ⟨(hts.bounds t (List.mem_append_left after ht)).1, hbefore t ht⟩
      have hback : Token.InOrder stop text.length after :=
        hts.of_sublist (List.sublist_append_right _ _) fun t ht =>
          ⟨hafter t ht, (hts.bounds t (List.mem_append_right before ht)).2.2⟩
      have hrest := ih hback (fun t ht => htext t (List.mem_append_right before ht))
        fun d hd t ht => hspare d (List.mem_cons_of_mem e hd) t (List.mem_append_right before ht)
      have hkept := hfront.holds_slice fun t ht => htext t (List.mem_append_left after ht)
      rw [List.map_append, List.append_assoc]
      exact hkept.append (hrest.behind e.text)

end Rewrites

end Edit

namespace Output

variable {o : Output} {input : Bytes} {a b : Anchor} {e : Edit}

/-- The edit between two anchors lies between them. -/
theorem editBetween?_eq_some (hmax : input.length < 2 ^ 63) (hb : b.input ≤ input.length)
    (ha : 0 ≤ a.input) (h : o.editBetween? input a b = some e) :
    e.Trims input ∧ a.input ≤ e.offset.toInt ∧ e.reach ≤ b.input := by
  rw [editBetween?] at h
  split_ifs at h with horder
  simp only [Bool.or_eq_true, decide_eq_true_eq] at horder
  obtain ⟨front, mid, back, hold, -, hoffset, hlength, htrimmed⟩ := Edit.between?_eq_some h
  rw [List.append_assoc] at hold
  have hlen : b.input.toNat ≤ input.length := by omega
  have hsum := congrArg List.length hold
  simp only [Bytes.length_slice hlen, List.length_append] at hsum
  obtain ⟨-, htail⟩ := Bytes.slice_eq_append hlen (by omega) hold
  obtain ⟨hmid, -⟩ := Bytes.slice_eq_append hlen (by omega) htail
  have hstart : e.offset.toInt = (a.input.toNat + front.length : Nat) := by
    rw [hoffset, Edit.Rewrites.toInt_ofNat hmax (by omega)]
  have hwidth : e.length.toInt = mid.length := by
    rw [hlength, Edit.Rewrites.toInt_ofNat hmax (by omega)]
  have hreach : e.reach = (a.input.toNat + front.length + mid.length : Nat) := by
    rw [Edit.reach, hstart, hwidth]
    omega
  refine ⟨⟨by omega, by omega, by omega, ?_⟩, by omega, by omega⟩
  rw [hstart, hreach, Int.toNat_natCast, Int.toNat_natCast, hmid]
  exact htrimmed

/-- Each edit stands between an anchor and the next one. -/
theorem exists_anchors (h : e ∈ o.edits input) : ∃ i c d, o.anchors[i]? = some c ∧
    o.anchors[i + 1]? = some d ∧ o.editBetween? input c d = some e := by
  obtain ⟨⟨c, d⟩, hmem, hedit⟩ := List.mem_filterMap.mp h
  obtain ⟨i, hi⟩ := List.mem_iff_getElem?.mp hmem
  rw [List.getElem?_zip_eq_some, List.getElem?_tail] at hi
  exact ⟨i, c, d, hi.1, hi.2, hedit⟩

variable (hmax : input.length < 2 ^ 63) (horder : o.anchors.Pairwise Anchor.Before)
  (hbounds : ∀ a ∈ o.anchors, 0 ≤ a.input ∧ a.input ≤ input.length)
include hmax hbounds

theorem edits_trims (h : e ∈ o.edits input) : e.Trims input := by
  obtain ⟨i, c, d, hc, hd, hedit⟩ := exists_anchors h
  exact (editBetween?_eq_some hmax (hbounds d (List.mem_of_getElem? hd)).2
    (hbounds c (List.mem_of_getElem? hc)).1 hedit).1

include horder

/-- No edit replaces anything between two anchors that follow each other with the same text between
them in the input and in the output. -/
theorem edits_spares {as bs : List Anchor} (hsplit : o.anchors = as ++ a :: b :: bs)
    (hsame : input.slice a.input.toNat b.input.toNat = o.text.slice a.output b.output)
    (h : e ∈ o.edits input) : e.Spares a.input b.input := by
  obtain ⟨i, c, d, hc, hd, hedit⟩ := exists_anchors h
  obtain ⟨-, hstart, hreach⟩ := editBetween?_eq_some hmax (hbounds d (List.mem_of_getElem? hd)).2
    (hbounds c (List.mem_of_getElem? hc)).1 hedit
  have hle : ∀ {j k : Nat} {x y : Anchor}, o.anchors[j]? = some x → o.anchors[k]? = some y →
      j ≤ k → x.input ≤ y.input := by
    intro j k x y hx hy hjk
    obtain ⟨hj, rfl⟩ := List.getElem?_eq_some_iff.mp hx
    obtain ⟨hk, rfl⟩ := List.getElem?_eq_some_iff.mp hy
    rcases Nat.eq_or_lt_of_le hjk with rfl | hlt
    · exact Int.le_refl _
    · exact (List.pairwise_iff_getElem.mp horder j k hj hk hlt).1
  have ha : o.anchors[as.length]? = some a := by simp [hsplit]
  have hb : o.anchors[as.length + 1]? = some b := by simp [hsplit]
  rcases Nat.lt_trichotomy i as.length with hlt | rfl | hlt
  · exact Or.inl (Int.le_trans hreach (hle hd ha hlt))
  · -- The edit would stand between the two anchors themselves.
    obtain rfl := Option.some.inj (ha.symm.trans hc)
    obtain rfl := Option.some.inj (hb.symm.trans hd)
    rw [editBetween?, Edit.between?, if_pos hsame] at hedit
    split_ifs at hedit
  · exact Or.inr (Int.le_trans (hle hb hc hlt) hstart)

end Output

namespace Stroke.Cover

variable {s : TokenStream} {style : Style} {regions : Regions} {separator : Bytes}
  {ks : List Stroke} (h : Cover s style regions separator ks)
  (hin : Token.InOrder 0 s.file.text.length s.tokens.toList)
  (hfit : regions.Fit s.file.text.length s.tokens.toList)
include h hin hfit

/-- The anchors lie in the input. -/
theorem anchors_bounds : ∀ a ∈ (output s style separator ks).anchors,
    0 ≤ a.input ∧ a.input ≤ s.file.text.length := by
  intro a ha
  simp only [output, List.mem_append, List.mem_cons, List.not_mem_nil, or_false] at ha
  rcases ha with (rfl | ha) | rfl
  · exact ⟨Int.le_refl _, Int.natCast_nonneg _⟩
  · obtain ⟨⟨k, hk, start, stop, hends, hinput⟩, -⟩ := mem_anchorsAll ha
    have hb := h.ends_bounds hin hfit hk hends
    omega
  · exact ⟨Int.natCast_nonneg _, Int.le_refl _⟩

/-- A piece that is written as it stands in the input is not changed by any edit. -/
theorem edits_spares (hmax : s.file.text.length < 2 ^ 63) {k : Stroke} (hk : k ∈ ks)
    {start stop : Nat} (hends : k.piece.ends? s = some (start, stop))
    (htext : k.piece.text s style = s.file.text.slice start stop) {e : Edit}
    (he : e ∈ (output s style separator ks).edits s.file.text) : e.Spares start stop := by
  obtain ⟨before, after, rfl⟩ := List.append_of_mem hk
  have hanchors : k.anchors s style (textAll s style before).length =
      [⟨start, (textAll s style before ++ k.gap).length⟩,
        ⟨stop, (textAll s style before ++ k.gap).length + (k.piece.text s style).length⟩] := by
    simp [anchors, hends, text, Nat.add_assoc]
  obtain ⟨bs, hsplit⟩ : ∃ bs, (output s style separator (before ++ k :: after)).anchors =
      (⟨0, 0⟩ :: anchorsAll s style 0 before) ++
        ⟨start, (textAll s style before ++ k.gap).length⟩ ::
          ⟨stop, (textAll s style before ++ k.gap).length + (k.piece.text s style).length⟩ ::
            bs := by
    simp only [output, anchorsAll_append, anchorsAll, Nat.zero_add, hanchors]
    simp
  obtain ⟨back, hback⟩ : ∃ back, (output s style separator (before ++ k :: after)).text =
      textAll s style before ++ k.gap ++ k.piece.text s style ++ back := by
    simp [output, textAll, text]
  refine Output.edits_spares hmax (h.anchors_pairwise hin hfit) (h.anchors_bounds hin hfit)
    hsplit ?_ he
  rw [hback, Bytes.slice_between]
  exact htext.symm

omit hin hfit in
/-- A token is written as it stands in the input, by itself or in a region. -/
theorem exists_ends (hslice : ∀ t ∈ s.tokens.toList, s.file.text.slice t.start t.stop = t.text)
    {t : Token} (ht : t ∈ s.tokens.toList) (hkind : t.kind.isSkippable = false) :
    ∃ k ∈ ks, ∃ start stop, k.piece.ends? s = some (start, stop) ∧
      k.piece.text s style = s.file.text.slice start stop ∧ start ≤ t.start ∧ t.stop ≤ stop := by
  obtain ⟨i, hget⟩ := List.mem_iff_getElem?.mp ht
  rw [Array.getElem?_toList] at hget
  have htoken := TokenStream.tokenAt_of_getElem? hget
  have hmem : i ∈ s.significant := TokenStream.mem_significant_iff.mpr ⟨t, hget, by
    rintro hspace
    rw [hspace] at hkind
    cases hkind⟩
  obtain ⟨k, hk, hi⟩ := h.exists_stroke hmem
  refine ⟨k, hk, ?_⟩
  have hvalid := (h.valid k hk).piece
  cases hpiece : k.piece with
  | token id =>
      rw [hpiece, Piece.ids, List.mem_singleton] at hi
      subst hi
      rw [← htoken]
      refine ⟨_, _, rfl, ?_, Nat.le_refl _, Nat.le_refl _⟩
      rw [htoken]
      exact (congrArg Token.text htoken).trans (hslice t ht).symm
  | comment ids p =>
      rw [hpiece] at hi hvalid
      have hcomment := (hvalid.2.1 i hi).1
      rw [htoken] at hcomment
      rw [hcomment] at hkind
      cases hkind
  | region v =>
      rw [hpiece] at hi
      have hinside := (List.mem_filter.mp hi).2
      simp only [htoken, Bool.and_eq_true, decide_eq_true_eq] at hinside
      exact ⟨_, _, rfl, rfl, hinside.1, hinside.2⟩

end Stroke.Cover

/-- The text of a file between the ends of a token is that of the token. -/
theorem TokenStream.ofFile_slice (file : SourceFile) : ∀ t ∈ (ofFile file).tokens.toList,
    file.text.slice t.start t.stop = t.text := by
  intro t ht
  obtain ⟨before, after, hsplit, hstart⟩ := Token.exists_split ht
  rw [Token.stop, hstart, hsplit]
  exact Bytes.slice_between before t.text after

/-- The edits of a whole text are in order and apart from each other, share nothing at either end
with what they replace, and replace no byte of a token. So applying any of them keeps the texts of
all tokens in their order. -/
theorem Formatter.edits_between_tokens (f : Formatter) (text : Bytes)
    (hmax : text.length < 2 ^ 63) :
    let whole := (f.edits text 0 (Int64.ofNat text.length)).1
    let tokens := (TokenStream.ofFile ⟨[], text⟩).tokens.toList.filter fun t => !t.kind.isSkippable
    (whole.Pairwise fun a b => a.stop.toInt ≤ b.offset.toInt) ∧
      (∀ e ∈ whole, e.Trims text ∧ ∀ t ∈ tokens, e.Spares t.start t.stop) ∧
      ∀ es, es.Sublist whole →
        ∃ out, Edit.apply text es = .ok out ∧ Bytes.Holds (tokens.map Token.text) out := by
  intro whole tokens
  have hrewrites := f.run_rewrites ⟨[], text⟩ hmax
  have hwhole : whole = (f.run ⟨[], text⟩).1.edits text := hrewrites.filter_touches hmax
  have hin := TokenStream.ofFile_inOrder ⟨[], text⟩
  have hslice := TokenStream.ofFile_slice ⟨[], text⟩
  rw [← hwhole] at hrewrites
  have hedits : ∀ e ∈ whole, e.Trims text ∧ ∀ t ∈ tokens, e.Spares t.start t.stop := by
    rw [hwhole]
    cases hrun : (Formatted.ofFile ⟨[], text⟩ f.kind f.effective.1).1 with
    | error fault =>
        simp only [run, hrun]
        simp [Output.edits]
    | ok formatted =>
        have hfit := @Regions.ofStream_fit ⟨[], text⟩ f.effective.1 hmax
        obtain ⟨ks, hcover, hout⟩ :=
          Formatted.ofFile_strokes hmax (Style.normalize_separator _) hrun
        simp only [run, hrun, hout]
        refine fun e he => ⟨Output.edits_trims hmax (hcover.anchors_bounds hin hfit) he, ?_⟩
        intro t ht
        obtain ⟨ht, hkind⟩ := List.mem_filter.mp ht
        obtain ⟨k, hk, start, stop, hends, htext, hstart, hstop⟩ :=
          hcover.exists_ends hslice ht (by simpa using hkind)
        have hspares := hcover.edits_spares hin hfit hmax hk hends htext he
        rw [Edit.Spares] at hspares ⊢
        omega
  refine ⟨hrewrites.pairwise hmax, hedits, fun es hsub => ?_⟩
  obtain ⟨out, hout⟩ := hrewrites.exists_of_sublist hsub
  refine ⟨out, (hout.apply_eq hmax).1, hout.holds hmax ?_ ?_ ?_⟩
  · exact hin.of_sublist List.filter_sublist fun t ht =>
      ⟨(hin.bounds t (List.mem_filter.mp ht).1).1, (hin.bounds t (List.mem_filter.mp ht).1).2.2⟩
  · exact fun t ht => hslice t (List.mem_filter.mp ht).1
  · exact fun e he t ht => (hedits e (hsub.subset he)).2 t ht

/-- A class on two lines: without the second of its edits, all tokens are still there. -/
theorem Formatter.edits_between_tokens_class :
    (ascii "class A\x7bint  x;// c\n\x7d").length < 2 ^ 63 ∧
      ∃ out, Edit.apply (ascii "class A\x7bint  x;// c\n\x7d")
          [⟨7, 0, [32]⟩, ⟨12, 1, []⟩, ⟨15, 0, [32]⟩] = .ok out ∧
        Bytes.Holds [ascii "class", ascii "A", ascii "\x7b", ascii "int", ascii "x", ascii ";",
          ascii "\x7d"] out := by
  have hlength : (ascii "class A\x7bint  x;// c\n\x7d").length < 2 ^ 63 := by decide
  have hwhole : (edits {} (ascii "class A\x7bint  x;// c\n\x7d") 0 (Int64.ofNat
      (ascii "class A\x7bint  x;// c\n\x7d").length)).1 =
        [⟨7, 0, [32]⟩, ⟨8, 0, [10, 9]⟩, ⟨12, 1, []⟩, ⟨15, 0, [32]⟩] := by decide +kernel
  have htokens :
      ((TokenStream.ofFile ⟨[], ascii "class A\x7bint  x;// c\n\x7d"⟩).tokens.toList.filter
      fun t => !t.kind.isSkippable).map Token.text = [ascii "class", ascii "A", ascii "\x7b",
        ascii "int", ascii "x", ascii ";", ascii "\x7d"] := by decide +kernel
  have hsome := (edits_between_tokens {} _ hlength).2.2 [⟨7, 0, [32]⟩, ⟨12, 1, []⟩, ⟨15, 0, [32]⟩]
  rw [hwhole, htokens] at hsome
  exact ⟨hlength, hsome (by decide)⟩

namespace Edit

/-- Whether an edit touches the region of `length` bytes from an offset on, counted over the
integers; a negative length is none. -/
def Meets (offset length : Int64) (e : Edit) : Prop :=
  e.offset.toInt ≤ offset.toInt + max length.toInt 0 ∧ offset.toInt ≤ e.reach

instance (offset length : Int64) : DecidablePred (Meets offset length) := fun _ =>
  inferInstanceAs (Decidable (_ ∧ _))

theorem toInt_max_zero (length : Int64) : (max length 0).toInt = max length.toInt 0 := by
  change (if length ≤ 0 then 0 else length).toInt = _
  split_ifs with h <;> rw [Int64.le_iff_toInt_le, Int64.toInt_zero] at h
  · rw [Int64.toInt_zero, Int.max_eq_right h]
  · rw [Int.max_eq_left (by omega)]

/-- All edits behind its start touch a region that reaches past the words. -/
theorem filter_meets_eq {offset length : Int64} (es : List Edit)
    (hsum : 2 ^ 63 ≤ offset.toInt + max length.toInt 0) :
    es.filter (Meets offset length) =
      es.filter fun e => offset.toInt ≤ e.reach := by
  refine List.filter_congr fun e _ => decide_eq_decide.mpr ?_
  have hlt := e.offset.toInt_lt
  rw [Meets]
  omega

section Touches

variable {offset length : Int64} {e : Edit} (hoffset : 0 ≤ offset.toInt)
  (hstop : e.stop.toInt = e.reach)
include hoffset

/-- The end of a region that is within the words. -/
theorem toInt_regionEnd (hsum : offset.toInt + max length.toInt 0 < 2 ^ 63) :
    (offset + max length 0).toInt = offset.toInt + max length.toInt 0 := by
  rw [Int64.toInt_add, toInt_max_zero, Int.bmod_eq_of_le] <;> omega

/-- The end of a region that reaches past the words is negative. -/
theorem toInt_regionEnd_lt (hsum : 2 ^ 63 ≤ offset.toInt + max length.toInt 0) :
    (offset + max length 0).toInt < 0 := by
  have ho := offset.toInt_lt
  have hl := length.toInt_lt
  rw [Int64.toInt_add, toInt_max_zero, Int.bmod_def]
  split_ifs <;> omega

include hstop

theorem touches_iff (hsum : offset.toInt + max length.toInt 0 < 2 ^ 63) :
    touches offset length e = true ↔ Meets offset length e := by
  simp only [touches, Bool.and_eq_true, decide_eq_true_eq, Int64.le_iff_toInt_le,
    toInt_regionEnd hoffset hsum, hstop, Meets]

end Touches

namespace Rewrites

variable {text out : Bytes} {es : List Edit} {offset length : Int64} (hmax : text.length < 2 ^ 63)
  (h : Rewrites text 0 es out) (hoffset : 0 ≤ offset.toInt)
include hmax h hoffset

theorem filter_touches_eq (hsum : offset.toInt + max length.toInt 0 < 2 ^ 63) :
    es.filter (touches offset length) = es.filter (Meets offset length) :=
  List.filter_congr fun e he => by
    rw [Bool.eq_iff_iff, touches_iff hoffset (h.toInt_stop hmax e he) hsum, decide_eq_true_iff]

/-- No edit touches a region whose end is negative. -/
theorem filter_touches_eq_nil (hsum : 2 ^ 63 ≤ offset.toInt + max length.toInt 0) :
    es.filter (touches offset length) = [] := by
  refine List.filter_eq_nil_iff.mpr fun e he htouches => ?_
  have hend := toInt_regionEnd_lt hoffset hsum
  have hlo := (h.bounds hmax e he).1
  simp only [touches, Bool.and_eq_true, decide_eq_true_eq, Int64.le_iff_toInt_le] at htouches
  omega

end Rewrites

end Edit

/-- The edits of a region are exactly the edits of the whole text that touch it, counted over the
integers and in their order, if the end of the region is a word or if all edits of the text end
before the region. Otherwise there are none of them. -/
theorem Formatter.edits_eq_filter_iff (f : Formatter) (text : Bytes) (offset length : Int64)
    (hmax : text.length < 2 ^ 63) (hoffset : 0 ≤ offset.toInt) :
    ((f.edits text offset length).1 =
        (f.edits text 0 (Int64.ofNat text.length)).1.filter (Edit.Meets offset length) ↔
      offset.toInt + max length.toInt 0 < 2 ^ 63 ∨
        ∀ e ∈ (f.edits text 0 (Int64.ofNat text.length)).1,
          e.reach < offset.toInt) ∧
    (2 ^ 63 ≤ offset.toInt + max length.toInt 0 → (f.edits text offset length).1 = []) := by
  have hrewrites := f.run_rewrites ⟨[], text⟩ hmax
  have hall : (f.edits text 0 (Int64.ofNat text.length)).1 =
      (f.run ⟨[], text⟩).1.edits text := hrewrites.filter_touches hmax
  have hregion : (f.edits text offset length).1 =
      ((f.run ⟨[], text⟩).1.edits text).filter (Edit.touches offset length) := rfl
  rw [hall, hregion]
  rcases Int.lt_or_le (offset.toInt + max length.toInt 0) (2 ^ 63) with hsum | hsum
  · refine ⟨iff_of_true (hrewrites.filter_touches_eq hmax hoffset hsum) (Or.inl hsum), ?_⟩
    omega
  · rw [hrewrites.filter_touches_eq_nil hmax hoffset hsum,
      Edit.filter_meets_eq _ hsum, eq_comm, List.filter_eq_nil_iff,
      or_iff_right (by omega)]
    refine ⟨?_, fun _ => rfl⟩
    simp only [decide_eq_true_eq, Int.not_le]

/-- A field with two spaces too many, asked for from its second byte on. -/
theorem Formatter.edits_eq_filter_iff_field :
    (ascii "int  x ;\n").length < 2 ^ 63 ∧ 0 ≤ (1 : Int64).toInt ∧
      (Formatter.edits {} (ascii "int  x ;\n") 1 8).1 =
        (Formatter.edits {} (ascii "int  x ;\n") 0 (Int64.ofNat
          (ascii "int  x ;\n").length)).1.filter (Edit.Meets 1 8) := by
  have hlength : (ascii "int  x ;\n").length < 2 ^ 63 := by decide
  exact ⟨hlength, by decide,
    (Formatter.edits_eq_filter_iff {} _ 1 8 hlength (by decide)).1.mpr (Or.inl (by decide))⟩

/-- The same field, asked for from its second byte to the end of all words: neither of the two edits
that touch this region is returned. -/
theorem Formatter.edits_ne_filter_field :
    (Formatter.edits {} (ascii "int  x ;\n") 1 9223372036854775807).1 = [] ∧
      (Formatter.edits {} (ascii "int  x ;\n") 0 9).1.filter
        (Edit.Meets 1 9223372036854775807) = [⟨4, 1, []⟩, ⟨6, 1, []⟩] := by
  decide +kernel

end CodeLayout
