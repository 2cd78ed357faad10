import CodeLayout.Proofs.Anchors
import CodeLayout.Proofs.Output
import Mathlib.Data.List.Sort

/-!
# Regions in a written text

A region that holds a token or a comment is copied directly behind the comment that opens it. Any
other region is white space at the end of the text: no stroke copies it, and it is in the written
text only as far as the end of the last line happens to agree with it.
-/

namespace CodeLayout

namespace VerbatimSpan

/-- Whether a region holds a token or a comment. -/
def IsFilled (s : TokenStream) (v : VerbatimSpan) : Bool :=
  !(Piece.ids s (.region v)).isEmpty

/-- Whether a region opens behind the token at an index: a comment that starts with the disabling
tag. -/
structure OpensBehind (s : TokenStream) (style : Style) (v : VerbatimSpan) (id : Nat) : Prop where
  comment : (s.tokenAt id).kind = .comment
  tag : Verbatim.startsWith style.disablingTag.squeeze (s.tokenAt id).text = true
  stop : (s.tokenAt id).stop = v.start

theorem isFilled_iff {s : TokenStream} {v : VerbatimSpan} :
    v.IsFilled s = true ↔ Piece.ids s (.region v) ≠ [] := by
  simp [IsFilled]

theorem mem_ids_region {s : TokenStream} {v : VerbatimSpan} {id : Nat} :
    id ∈ Piece.ids s (.region v) ↔ id ∈ s.significant ∧
      v.start ≤ (s.tokenAt id).start ∧ (s.tokenAt id).stop ≤ v.stop := by
  simp [Piece.ids]

end VerbatimSpan

/-- A region that holds nothing reaches to the end of the text. -/
theorem Regions.isFilled_or_stop_eq {file : SourceFile} {style : Style}
    (hmax : file.text.length < 2 ^ 63) {v : VerbatimSpan}
    (hv : v ∈ (ofStream (TokenStream.ofFile file) style).spans) :
    v.IsFilled (TokenStream.ofFile file) = true ∨ v.stop = file.text.length := by
  have hfit := @ofStream_fit file style hmax
  have hends := hv
  rw [ofStream_spans hmax] at hends
  refine (spansOf_ends hends).2.symm.imp_left ?_
  rintro ⟨t, ht, hstop, hkind, -⟩
  -- The comment at the end of a region lies in it.
  have hb := hfit.inOrder.bounds v hv
  have htb := (TokenStream.ofFile_inOrder file).bounds t ht
  have hapart := hfit.apart t ht v hv
  obtain ⟨id, hget⟩ := List.mem_iff_getElem?.mp ht
  rw [Array.getElem?_toList] at hget
  refine VerbatimSpan.isFilled_iff.mpr (List.ne_nil_of_mem (a := id) ?_)
  rw [VerbatimSpan.mem_ids_region, TokenStream.tokenAt_of_getElem? hget]
  refine ⟨TokenStream.mem_significant_iff.mpr ⟨t, hget, ?_⟩, by omega, by omega⟩
  rw [hkind]
  decide

theorem Piece.Valid.ids_ne_nil {s : TokenStream} {regions : Regions} {p : Piece}
    (h : p.Valid s regions) : p.ids s ≠ [] := by
  cases p with
  | token id => simp [Piece.ids]
  | comment ids position => exact h.1
  | region v => exact h.2

namespace Stroke

/-- The region that a stroke copies. -/
def region? (k : Stroke) : Option VerbatimSpan :=
  match k.piece with
  | .region v => some v
  | _ => none

/-- Whether the bytes of a region stand unchanged in a text that is written in strokes, directly
behind the written form of the comment that opens it. -/
def Keeps (s : TokenStream) (style : Style) (separator : Bytes) (ks : List Stroke)
    (v : VerbatimSpan) : Prop :=
  ∃ before gap id position after, v.OpensBehind s style id ∧
    ks = before ++ ⟨gap, .comment [id] position⟩ :: after ∧
    s.file.text.slice v.start v.stop <+: textAll s style after ++ ending s separator ks

variable {s : TokenStream} {style : Style} {regions : Regions} {separator : Bytes} {k l : Stroke}
  {ks before after : List Stroke} {v : VerbatimSpan} {id : Nat}

theorem region?_eq_some_iff : k.region? = some v ↔ k.piece = .region v := by
  obtain ⟨gap, p⟩ := k
  cases p <;> simp [region?]

namespace Cover

variable (h : Cover s style regions separator ks)
include h

theorem exists_stroke (hid : id ∈ s.significant) : ∃ k ∈ ks, id ∈ k.piece.ids s := by
  rw [← h.ids] at hid
  exact List.mem_flatMap.mp hid

variable (hin : Token.InOrder 0 s.file.text.length s.tokens.toList)
include hin

theorem start_lt_stop (hk : k ∈ ks) (hid : id ∈ k.piece.ids s) :
    (s.tokenAt id).start < (s.tokenAt id).stop :=
  (hin.bounds _ (TokenStream.tokenAt_mem (h.mem_significant hk hid))).2.1

theorem stop_le_start (hks : ks = before ++ k :: after) (hid : id ∈ k.piece.ids s)
    (hl : l ∈ after) {j : Nat} (hj : j ∈ l.piece.ids s) :
    (s.tokenAt id).stop ≤ (s.tokenAt j).start := by
  have horder := h.pairwise hin
  rw [hks] at horder
  exact (List.pairwise_cons.mp (List.pairwise_append.mp horder).2.1).1 l hl id hid j hj

/-- The comment that opens a region is written by itself. -/
theorem exists_opening {t : Token} (ht : t ∈ s.tokens.toList) (hkind : t.kind = .comment)
    (htag : Verbatim.hasTag t.text style = true) (hout : t.IsOutside regions) :
    ∃ before gap id position after, s.tokenAt id = t ∧
      ks = before ++ ⟨gap, .comment [id] position⟩ :: after := by
  obtain ⟨id, hget⟩ := List.mem_iff_getElem?.mp ht
  rw [Array.getElem?_toList] at hget
  have htoken := TokenStream.tokenAt_of_getElem? hget
  have hid : id ∈ s.significant :=
    TokenStream.mem_significant_iff.mpr ⟨t, hget, by rw [hkind]; decide⟩
  obtain ⟨⟨gap, p⟩, hk, hip⟩ := h.exists_stroke hid
  have hne := h.start_lt_stop hin hk hip
  have hvalid := h.valid _ hk
  cases p with
  | token i =>
      rw [Piece.ids, List.mem_singleton] at hip
      have hstructure := hvalid.piece.1
      rw [← hip, htoken, hkind] at hstructure
      cases hstructure
  | comment ids position =>
      have hids : ids = [id] := by
        rcases hvalid.alone ids position rfl with ⟨only, heq⟩ | hnone
        · rw [heq] at hip ⊢
          rw [List.mem_singleton.mp hip]
        · have hno := hnone id hip
          rw [htoken, htag] at hno
          cases hno
      obtain ⟨before, after, hks⟩ := List.append_of_mem hk
      exact ⟨before, gap, id, position, after, htoken, hids ▸ hks⟩
  | region u =>
      obtain ⟨-, hlo, hhi⟩ := VerbatimSpan.mem_ids_region.mp hip
      have hapart := hout u hvalid.piece.1
      rw [htoken] at hlo hhi hne
      omega

variable (hfit : regions.Fit s.file.text.length s.tokens.toList)
include hfit

/-- What lies in a region is written only by the stroke that copies the region. -/
theorem piece_eq_region (hv : v ∈ regions.spans) (hk : k ∈ ks) (hid : id ∈ k.piece.ids s)
    (hhas : v.Has (s.tokenAt id).start) : k.piece = .region v := by
  have hne := h.start_lt_stop hin hk hid
  have hvalid := (h.valid k hk).piece
  obtain ⟨gap, p⟩ := k
  cases p with
  | token i =>
      rw [Piece.ids, List.mem_singleton] at hid
      subst hid
      have hout := hvalid.2 v hv
      simp only [VerbatimSpan.Has] at hhas
      omega
  | comment ids position =>
      have hout := (hvalid.2.1 id hid).2 v hv
      simp only [VerbatimSpan.Has] at hhas
      omega
  | region u =>
      obtain ⟨-, hlo, hhi⟩ := VerbatimSpan.mem_ids_region.mp hid
      have hu : u.Has (s.tokenAt id).start := ⟨hlo, by omega⟩
      rw [hfit.inOrder.eq_of_has hvalid.1 hv hu hhas]

/-- The regions that are copied are those that hold something, in the order of the input. -/
theorem regions_eq : ks.filterMap region? = regions.spans.filter fun v => v.IsFilled s := by
  have hspans : regions.spans.Pairwise fun u v => u.start < v.start := by
    refine hfit.inOrder.pairwise.imp_of_mem fun {u v} hu _ huv => ?_
    have hb := hfit.inOrder.bounds u hu
    omega
  have hcopied : (ks.filterMap region?).Pairwise fun u v => u.start < v.start := by
    rw [List.pairwise_filterMap]
    refine (h.ends_apart hin hfit).imp_of_mem fun {k l} hk hl hkl u hu v hv => ?_
    rw [region?_eq_some_iff] at hu hv
    have hvalid := (h.valid k hk).piece
    rw [hu] at hvalid
    have hb := hfit.inOrder.bounds u hvalid.1
    have huv := hkl u.start u.stop v.start v.stop (by rw [hu]; rfl) (by rw [hv]; rfl)
    omega
  have : Std.Antisymm fun u v : VerbatimSpan => u.start < v.start :=
    ⟨fun u v huv hvu => by omega⟩
  have : Std.Irrefl fun u v : VerbatimSpan => u.start < v.start :=
    ⟨fun u => Nat.lt_irrefl _⟩
  refine hcopied.eq_of_mem_iff (hspans.filter _) fun v => ?_
  rw [List.mem_filterMap, List.mem_filter, VerbatimSpan.isFilled_iff]
  constructor
  · rintro ⟨k, hk, hregion⟩
    rw [region?_eq_some_iff] at hregion
    have hvalid := (h.valid k hk).piece
    rw [hregion] at hvalid
    exact hvalid
  · rintro ⟨hv, hfilled⟩
    obtain ⟨i, hi, hlo, hne, hhi⟩ := Piece.exists_mem_region hin hfilled
    obtain ⟨k, hk, hik⟩ := h.exists_stroke (VerbatimSpan.mem_ids_region.mp hi).1
    refine ⟨k, hk, region?_eq_some_iff.mpr ?_⟩
    exact h.piece_eq_region hin hfit hv hk hik ⟨hlo, by omega⟩

/-- A region that holds something is copied next behind the comment that opens it. -/
theorem copied_next (hks : ks = before ++ k :: after) (hid : id ∈ k.piece.ids s)
    (hstop : (s.tokenAt id).stop = v.start) (hv : v ∈ regions.spans)
    (hfilled : v.IsFilled s = true) : ∃ rest, after = ⟨[], .region v⟩ :: rest := by
  have hk : k ∈ ks := by simp [hks]
  have hidlt := h.start_lt_stop hin hk hid
  obtain ⟨i, hi, hlo, hne, hhi⟩ :=
    Piece.exists_mem_region hin (VerbatimSpan.isFilled_iff.mp hfilled)
  obtain ⟨l, hl, hil⟩ := h.exists_stroke (VerbatimSpan.mem_ids_region.mp hi).1
  -- The stroke that copies the region is behind the comment.
  have hafter : l ∈ after := by
    have horder := h.pairwise hin
    rw [hks] at horder hl
    rcases List.mem_append.mp hl with hbefore | hl
    · have hle := (List.pairwise_append.mp horder).2.2 l hbefore k List.mem_cons_self i hil id hid
      omega
    · rcases List.mem_cons.mp hl with rfl | hl
      · have hregion := h.piece_eq_region hin hfit hv hk hil ⟨hlo, by omega⟩
        rw [hregion, VerbatimSpan.mem_ids_region] at hid
        omega
      · exact hl
  obtain ⟨first, rest, rfl⟩ := List.exists_cons_of_ne_nil (List.ne_nil_of_mem hafter)
  have hfirst : first ∈ ks := by simp [hks]
  -- What the next stroke stands for lies in the region.
  obtain ⟨j, hj⟩ := List.exists_mem_of_ne_nil _ (h.valid first hfirst).piece.ids_ne_nil
  have hjlo := h.stop_le_start hin hks hid List.mem_cons_self hj
  have hjne := h.start_lt_stop hin hfirst hj
  have hjhi : (s.tokenAt j).start < v.stop := by
    rcases List.mem_cons.mp hafter with rfl | hrest
    · rw [h.piece_eq_region hin hfit hv hfirst hil ⟨hlo, by omega⟩,
        VerbatimSpan.mem_ids_region] at hj
      omega
    · have hks' : ks = (before ++ [k]) ++ first :: rest := by simp [hks]
      have hle := h.stop_le_start hin hks' hj hrest hil
      omega
  have hregion := h.piece_eq_region hin hfit hv hfirst hj ⟨by omega, hjhi⟩
  have hgap := (h.valid first hfirst).direct v hregion
  obtain ⟨gap, p⟩ := first
  simp only at hregion hgap
  exact ⟨rest, by rw [hregion, hgap]⟩

omit hfit in
/-- Nothing is written behind the comment that opens a region that reaches to the end of the text
and holds nothing. -/
theorem nothing_behind (hks : ks = before ++ k :: after) (hid : id ∈ k.piece.ids s)
    (hstop : (s.tokenAt id).stop = v.start) (hend : v.stop = s.file.text.length)
    (hfilled : v.IsFilled s = false) : after = [] := by
  by_contra hne
  obtain ⟨first, rest, rfl⟩ := List.exists_cons_of_ne_nil hne
  have hfirst : first ∈ ks := by simp [hks]
  obtain ⟨j, hj⟩ := List.exists_mem_of_ne_nil _ (h.valid first hfirst).piece.ids_ne_nil
  have hjsig := h.mem_significant hfirst hj
  have hjlo := h.stop_le_start hin hks hid List.mem_cons_self hj
  have hjb := hin.bounds _ (TokenStream.tokenAt_mem hjsig)
  have hmem : j ∈ Piece.ids s (.region v) :=
    VerbatimSpan.mem_ids_region.mpr ⟨hjsig, by omega, by omega⟩
  have hfull : v.IsFilled s = true := VerbatimSpan.isFilled_iff.mpr (List.ne_nil_of_mem hmem)
  rw [hfilled] at hfull
  cases hfull

end Cover

/-- Behind a comment the last line is ended if the input ends its own. -/
theorem ending_comment {gap : Bytes} {ids : List Nat} {position : Position}
    (hks : ks = before ++ [⟨gap, .comment ids position⟩]) :
    ending s separator ks = if s.file.text.endsLine then separator else [] := by
  simp [hks, ending, copiedBreak]

/-- A region is kept exactly if it holds something, or if it is a part of the end of the last
line. -/
theorem Cover.keeps_iff (h : Cover s style regions separator ks)
    (hin : Token.InOrder 0 s.file.text.length s.tokens.toList)
    (hfit : regions.Fit s.file.text.length s.tokens.toList) (hv : v ∈ regions.spans)
    (hopen : ∃ t ∈ s.tokens.toList, t.kind = .comment ∧
      Verbatim.startsWith style.disablingTag.squeeze t.text = true ∧
      Verbatim.hasTag t.text style = true ∧ t.stop = v.start ∧ t.IsOutside regions)
    (hclose : v.IsFilled s = true ∨ v.stop = s.file.text.length) :
    Keeps s style separator ks v ↔ v.IsFilled s = true ∨
      s.file.text.slice v.start v.stop <+: if s.file.text.endsLine then separator else [] := by
  constructor
  · rintro ⟨before, gap, id, position, after, hopens, hks, hprefix⟩
    cases hfilled : v.IsFilled s with
    | true => exact Or.inl rfl
    | false =>
        have hend := hclose.resolve_left (by simp [hfilled])
        have hnil := h.nothing_behind hin hks (by simp [Piece.ids]) hopens.stop hend hfilled
        rw [hnil] at hks hprefix
        rw [ending_comment hks] at hprefix
        exact Or.inr hprefix
  · intro hkept
    obtain ⟨t, ht, hkind, htag, hhas, hstop, hout⟩ := hopen
    obtain ⟨before, gap, id, position, after, htoken, hks⟩ :=
      h.exists_opening hin ht hkind hhas hout
    rw [← htoken] at hkind htag hstop
    have hid : id ∈ Piece.ids s (.comment [id] position) := by simp [Piece.ids]
    refine ⟨before, gap, id, position, after, ⟨hkind, htag, hstop⟩, hks, ?_⟩
    cases hfilled : v.IsFilled s with
    | true =>
        obtain ⟨rest, rfl⟩ := h.copied_next hin hfit hks hid hstop hv hfilled
        exact ⟨textAll s style rest ++ ending s separator ks, by simp [textAll, text, Piece.text]⟩
    | false =>
        have hend := hclose.resolve_left (by simp [hfilled])
        have hnil := h.nothing_behind hin hks hid hstop hend hfilled
        rw [hnil] at hks ⊢
        rw [ending_comment hks]
        exact hkept.resolve_left (by simp [hfilled])

end Stroke

end CodeLayout
