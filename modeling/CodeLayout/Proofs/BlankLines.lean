import CodeLayout.Proofs.Kept.Formatter
import CodeLayout.Proofs.Regions
import CodeLayout.Proofs.Style.Normal

/-!
# Blank lines between items

The blank lines that an item of a block has before it are held back, with those of all groups and
blocks that start with the same token or comment, until that is written. As nothing but items has
blank lines before it, and all items with the same start have the same number of them, neither is a
blank line lost on the way nor counted twice, and none comes anywhere else.
-/

namespace CodeLayout

namespace Chunk

variable {spacing : Spacing} {c d e : Chunk} {front back : List Chunk} {l : Leaf}

/-- Whether an item of a block of a tree starts with a token or a comment. -/
def StartsItem (c : Chunk) (l : Leaf) : Prop :=
  ∃ d ∈ c.walk, ∃ e ∈ d.items, e.content.head? = some l

theorem mem_walk_of_items (hd : d ∈ c.walk) (he : e ∈ d.items) : e ∈ c.walk := by
  refine (walk_isInfix hd).subset ?_
  cases d with
  | block t o k i cs =>
      rw [walk_block]
      simp only [List.mem_cons, List.mem_append, mem_walkList]
      exact Or.inr (Or.inl (Or.inr ⟨e, he, mem_walk e⟩))
  | _ => cases he

theorem StartsItem.content_ne_nil (h : c.StartsItem l) : c.content ≠ [] := by
  obtain ⟨d, hd, e, he, hl⟩ := h
  obtain ⟨branches, leaf, rest, hwalk, -, hleaf⟩ := exists_branches hl
  have hmem : leaf ∈ c.walk := (walk_isInfix (mem_walk_of_items hd he)).subset (by simp [hwalk])
  exact List.ne_nil_of_mem (leaf_mem_content hmem hleaf)

/-- Each chunk of a tree but the root is an item or a part of another one. -/
theorem exists_parent (h : d ∈ c.walk) : d = c ∨ ∃ p ∈ c.walk, d ∈ p.items ∨ d ∈ p.parts := by
  have hrow : ∀ cs, (∀ e ∈ cs, d ∈ e.walk → d = e ∨ ∃ p ∈ e.walk, d ∈ p.items ∨ d ∈ p.parts) →
      d ∈ walkList cs → d ∈ cs ∨ ∃ p ∈ walkList cs, d ∈ p.items ∨ d ∈ p.parts := by
    intro cs hcs hd
    obtain ⟨e, he, hde⟩ := mem_walkList.mp hd
    rcases hcs e he hde with rfl | ⟨p, hp, hd⟩
    · exact Or.inl he
    · exact Or.inr ⟨p, mem_walkList.mpr ⟨e, he, hp⟩, hd⟩
  induction c using byParts with
  | token t s => exact Or.inl (List.mem_singleton.mp h)
  | comment t s b => exact Or.inl (List.mem_singleton.mp h)
  | group t context breakFirst cs ih =>
      refine (List.mem_cons.mp h).imp_right fun h => ?_
      rcases hrow cs ih h with hd | ⟨p, hp, hd⟩
      · exact ⟨_, List.mem_cons_self, Or.inr hd⟩
      · exact ⟨p, List.mem_cons_of_mem _ hp, hd⟩
  | block t o k i cs iho ihk ih =>
      rw [walk_block] at h ⊢
      refine (List.mem_cons.mp h).imp_right fun h => ?_
      rcases List.mem_append.mp h with h | h
      · rcases List.mem_append.mp h with h | h
        · rcases hrow _ iho h with hd | ⟨p, hp, hd⟩
          · exact ⟨_, List.mem_cons_self, Or.inr (List.mem_append_left _ hd)⟩
          · exact ⟨p, by simp [hp], hd⟩
        · rcases hrow cs ih h with hd | ⟨p, hp, hd⟩
          · exact ⟨_, List.mem_cons_self, Or.inl hd⟩
          · exact ⟨p, by simp [hp], hd⟩
      · rcases hrow _ ihk h with hd | ⟨p, hp, hd⟩
        · exact ⟨_, List.mem_cons_self, Or.inr (List.mem_append_right _ hd)⟩
        · exact ⟨p, by simp [hp], hd⟩

theorem Neat.of_mem (h : c.Neat) (hd : d ∈ c.walk) : d.Neat := fun e he =>
  h e ((walk_isInfix hd).subset he)

/-- A chunk of a neat tree starts with the next token or comment. -/
theorem Neat.head?_content (h : c.Neat) (hsplit : c.walk = front ++ d :: back) :
    ∃ l, d.content.head? = some l ∧ ((d :: back).filterMap leaf?).head? = some l := by
  have hd : d ∈ c.walk := by simp [hsplit]
  obtain ⟨l, ls, hcontent⟩ := List.exists_cons_of_ne_nil (h.of_mem hd).content_ne_nil
  obtain ⟨more, hmore⟩ := c.nested_walk front d back hsplit
  refine ⟨l, by rw [hcontent]; rfl, ?_⟩
  rw [← hmore, List.filterMap_append]
  change (d.content ++ _).head? = _
  rw [hcontent]
  rfl

/-- A chunk has no blank lines before it, or those that are to be kept before the item that starts
with the same token or comment. -/
theorem MarksAll.blank_eq (h : c.MarksAll spacing) (hd : d ∈ c.walk)
    (hl : d.content.head? = some l) :
    d.traits.blank = 0 ∨ c.StartsItem l ∧ d.traits.blank = spacing.blank l.start := by
  rcases exists_parent hd with rfl | ⟨p, hp, hitem | hpart⟩
  · exact Or.inl h.blank
  · exact Or.inr ⟨⟨p, hp, d, hitem, hl⟩, (h.below p hp).items d hitem l hl⟩
  · exact Or.inl ((h.below p hp).parts d hpart)

end Chunk

namespace Writer

variable {spacing : Spacing} {x : Context} {w w' : Writer} {root c : Chunk}
  {front back : List Chunk} {t : Traits}

/-- Whether so many blank lines may be held back when some chunks of a tree are still to be written:
none, or those before an item that starts with the next token or comment. -/
def MayHold (spacing : Spacing) (root : Chunk) (rest : List Chunk) (blank : Int) : Prop :=
  blank = 0 ∨ ∃ l, (rest.filterMap Chunk.leaf?).head? = some l ∧ root.StartsItem l ∧
    blank = spacing.blank l.start

theorem MayHold.request (hmarks : root.MarksAll spacing) (hneat : root.Neat)
    (hspacing : ∀ start, 0 ≤ spacing.blank start) (hsplit : root.walk = front ++ c :: back)
    (h : MayHold spacing root (c :: back) w.gap.blank) (p : Placement) :
    MayHold spacing root (c :: back) (w.request c.traits p).gap.blank := by
  obtain ⟨l, hl, hnext⟩ := hneat.head?_content hsplit
  have hblank := hmarks.blank_eq (by simp [hsplit]) hl
  have hpos := hspacing l.start
  rw [Writer.request]
  split_ifs
  · rcases h with hzero | ⟨l', hnext', hstarts, hheld⟩
    · rcases hblank with hnone | ⟨hstarts, hitem⟩
      · exact Or.inl (by simp [hzero, hnone])
      · exact Or.inr ⟨l, hnext, hstarts, by simp [hzero, hitem, hpos]⟩
    · -- What is held back already is for an item that starts alike.
      obtain rfl := Option.some.inj (hnext'.symm.trans hnext)
      refine Or.inr ⟨l', hnext', hstarts, ?_⟩
      rcases hblank with hnone | ⟨-, hitem⟩
      · simp [hheld, hnone, hpos]
      · simp [hheld, hitem]
  · exact h
  · exact h

/-- Behind a token or a comment nothing is held back but a line break that was copied. -/
theorem blank_leaf {write : Writer → Writer} (hwrite : ∀ w, (write w).gap.blank = 0)
    (h : w.leaf x t write = .ok w') : w'.gap.blank = 0 := by
  rw [leaf] at h
  split_ifs at h
  · obtain rfl := Except.ok.inj h
    exact hwrite w
  · dsimp only at h
    split_ifs at h
    · obtain rfl := Except.ok.inj h
      rfl
    · split at h
      · obtain rfl := Except.ok.inj h
        rfl
      · obtain rfl := Except.ok.inj h
        exact hwrite _

theorem blank_write {l : Leaf} (hneat : c.IsNeat) (hleaf : c.leaf? = some l)
    (h : write x w c = .ok w') : w'.gap.blank = 0 := by
  cases c with
  | token t text =>
      change (w.request t _).leaf x t (fun w => w.token x t text) = .ok w' at h
      refine blank_leaf (fun w => ?_) h
      have htext : text ≠ [] := hneat
      rw [token, if_neg (by simpa using htext)]
      split_ifs <;> rfl
  | comment t text contents =>
      change (w.request t _).leaf x t (fun w => w.comment x text contents _) = .ok w' at h
      exact blank_leaf (fun _ => rfl) h
  | group t context breakFirst cs => cases hleaf
  | block t o k i cs => cases hleaf

/-- While a tree is written, no blank lines are held back but those before items. -/
theorem mayHold_foldlM (hmarks : root.MarksAll spacing) (hneat : root.Neat)
    (hspacing : ∀ start, 0 ≤ spacing.blank start) (hw : w.gap.blank = 0)
    (hsplit : root.walk = front ++ back) (h : front.foldlM (write x) w = .ok w') :
    MayHold spacing root back w'.gap.blank := by
  induction front using List.reverseRecOn generalizing w' back with
  | nil =>
      obtain rfl := Except.ok.inj h
      exact Or.inl hw
  | append_singleton front c ih =>
      rw [List.foldlM_append] at h
      obtain ⟨w₁, hfront, hlast⟩ := exists_of_bind_eq_ok h
      replace hlast : write x w₁ c = .ok w' := by simpa using hlast
      rw [List.append_assoc] at hsplit
      have hbefore := ih hsplit hfront
      cases hleaf : c.leaf? with
      | some l => exact Or.inl (blank_write (hneat c (by simp [hsplit])) hleaf hlast)
      | none =>
          rw [write_of_leaf?_eq_none hleaf] at hlast
          obtain rfl := Except.ok.inj hlast
          have hnext := hbefore.request hmarks hneat hspacing hsplit
            (x.placements.getD c.traits.id {})
          rwa [MayHold, List.filterMap_cons_none hleaf] at hnext

variable {s : TokenStream} {regions : Regions} {ks : List Stroke} {k : Stroke} {first : Leaf}

/-- The first token or comment of an item is written behind one line break and the blank lines that
are to be kept, unless it is the first of all. -/
theorem Traced.isPartedBy (h : Traced s regions x w root.walk ks)
    (hmarks : root.MarksAll spacing) (hneat : root.content ≠ [] → root.Neat)
    (hspacing : ∀ start, 0 ≤ spacing.blank start) (hw : w.gap.blank = 0)
    (hlines : ∀ d ∈ root.walk, ∀ e ∈ d.items, (x.placements.getD e.traits.id {}).newLine = true)
    (hstarts : root.StartsItem first) (hout : regions.Misses first.start) :
    ∃ before k after, ks = before ++ k :: after ∧ k.piece.StandsAt s first.start ∧
      (before ≠ [] → k.IsPartedBy (separator x) ((if Stroke.copiedBreak s before then 0 else 1) +
        (spacing.blank first.start).toNat)) := by
  have hfull := hneat hstarts.content_ne_nil
  obtain ⟨d, hd, e, he, hfirst⟩ := hstarts
  obtain ⟨front, leaf, back, w', before, ⟨_, p⟩, after, hsplit, hleaf, hfold, hks, hstands, rfl,
    hbreak, hwrote⟩ := h.exists_stroke (Chunk.mem_walk_of_items hd he) hfirst
      (hlines d hd e he) hout
  refine ⟨before, _, after, hks, hstands, fun hbefore => ?_⟩
  have hhold := (mayHold_foldlM hmarks hfull hspacing hw hsplit hfold).request hmarks hfull hspacing
    hsplit (x.placements.getD leaf.traits.id {})
  have hparted := isPartedBy_gapText x
    (w'.request leaf.traits (x.placements.getD leaf.traits.id {})) p
  generalize w'.request leaf.traits (x.placements.getD leaf.traits.id {}) = now at *
  -- What is held back is not less than the item has, and not more than any item has there.
  have hblank : now.gap.blank = spacing.blank first.start := by
    have hle := hbreak.blank
    rw [(hmarks.below d hd).items e he first hfirst] at hle
    rcases hhold with hzero | ⟨l, hnext, -, hheld⟩
    · exact Int.le_antisymm (hzero ▸ hspacing first.start) hle
    · rw [List.filterMap_cons_some hleaf] at hnext
      obtain rfl := Option.some.inj hnext
      exact hheld
  have hlinesOf : now.gapLines = (if Stroke.copiedBreak s before then 0 else 1) +
      (spacing.blank first.start).toNat := by
    have hstarted : now.started = true := by simpa [hwrote.started] using hbefore
    have hbreaks : now.breaksLine = true := by simp [breaksLine, hbreak.newLine]
    rw [gapLines, hstarted, hbreaks, Bool.true_and, if_pos rfl, hwrote.copiedBreak, hblank]
  exact hlinesOf ▸ hparted

/-- Where no item starts, one line break is written at most. -/
theorem Stems.isPartedBy (h : Stems s x w root.walk k) (hmarks : root.MarksAll spacing)
    (hneat : root.content ≠ [] → root.Neat) (hspacing : ∀ start, 0 ≤ spacing.blank start)
    (hw : w.gap.blank = 0)
    (hnone : ∀ first, root.StartsItem first → ¬k.piece.StandsAt s first.start) :
    ∃ n ≤ 1, k.IsPartedBy (separator x) n := by
  rcases h with hempty | ⟨front, leaf, back, w', l, hsplit, hfold, hleaf, hstands, hgap⟩
  · exact ⟨0, Nat.zero_le 1, [], hempty, nofun⟩
  obtain ⟨gap, p⟩ := k
  obtain rfl : gap = _ := hgap
  have hfull : root.Neat := by
    refine hneat (List.ne_nil_of_mem (Chunk.leaf_mem_content (d := leaf) ?_ hleaf))
    simp [hsplit]
  refine ⟨_, ?_, isPartedBy_gapText x _ p⟩
  have hhold := (mayHold_foldlM hmarks hfull hspacing hw hsplit hfold).request hmarks hfull hspacing
    hsplit (x.placements.getD leaf.traits.id {})
  generalize w'.request leaf.traits (x.placements.getD leaf.traits.id {}) = now at *
  rcases hhold with hzero | ⟨first, hnext, hstarts, -⟩
  · rw [gapLines, hzero]
    split_ifs <;> decide
  · rw [List.filterMap_cons_some hleaf] at hnext
    obtain rfl := Option.some.inj hnext
    exact absurd hstands (hnone l hstarts)

end Writer

/-- Each item of a block starts a line. -/
theorem Layout.newLine_of_item {l : Layout} {d e : Chunk}
    (h : Placing.HeedsAll (fun id => (l.placements.getD id {}).line?) l.chunk)
    (hd : d ∈ l.chunk.walk) (he : e ∈ d.items) :
    (l.placements.getD e.traits.id {}).newLine = true := by
  rw [Placement.newLine_eq_isSome]
  exact (h d hd).2 e he

theorem Style.blankLines_normalize (s : Style) : 0 ≤ s.normalize.1.blankLines :=
  (clamp_bounds _ (by decide) _).1

/-- A piece stands where the first token or comment does that it stands for. -/
theorem Piece.StandsAt.exists_head {s : TokenStream} {p : Piece} {start : Int}
    (h : p.StandsAt s start) (hne : p.ids s ≠ []) :
    ∃ id ∈ (p.ids s).head?, ((s.tokenAt id).start : Int) = start := by
  cases p with
  | token id => exact ⟨id, rfl, h⟩
  | comment ids position =>
      obtain ⟨id, more, rfl⟩ := List.exists_cons_of_ne_nil hne
      exact ⟨id, rfl, h⟩
  | region v => exact h.elim

/-- What is written first is the first token or comment of the input. -/
theorem Stroke.Cover.exists_head {s : TokenStream} {style : Style} {regions : Regions}
    {separator : Bytes} {after : List Stroke} {k : Stroke} {start : Int}
    (h : Cover s style regions separator (k :: after)) (hstands : k.piece.StandsAt s start) :
    ∃ id ∈ s.significant.head?, ((s.tokenAt id).start : Int) = start := by
  have hne := (h.valid k List.mem_cons_self).piece.ids_ne_nil
  rw [← h.ids, List.flatMap_cons, List.head?_append_of_ne_nil _ hne]
  exact hstands.exists_head hne

/-- Without regions no line break is copied. -/
theorem Stroke.Cover.copiedBreak_eq_false {s : TokenStream} {style : Style} {regions : Regions}
    {separator : Bytes} {before after : List Stroke}
    (h : Cover s style regions separator (before ++ after)) (hregions : regions.spans = []) :
    Stroke.copiedBreak s before = false := by
  rw [copiedBreak]
  cases hlast : before.getLast? with
  | none => rfl
  | some k =>
      have hvalid := (h.valid k (List.mem_append_left _ (List.mem_of_getLast? hlast))).piece
      obtain ⟨gap, p⟩ := k
      cases p with
      | token | comment => rfl
      | region v =>
          have hv := hvalid.1
          rw [hregions] at hv
          cases hv

/-- What is written behind other strokes is not the first token or comment of the input. -/
theorem Stroke.Cover.exists_startingBefore {file : SourceFile} {style : Style} {regions : Regions}
    {separator : Bytes} {before after : List Stroke} {k : Stroke} {start : Int}
    (h : Cover (TokenStream.ofFile file) style regions separator (before ++ k :: after))
    (hbefore : before ≠ []) (hstands : k.piece.StandsAt (TokenStream.ofFile file) start) :
    ∃ t ∈ (TokenStream.ofFile file).startingBefore start, t.kind ≠ .space := by
  have hin := TokenStream.ofFile_inOrder file
  obtain ⟨l, ls, rfl⟩ := List.exists_cons_of_ne_nil hbefore
  obtain ⟨j, hj⟩ := List.exists_mem_of_ne_nil _ (h.valid l (by simp)).piece.ids_ne_nil
  obtain ⟨i, hi, hstart⟩ := hstands.exists_head (h.valid k (by simp)).piece.ids_ne_nil
  have hlt := h.start_lt_stop hin (by simp) hj
  have hsplit : l :: ls ++ k :: after = [] ++ l :: (ls ++ k :: after) := rfl
  have hle := h.stop_le_start hin hsplit hj (by simp) (List.mem_of_mem_head? hi)
  have hsig := h.mem_significant (k := l) (by simp) hj
  obtain ⟨t, hget, hkind⟩ := TokenStream.mem_significant_iff.mp hsig
  rw [TokenStream.tokenAt_of_getElem? hget] at hlt hle
  refine ⟨t, List.mem_filter.mpr ⟨?_, decide_eq_true (by omega)⟩, hkind⟩
  rw [← Array.getElem?_toList] at hget
  exact List.mem_of_getElem? hget

/-- What is known of the tree that is written: all marks and blank lines are there, it is neat, and
each of its items starts a line. -/
theorem Formatted.ofFile_marksAll {file : SourceFile} {kind : SourceKind} {style : Style}
    {formatted : Formatted} (h : (Formatted.ofFile file kind style).1 = .ok formatted) :
    formatted.layout.chunk.MarksAll ((TokenStream.ofFile file).spacing style) ∧
      (formatted.layout.chunk.content ≠ [] → formatted.layout.chunk.Neat) ∧
      ∀ d ∈ formatted.layout.chunk.walk, ∀ e ∈ d.items,
        (formatted.layout.placements.getD e.traits.id {}).newLine = true := by
  obtain ⟨tree, chunk, p, htree, hchunk, heq, hposition, -⟩ := ofFile_eq_ok h
  have hlayout := layout_eq h
  rw [heq] at hlayout
  rw [hlayout]
  have hmarks := Chunk.ofNode_marksAll htree hchunk
  refine ⟨⟨hmarks.below.annotate 0, Chunk.blank_annotate.trans hmarks.blank⟩, fun hfull => ?_, ?_⟩
  · refine (Chunk.ofNode_neat htree hchunk ?_).annotate 0
    rwa [← Chunk.content_annotate style.tabSize 0]
  · exact fun d hd e he =>
      Layout.newLine_of_item (Layout.ofChunk_heedsAll chunk file style hposition) hd he

namespace Formatter

/-- Blank lines are written between items and nowhere else. If an item is not the first of all and
no region covers its first token or comment, this is written behind one line break and as many blank
lines as were right before it, up to the number that the style keeps; directly behind a line break
that was copied with a region, only the blank lines are written. Before any other token, comment or
region there is one line break at most. -/
theorem format_blankLines (f : Formatter) (text : Bytes) (hmax : text.length < 2 ^ 63)
    {formatted : Formatted}
    (h : (Formatted.ofFile ⟨[], text⟩ f.kind f.effective.1).1 = .ok formatted) :
    ∃ ks, Stroke.Cover (TokenStream.ofFile ⟨[], text⟩) f.effective.1
        (Regions.ofStream (TokenStream.ofFile ⟨[], text⟩) f.effective.1)
          f.effective.1.separator ks ∧
      (f.format text).1 = (Stroke.output (TokenStream.ofFile ⟨[], text⟩) f.effective.1
        f.effective.1.separator ks).text ∧
      (∀ first, formatted.layout.chunk.StartsItem first →
        (Regions.ofStream (TokenStream.ofFile ⟨[], text⟩) f.effective.1).Misses first.start →
        ∃ before k after, ks = before ++ k :: after ∧
          k.piece.StandsAt (TokenStream.ofFile ⟨[], text⟩) first.start ∧
          (before ≠ [] → k.IsPartedBy f.effective.1.separator
            ((if Stroke.copiedBreak (TokenStream.ofFile ⟨[], text⟩) before then 0 else 1) +
              min ((TokenStream.ofFile ⟨[], text⟩).newlinesBefore first.start - 1)
                f.effective.1.blankLines.toNat))) ∧
      ∀ k ∈ ks, (∀ first, formatted.layout.chunk.StartsItem first →
          ¬k.piece.StandsAt (TokenStream.ofFile ⟨[], text⟩) first.start) →
        ∃ n ≤ 1, k.IsPartedBy f.effective.1.separator n := by
  have hsep : f.effective.1.separator ∈ Style.separators := Style.normalize_separator _
  have hblank : 0 ≤ f.effective.1.blankLines := Style.blankLines_normalize _
  obtain ⟨ks, hcover, -, houtput, -, htraced, hstems⟩ := Formatted.ofFile_traced hmax hsep h
  obtain ⟨hmarks, hneat, hlines⟩ := Formatted.ofFile_marksAll h
  have hspacing (start : Int) :
      0 ≤ ((TokenStream.ofFile ⟨[], text⟩).spacing f.effective.1).blank start :=
    le_min (Int.natCast_nonneg _) hblank
  have hparts : Writer.separator ⟨f.effective.1, text,
      Regions.ofStream (TokenStream.ofFile ⟨[], text⟩) f.effective.1,
      formatted.layout.placements⟩ = f.effective.1.separator := Writer.separator_eq hsep
  refine ⟨ks, hcover, ?_, fun first hstarts hout => ?_, fun k hk hnone => ?_⟩
  · rw [← houtput]
    simp only [format, run, h]
  · obtain ⟨before, k, after, rfl, hstands, hparted⟩ :=
      htraced.isPartedBy hmarks hneat hspacing rfl hlines hstarts hout
    refine ⟨before, k, after, rfl, hstands, fun hbefore => ?_⟩
    have hkept : (((TokenStream.ofFile ⟨[], text⟩).spacing f.effective.1).blank
        first.start).toNat = min ((TokenStream.ofFile ⟨[], text⟩).newlinesBefore first.start - 1)
          f.effective.1.blankLines.toNat := by
      rw [TokenStream.spacing_blank (hcover.exists_startingBefore hbefore hstands)]
      omega
    have hnow := hparted hbefore
    rwa [hparts, hkept] at hnow
  · have hnow := (hstems k hk).isPartedBy hmarks hneat hspacing rfl hnone
    rwa [hparts] at hnow

/-- Two calls with a comment between them, behind three blank lines. -/
def spreadCalls : Bytes :=
  ascii "a();\n\n\n\n// b\nc();\n"

/-- One of the blank lines before the comment is kept: two line breaks part it from the call. -/
theorem format_blankLines_calls :
    spreadCalls.length < 2 ^ 63 ∧ ∃ before k after,
      Stroke.Cover (TokenStream.ofFile ⟨[], spreadCalls⟩) (effective { kind := .body }).1
        (Regions.ofStream (TokenStream.ofFile ⟨[], spreadCalls⟩) (effective { kind := .body }).1)
        (effective { kind := .body }).1.separator (before ++ k :: after) ∧
      (format { kind := .body } spreadCalls).1 =
        (Stroke.output (TokenStream.ofFile ⟨[], spreadCalls⟩) (effective { kind := .body }).1
          (effective { kind := .body }).1.separator (before ++ k :: after)).text ∧
      k.piece.StandsAt (TokenStream.ofFile ⟨[], spreadCalls⟩) 8 ∧ before ≠ [] ∧
      k.IsPartedBy (effective { kind := .body }).1.separator 2 := by
  have hlength : spreadCalls.length < 2 ^ 63 := by decide
  have hruns : (Formatted.ofFile ⟨[], spreadCalls⟩ .body
      (effective { kind := .body }).1).1.toOption.bind (fun formatted =>
        formatted.layout.chunk.items[1]?.map fun e => e.content.head?.map Leaf.start) =
      some (some 8) := by decide +kernel
  have hspans : (Regions.ofStream (TokenStream.ofFile ⟨[], spreadCalls⟩)
      (effective { kind := .body }).1).spans = [] := by decide +kernel
  have hsignificant : (TokenStream.ofFile ⟨[], spreadCalls⟩).significant.head? = some 0 := by
    decide +kernel
  have hlines : min ((TokenStream.ofFile ⟨[], spreadCalls⟩).newlinesBefore 8 - 1)
      (effective { kind := .body }).1.blankLines.toNat = 1 := by decide +kernel
  cases hok : (Formatted.ofFile ⟨[], spreadCalls⟩ .body (effective { kind := .body }).1).1 with
  | error fault =>
      rw [hok] at hruns
      cases hruns
  | ok formatted =>
      rw [hok] at hruns
      obtain ⟨_, ⟨⟩, hitem⟩ := Option.bind_eq_some_iff.mp hruns
      obtain ⟨e, he, hhead⟩ := Option.map_eq_some_iff.mp hitem
      obtain ⟨first, hfirst, hstart⟩ := Option.map_eq_some_iff.mp hhead
      have hstarts : formatted.layout.chunk.StartsItem first :=
        ⟨_, Chunk.mem_walk _, e, List.mem_of_getElem? he, hfirst⟩
      obtain ⟨ks, hcover, htext, hitems, -⟩ :=
        format_blankLines { kind := .body } spreadCalls hlength hok
      obtain ⟨before, k, after, rfl, hstands, hparted⟩ :=
        hitems first hstarts (by simp [Regions.Misses, hspans])
      rw [hstart] at hstands
      rw [hstart, hlines, hcover.copiedBreak_eq_false hspans] at hparted
      have hbefore : before ≠ [] := by
        rintro rfl
        obtain ⟨id, hid, hzero⟩ := hcover.exists_head hstands
        rw [hsignificant, Option.mem_some_iff] at hid
        rw [← hid] at hzero
        revert hzero
        decide +kernel
      exact ⟨hlength, before, k, after, hcover, htext, hstands, hbefore, hparted hbefore⟩

end Formatter

end CodeLayout
