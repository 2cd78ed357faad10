import CodeLayout.Proofs.Comment.Lines
import CodeLayout.Proofs.Comment.Packed
import CodeLayout.Proofs.Text.Words

/-!
# Line comments that are laid out again

Each line that a line comment is laid out as stays as it is when it is laid out once more: its words
were packed into one row, and behind the lead that the line has now they are packed into one row
again.
-/

namespace CodeLayout

namespace Comment

variable {ws : List Bytes} {s t : Bytes}

section Trim

theorem trimLine_trimLine (s : Bytes) : trimLine (trimLine s) = trimLine s := by
  rw [trimLine, trimLine, Bytes.trimRight, Bytes.trimRight, List.reverse_reverse,
    List.dropWhile_idempotent]

theorem trimLine_eq_self_iff :
    trimLine s = s ↔ ∀ b ∈ s.getLast?, isTrailing b = false := by
  change s.rdropWhile isTrailing = s ↔ _
  rw [List.rdropWhile_eq_self_iff]
  cases hlast : s.getLast? with
  | none => simp_all
  | some b =>
      obtain ⟨t, rfl⟩ := List.getLast?_eq_some_iff.mp hlast
      simp

/-- Nothing is trimmed behind a text that stays as it is. -/
theorem trimLine_append (s : Bytes) (hne : t ≠ []) (h : trimLine t = t) :
    trimLine (s ++ t) = s ++ t := by
  rw [trimLine] at h ⊢
  rw [Bytes.trimRight_append s (by rwa [h]), h]

/-- What is trimmed stands behind a text that stays as it is. -/
theorem trimLine_append_left (hs : trimLine s = s) (t : Bytes) :
    trimLine (s ++ t) = s ++ trimLine t := by
  by_cases ht : trimLine t = []
  · have hempty : (t.reverse.dropWhile isTrailing).isEmpty = true := by
      rw [trimLine, Bytes.trimRight, List.reverse_eq_nil_iff] at ht
      rw [ht]
      rfl
    rw [ht, List.append_nil]
    nth_rewrite 2 [← hs]
    rw [trimLine, Bytes.trimRight, List.reverse_append, List.dropWhile_append, if_pos hempty]
    rfl
  · exact Bytes.trimRight_append s ht

theorem blank_of_isTrailing {b : UInt8} (h : isTrailing b = true) :
    b < 0x80 ∧ isBlank b.toNat = true := by
  simp only [isTrailing, Bool.or_eq_true, decide_eq_true_eq] at h
  obtain (rfl | rfl) | rfl := h <;> decide

theorem trimLine_of_trim (h : s.trim = s) : trimLine s = s := by
  refine trimLine_eq_self_iff.mpr fun b hb => Bool.eq_false_iff.mpr fun htrailing => ?_
  obtain ⟨hascii, hblank⟩ := blank_of_isTrailing htrailing
  exact Bytes.getLast?_ne_of_trim hascii hblank h hb

theorem trimLine_append_joinWords (hne : ws ≠ []) (h : ∀ w ∈ ws, Bytes.IsWord w) (s : Bytes) :
    trimLine (s ++ joinWords ws) = s ++ joinWords ws := by
  refine trimLine_append s (fun hnil => hne ?_) (trimLine_of_trim (Bytes.trim_join h))
  rw [← words_joinWords h, hnil]
  rfl

end Trim

section Reflow

variable {tabstop column limit : Int} {raw l marker blank : Bytes}

/-- The slashes of a line comment and the space that is put behind them. -/
def lineLead (raw : Bytes) : Bytes :=
  let body : Bytes := raw.dropWhile (· = 47)
  raw.takeWhile (· = 47) ++ if body.head? = some 32 || body.head? = some 9 then [32] else []

/-- Behind the lead of a row there are words again. If the first word of the row starts with slashes
then these are a part of the lead. -/
theorem exists_words_behind (hmarker : ∀ b ∈ marker, b = 47) (hblank : blank = [] ∨ blank = [32])
    (hne : ws ≠ []) (hwords : ∀ w ∈ ws, Bytes.IsWord w) :
    ∃ more vs, joinWords ws = more ++ joinWords vs ∧ more.IsPrintable ∧ vs.length ≤ ws.length ∧
      lineLead (marker ++ blank ++ joinWords ws) = marker ++ blank ++ more ∧
      Bytes.words ((marker ++ blank ++ joinWords ws).dropWhile (· = 47)) = vs := by
  have hpass : ∀ b ∈ marker, decide (b = 47) = true := by simpa using hmarker
  rw [lineLead, List.append_assoc, List.dropWhile_append_of_pos hpass,
    List.takeWhile_append_of_pos hpass]
  rcases hblank with rfl | rfl
  · obtain ⟨w, rest, rfl⟩ := List.exists_cons_of_ne_nil hne
    have hw := hwords w List.mem_cons_self
    have hrest : ∀ v ∈ rest, Bytes.IsWord v := fun v hv => hwords v (List.mem_cons_of_mem w hv)
    have hcons (v : Bytes) : joinWords (v :: rest) = v ++ rest.flatMap (32 :: ·) := by
      rw [joinWords_eq_tail, List.flatMap_cons, List.cons_append, List.tail_cons]
    have hfront : ∀ b ∈ w.takeWhile (· = 47), b = 47 := fun b hb => by
      simpa using List.mem_takeWhile_imp hb
    have hprintable : Bytes.IsPrintable (w.takeWhile (· = 47)) := fun b hb =>
      hfront b hb ▸ by decide
    rw [hcons, ← List.takeWhile_append_dropWhile (p := fun b : UInt8 => b = 47) (l := w),
      List.nil_append, List.append_assoc, List.dropWhile_append_of_pos (by simpa using hfront),
      List.takeWhile_append_of_pos (by simpa using hfront)]
    cases hback : w.dropWhile (· = 47) with
    | nil =>
        -- The whole word is taken for slashes, and the space behind it for that of the lead.
        rw [List.nil_append]
        cases rest with
        | nil => exact ⟨_, [], rfl, hprintable, Nat.zero_le 1, by simp, rfl⟩
        | cons v rest =>
            have hspace := Bytes.words_append (b := 32) (by decide) (by decide) []
              (joinWords (v :: rest))
            rw [spaced_eq (List.cons_ne_nil v rest)]
            refine ⟨w.takeWhile (· = 47) ++ [32], v :: rest, by simp, hprintable.append (by decide),
              by simp, by simp, ?_⟩
            rw [List.dropWhile_cons_of_neg (by decide)]
            exact hspace.trans (words_joinWords hrest)
    | cons b t =>
        have hb : ¬b = 47 := by
          have hnot := List.head?_dropWhile_not (fun b : UInt8 => b = 47) w
          simpa [hback] using hnot
        have hword : Bytes.IsWord (b :: t) := by
          refine ⟨List.cons_ne_nil b t, ?_⟩
          rw [← hback]
          exact Bytes.solid_dropWhile (by decide) hw.solid
        have hblank : b ≠ 32 ∧ b ≠ 9 := by
          constructor <;> rintro rfl <;>
            exact hword.not_mem (by decide) (by decide) List.mem_cons_self
        refine ⟨_, (b :: t) :: rest, by rw [hcons], hprintable, by simp, ?_, ?_⟩
        · simp [hb, hblank]
        · rw [List.cons_append, List.dropWhile_cons_of_neg (by simpa using hb), ← List.cons_append,
            ← hcons]
          exact words_joinWords (List.forall_mem_cons.mpr ⟨hword, hrest⟩)
  · refine ⟨[], ws, rfl, nofun, Nat.le_refl _, ?_, ?_⟩
    · simp
    · have hspace := Bytes.words_append (b := 32) (by decide) (by decide) [] (joinWords ws)
      rw [List.singleton_append, List.dropWhile_cons_of_neg (by decide)]
      exact hspace.trans (words_joinWords hwords)

/-- A row is not laid out in another way: it has less than two words behind its lead, or they fit in
the room behind it, which is less by what the lead has taken from the row. -/
theorem reflowLine_row (hmarker : ∀ b ∈ marker, b = 47) (hblank : blank = [] ∨ blank = [32])
    (hwords : ∀ w ∈ ws, Bytes.IsWord w)
    (h : IsRow (room column limit (Width.text (marker ++ blank))) ws) :
    reflowLine tabstop column limit (marker ++ blank ++ joinWords ws) =
      [marker ++ blank ++ joinWords ws] := by
  obtain ⟨hne, hfits⟩ := h
  have htrim := trimLine_append_joinWords hne hwords (marker ++ blank)
  obtain ⟨more, vs, hjoin, hmore, hlength, hlead, hbehind⟩ :=
    exists_words_behind hmarker hblank hne hwords
  have hlaid : reflowLine tabstop column limit (marker ++ blank ++ joinWords ws) =
      if Width.advanceWord column tabstop (marker ++ blank ++ joinWords ws) ≤ limit then
        [marker ++ blank ++ joinWords ws]
      else if vs.length < 2 then [marker ++ blank ++ joinWords ws]
      else (pack vs (room column limit (Width.text (marker ++ blank ++ more)))).map fun row =>
        marker ++ blank ++ more ++ joinWords row := by
    rw [reflowLine, htrim, ← hlead, ← hbehind]
    rfl
  rw [hlaid]
  split_ifs with hline hshort
  · rfl
  · rfl
  · have hwide := hfits.resolve_left (by omega)
    have hmarks : (marker ++ blank).IsPrintable := by
      refine Bytes.IsPrintable.append (fun b hb => hmarker b hb ▸ by decide) ?_
      rcases hblank with rfl | rfl <;> decide
    have hwidth := Width.text_append_of_printable hmore (joinWords vs)
    rw [← hjoin] at hwidth
    have htext : Width.text (marker ++ blank ++ more) =
        Width.text (marker ++ blank) + more.length := by
      rw [Width.text_printable (hmarks.append hmore), Width.text_printable hmarks,
        List.length_append]
    have hroom : room column limit (Width.text (marker ++ blank ++ more)) =
        room column limit (Width.text (marker ++ blank)) - more.length := by
      rw [room, room, htext, Nat.cast_add, ← sub_sub]
      exact Width.word_sub (by rw [room] at hwide; omega)
    have hrow : IsRow (room column limit (Width.text (marker ++ blank ++ more))) vs :=
      ⟨by rintro rfl; simp at hshort, Or.inr (by omega)⟩
    have hpacked : Packed (room column limit (Width.text (marker ++ blank ++ more))) [vs] :=
      ⟨List.forall_mem_singleton.mpr hrow, .singleton vs⟩
    have hpack := hpacked.pack_eq
    rw [List.flatten_singleton] at hpack
    rw [hpack, List.map_singleton, List.append_assoc, ← hjoin]

/-- A line comment that is laid out is not laid out in another way again. -/
theorem reflowLine_again (hl : l ∈ reflowLine tabstop column limit raw) :
    reflowLine tabstop column limit l = [l] := by
  rcases reflowLine_cases tabstop column limit raw with
    ⟨heq, -⟩ | ⟨marker, blank, body, -, hmarker, -, hblank, -, heq⟩
  · rw [heq, List.mem_singleton] at hl
    have hsame : reflowLine tabstop column limit (trimLine raw) =
      reflowLine tabstop column limit raw := by
      unfold reflowLine
      rw [trimLine_trimLine]
    rw [hl, hsame, heq]
  · rw [heq] at hl
    obtain ⟨ws, hws, rfl⟩ := List.mem_map.mp hl
    exact reflowLine_row hmarker hblank
      (fun w hw => Bytes.isWord_of_mem_words (pack_subset hws hw)) ((pack_spec _ _).1.isRow ws hws)

end Reflow

/-- Line comments that are laid out again stay as they are. -/
theorem render_lines_again {raw : List Bytes} (options : CommentOptions)
    (h : ∀ text ∈ raw, text.IsLineComment) (column limit : Int) :
    (ofRaw ((ofRaw raw options).render column limit).lines options).render column limit =
      (ofRaw raw options).render column limit := by
  let lay (l : Bytes) : List Bytes :=
    if options.reflow then reflowLine options.tabstop column limit l else [trimLine l]
  have hrender : ∀ raw : List Bytes, (∀ text ∈ raw, text.IsLineComment) →
      (ofRaw raw options).render column limit = ⟨raw.flatMap lay, true⟩ := by
    intro raw h
    rw [render_of_line (style_ofRaw_of_line h)]
    refine congrArg (Rendered.mk · true) ?_
    change (if options.reflow then _ else _) = _
    cases hreflow : options.reflow <;> simp [lay, hreflow, ofRaw, List.map_eq_flatMap]
  have hlay : ∀ text ∈ raw, ∀ l ∈ lay text, lay l = [l] := by
    intro text _ l hl
    simp only [lay] at hl ⊢
    split_ifs at hl ⊢
    · exact reflowLine_again hl
    · rw [List.mem_singleton.mp hl, trimLine_trimLine]
  obtain ⟨-, hall⟩ := render_isLineComment options h column limit
  rw [hrender _ hall, hrender raw h]
  refine congrArg (Rendered.mk · true) ?_
  dsimp only
  rw [List.flatMap_assoc]
  refine List.flatMap_congr fun text htext => ?_
  rw [List.flatMap_congr (hlay text htext)]
  simp

end Comment

end CodeLayout
