import CodeLayout.Proofs.Comment.Again.Lines
import CodeLayout.Proofs.Comment.Packed
import CodeLayout.Proofs.Comment.Paragraph

/-!
# Lines behind stars

A paragraph is laid out line by line behind stars: an empty line, the lines that are copied and the
rows of its words. What is copied is trimmed and holds no line break, and of the white space of
ASCII a word holds only spaces, none of them at its end. So nothing that is trimmed ends a line of a
paragraph, and no such line holds a line break.
-/

namespace CodeLayout

namespace Paragraph

open Comment

/-- Whether a text can stand between spaces: it is not empty, and of the white space of ASCII it
holds only spaces, none of them at its end. -/
structure IsSpaced (w : Bytes) : Prop where
  ne_nil : w ≠ []
  eq_space : ∀ b ∈ w, b < 0x80 → isBlank b.toNat = true → b = 32
  last : w.getLast? ≠ some 32

/-- Whether a line has nothing that is trimmed and holds no line break. -/
structure IsTrimmed (l : Bytes) : Prop where
  trimLine : trimLine l = l
  newline : newline ∉ l

section Words

variable {a s w : Bytes} {acc : Option (Bytes × Int)} {fs ws : List Bytes}

theorem IsAtom.isSpaced (h : IsAtom a) : IsSpaced a := by
  have hone : ∀ b ∈ [a], IsAtom b := by simpa using h
  refine ⟨joinWords_ne_nil (List.cons_ne_nil a []) hone, fun b hb hascii hblank => ?_, ?_⟩
  · by_contra hne
    exact not_mem_joinWords hone hascii hblank hne hb
  · exact Bytes.getLast?_ne_of_trim (by decide) (by decide) (trim_joinWords hone)

theorem isSpaced_of_isWord (h : s.IsWord) (hw : w <:+: s) (hne : w ≠ []) : IsSpaced w :=
  ⟨hne, fun _ hb hascii hblank => absurd (hw.subset hb) (h.not_mem hascii hblank),
    fun hlast => h.not_mem (b := 32) (by decide) (by decide)
      (hw.subset (List.mem_of_getLast? hlast))⟩

/-- What is put together of words opens an inline tag. -/
theorem opensInline_or_mem (hacc : ∀ o ∈ acc, opensInline o.1 = true) (h : a ∈ joinInline acc fs) :
    opensInline a = true ∨ a ∈ fs := by
  have hgrow : ∀ {w : Bytes} {depth : Int} (f : Bytes),
    (∀ o ∈ some (w, depth), opensInline o.1 = true) →
      opensInline (w ++ ascii " " ++ f) = true := fun f hw => by
    rw [List.append_assoc]
    exact opensInline_append (hw _ rfl) _
  fun_induction joinInline acc fs with
  | case1 => cases h
  | case2 w depth => exact Or.inl (List.mem_singleton.mp h ▸ hacc _ rfl)
  | case3 f fs hopens ih =>
      rw [Bool.and_eq_true] at hopens
      refine (ih (fun o ho => ?_) h).imp_right (List.mem_cons_of_mem f)
      obtain rfl := Option.some.inj ho
      exact hopens.1
  | case4 f fs hopens ih =>
      rcases List.mem_cons.mp h with rfl | h
      · exact Or.inr List.mem_cons_self
      · exact (ih (by simp) h).imp_right (List.mem_cons_of_mem f)
  | case5 w depth f fs w' depth' hdepth ih =>
      refine (ih (fun o ho => ?_) h).imp_right (List.mem_cons_of_mem f)
      obtain rfl := Option.some.inj ho
      exact hgrow f hacc
  | case6 w depth f fs w' depth' hdepth ih =>
      rcases List.mem_cons.mp h with rfl | h
      · exact Or.inl (hgrow f hacc)
      · exact (ih (by simp) h).imp_right (List.mem_cons_of_mem f)

theorem ne_nil_of_mem_piece {cur p : Bytes} (h : p ∈ piece cur) : p ≠ [] := by
  rw [piece] at h
  split_ifs at h with hempty
  · simp at h
  · simpa [List.mem_singleton.mp h] using hempty

theorem ne_nil_of_mem_splitMarkupFrom {left : Nat} {cur p : Bytes}
    (h : p ∈ splitMarkupFrom left cur s) : p ≠ [] := by
  fun_induction splitMarkupFrom left cur s with
  | case1 => exact ne_nil_of_mem_piece h
  | case2 cur b rest ih => exact (List.mem_append.mp h).elim ne_nil_of_mem_piece ih
  | case3 left cur b rest hleft ih => exact ih h
  | case4 cur rest n htag ih => exact (List.mem_append.mp h).elim ne_nil_of_mem_piece ih
  | case5 cur rest htag hitem ih => exact (List.mem_append.mp h).elim ne_nil_of_mem_piece ih
  | case6 cur rest htag hitem ih => exact ih h
  | case7 cur b rest hb ih => exact ih h

/-- What a line is read as can stand between spaces. A word that is split holds no space. -/
theorem areWords_isSpaced (l : Bytes) : AreWords IsSpaced l := by
  intro a ha
  have hatom := (isAtom_of_mem_atoms ha).isSpaced
  refine ⟨hatom, fun w hw => ?_⟩
  have hinfix := splitMarkup_isInfix hw
  rw [splitMarkup] at hw
  split_ifs at hw with hwhole
  · exact List.mem_singleton.mp hw ▸ hatom
  · have hopens : ¬opensInline a = true := fun hopens => hwhole (by simp [hopens])
    have hword := Bytes.isWord_of_mem_words ((opensInline_or_mem (by simp) ha).resolve_left hopens)
    exact isSpaced_of_isWord hword hinfix (ne_nil_of_mem_splitMarkupFrom hw)

theorem isTrimmed_of_mem_bareLines {body l : Bytes} (hl : l ∈ bareLines body) : IsTrimmed l := by
  have hbare : ∀ (isFirst : Bool) (s : Bytes), newline ∉ s → IsTrimmed (bareLine isFirst s) := by
    intro isFirst s hs
    refine ⟨?_, fun hmem => hs ((bareLine_isInfix isFirst s).subset hmem)⟩
    have hsuffix : bareLine isFirst s <:+ Comment.trimLine s := by
      rw [bareLine]
      split_ifs
      · exact Bytes.dropLead_isSuffix _ _
      · have hleft : (Comment.trimLine s).trimLeft
          (fun b => b = 32 || b = 9) <:+ Comment.trimLine s :=
          List.dropWhile_suffix _
        split
        · rename_i rest heq
          rw [heq] at hleft
          exact (Bytes.dropLead_isSuffix _ _).trans ((List.suffix_cons 42 rest).trans hleft)
        · exact hleft
    obtain ⟨front, hfront⟩ := hsuffix
    refine trimLine_eq_self_iff.mpr fun b hb => ?_
    refine trimLine_eq_self_iff.mp (trimLine_trimLine s) b ?_
    rw [← hfront, List.getLast?_append_of_ne_nil _ (List.ne_nil_of_mem (List.mem_of_getLast? hb))]
    exact hb
  have hpieces : ∀ s ∈ body.pieces newline, newline ∉ s := fun s => Bytes.not_mem_of_mem_pieces
  rw [bareLines] at hl
  split at hl
  · cases hl
  · rename_i first rest heq
    rw [heq, List.forall_mem_cons] at hpieces
    rcases List.mem_cons.mp hl with rfl | hl
    · exact hbare true first hpieces.1
    · obtain ⟨s, hs, rfl⟩ := List.mem_map.mp hl
      exact hbare false s (hpieces.2 s hs)

/-- What paragraphs are laid out from. -/
theorem all_isSpaced {m : Mode} {body : Bytes} : ∀ p ∈ ofBody m body, p.All IsSpaced IsTrimmed :=
  all_of_mem_ofBody fun l hl => ⟨isTrimmed_of_mem_bareLines hl, areWords_isSpaced l.trim⟩

theorem isTrimmed_joinWords (hws : ∀ w ∈ ws, IsSpaced w) : IsTrimmed (joinWords ws) := by
  have hnone : ∀ b : UInt8, b < 0x80 → isBlank b.toNat = true → b ≠ 32 → b ∉ joinWords ws := by
    intro b hascii hblank hne hmem
    obtain ⟨w, hw, hb⟩ := (mem_joinWords hmem).resolve_left hne
    exact hne ((hws w hw).eq_space b hb hascii hblank)
  refine ⟨trimLine_eq_self_iff.mpr fun b hb => Bool.eq_false_iff.mpr fun htrailing => ?_,
    hnone _ (by decide) (by decide) (by decide)⟩
  obtain ⟨hascii, hblank⟩ := blank_of_isTrailing htrailing
  by_cases hspace : b = 32
  · rcases List.eq_nil_or_concat' ws with rfl | ⟨front, w, rfl⟩
    · cases hb
    · have hw := hws w (by simp)
      refine hw.last ?_
      rw [← hspace]
      cases front with
      | nil => exact hb
      | cons f front =>
          rw [joinWords_append (List.cons_ne_nil f front) (by simp), joinWords_singleton] at hb
          rwa [List.getLast?_append_of_ne_nil _ (List.cons_ne_nil _ _),
            List.getLast?_cons_of_ne_nil hw.ne_nil] at hb
  · exact hnone b hascii hblank hspace (List.mem_of_getLast? hb)

theorem joinWords_spaced_ne_nil (hne : ws ≠ []) (hws : ∀ w ∈ ws, IsSpaced w) :
    joinWords ws ≠ [] := by
  obtain ⟨w, ws, rfl⟩ := List.exists_cons_of_ne_nil hne
  obtain ⟨b, t, hbt⟩ := List.exists_cons_of_ne_nil (hws w List.mem_cons_self).ne_nil
  rw [joinWords_eq_tail, List.flatMap_cons, List.cons_append, List.tail_cons, hbt]
  exact List.cons_ne_nil _ _

end Words

end Paragraph

namespace Comment

open Paragraph

/-- A row of words at an indentation. -/
def row (n : Nat) (ws : List Bytes) : Bytes :=
  List.replicate n 32 ++ joinWords ws

/-- A line behind its star. -/
def starLine (l : Bytes) : Bytes :=
  if l.isEmpty then ascii " *" else ascii " * " ++ l

/-- The rows of a paragraph: the first with the room that the others have, less what they hang. -/
def rows (avail : Int) (p : Paragraph) : List (List Bytes) :=
  match pack p.words (Width.word (avail - p.indent)) with
  | [] => []
  | first :: _ => first :: pack (p.words.drop first.length) (Width.word (avail - p.indent - p.hang))

/-- The lines that the words of a paragraph make up behind their stars. -/
def flowedLines (avail : Int) (p : Paragraph) : List Bytes :=
  match rows avail p with
  | [] => []
  | first :: rest => row p.indent first :: rest.map (row (p.indent + p.hang))

/-- The lines of a paragraph behind their stars. -/
def bareParagraph (avail : Int) (isFirst : Bool) (p : Paragraph) : List Bytes :=
  (if p.blank && !isFirst then [[]] else []) ++ p.pre ++ flowedLines avail p

variable {p : Paragraph} {avail : Int} {l : Bytes}

/-- A paragraph has no rows, or a first one and those behind it, which are packed into less room. -/
theorem rows_cases (avail : Int) (p : Paragraph) : (p.words = [] ∧ rows avail p = []) ∨
    ∃ first rest, rows avail p = first :: rest ∧ IsRow (Width.word (avail - p.indent)) first ∧
      (∀ w ∈ rest.flatten.head?,
        Width.word (avail - p.indent) < Width.text (joinWords first) + 1 + Width.text w) ∧
      Packed (Width.word (avail - p.indent - p.hang)) rest := by
  obtain ⟨hpacked, hflatten⟩ := pack_spec p.words (Width.word (avail - p.indent))
  cases hpack : pack p.words (Width.word (avail - p.indent)) with
  | nil =>
      rw [hpack] at hflatten
      exact Or.inl ⟨hflatten.symm, by rw [rows, hpack]⟩
  | cons first more =>
      rw [hpack] at hpacked hflatten
      obtain ⟨hpacked', hflatten'⟩ :=
        pack_spec (p.words.drop first.length) (Width.word (avail - p.indent - p.hang))
      have hmore : p.words.drop first.length = more.flatten := by
        rw [← hflatten, List.flatten_cons, List.drop_left]
      obtain ⟨hfirst, hrest⟩ := List.forall_mem_cons.mp hpacked.isRow
      refine Or.inr ⟨first, _, by rw [rows, hpack], hfirst, fun w hw => ?_, hpacked'⟩
      rw [hflatten', hmore] at hw
      cases more with
      | nil => cases hw
      | cons second more =>
          obtain ⟨hne, -⟩ := hrest second List.mem_cons_self
          rw [List.flatten_cons, List.head?_append_of_ne_nil _ hne] at hw
          exact (List.isChain_cons_cons.mp hpacked.parts).1 w hw

/-- The rows of a paragraph are all of its words in order. -/
theorem rows_flatten (avail : Int) (p : Paragraph) : (rows avail p).flatten = p.words := by
  obtain ⟨-, hflatten⟩ := pack_spec p.words (Width.word (avail - p.indent))
  rw [rows]
  cases hpack : pack p.words (Width.word (avail - p.indent)) with
  | nil => rw [← hflatten, hpack]
  | cons first more =>
      rw [hpack, List.flatten_cons] at hflatten
      rw [List.flatten_cons, (pack_spec _ _).2, ← hflatten, List.drop_left]

theorem ne_nil_of_mem_rows {ws : List Bytes} (h : ws ∈ rows avail p) : ws ≠ [] := by
  rcases rows_cases avail p with ⟨-, hnil⟩ | ⟨first, rest, hrows, hfirst, -, hrest⟩
  · rw [hnil] at h
    cases h
  · rw [hrows] at h
    rcases List.mem_cons.mp h with rfl | h
    · exact hfirst.1
    · exact (hrest.isRow ws h).1

theorem mem_flowedLines (h : l ∈ flowedLines avail p) : ∃ n, ∃ ws ∈ rows avail p, l = row n ws := by
  rw [flowedLines] at h
  cases hrows : rows avail p with
  | nil =>
      rw [hrows] at h
      cases h
  | cons first rest =>
      rw [hrows] at h
      rcases List.mem_cons.mp h with rfl | h
      · exact ⟨p.indent, first, List.mem_cons_self, rfl⟩
      · obtain ⟨ws, hws, rfl⟩ := List.mem_map.mp h
        exact ⟨p.indent + p.hang, ws, List.mem_cons_of_mem first hws, rfl⟩

section Lines

variable (h : p.All IsSpaced IsTrimmed)
include h

theorem isSpaced_of_mem_rows {ws : List Bytes} (hws : ws ∈ rows avail p) :
    ∀ w ∈ ws, IsSpaced w := by
  intro w hw
  refine h.words w ?_
  rw [← rows_flatten avail p]
  exact List.mem_flatten_of_mem hws hw

theorem row_ne_nil (n : Nat) {ws : List Bytes} (hws : ws ∈ rows avail p) : row n ws ≠ [] :=
  List.append_ne_nil_of_right_ne_nil _
    (joinWords_spaced_ne_nil (ne_nil_of_mem_rows hws) (isSpaced_of_mem_rows h hws))

/-- A paragraph is laid out as its lines, each behind a star. -/
theorem paragraphLines_eq_map (isFirst : Bool) :
    paragraphLines avail isFirst p = (bareParagraph avail isFirst p).map starLine := by
  have hblank : (if (p.blank && !isFirst) = true then [ascii " *"] else []) =
      (if (p.blank && !isFirst) = true then [[]] else []).map starLine := by
    split_ifs <;> rfl
  have hkept : ∀ k ∈ p.pre, (ascii " * " ++ k).trimRight (· = 32) = starLine k := by
    intro k hk
    cases hempty : k.isEmpty with
    | true =>
        rw [starLine, hempty, List.isEmpty_iff.mp hempty]
        rfl
    | false =>
        rw [starLine, hempty]
        obtain ⟨t, b, rfl⟩ := (List.eq_nil_or_concat' k).resolve_left (by simpa using hempty)
        have hlast := trimLine_eq_self_iff.mp (h.pre _ hk).trimLine b (by simp)
        rw [← List.append_assoc, Bytes.trimRight_concat]
        · rfl
        · simp only [isTrailing, Bool.or_eq_false_iff] at hlast
          exact hlast.1.1
  have hrow : ∀ (n : Nat), ∀ ws ∈ rows avail p,
      starLine (row n ws) = ascii " * " ++ List.replicate n 32 ++ joinWords ws := by
    intro n ws hws
    rw [starLine, if_neg (by simpa using row_ne_nil h n hws), row, List.append_assoc]
  rw [paragraphLines, bareParagraph, List.map_append, List.map_append, ← hblank,
    ← List.map_congr_left hkept]
  refine congrArg (HAppend.hAppend _) ?_
  cases hpack : pack p.words (Width.word (avail - p.indent)) with
  | nil =>
      rw [flowedLines, rows, hpack]
      rfl
  | cons first more =>
      have hrows : rows avail p =
          first :: pack (p.words.drop first.length) (Width.word (avail - p.indent - p.hang)) := by
        rw [rows, hpack]
      rw [hrows] at hrow
      rw [flowedLines, hrows, List.map_cons, List.map_map, hrow _ _ List.mem_cons_self]
      refine congrArg _ (List.map_congr_left fun ws hws => ?_)
      rw [Function.comp_apply, hrow _ ws (List.mem_cons_of_mem first hws)]
      simp only [List.replicate_add, List.append_assoc]

theorem isTrimmed_of_mem_bareParagraph {isFirst : Bool} (hl : l ∈ bareParagraph avail isFirst p) :
    IsTrimmed l := by
  simp only [bareParagraph, List.mem_append] at hl
  rcases hl with (hblank | hkept) | hflowed
  · split_ifs at hblank
    · obtain rfl := List.mem_singleton.mp hblank
      exact ⟨rfl, List.not_mem_nil⟩
    · cases hblank
  · exact h.pre l hkept
  · obtain ⟨n, ws, hws, rfl⟩ := mem_flowedLines hflowed
    have hspaced := isSpaced_of_mem_rows h hws
    obtain ⟨htrim, hbreak⟩ := isTrimmed_joinWords hspaced
    refine ⟨trimLine_append _ (joinWords_spaced_ne_nil (ne_nil_of_mem_rows hws) hspaced) htrim,
      fun hmem => ?_⟩
    exact (List.mem_append.mp hmem).elim (fun hpad => nomatch List.eq_of_mem_replicate hpad) hbreak

end Lines

section Block

variable {ps : List Paragraph}

/-- The lines of a block behind their stars. -/
def bareBlock (avail : Int) : List Paragraph → List Bytes
  | [] => []
  | p :: ps => bareParagraph avail true p ++ ps.flatMap (bareParagraph avail false)

variable (h : ∀ p ∈ ps, p.All IsSpaced IsTrimmed)
include h

theorem blockLines_eq_map (avail : Int) :
    blockLines avail ps = (bareBlock avail ps).map starLine := by
  cases ps with
  | nil => rfl
  | cons p ps =>
      obtain ⟨hp, hps⟩ := List.forall_mem_cons.mp h
      rw [blockLines, bareBlock, List.map_append, paragraphLines_eq_map hp, List.map_flatMap,
        List.flatMap_congr fun q hq => paragraphLines_eq_map (hps q hq) false]

theorem isTrimmed_of_mem_bareBlock (hl : l ∈ bareBlock avail ps) : IsTrimmed l := by
  cases ps with
  | nil => cases hl
  | cons p ps =>
      obtain ⟨hp, hps⟩ := List.forall_mem_cons.mp h
      rcases List.mem_append.mp hl with hl | hl
      · exact isTrimmed_of_mem_bareParagraph hp hl
      · obtain ⟨q, hq, hl⟩ := List.mem_flatMap.mp hl
        exact isTrimmed_of_mem_bareParagraph (hps q hq) hl

end Block

theorem isTrimmed_starLine (h : IsTrimmed l) : IsTrimmed (starLine l) := by
  rw [starLine]
  split_ifs with hempty
  · exact ⟨by decide, by decide⟩
  · refine ⟨trimLine_append _ (by simpa using hempty) h.trimLine, fun hmem => ?_⟩
    exact (List.mem_append.mp hmem).elim (by decide) h.newline

end Comment

end CodeLayout
