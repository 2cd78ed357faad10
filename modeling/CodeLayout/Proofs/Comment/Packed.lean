import CodeLayout.Comment.Paragraph
import CodeLayout.Comment.Reflow
import CodeLayout.Proofs.Text.Printable
import CodeLayout.Proofs.Text.Words
import Mathlib.Data.List.Chain

/-!
# Words that are packed again

Packing is greedy: a line holds as many words as fit, so the first word of the next line does not
fit behind it. Lines with this property are what their words are packed into, and it survives when
words on a line are put together: no line gets wider by that, and no first word gets narrower.

The words of an inline tag are put together on the line on which they stand. What is read of a line
is read again from itself: no more words are put together. So lines of such words are read as the
same lines when they are laid out again, and stay as full as they can be.
-/

namespace CodeLayout

namespace Comment

section Join

variable {v w : Bytes} {vs ws : List Bytes}

@[simp] theorem joinWords_singleton (w : Bytes) : joinWords [w] = w :=
  rfl

theorem joinWords_append (hws : ws ≠ []) (hvs : vs ≠ []) :
    joinWords (ws ++ vs) = joinWords ws ++ 32 :: joinWords vs := by
  obtain ⟨v, vs, rfl⟩ := List.exists_cons_of_ne_nil hvs
  induction ws with
  | nil => exact absurd rfl hws
  | cons w ws ih =>
      cases ws with
      | nil => simp [joinWords, Bytes.join]
      | cons u ws =>
          have hrest := ih (List.cons_ne_nil u ws)
          rw [joinWords, joinWords, List.cons_append] at hrest ⊢
          rw [List.cons_append, Bytes.join, hrest, Bytes.join]
          simp

/-- Each space between words takes one column. -/
theorem text_joinWords (hws : ws ≠ []) (hvs : vs ≠ []) :
    Width.text (joinWords (ws ++ vs)) =
      Width.text (joinWords ws) + 1 + Width.text (joinWords vs) := by
  rw [joinWords_append hws hvs, Width.text_append (by decide)]

theorem words_joinWords (h : ∀ w ∈ ws, Bytes.IsWord w) : (joinWords ws).words = ws :=
  Bytes.words_join h

theorem words_joinWords_flatMap (ws : List Bytes) :
    (joinWords ws).words = ws.flatMap Bytes.words := by
  induction ws with
  | nil => rfl
  | cons w ws ih =>
      cases ws with
      | nil => simp
      | cons v ws =>
          rw [← List.singleton_append, joinWords_append (by simp) (by simp),
            Bytes.words_append (by decide) (by decide), ih]
          rfl

theorem spaced_eq (hne : ws ≠ []) : ws.flatMap (32 :: ·) = 32 :: joinWords ws := by
  induction ws with
  | nil => exact absurd rfl hne
  | cons w ws ih =>
      cases ws with
      | nil => simp
      | cons v ws =>
          rw [List.flatMap_cons, ih (List.cons_ne_nil v ws), ← List.singleton_append (l := v :: ws),
            joinWords_append (by simp) (by simp), joinWords_singleton]
          rfl

theorem joinWords_eq_tail (ws : List Bytes) : joinWords ws = (ws.flatMap (32 :: ·)).tail := by
  cases ws with
  | nil => rfl
  | cons w ws => rw [spaced_eq (List.cons_ne_nil w ws), List.tail_cons]

theorem mem_joinWords {b : UInt8} (h : b ∈ joinWords ws) : b = 32 ∨ ∃ w ∈ ws, b ∈ w := by
  rw [joinWords_eq_tail] at h
  obtain ⟨w, hw, hb⟩ := List.mem_flatMap.mp (List.mem_of_mem_tail h)
  exact (List.mem_cons.mp hb).imp_right fun hb => ⟨w, hw, hb⟩

end Join

/-- Whether words make up a line: they fit, or there is only one. -/
def IsRow (avail : Int) (ws : List Bytes) : Prop :=
  ws ≠ [] ∧ (ws.length = 1 ∨ (Width.text (joinWords ws) : Int) ≤ avail)

/-- Whether the first word of a line does not fit on the line before. -/
def Parts (avail : Int) (ws vs : List Bytes) : Prop :=
  ∀ v ∈ vs.head?, avail < Width.text (joinWords ws) + 1 + Width.text v

/-- Whether lines are as full as possible. -/
structure Packed (avail : Int) (rows : List (List Bytes)) : Prop where
  isRow : ∀ ws ∈ rows, IsRow avail ws
  parts : rows.IsChain (Parts avail)

section Pack

variable {avail used : Int} {line words ws more : List Bytes} {rows : List (List Bytes)}

theorem width_concat {line : List Bytes} (hne : line ≠ []) (w : Bytes) :
    (Width.text (joinWords (w :: line).reverse) : Int) =
      Width.text (joinWords line.reverse) + 1 + Width.text w := by
  rw [List.reverse_cons, text_joinWords (by simpa using hne) (by simp), joinWords_singleton]
  push_cast
  rfl

theorem packFrom_spec (words : List Bytes) (hne : line ≠ []) (hline : IsRow avail line.reverse)
    (hused : used = Width.text (joinWords line.reverse)) :
    Packed avail (packFrom avail line used words) ∧
      (packFrom avail line used words).flatten = line.reverse ++ words ∧
      ∃ more rows, packFrom avail line used words = (line.reverse ++ more) :: rows := by
  induction words generalizing line used with
  | nil =>
      have hrow : packFrom avail line used [] = [line.reverse] := by
        rw [packFrom, if_neg (by simpa using hne)]
      rw [hrow]
      exact ⟨⟨by simpa using hline, List.IsChain.singleton _⟩, by simp, [], [], by simp⟩
  | cons w words ih =>
      have hempty : ¬line.isEmpty = true := by simpa using hne
      have hwidth := width_concat hne w
      rw [← hused] at hwidth
      rw [packFrom]
      simp only [if_neg hempty]
      split_ifs with hwide
      · have hone : IsRow avail [w].reverse := ⟨by simp, Or.inl rfl⟩
        obtain ⟨hpacked, hflatten, more, rows, hrows⟩ := ih (List.cons_ne_nil w []) hone rfl
        rw [List.reverse_singleton, joinWords_singleton] at hpacked hflatten hrows
        refine ⟨⟨List.forall_mem_cons.mpr ⟨hline, hpacked.isRow⟩, ?_⟩, by simp [hflatten], [], _,
          by rw [List.append_nil]⟩
        rw [hrows] at hpacked ⊢
        refine List.isChain_cons_cons.mpr ⟨fun v hv => ?_, hpacked.parts⟩
        obtain rfl : w = v := by simpa using hv
        rwa [← hused]
      · have hrow : IsRow avail (w :: line).reverse :=
          ⟨by simp, Or.inr (hwidth ▸ Int.not_lt.mp hwide)⟩
        obtain ⟨hpacked, hflatten, more, rows, hrows⟩ :=
          ih (List.cons_ne_nil w line) hrow hwidth.symm
        exact ⟨hpacked, by simp [hflatten], w :: more, rows, by simp [hrows]⟩

/-- Packing makes lines that are as full as possible of all words. -/
theorem pack_spec (words : List Bytes) (avail : Int) :
    Packed avail (pack words avail) ∧ (pack words avail).flatten = words := by
  cases words with
  | nil => exact ⟨⟨nofun, List.IsChain.nil⟩, rfl⟩
  | cons w words =>
      obtain ⟨hpacked, hflatten, -⟩ := packFrom_spec words (List.cons_ne_nil w [])
        (⟨by simp, Or.inl rfl⟩ : IsRow avail [w].reverse) rfl
      exact ⟨hpacked, hflatten⟩

/-- The start of a row that fits leaves room for its next word. -/
theorem IsRow.fits (hne : line ≠ []) {w : Bytes}
    (h : IsRow avail (line.reverse ++ w :: more)) :
    Width.text (joinWords line.reverse) + 1 + Width.text w ≤ avail := by
  have hlong : (line.reverse ++ w :: more).length ≠ 1 := by
    have hpos := List.length_pos_iff.mpr hne
    simp only [List.length_append, List.length_reverse, List.length_cons]
    omega
  have hfits := h.2.resolve_left hlong
  rw [← width_concat hne w]
  cases more with
  | nil => simpa using hfits
  | cons v more =>
      have hsplit : line.reverse ++ w :: v :: more = (w :: line).reverse ++ v :: more := by simp
      rw [hsplit, text_joinWords (by simp) (by simp)] at hfits
      push_cast at hfits
      omega

/-- The words of a row are put on the line at hand. -/
theorem packFrom_row (words : List Bytes) (hne : line ≠ [])
    (h : IsRow avail (line.reverse ++ more)) :
    packFrom avail line (Width.text (joinWords line.reverse)) (more ++ words) =
      packFrom avail (line.reverse ++ more).reverse
        (Width.text (joinWords (line.reverse ++ more))) words := by
  induction more generalizing line with
  | nil => simp
  | cons w more ih =>
      have hfits := Int.not_lt.mpr (h.fits hne)
      have hsplit : line.reverse ++ w :: more = (w :: line).reverse ++ more := by simp
      rw [List.cons_append, packFrom, if_neg (by simpa using hne), if_neg hfits, ← width_concat hne,
        hsplit]
      exact ih (List.cons_ne_nil w line) (hsplit ▸ h)

theorem packFrom_flatten (h : Packed avail (ws :: rows)) :
    packFrom avail ws.reverse (Width.text (joinWords ws)) rows.flatten = ws :: rows := by
  induction rows generalizing ws with
  | nil =>
      have hne := (h.isRow ws List.mem_cons_self).1
      simp [packFrom, hne]
  | cons vs rows ih =>
      obtain ⟨hparts, hchain⟩ := List.isChain_cons_cons.mp h.parts
      obtain ⟨⟨hne, -⟩, hrows⟩ := List.forall_mem_cons.mp h.isRow
      have hvs := hrows vs List.mem_cons_self
      obtain ⟨v, vs, rfl⟩ := List.exists_cons_of_ne_nil hvs.1
      have hrow := packFrom_row rows.flatten (List.cons_ne_nil v []) hvs
      rw [List.flatten_cons, List.cons_append, packFrom, if_neg (by simpa using hne),
        if_pos (hparts v rfl), List.reverse_reverse]
      exact congrArg _ (hrow.trans (ih ⟨hrows, hchain⟩))

/-- Lines that are as full as possible are what their words are packed into. -/
theorem Packed.pack_eq (h : Packed avail rows) : pack rows.flatten avail = rows := by
  cases rows with
  | nil => rfl
  | cons ws rows =>
      have hws := h.isRow ws List.mem_cons_self
      obtain ⟨w, ws, rfl⟩ := List.exists_cons_of_ne_nil hws.1
      have hrow := packFrom_row rows.flatten (List.cons_ne_nil w []) hws
      exact hrow.trans (packFrom_flatten h)

theorem Packed.tail (h : Packed avail rows) : Packed avail rows.tail := by
  cases rows with
  | nil => exact h
  | cons ws rows => exact ⟨(List.forall_mem_cons.mp h.isRow).2, h.parts.tail⟩

theorem mem_pack_ne_nil (hws : ws ∈ pack words avail) : ws ≠ [] :=
  ((pack_spec words avail).1.isRow ws hws).1

end Pack

end Comment

namespace Paragraph

open Comment

variable {a b s w : Bytes} {acc : Option (Bytes × Int)} {fs more ws : List Bytes} {depth : Int}

theorem spaced_joinInline (acc : Option (Bytes × Int)) (fs : List Bytes) :
    (joinInline acc fs).flatMap (32 :: ·) = (acc.toList.map Prod.fst ++ fs).flatMap (32 :: ·) := by
  fun_induction joinInline acc fs with
  | case1 => rfl
  | case2 => rfl
  | case3 f fs hopens ih => exact ih
  | case4 f fs hopens ih => simpa using ih
  | case5 w depth f fs w' depth' hdepth ih => simpa [w', ascii] using ih
  | case6 w depth f fs w' depth' hdepth ih => simpa [w', ascii] using ih

/-- Putting words together changes no text. -/
theorem joinWords_atoms (s : Bytes) : joinWords (atoms s) = joinWords s.words := by
  rw [joinWords_eq_tail, joinWords_eq_tail, atoms, spaced_joinInline]
  rfl

/-- Whether a text is read as one word: a word, or the words of an inline tag. -/
def IsAtom (a : Bytes) : Prop :=
  atoms a = [a]

theorem IsAtom.words_ne_nil (h : IsAtom a) : a.words ≠ [] := by
  intro hnil
  rw [IsAtom, atoms, hnil] at h
  cases h

/-- Whether words have been put together to a tag that is still open. -/
def IsOpenTag (w : Bytes) (depth : Int) : Prop :=
  ∃ fs : List Bytes, fs ≠ [] ∧ (∀ f ∈ fs, f.IsWord) ∧ w = joinWords fs ∧
    ∀ more, joinInline none (fs ++ more) = joinInline (some (w, depth)) more

theorem IsOpenTag.atoms_eq (h : IsOpenTag w depth) : atoms w = [w] := by
  obtain ⟨gs, -, hgs, hw, hmore⟩ := h
  have hnil := hmore []
  rw [List.append_nil] at hnil
  rw [hw, atoms, words_joinWords hgs, hnil, joinInline, ← hw]

theorem isAtom_of_mem_joinInline (hacc : ∀ o ∈ acc, IsOpenTag o.1 o.2) (hfs : ∀ f ∈ fs, f.IsWord) :
    ∀ a ∈ joinInline acc fs, IsAtom a := by
  fun_induction joinInline acc fs with
  | case1 => nofun
  | case2 w depth => exact List.forall_mem_singleton.mpr (hacc _ rfl).atoms_eq
  | case3 f fs hopens ih =>
      obtain ⟨hf, hfs⟩ := List.forall_mem_cons.mp hfs
      refine ih (fun o ho => ?_) hfs
      obtain rfl := Option.some.inj ho
      refine ⟨[f], by simp, by simpa using hf, rfl, fun more => ?_⟩
      rw [List.singleton_append, joinInline, if_pos hopens]
  | case4 f fs hopens ih =>
      obtain ⟨hf, hfs⟩ := List.forall_mem_cons.mp hfs
      refine List.forall_mem_cons.mpr ⟨?_, ih (by simp) hfs⟩
      rw [IsAtom, atoms, hf.words_eq, joinInline, if_neg hopens, joinInline]
  | case5 w depth f fs w' depth' hdepth ih =>
      obtain ⟨hf, hfs⟩ := List.forall_mem_cons.mp hfs
      obtain ⟨gs, hne, hgs, hw, hmore⟩ := hacc _ rfl
      refine ih (fun o ho => ?_) hfs
      obtain rfl := Option.some.inj ho
      have hjoin : w' = joinWords (gs ++ [f]) := by
        rw [joinWords_append hne (by simp), ← hw]
        simp [w', ascii]
      refine ⟨gs ++ [f], by simp, List.forall_mem_append.mpr ⟨hgs, by simpa using hf⟩, hjoin,
        fun more => ?_⟩
      rw [List.append_assoc, List.singleton_append, hmore, joinInline, if_pos hdepth]
  | case6 w depth f fs w' depth' hdepth ih =>
      obtain ⟨hf, hfs⟩ := List.forall_mem_cons.mp hfs
      obtain ⟨gs, hne, hgs, hw, hmore⟩ := hacc _ rfl
      refine List.forall_mem_cons.mpr ⟨?_, ih (by simp) hfs⟩
      have hjoin : w' = joinWords (gs ++ [f]) := by
        rw [joinWords_append hne (by simp), ← hw]
        simp [w', ascii]
      have hwords := words_joinWords
        (List.forall_mem_append.mpr ⟨hgs, List.forall_mem_singleton.mpr hf⟩)
      rw [IsAtom, atoms, hjoin, hwords, hmore, joinInline, if_neg hdepth, joinInline, ← hjoin]

/-- What is read of a line is read again from itself. -/
theorem isAtom_of_mem_atoms (h : a ∈ atoms s) : IsAtom a :=
  isAtom_of_mem_joinInline (by simp) (fun _ => Bytes.isWord_of_mem_words) a h

theorem opensInline_of_isInfix (h : opensInline w = true) (hw : w <:+: s) : opensInline s = true :=
  Bytes.has_iff_isInfix.mpr ((Bytes.has_iff_isInfix.mp h).trans hw)

theorem opensInline_append (h : opensInline w = true) (t : Bytes) : opensInline (w ++ t) = true :=
  opensInline_of_isInfix h (List.prefix_append w t).isInfix

/-- A word that is read of a line grows only behind a space when the line goes on, and only if it
opens an inline tag. -/
def Extends (a b : Bytes) : Prop :=
  b = a ∨ opensInline b = true ∧ ∃ t, b = a ++ 32 :: t

theorem Extends.width_le (h : Extends a b) : Width.text a ≤ Width.text b := by
  obtain rfl | ⟨-, t, rfl⟩ := h
  · exact Nat.le_refl _
  · rw [Width.text_append (by decide)]
    omega

/-- What has been read up to a tag that is still open. -/
def IsOpened (o : Bytes × Int) : Prop :=
  opensInline o.1 = true ∧ 0 < o.2

theorem joinInline_eq_nil_iff : joinInline none fs = [] ↔ fs = [] := by
  refine ⟨fun h => ?_, fun h => by rw [h, joinInline]⟩
  have hspaced := spaced_joinInline none fs
  rw [h] at hspaced
  exact List.eq_nil_iff_forall_not_mem.mpr (by simpa using hspaced.symm)

theorem joinInline_cons_some (w f : Bytes) (depth : Int) (fs : List Bytes) :
    joinInline (some (w, depth)) (f :: fs) = if 0 < depth + braceDepth f
      then joinInline (some (w ++ 32 :: f, depth + braceDepth f)) fs
      else (w ++ 32 :: f) :: joinInline none fs := by
  simp [joinInline, ascii]

/-- A line that is read as one word may go on: the word is closed, or it is a tag that is still
open. -/
theorem joinInline_append (hacc : ∀ o ∈ acc, IsOpened o) (h : joinInline acc fs = [a]) :
    (∀ more, joinInline acc (fs ++ more) = a :: joinInline none more) ∨
      ∃ depth, IsOpened (a, depth) ∧
        ∀ more, joinInline acc (fs ++ more) = joinInline (some (a, depth)) more := by
  fun_induction joinInline acc fs with
  | case1 => cases h
  | case2 w depth =>
      obtain ⟨rfl, -⟩ := List.cons.inj h
      exact Or.inr ⟨depth, hacc _ rfl, fun _ => rfl⟩
  | case3 f fs hopens ih =>
      have hopened : IsOpened (f, braceDepth f) := by simpa [IsOpened] using hopens
      simp only [List.cons_append, joinInline, if_pos hopens]
      exact ih (fun o ho => Option.some.inj ho ▸ hopened) h
  | case4 f fs hopens ih =>
      obtain ⟨rfl, hnil⟩ := List.cons.inj h
      rw [joinInline_eq_nil_iff.mp hnil]
      exact Or.inl fun more => by rw [List.singleton_append, joinInline, if_neg hopens]
  | case5 w depth f fs w' depth' hdepth ih =>
      have hopened : IsOpened (w', depth') := by
        refine ⟨?_, hdepth⟩
        dsimp only [w']
        rw [List.append_assoc]
        exact opensInline_append (hacc _ rfl).1 _
      have hmore (more : List Bytes) : joinInline (some (w, depth)) (f :: fs ++ more) =
          joinInline (some (w', depth')) (fs ++ more) := if_pos hdepth
      simp only [hmore]
      exact ih (fun o ho => Option.some.inj ho ▸ hopened) h
  | case6 w depth f fs w' depth' hdepth ih =>
      obtain ⟨rfl, hnil⟩ := List.cons.inj h
      rw [joinInline_eq_nil_iff.mp hnil]
      exact Or.inl fun more => if_neg hdepth

/-- Behind an open tag the words of another tag are read as part of it, and it is not closed before
the other tag is. -/
theorem joinInline_some_append {v : Bytes} {inner depth : Int} (hinner : 0 < inner)
    (hdepth : 0 < depth) (h : joinInline (some (v, inner)) fs = [a]) :
    (∀ more, joinInline (some (w ++ 32 :: v, depth + inner)) (fs ++ more) =
        (w ++ 32 :: a) :: joinInline none more) ∨
      ∃ depth', 0 < depth' ∧ ∀ more, joinInline (some (w ++ 32 :: v, depth + inner)) (fs ++ more) =
        joinInline (some (w ++ 32 :: a, depth')) more := by
  induction fs generalizing v inner with
  | nil =>
      obtain ⟨rfl, -⟩ := List.cons.inj h
      exact Or.inr ⟨depth + inner, by omega, fun _ => rfl⟩
  | cons f fs ih =>
      have hword : w ++ 32 :: v ++ 32 :: f = w ++ 32 :: (v ++ 32 :: f) := by simp
      rw [joinInline_cons_some] at h
      simp only [List.cons_append, joinInline_cons_some, hword, add_assoc]
      split_ifs at h with hopen
      · have hmore : 0 < depth + (inner + braceDepth f) := by omega
        simp only [if_pos hmore]
        exact ih hopen h
      · obtain ⟨rfl, hnil⟩ := List.cons.inj h
        rw [joinInline_eq_nil_iff.mp hnil]
        by_cases hmore : 0 < depth + (inner + braceDepth f)
        · exact Or.inr ⟨_, hmore, fun _ => if_pos hmore⟩
        · exact Or.inl fun _ => if_neg hmore

/-- Behind an open tag a word is read as part of it. -/
theorem IsAtom.joinInline_some (h : IsAtom a) (hdepth : 0 < depth) (w : Bytes) :
    (∀ more, joinInline (some (w, depth)) (a.words ++ more) =
        (w ++ 32 :: a) :: joinInline none more) ∨
      ∃ depth', 0 < depth' ∧ ∀ more, joinInline (some (w, depth)) (a.words ++ more) =
        joinInline (some (w ++ 32 :: a, depth')) more := by
  obtain ⟨f, fs, hfs⟩ := List.exists_cons_of_ne_nil h.words_ne_nil
  rw [IsAtom, atoms, hfs, joinInline] at h
  simp only [hfs, List.cons_append, joinInline_cons_some]
  split_ifs at h with hopens
  · rw [Bool.and_eq_true, decide_eq_true_eq] at hopens
    have hmore : 0 < depth + braceDepth f := by omega
    simp only [if_pos hmore]
    exact joinInline_some_append hopens.2 hdepth h
  · obtain ⟨rfl, hnil⟩ := List.cons.inj h
    rw [joinInline_eq_nil_iff.mp hnil]
    by_cases hmore : 0 < depth + braceDepth f
    · exact Or.inr ⟨_, hmore, fun _ => if_pos hmore⟩
    · exact Or.inl fun _ => if_neg hmore

/-- What words are read as when they are read again: each is one of them, or an inline tag that one
of them opens. -/
theorem extends_of_mem_joinInline (h : ∀ a ∈ ws, IsAtom a) :
    (∀ c ∈ joinInline none (ws.flatMap Bytes.words), ∃ a ∈ ws, Extends a c) ∧
      ∀ w depth, IsOpened (w, depth) → ∃ b bs,
        joinInline (some (w, depth)) (ws.flatMap Bytes.words) = b :: bs ∧ Extends w b ∧
          ∀ c ∈ bs, ∃ a ∈ ws, Extends a c := by
  induction ws with
  | nil => exact ⟨nofun, fun w depth _ => ⟨w, [], rfl, Or.inl rfl, nofun⟩⟩
  | cons a ws ih =>
      obtain ⟨ha, hws⟩ := List.forall_mem_cons.mp h
      obtain ⟨ihnone, ihsome⟩ := ih hws
      have hmem : ∀ {c : Bytes}, (∃ a' ∈ ws, Extends a' c) → ∃ a' ∈ a :: ws, Extends a' c :=
        fun ⟨a', ha', hc⟩ => ⟨a', List.mem_cons_of_mem a ha', hc⟩
      rw [List.flatMap_cons]
      refine ⟨?_, fun w depth hopened => ?_⟩
      · rcases joinInline_append (by simp) ha with hclosed | ⟨depth, hopened, hopen⟩
        · rw [hclosed, List.forall_mem_cons]
          exact ⟨⟨a, List.mem_cons_self, Or.inl rfl⟩, fun c hc => hmem (ihnone c hc)⟩
        · obtain ⟨b, bs, hread, hb, hbs⟩ := ihsome a depth hopened
          rw [hopen, hread, List.forall_mem_cons]
          exact ⟨⟨a, List.mem_cons_self, hb⟩, fun c hc => hmem (hbs c hc)⟩
      · have hgrown : opensInline (w ++ 32 :: a) = true := opensInline_append hopened.1 _
        rcases ha.joinInline_some hopened.2 w with hclosed | ⟨depth', hdepth', hopen⟩
        · exact ⟨_, _, hclosed _, Or.inr ⟨hgrown, a, rfl⟩, fun c hc => hmem (ihnone c hc)⟩
        · obtain ⟨b, bs, hread, hb, hbs⟩ := ihsome (w ++ 32 :: a) depth' ⟨hgrown, hdepth'⟩
          refine ⟨b, bs, (hopen _).trans hread, ?_, fun c hc => hmem (hbs c hc)⟩
          obtain rfl | ⟨hopens, t, rfl⟩ := hb
          · exact Or.inr ⟨hgrown, a, rfl⟩
          · exact Or.inr ⟨hopens, a ++ 32 :: t, by simp⟩

/-- The words of a line that is laid out and read again. -/
def reread (ws : List Bytes) : List Bytes :=
  atoms (joinWords ws)

theorem joinWords_reread (h : ∀ a ∈ ws, IsAtom a) : joinWords (reread ws) = joinWords ws := by
  have hwords (a : Bytes) (ha : a ∈ ws) : a.words.flatMap (32 :: ·) = 32 :: a := by
    rw [spaced_eq (h a ha).words_ne_nil, ← joinWords_atoms, h a ha, joinWords_singleton]
  rw [reread, joinWords_atoms, words_joinWords_flatMap, joinWords_eq_tail, joinWords_eq_tail,
    List.flatMap_assoc, List.flatMap_congr hwords]

/-- What is read again of a row starts with its first word, and goes on with words of it. -/
theorem exists_reread (h : ∀ c ∈ a :: ws, IsAtom c) : ∃ b bs, reread (a :: ws) = b :: bs ∧
    Extends a b ∧ ∀ c ∈ bs, ∃ a' ∈ ws, Extends a' c := by
  obtain ⟨ha, hws⟩ := List.forall_mem_cons.mp h
  obtain ⟨hnone, hsome⟩ := extends_of_mem_joinInline hws
  rw [reread, atoms, words_joinWords_flatMap, List.flatMap_cons]
  rcases joinInline_append (by simp) ha with hclosed | ⟨depth, hopened, hopen⟩
  · exact ⟨a, _, hclosed _, Or.inl rfl, hnone⟩
  · obtain ⟨b, bs, hread, hb, hbs⟩ := hsome a depth hopened
    exact ⟨b, bs, (hopen _).trans hread, hb, hbs⟩

theorem isRow_reread {avail : Int} (hatoms : ∀ a ∈ ws, IsAtom a) (h : IsRow avail ws) :
    IsRow avail (reread ws) := by
  obtain ⟨hne, hfits⟩ := h
  obtain ⟨a, vs, rfl⟩ := List.exists_cons_of_ne_nil hne
  obtain ⟨b, bs, hread, -⟩ := exists_reread hatoms
  refine ⟨by rw [hread]; exact List.cons_ne_nil b bs, ?_⟩
  rw [joinWords_reread hatoms]
  refine hfits.imp_left fun hone => ?_
  obtain rfl : vs = [] := by simpa using hone
  rw [reread, joinWords_singleton, hatoms a List.mem_cons_self]
  rfl

/-- Lines that are as full as possible still are when each is read again. -/
theorem packed_reread {avail : Int} {rows : List (List Bytes)} (h : Packed avail rows)
    (hatoms : ∀ ws ∈ rows, ∀ a ∈ ws, IsAtom a) : Packed avail (rows.map reread) := by
  refine ⟨List.forall_mem_map.mpr fun ws hws => isRow_reread (hatoms ws hws) (h.isRow ws hws), ?_⟩
  rw [List.isChain_map]
  refine h.parts.imp_of_mem_imp fun ws vs _ hvs hparts b hb => ?_
  obtain ⟨hne, -⟩ := h.isRow vs hvs
  obtain ⟨a, vs, rfl⟩ := List.exists_cons_of_ne_nil hne
  obtain ⟨c, rest, hrest, hextends, -⟩ := exists_reread (hatoms _ hvs)
  rw [hrest] at hb
  obtain rfl := Option.some.inj hb
  rw [joinWords_reread (hatoms ws ‹_›)]
  have hwide := hparts a rfl
  have hle := hextends.width_le
  omega

theorem atoms_eq_nil_iff {s : Bytes} : atoms s = [] ↔ s.trim = [] := by
  rw [Bytes.trim_eq_nil_iff, atoms, joinInline_eq_nil_iff]

section Row

theorem joinWords_words (h : ∀ a ∈ ws, IsAtom a) :
    joinWords (joinWords ws).words = joinWords ws := by
  have hreread := joinWords_reread h
  rwa [reread, joinWords_atoms] at hreread

theorem words_joinWords_ne_nil (hne : ws ≠ []) (h : ∀ a ∈ ws, IsAtom a) :
    (joinWords ws).words ≠ [] := by
  obtain ⟨a, vs, rfl⟩ := List.exists_cons_of_ne_nil hne
  rw [words_joinWords_flatMap, List.flatMap_cons]
  exact List.append_ne_nil_of_left_ne_nil (h a List.mem_cons_self).words_ne_nil _

/-- A line of words is trimmed. -/
theorem trim_joinWords (h : ∀ a ∈ ws, IsAtom a) : (joinWords ws).trim = joinWords ws := by
  have htrim := Bytes.trim_join fun w hw => Bytes.isWord_of_mem_words (s := joinWords ws) hw
  change (joinWords _).trim = joinWords _ at htrim
  rwa [joinWords_words h] at htrim

theorem joinWords_ne_nil (hne : ws ≠ []) (h : ∀ a ∈ ws, IsAtom a) : joinWords ws ≠ [] := by
  intro hnil
  refine words_joinWords_ne_nil hne h ?_
  rw [hnil]
  rfl

theorem not_mem_joinWords (h : ∀ a ∈ ws, IsAtom a) {b : UInt8} (hb : b < 0x80)
    (hblank : isBlank b.toNat = true) (hne : b ≠ 32) : b ∉ joinWords ws := by
  rw [← joinWords_words h]
  intro hmem
  obtain ⟨w, hw, hmem⟩ := (mem_joinWords hmem).resolve_left hne
  exact (Bytes.isWord_of_mem_words hw).not_mem hb hblank hmem

theorem reread_ne_nil (hne : ws ≠ []) (h : ∀ a ∈ ws, IsAtom a) : reread ws ≠ [] := by
  rw [reread, ne_eq, atoms_eq_nil_iff, trim_joinWords h]
  exact joinWords_ne_nil hne h

end Row

end Paragraph

end CodeLayout
