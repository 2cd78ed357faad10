import CodeLayout.Proofs.Comment.Starred
import CodeLayout.Proofs.Text.Solid

/-!
# Words of marked up text

Where markup is read, each word of a line is cut in front of a tag and behind a list tag. The pieces
are words that are cut no further. By its tag a word opens or closes a list, starts an item or a
paragraph, or does nothing of the kind. A word that grows when a row is read again grows behind a
space, so it does what it did and is cut no more than it was.
-/

namespace CodeLayout

namespace Paragraph

open Comment

section Words

variable {cur s t w : Bytes} {left : Nat}

theorem solid_joinWords (ws : List Bytes) : (joinWords ws).solid = ws.flatMap Bytes.solid :=
  Bytes.solid_join (by decide) (by decide) ws

/-- The words of a line hold all of it but its white space. -/
theorem flatMap_solid_atoms (l : Bytes) : (atoms l).flatMap Bytes.solid = l.solid := by
  have hwords := words_joinWords fun w (hw : w ∈ l.words) => Bytes.isWord_of_mem_words hw
  rw [← solid_joinWords, joinWords_atoms, ← Bytes.flatten_words, hwords, Bytes.flatten_words]

theorem ascii_of_hasTag {tag : String} (htag : ∀ b ∈ ascii tag, b < 0x80)
    (h : hasTag s tag = true) :
    ∀ b ∈ s.take tag.length, b < 0x80 := by
  rw [hasTag, Bool.and_eq_true, decide_eq_true_eq, beq_iff_eq] at h
  obtain ⟨hlength, hlower⟩ := h
  refine Bytes.ascii_of_lower (by rwa [hlower]) ?_
  rw [hlower, List.length_take_of_le hlength, ascii, List.length_map, String.length_toList]

/-- A list tag is ASCII in any case. -/
theorem ascii_of_listTag? {n : Nat} (h : listTag? s = some n) : ∀ b ∈ s.take n, b < 0x80 := by
  obtain ⟨tag, hfind, rfl⟩ := Option.map_eq_some_iff.mp h
  have htags : ∀ tag ∈ ["<ul>", "<ol>", "</ul>", "</ol>"], (ascii tag).all (· < 0x80) := by decide
  have htag := htags tag (List.mem_of_find?_eq_some hfind)
  exact ascii_of_hasTag (by simpa using htag) (List.find?_some hfind)

theorem flatMap_solid_piece (cur : Bytes) :
    (piece cur).flatMap Bytes.solid = Bytes.solid cur.reverse := by
  rw [piece]
  split_ifs with hempty
  · rw [List.isEmpty_iff.mp hempty]
    rfl
  · exact List.flatMap_singleton ..

/-- The pieces of a word hold all of it. It is cut in front of a tag or behind one, so beside a byte
of ASCII. -/
theorem flatMap_solid_splitMarkupFrom (h : ∀ b ∈ s.take left, b < 0x80) :
    (splitMarkupFrom left cur s).flatMap Bytes.solid = Bytes.solid (cur.reverse ++ s) := by
  have hread (cur rest : Bytes) (b : UInt8) :
      (b :: cur).reverse ++ rest = cur.reverse ++ b :: rest := by simp
  have hnone : ∀ {rest : Bytes}, ∀ b ∈ rest.take 0, b < (0x80 : UInt8) := by simp
  fun_induction splitMarkupFrom left cur s with
  | case1 => rw [flatMap_solid_piece, List.append_nil]
  | case2 cur b rest ih =>
      rw [List.flatMap_append, flatMap_solid_piece, ih hnone, List.reverse_cons, List.reverse_nil,
        List.nil_append]
      exact (Bytes.solid_concat (h b (by simp)) _ _).symm
  | case3 left cur b rest hleft ih =>
      rw [ih fun c hc => h c (List.mem_cons_of_mem b hc), hread]
  | case4 cur rest n htag ih =>
      have htagged := ascii_of_listTag? htag
      have hbehind : ∀ b ∈ rest.take (n - 1), b < 0x80 := by
        cases n with
        | zero => exact hnone
        | succ n => exact fun b hb => htagged b (List.mem_cons_of_mem _ hb)
      rw [List.flatMap_append, flatMap_solid_piece, ih hbehind]
      exact (Bytes.solid_append (b := 60) (by decide) _ _).symm
  | case5 cur rest htag hitem ih =>
      rw [List.flatMap_append, flatMap_solid_piece, ih hnone]
      exact (Bytes.solid_append (b := 60) (by decide) _ _).symm
  | case6 cur rest htag hitem ih => rw [ih hnone, hread]
  | case7 cur b rest hb ih => rw [ih hnone, hread]

theorem flatMap_solid_splitMarkup (w : Bytes) : (splitMarkup w).flatMap Bytes.solid = w.solid := by
  rw [splitMarkup]
  split_ifs
  · exact List.flatMap_singleton ..
  · exact flatMap_solid_splitMarkupFrom (by simp)

end Words

section Pieces

variable {a cur s t v w : Bytes} {left n : Nat} {tag : String}

theorem eq_of_solid {vs : List Bytes} (h : vs.flatMap Bytes.solid = vs.flatten) :
    ∀ v ∈ vs, v.solid = v := by
  induction vs with
  | nil => nofun
  | cons v vs ih =>
      have hv := Bytes.solid_sublist v
      have hvs : (vs.flatMap Bytes.solid).Sublist vs.flatten := by
        rw [List.flatten_eq_flatMap]
        exact List.Sublist.flatMap_right vs fun u _ => Bytes.solid_sublist u
      rw [List.flatMap_cons, List.flatten_cons] at h
      have hlength := congrArg List.length h
      rw [List.length_append, List.length_append] at hlength
      have hle := hv.length_le
      have hles := hvs.length_le
      exact List.forall_mem_cons.mpr
        ⟨hv.eq_of_length_le (by omega), ih (hvs.eq_of_length_le (by omega))⟩

/-- The pieces of a word are words. -/
theorem isWord_of_mem_splitMarkup (h : w.IsWord) (hv : v ∈ splitMarkup w) : v.IsWord := by
  have hsolid : (splitMarkup w).flatMap Bytes.solid = (splitMarkup w).flatten := by
    rw [flatMap_solid_splitMarkup, flatten_splitMarkup, Bytes.solid_eq_self_iff.mpr h.solid]
  refine ⟨?_, Bytes.solid_eq_self_iff.mp (eq_of_solid hsolid v hv)⟩
  rw [splitMarkup] at hv
  split_ifs at hv
  · exact List.mem_singleton.mp hv ▸ h.ne_nil
  · exact ne_nil_of_mem_splitMarkupFrom hv

theorem hasTag_of_isPrefix (hst : s <+: t) (h : hasTag s tag = true) : hasTag t tag = true := by
  obtain ⟨u, rfl⟩ := hst
  rw [hasTag, Bool.and_eq_true, decide_eq_true_eq] at h ⊢
  rw [List.take_append_of_le_length h.1, List.length_append]
  exact ⟨by omega, h.2⟩

theorem hasTag_take (hst : s <+: t) (hlength : tag.length ≤ s.length) (h : hasTag t tag = true) :
    hasTag s tag = true := by
  obtain ⟨u, rfl⟩ := hst
  rw [hasTag, Bool.and_eq_true, decide_eq_true_eq] at h ⊢
  rw [List.take_append_of_le_length hlength] at h
  exact ⟨hlength, h.2⟩

theorem listTag?_none (hst : s <+: t) (h : listTag? t = none) : listTag? s = none := by
  rw [listTag?, Option.map_eq_none_iff, List.find?_eq_none] at h ⊢
  exact fun tag htag hs => h tag htag (hasTag_of_isPrefix hst hs)

theorem listTag?_some (hst : s <+: t) (hlength : n ≤ s.length) (h : listTag? t = some n) :
    listTag? s = some n := by
  obtain ⟨tag, hfind, rfl⟩ := Option.map_eq_some_iff.mp h
  obtain ⟨htag, front, back, hsplit, hfront⟩ := List.find?_eq_some_iff_append.mp hfind
  refine Option.map_eq_some_iff.mpr ⟨tag, ?_, rfl⟩
  refine List.find?_eq_some_iff_append.mpr ⟨hasTag_take hst hlength htag, front, back, hsplit, ?_⟩
  intro other hother
  have hnot := hfront other hother
  simp only [Bool.not_eq_true'] at hnot ⊢
  exact Bool.eq_false_iff.mpr fun hs => Bool.eq_false_iff.mp hnot (hasTag_of_isPrefix hst hs)

theorem listTag?_le (h : listTag? s = some n) : 1 ≤ n ∧ n ≤ s.length := by
  obtain ⟨tag, hfind, rfl⟩ := Option.map_eq_some_iff.mp h
  have htags : ∀ tag ∈ ["<ul>", "<ol>", "</ul>", "</ol>"], 1 ≤ tag.length := by decide
  have htag := List.find?_some hfind
  rw [hasTag, Bool.and_eq_true, decide_eq_true_eq] at htag
  exact ⟨htags tag (List.mem_of_find?_eq_some hfind), htag.1⟩

theorem eq_of_mem_piece (h : v ∈ piece cur) : v = cur.reverse := by
  rw [piece] at h
  split_ifs at h
  · simp at h
  · exact List.mem_singleton.mp h

/-- A piece is cut no further: reading it from its start comes to where reading the word came to. -/
theorem splitMarkupFrom_mem (hleft : left ≤ s.length)
    (hcur : ∀ t, t <+: s → left ≤ t.length →
      splitMarkupFrom 0 [] (cur.reverse ++ t) = splitMarkupFrom left cur t)
    (hv : v ∈ splitMarkupFrom left cur s) : splitMarkupFrom 0 [] v = [v] := by
  have hpiece : ∀ {cur : Bytes}, splitMarkupFrom 0 [] cur.reverse = piece cur → v ∈ piece cur →
      splitMarkupFrom 0 [] v = [v] := by
    intro cur hread hmem
    rw [eq_of_mem_piece hmem, hread, piece, if_neg]
    intro hempty
    rw [piece, if_pos hempty] at hmem
    cases hmem
  have hshift {b : UInt8} {cur t : Bytes} :
      (b :: cur).reverse ++ t = cur.reverse ++ b :: t := by simp
  fun_induction splitMarkupFrom left cur s with
  | case1 left cur =>
      have hread := hcur [] List.nil_prefix hleft
      rw [List.append_nil, splitMarkupFrom] at hread
      exact hpiece hread hv
  | case2 cur b rest ih =>
      rcases List.mem_append.mp hv with hmem | hmem
      · have hread := hcur [b] (List.prefix_append [b] rest) (by simp)
        rw [← hshift, List.append_nil, splitMarkupFrom, if_pos rfl] at hread
        exact hpiece (hread.trans (List.append_nil _)) hmem
      · exact ih (Nat.zero_le _) (fun _ _ _ => rfl) hmem
  | case3 left cur b rest hpos ih =>
      refine ih (by simpa using hleft) (fun t ht hlength => ?_) hv
      have hread := hcur (b :: t) (List.cons_prefix_cons.mpr ⟨rfl, ht⟩) (by simpa using hlength)
      rwa [splitMarkupFrom, if_neg hpos, ← hshift] at hread
  | case4 cur rest n htag ih =>
      obtain ⟨hpos, hle⟩ := listTag?_le htag
      rw [List.length_cons] at hle
      rcases List.mem_append.mp hv with hmem | hmem
      · have hread := hcur [] List.nil_prefix (Nat.zero_le _)
        rw [List.append_nil, splitMarkupFrom] at hread
        exact hpiece hread hmem
      · refine ih (by omega) (fun t ht hlength => ?_) hmem
        have hagain := listTag?_some (List.cons_prefix_cons.mpr ⟨rfl, ht⟩)
          (by rw [List.length_cons]; omega) htag
        rw [List.reverse_singleton, List.singleton_append, splitMarkupFrom, if_pos rfl, hagain]
        rfl
  | case5 cur rest htag hitem ih =>
      rcases List.mem_append.mp hv with hmem | hmem
      · have hread := hcur [] List.nil_prefix (Nat.zero_le _)
        rw [List.append_nil, splitMarkupFrom] at hread
        exact hpiece hread hmem
      · refine ih (Nat.zero_le _) (fun t ht _ => ?_) hmem
        have hagain := listTag?_none (List.cons_prefix_cons.mpr ⟨rfl, ht⟩) htag
        rw [List.reverse_singleton, List.singleton_append, splitMarkupFrom, if_pos rfl, hagain]
        exact ite_self _
  | case6 cur rest htag hitem ih =>
      refine ih (Nat.zero_le _) (fun t ht _ => ?_) hv
      have hprefix : 60 :: t <+: 60 :: rest := List.cons_prefix_cons.mpr ⟨rfl, ht⟩
      have hread := hcur (60 :: t) hprefix (Nat.zero_le _)
      rw [splitMarkupFrom, if_pos rfl, listTag?_none hprefix htag] at hread
      dsimp only at hread
      rwa [if_neg, ← hshift] at hread
      rw [Bool.or_eq_true] at hitem ⊢
      exact fun h => hitem (h.imp (hasTag_of_isPrefix hprefix) (hasTag_of_isPrefix hprefix))
  | case7 cur b rest hb ih =>
      refine ih (Nat.zero_le _) (fun t ht _ => ?_) hv
      have hread := hcur (b :: t) (List.cons_prefix_cons.mpr ⟨rfl, ht⟩) (Nat.zero_le _)
      rwa [splitMarkupFrom, if_neg hb, ← hshift] at hread

/-- The pieces of a word are cut no further. -/
theorem splitMarkup_of_mem (h : v ∈ splitMarkup w) : splitMarkup v = [v] := by
  rw [splitMarkup] at h
  split_ifs at h with hkeep
  · rw [List.mem_singleton.mp h, splitMarkup, if_pos hkeep]
  · rw [splitMarkup]
    split_ifs
    · rfl
    · exact splitMarkupFrom_mem (Nat.zero_le _) (fun _ _ _ => rfl) h

end Pieces

/-- Whether markup is read: the tags of a doc comment of which lines are joined. -/
def Mode.marks (m : Mode) : Bool :=
  m.doc && m.join

/-- What a word does to the paragraphs around it: it opens a list or closes one, it starts an item
or a paragraph, or it is text. -/
inductive Role where
  | opens
  | closes
  | item
  | text
  deriving DecidableEq, Repr

/-- Whether a word is a paragraph of its own. -/
def Role.isList : Role → Bool
  | .opens | .closes => true
  | .item | .text => false

/-- What a word does in a mode. -/
def role (m : Mode) (w : Bytes) : Role :=
  if !m.marks then .text
  else if w.lower == ascii "<ul>" || w.lower == ascii "<ol>" then .opens
  else if w.lower == ascii "</ul>" || w.lower == ascii "</ol>" then .closes
  else if hasTag w "<li>" || hasTag w "<p>" then .item
  else .text

/-- Whether a line opens a preformatted section. -/
def opensPre (l : Bytes) : Bool :=
  (ascii "<pre>").isPrefixOf l.trim.lower

/-- Whether a line closes a preformatted section. -/
def closesPre (l : Bytes) : Bool :=
  Bytes.has (ascii "</pre>") l.trim

section Space

variable {a b s t : Bytes} {m : Mode}

/-- A tag ends in front of a space. -/
theorem lower_ne_tag {tag : Bytes} (htag : 32 ∉ tag) (s t : Bytes) :
    Bytes.lower (s ++ 32 :: t) ≠ tag := by
  rintro rfl
  rw [Bytes.lower_append] at htag
  simp at htag

theorem hasTag_append {tag : String} (htag : 32 ∉ ascii tag) (s t : Bytes) :
    hasTag (s ++ 32 :: t) tag = hasTag s tag := by
  by_cases hlength : tag.length ≤ s.length
  · rw [Bool.eq_iff_iff]
    exact ⟨hasTag_take (List.prefix_append _ _) hlength,
      hasTag_of_isPrefix (List.prefix_append _ _)⟩
  · have hshort : hasTag s tag = false := by simp [hasTag, hlength]
    obtain ⟨n, hn⟩ : ∃ n, tag.length = s.length + (n + 1) := ⟨tag.length - s.length - 1, by omega⟩
    rw [hshort, hasTag, hn, List.take_length_add_append, List.take_succ_cons, Bool.and_eq_false_iff]
    exact Or.inr (beq_eq_false_iff_ne.mpr (lower_ne_tag htag s _))

/-- A word that grows does what it did, unless it is a tag of a list. -/
theorem role_extends (h : Extends a b) (ha : (role m a).isList = false) : role m b = role m a := by
  obtain rfl | ⟨-, t, rfl⟩ := h
  · rfl
  · have hlower : ∀ {tag : String}, 32 ∉ ascii tag →
        (Bytes.lower (a ++ 32 :: t) == ascii tag) = false :=
      fun htag => beq_eq_false_iff_ne.mpr (lower_ne_tag htag a t)
    rw [role, role] at *
    rw [hlower (by decide), hlower (by decide), hlower (by decide), hlower (by decide),
      hasTag_append (by decide), hasTag_append (by decide)]
    revert ha
    split_ifs <;> simp_all [Role.isList]

theorem isPrefixOf_lower_append {tag : Bytes} (htag : 32 ∉ tag) (s t : Bytes) :
    tag.isPrefixOf (Bytes.lower (s ++ 32 :: t)) = tag.isPrefixOf s.lower := by
  rw [Bytes.lower_append, Bool.eq_iff_iff, List.isPrefixOf_iff_prefix, List.isPrefixOf_iff_prefix]
  refine ⟨fun h => ?_, fun h => h.trans (List.prefix_append _ _)⟩
  obtain ⟨u, hu⟩ := h
  rcases List.append_eq_append_iff.mp hu with ⟨v, hv, -⟩ | ⟨v, rfl, hv⟩
  · exact ⟨v, hv.symm⟩
  · cases v with
    | nil => simp
    | cons b v =>
        obtain ⟨rfl, -⟩ := List.cons.inj hv
        simp at htag

end Space

/-- What a line is read as: its words, and the pieces of its words where markup is read. -/
def units (m : Mode) (l : Bytes) : List Bytes :=
  if m.marks then (atoms l).flatMap splitMarkup else atoms l

/-- Whether a text is read as one word that is cut no further. -/
structure IsUnit (m : Mode) (w : Bytes) : Prop where
  isAtom : IsAtom w
  whole : m.marks = true → splitMarkup w = [w]

section Units

variable {m : Mode} {a b l w : Bytes} {ws : List Bytes}

theorem isUnit_of_mem_units (h : w ∈ units m l) : IsUnit m w := by
  rw [units] at h
  split_ifs at h with hmarks
  · obtain ⟨a, ha, hw⟩ := List.mem_flatMap.mp h
    refine ⟨?_, fun _ => splitMarkup_of_mem hw⟩
    have hatom := isAtom_of_mem_atoms ha
    by_cases hopens : opensInline a = true
    · rw [splitMarkup, if_pos (by simp [hopens])] at hw
      exact List.mem_singleton.mp hw ▸ hatom
    · have hword := Bytes.isWord_of_mem_words
        ((opensInline_or_mem (by simp) ha).resolve_left hopens)
      have hpiece := isWord_of_mem_splitMarkup hword hw
      have hclosed : ¬opensInline w = true := fun hopens' =>
        hopens (opensInline_of_isInfix hopens' (splitMarkup_isInfix hw))
      rw [IsAtom, atoms, hpiece.words_eq, joinInline, if_neg (by simp [hclosed]), joinInline]
  · exact ⟨isAtom_of_mem_atoms h, fun hm => absurd hm hmarks⟩

theorem IsUnit.extends (h : IsUnit m a) (hb : IsAtom b) (hab : Extends a b) : IsUnit m b := by
  obtain rfl | ⟨hopens, -⟩ := hab
  · exact h
  · exact ⟨hb, fun _ => by rw [splitMarkup, if_pos (by simp [hopens])]⟩

theorem isUnit_of_mem_reread (h : ∀ w ∈ ws, IsUnit m w) : ∀ b ∈ reread ws, IsUnit m b := by
  intro b hb
  have hwords : b ∈ joinInline none (ws.flatMap Bytes.words) := by
    rwa [reread, atoms, words_joinWords_flatMap] at hb
  obtain ⟨a, ha, hab⟩ := (extends_of_mem_joinInline fun w hw => (h w hw).isAtom).1 b hwords
  exact (h a ha).extends (isAtom_of_mem_atoms hb) hab

/-- A row is read as what its words are read as again. -/
theorem units_joinWords (h : ∀ w ∈ ws, IsUnit m w) : units m (joinWords ws) = reread ws := by
  rw [units, ← reread]
  split_ifs with hmarks
  · have hwhole : ∀ b ∈ reread ws, splitMarkup b = [b] := fun b hb =>
      (isUnit_of_mem_reread h b hb).whole hmarks
    rw [List.flatMap_congr hwhole, List.flatMap_singleton']
  · rfl

theorem units_eq_nil_iff : units m l = [] ↔ l.trim = [] := by
  rw [units, ← atoms_eq_nil_iff]
  split_ifs
  · refine ⟨fun h => List.eq_nil_iff_forall_not_mem.mpr fun a ha => ?_, fun h => by rw [h]; rfl⟩
    have hnil := List.flatMap_eq_nil_iff.mp h a ha
    have hflat := flatten_splitMarkup a
    rw [hnil] at hflat
    exact (isAtom_of_mem_atoms ha).isSpaced.ne_nil hflat.symm
  · rfl

theorem head?_joinWords (hw : w ≠ []) (ws : List Bytes) :
    (joinWords (w :: ws)).head? = w.head? := by
  obtain ⟨b, t, rfl⟩ := List.exists_cons_of_ne_nil hw
  rw [joinWords_eq_tail]
  rfl

/-- What starts with an ASCII byte is read as words of which the first does. -/
theorem exists_units {b : UInt8} (hb : b < 0x80) (hkeep : isBlank b.toNat = false) (t : Bytes) :
    ∃ u us, units m (b :: t) = u :: us ∧ u.head? = some b := by
  obtain ⟨w, ws, hwords, hw⟩ := Bytes.exists_words hb hkeep t
  have hwne : w ≠ [] := by
    rintro rfl
    cases hw
  have htext : (joinWords (atoms (b :: t))).head? = some b := by
    rw [joinWords_atoms, hwords, head?_joinWords hwne, hw]
  obtain ⟨a, as, hatoms⟩ : ∃ a as, atoms (b :: t) = a :: as := by
    refine List.exists_cons_of_ne_nil fun hnil => ?_
    rw [hnil] at htext
    cases htext
  obtain ⟨ha, hpieces⟩ := areWords_isSpaced (b :: t) a (hatoms ▸ List.mem_cons_self)
  rw [hatoms, head?_joinWords ha.ne_nil] at htext
  rw [units, hatoms]
  split_ifs
  · have hflat := flatten_splitMarkup a
    cases hsplit : splitMarkup a with
    | nil =>
        rw [hsplit] at hflat
        exact absurd hflat.symm ha.ne_nil
    | cons u us =>
        have hu := (hpieces u (hsplit ▸ List.mem_cons_self)).ne_nil
        refine ⟨u, us ++ as.flatMap splitMarkup, by rw [List.flatMap_cons, hsplit]; rfl, ?_⟩
        rw [← htext, ← hflat, hsplit, List.flatten_cons, List.head?_append_of_ne_nil _ hu]
  · exact ⟨a, as, rfl, htext⟩

end Units

end Paragraph

end CodeLayout
