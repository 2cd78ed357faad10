import CodeLayout.Proofs.Text.Trim
import Mathlib.Data.List.Infix

/-!
# Words and the spaces between them

A text is its pieces joined by the separator, and pieces without the separator are read again from
the text that they make up.

An ASCII byte is a character of its own wherever it stands, so a text is read on both sides of it.
The words of a text are those on both sides of a space, trimming changes no words, and words with
spaces in between are read as just these words. Trimming takes off what is blank at either end of a
text, byte by byte or character by character, and nothing of what stands between two characters that
are not blank.
-/

namespace CodeLayout

namespace Bytes

section Pieces

variable {sep : UInt8} {p s : Bytes} {ps : List Bytes}

/-- The pieces of a text joined by the separator are the text. -/
theorem join_pieces (sep : UInt8) (s : Bytes) : join [sep] (s.pieces sep) = s := by
  fun_induction pieces sep s with
  | case1 => rfl
  | case2 rest ih =>
      obtain ⟨p, ps, hps⟩ := List.exists_cons_of_ne_nil (pieces_ne_nil sep rest)
      rw [hps] at ih ⊢
      simp [join, ih]
  | case3 b rest hb hps ih => exact absurd hps (pieces_ne_nil sep rest)
  | case4 b rest hb p ps hps ih =>
      rw [hps] at ih
      cases ps with
      | nil => simpa [join] using ih
      | cons q ps => simpa [join] using ih

theorem isInfix_join {sep p : Bytes} {ps : List Bytes} (h : p ∈ ps) : p <:+: join sep ps := by
  fun_induction join sep ps with
  | case1 => simp at h
  | case2 q => exact List.mem_singleton.mp h ▸ List.infix_refl p
  | case3 q r ps ih =>
      rcases List.mem_cons.mp h with rfl | h
      · rw [List.append_assoc]
        exact (List.prefix_append _ _).isInfix
      · exact (ih h).trans (List.suffix_append _ _).isInfix

theorem pieces_isInfix {sep : UInt8} {s p : Bytes} (h : p ∈ s.pieces sep) : p <:+: s := by
  have hjoin : p <:+: join [sep] (s.pieces sep) := isInfix_join h
  rwa [join_pieces] at hjoin

theorem not_mem_of_mem_pieces (h : p ∈ s.pieces sep) : sep ∉ p := by
  fun_induction pieces sep s generalizing p with
  | case1 => simp_all
  | case2 rest ih =>
      rcases List.mem_cons.mp h with rfl | h
      · simp
      · exact ih h
  | case3 b rest hb hps ih => exact absurd hps (pieces_ne_nil sep rest)
  | case4 b rest hb q qs hqs ih =>
      rw [hqs] at ih
      rcases List.mem_cons.mp h with rfl | h
      · exact not_or.mpr ⟨Ne.symm hb, ih List.mem_cons_self⟩ ∘ List.mem_cons.mp
      · exact ih (List.mem_cons_of_mem q h)

/-- Pieces without the separator are read again from the text that they make up. -/
theorem pieces_join (hne : ps ≠ []) (h : ∀ p ∈ ps, sep ∉ p) : (join [sep] ps).pieces sep = ps := by
  have hfront : ∀ {p t : Bytes}, sep ∉ p → pieces sep (p ++ sep :: t) = p :: pieces sep t := by
    intro p t hp
    induction p with
    | nil => simp [pieces]
    | cons b p ih =>
        rw [List.mem_cons, not_or] at hp
        rw [List.cons_append, pieces, if_neg (Ne.symm hp.1), ih hp.2]
  have hlast : ∀ {p : Bytes}, sep ∉ p → pieces sep p = [p] := by
    intro p hp
    induction p with
    | nil => rfl
    | cons b p ih =>
        rw [List.mem_cons, not_or] at hp
        rw [pieces, if_neg (Ne.symm hp.1), ih hp.2]
  fun_induction join [sep] ps with
  | case1 => exact absurd rfl hne
  | case2 p => exact hlast (h p (by simp))
  | case3 p q ps ih =>
      obtain ⟨hp, hps⟩ := List.forall_mem_cons.mp h
      rw [List.append_assoc, List.singleton_append, hfront hp, ih (by simp) hps]

theorem join_cons_append (sep a b : Bytes) (ps : List Bytes) :
    join sep ((a ++ b) :: ps) = a ++ join sep (b :: ps) := by
  cases ps <;> simp [join]

theorem join_concat_append (sep a b : Bytes) (ps : List Bytes) :
    join sep (ps ++ [a ++ b]) = join sep (ps ++ [a]) ++ b := by
  induction ps with
  | nil => rfl
  | cons p ps ih =>
      cases ps with
      | nil => simp [join]
      | cons q ps =>
          rw [List.cons_append, List.cons_append, join, ← List.cons_append, ih]
          simp [join]

theorem join_eq_flatMap (sep : UInt8) (first : Bytes) (rest : List Bytes) :
    join [sep] (first :: rest) = first ++ rest.flatMap (sep :: ·) := by
  induction rest generalizing first with
  | nil => simp [join]
  | cons l rest ih => simp [join, ih]

/-- What a text has somewhere is a part of it. -/
theorem has_iff_isInfix : has p s = true ↔ p <:+: s := by
  induction s with
  | nil => rw [has, List.isEmpty_iff, List.infix_nil]
  | cons b s ih => rw [has, Bool.or_eq_true, List.isPrefixOf_iff_prefix, ih, List.infix_cons_iff]

end Pieces

/-- A text is read on both sides of an ASCII byte. -/
theorem characters_append {b : UInt8} (hb : b < 0x80) (s t : Bytes) :
    characters (s ++ b :: t) = characters s ++ ⟨b.toNat, [b]⟩ :: characters t := by
  induction hn : s.length using Nat.strong_induction_on generalizing s with
  | _ n ih =>
      cases s with
      | nil =>
          have hfirst : Utf8.first b t = ⟨b.toNat, [b]⟩ := if_pos hb
          rw [List.nil_append, characters_cons, hfirst]
          rfl
      | cons a rest =>
          -- No character takes both bytes in front of an ASCII byte and this byte itself.
          have hshort : (Utf8.first a (rest ++ b :: t)).bytes.length ≤ rest.length + 1 := by
            rcases Utf8.first_cases a (rest ++ b :: t) with ⟨-, heq⟩ | hhigh
            · rw [heq]
              exact Nat.le_add_left 1 _
            · by_contra hlong
              have hprefix := Utf8.first_isPrefix a (rest ++ b :: t)
              have hsplit : a :: (rest ++ b :: t) = (a :: rest) ++ [b] ++ t := by simp
              rw [hsplit] at hprefix
              have hmem : (a :: rest) ++ [b] <+: (Utf8.first a (rest ++ b :: t)).bytes :=
                List.prefix_of_prefix_length_le (List.prefix_append _ t) hprefix
                  (by simp; omega)
              exact absurd hb (UInt8.not_lt.mpr (hhigh b (hmem.subset (by simp))))
          have hfirst := Utf8.first_append a rest (b :: t) hshort
          have hpos := Utf8.first_bytes_pos a rest
          rw [List.cons_append, characters_cons, ← hfirst, characters_cons a rest, List.cons_append,
            ← List.cons_append, List.drop_append_of_le_length (by rw [hfirst]; exact hshort)]
          refine congrArg _ (ih _ ?_ _ rfl)
          rw [List.length_drop, ← hn, List.length_cons]
          omega

section Words

variable {b : UInt8} {s t w : Bytes} {ws : List Bytes} {word rs ss : List Character}

theorem wordsFrom_append {r : Character} (hr : r.isBlank = true) (word rs ss : List Character) :
    wordsFrom word (rs ++ r :: ss) = wordsFrom word rs ++ wordsFrom [] ss := by
  fun_induction wordsFrom word rs with
  | case1 word hempty => simp [wordsFrom, hr, hempty]
  | case2 word hempty => simp [wordsFrom, hr, hempty]
  | case3 word q rest hblank hempty ih => simp [wordsFrom, hblank, hempty, ih]
  | case4 word q rest hblank hempty ih => simp [wordsFrom, hblank, hempty, ih]
  | case5 word q rest hblank ih => simp [wordsFrom, hblank, ih]

/-- The words of a text are those on both sides of a blank byte. -/
theorem words_append (hb : b < 0x80) (hblank : CodeLayout.isBlank b.toNat = true) (s t : Bytes) :
    words (s ++ b :: t) = words s ++ words t := by
  have hr : Character.isBlank ⟨b.toNat, [b]⟩ = true := hblank
  rw [words, characters_append hb, wordsFrom_append hr, words, words]

theorem wordsFrom_blank (h : ∀ r ∈ rs, r.isBlank = true) : wordsFrom [] rs = [] := by
  induction rs with
  | nil => rfl
  | cons r rs ih =>
      obtain ⟨hr, hrs⟩ := List.forall_mem_cons.mp h
      simp [wordsFrom, hr, ih hrs]

theorem wordsFrom_ne_nil (h : word ≠ [] ∨ ∃ r ∈ rs, r.isBlank = false) :
    wordsFrom word rs ≠ [] := by
  fun_induction wordsFrom word rs with
  | case1 word hempty => simp_all
  | case2 word hempty => simp
  | case3 word r rest hblank hempty ih => exact ih (by simp_all)
  | case4 word r rest hblank hempty ih => simp
  | case5 word r rest hblank ih => exact ih (Or.inl (List.cons_ne_nil r word))

/-- A text without words is blank. -/
theorem words_eq_nil_iff : words s = [] ↔ ∀ r ∈ s.characters, r.isBlank = true := by
  refine ⟨fun h => ?_, wordsFrom_blank⟩
  by_contra hnot
  obtain ⟨r, hr, hblank⟩ : ∃ r ∈ s.characters, ¬r.isBlank = true := by simpa using hnot
  exact wordsFrom_ne_nil (Or.inr ⟨r, hr, Bool.eq_false_iff.mpr hblank⟩) h

/-- What starts with an ASCII byte that is not blank has a first word that does. -/
theorem exists_words (hb : b < 0x80) (hkeep : CodeLayout.isBlank b.toNat = false) (t : Bytes) :
    ∃ w ws, words (b :: t) = w :: ws ∧ w.head? = some b := by
  have hfrom (rs word : List Character) (hne : word ≠ []) :
      ∃ w ws, wordsFrom word rs = w :: ws ∧ ofCharacters word.reverse <+: w := by
    induction rs generalizing word with
    | nil => exact ⟨_, [], by rw [wordsFrom, if_neg (by simpa using hne)], List.prefix_refl _⟩
    | cons r rs ih =>
        rw [wordsFrom]
        split_ifs with hblank hempty
        · exact absurd (List.isEmpty_iff.mp hempty) hne
        · exact ⟨_, _, rfl, List.prefix_refl _⟩
        · obtain ⟨w, ws, hread, hw⟩ := ih (r :: word) (List.cons_ne_nil r word)
          rw [List.reverse_cons, ofCharacters_append] at hw
          exact ⟨w, ws, hread, (List.prefix_append _ _).trans hw⟩
  obtain ⟨w, ws, hread, hw⟩ := hfrom (characters t) [⟨b.toNat, [b]⟩] (List.cons_ne_nil _ _)
  have hchars := characters_append hb [] t
  rw [List.nil_append] at hchars
  have hfirst : Character.isBlank ⟨b.toNat, [b]⟩ = false := hkeep
  have hnil : characters [] = [] := rfl
  refine ⟨w, ws, ?_, (List.singleton_prefix_iff_head?_eq_some).mp hw⟩
  rwa [words, hchars, hnil, List.nil_append, wordsFrom, if_neg (by simp [hfirst])]

/-- Trimming changes no words. -/
theorem words_trim (s : Bytes) : words s.trim = words s := by
  have hfront (rs : List Character) :
      wordsFrom [] (rs.dropWhile Character.isBlank) = wordsFrom [] rs := by
    induction rs with
    | nil => rfl
    | cons r rs ih =>
        by_cases hr : r.isBlank = true
        · rw [List.dropWhile_cons_of_pos hr, ih, wordsFrom, if_pos hr]
          rfl
        · rw [List.dropWhile_cons_of_neg hr]
  have hback (rs : List Character) :
      wordsFrom [] (rs.rdropWhile Character.isBlank) = wordsFrom [] rs := by
    induction rs using List.reverseRecOn with
    | nil => rfl
    | append_singleton rs r ih =>
        by_cases hr : r.isBlank = true
        · rw [List.rdropWhile_concat_pos _ _ _ hr, ih, wordsFrom_append hr]
          exact (List.append_nil _).symm
        · rw [List.rdropWhile_concat_neg _ _ _ hr]
  rw [words, characters_trim, hback, hfront, words]

theorem trim_eq_nil_iff : trim s = [] ↔ words s = [] := by
  refine ⟨fun h => ?_, fun h => ?_⟩
  · rw [← words_trim, h]
    rfl
  · have hall := words_eq_nil_iff.mp h
    rw [trim, List.dropWhile_eq_nil_iff.mpr hall]
    rfl

/-- Whether a text is a word: at least one character, and none that is blank. -/
structure IsWord (w : Bytes) : Prop where
  ne_nil : w ≠ []
  solid : ∀ r ∈ w.characters, r.isBlank = false

theorem wordsFrom_solid (h : ∀ r ∈ rs, r.isBlank = false) (word : List Character)
    (hne : word ≠ [] ∨ rs ≠ []) :
    wordsFrom word rs = [ofCharacters (word.reverse ++ rs)] := by
  induction rs generalizing word with
  | nil =>
      have hword : word ≠ [] := by simpa using hne
      simp [wordsFrom, hword]
  | cons r rs ih =>
      obtain ⟨hr, hrs⟩ := List.forall_mem_cons.mp h
      simp [wordsFrom, hr, ih hrs _ (Or.inl (List.cons_ne_nil r word))]

theorem IsWord.characters_ne_nil (h : IsWord w) : w.characters ≠ [] := by
  intro hnil
  refine h.ne_nil ?_
  rw [← ofCharacters_characters w, hnil]
  rfl

theorem IsWord.words_eq (h : IsWord w) : words w = [w] := by
  have hwords := wordsFrom_solid h.solid [] (Or.inr h.characters_ne_nil)
  rw [List.reverse_nil, List.nil_append, ofCharacters_characters] at hwords
  exact hwords

/-- No byte of a word is a blank one. -/
theorem IsWord.not_mem (h : IsWord w) (hb : b < 0x80)
    (hblank : CodeLayout.isBlank b.toNat = true) : b ∉ w := by
  intro hmem
  obtain ⟨s, t, rfl⟩ := List.append_of_mem hmem
  have hr := h.solid ⟨b.toNat, [b]⟩ (by rw [characters_append hb]; simp)
  exact absurd (hr.symm.trans hblank) nofun

theorem isWord_of_mem_words (h : w ∈ words s) : IsWord w := by
  obtain ⟨cs, ⟨front, back, hsplit⟩, rfl, hne, hsolid⟩ := exists_of_mem_words h
  have hwhole : IsWhole cs := by
    have hall := isWhole_characters s
    rw [← hsplit] at hall
    exact hall.left.right
  rw [IsWhole] at hwhole
  refine ⟨fun hnil => hne ?_, by rwa [hwhole]⟩
  rw [← hwhole, hnil]
  rfl

/-- Words with spaces in between are trimmed. -/
theorem trim_join (h : ∀ w ∈ ws, IsWord w) : (join [32] ws).trim = join [32] ws := by
  have hends : ws ≠ [] → (join [32] ws).characters ≠ [] ∧
      (∀ r ∈ (join [32] ws).characters.head?, r.isBlank = false) ∧
      ∀ r ∈ (join [32] ws).characters.getLast?, r.isBlank = false := by
    intro hne
    fun_induction join [32] ws with
    | case1 => exact absurd rfl hne
    | case2 w =>
        have hw := h w List.mem_cons_self
        exact ⟨hw.characters_ne_nil, fun r hr => hw.solid r (List.mem_of_mem_head? hr),
          fun r hr => hw.solid r (List.mem_of_mem_getLast? hr)⟩
    | case3 w v ws ih =>
        obtain ⟨hw, hrest⟩ := List.forall_mem_cons.mp h
        obtain ⟨hnil, -, hlast⟩ := ih hrest (List.cons_ne_nil v ws)
        rw [List.append_assoc, List.singleton_append, characters_append (by decide)]
        refine ⟨by simp, fun r hr => hw.solid r ?_, fun r hr => hlast r ?_⟩
        · rw [List.head?_append_of_ne_nil _ hw.characters_ne_nil] at hr
          exact List.mem_of_mem_head? hr
        · rwa [List.getLast?_append_of_ne_nil _ (List.cons_ne_nil _ _),
            List.getLast?_cons_of_ne_nil hnil] at hr
  by_cases hne : ws = []
  · rw [hne]
    rfl
  · exact trim_eq_of_ends (hends hne).2.1 (hends hne).2.2

/-- Words with spaces in between are read as these words. -/
theorem words_join (h : ∀ w ∈ ws, IsWord w) : words (join [32] ws) = ws := by
  fun_induction join [32] ws with
  | case1 => rfl
  | case2 w => exact (h w List.mem_cons_self).words_eq
  | case3 w v ws ih =>
      obtain ⟨hw, hrest⟩ := List.forall_mem_cons.mp h
      rw [List.append_assoc, List.singleton_append, words_append (by decide) (by decide),
        hw.words_eq, ih hrest]
      rfl

theorem solid_dropWhile (hb : b < 0x80) (h : ∀ r ∈ s.characters, r.isBlank = false) :
    ∀ r ∈ characters (s.dropWhile (· = b)), r.isBlank = false := by
  induction s with
  | nil => exact h
  | cons a s ih =>
      by_cases ha : a = b
      · subst ha
        rw [List.dropWhile_cons_of_pos (by simp)]
        refine ih fun r hr => h r ?_
        rw [← List.nil_append (a :: s), characters_append hb]
        exact List.mem_append_right _ (List.mem_cons_of_mem _ hr)
      · rwa [List.dropWhile_cons_of_neg (by simpa using ha)]

end Words

section Trim

variable {b : UInt8} (hb : b < 0x80) (hblank : CodeLayout.isBlank b.toNat = true)
include hb hblank

theorem trim_cons (s : Bytes) : trim (b :: s) = trim s := by
  have hchars := characters_append hb [] s
  rw [List.nil_append] at hchars
  rw [trim, trim, hchars]
  have hfront : (characters [] ++ ⟨b.toNat, [b]⟩ :: characters s).dropWhile Character.isBlank =
      (characters s).dropWhile Character.isBlank :=
    List.dropWhile_cons_of_pos (by simpa [Character.isBlank] using hblank)
  rw [hfront]

theorem trim_concat (s : Bytes) : trim (s ++ [b]) = trim s := by
  have hr : Character.isBlank ⟨b.toNat, [b]⟩ = true := hblank
  have hchars : characters (s ++ [b]) = characters s ++ [⟨b.toNat, [b]⟩] :=
    characters_append hb s []
  rw [trim, trim, hchars, List.dropWhile_append]
  split_ifs with hempty
  · rw [List.isEmpty_iff.mp hempty, List.dropWhile_cons_of_pos hr]
    rfl
  · rw [List.reverse_append, List.reverse_singleton, List.singleton_append,
      List.dropWhile_cons_of_pos hr]

/-- A trimmed text starts with no blank byte and ends with none. -/
theorem head?_ne_of_trim {s : Bytes} (h : s.trim = s) : s.head? ≠ some b := by
  intro hhead
  obtain ⟨t, rfl⟩ := List.head?_eq_some_iff.mp hhead
  rw [trim_cons hb hblank] at h
  have hle := (trim_isInfix t).length_le
  rw [h, List.length_cons] at hle
  omega

theorem getLast?_ne_of_trim {s : Bytes} (h : s.trim = s) : s.getLast? ≠ some b := by
  intro hlast
  obtain ⟨t, rfl⟩ := List.getLast?_eq_some_iff.mp hlast
  rw [trim_concat hb hblank] at h
  have hle := (trim_isInfix t).length_le
  rw [h, List.length_append, List.length_singleton] at hle
  omega

end Trim

section Ends

variable {b : UInt8} {s t : Bytes}

/-- A blank text in front of an ASCII byte is trimmed. -/
theorem trim_append_of_blank (hs : s.trim = []) (hb : b < 0x80) (t : Bytes) :
    trim (s ++ b :: t) = trim (b :: t) := by
  have hblank := words_eq_nil_iff.mp (trim_eq_nil_iff.mp hs)
  have hchars := characters_append hb [] t
  rw [List.nil_append] at hchars
  have hnil : characters [] = [] := rfl
  rw [trim, trim, characters_append hb, hchars, hnil, List.dropWhile_append_of_pos hblank]
  rfl

theorem trim_ne_nil (hb : b < 0x80) (hkeep : CodeLayout.isBlank b.toNat = false) (t : Bytes) :
    trim (b :: t) ≠ [] := by
  rw [ne_eq, trim_eq_nil_iff, words_eq_nil_iff]
  intro hall
  have hchars := characters_append hb [] t
  rw [List.nil_append] at hchars
  have hr := hall ⟨b.toNat, [b]⟩ (by rw [hchars]; simp)
  exact absurd (hkeep.symm.trans hr) nofun

/-- A blank text behind an ASCII byte that is not blank is trimmed. -/
theorem trim_cons_of_blank (hb : b < 0x80) (hkeep : CodeLayout.isBlank b.toNat = false)
    (ht : t.trim = []) : trim (b :: t) = [b] := by
  have hblank := words_eq_nil_iff.mp (trim_eq_nil_iff.mp ht)
  have hchars := characters_append hb [] t
  rw [List.nil_append] at hchars
  have hr : ¬Character.isBlank ⟨b.toNat, [b]⟩ = true := by simp [Character.isBlank, hkeep]
  have hnil : characters [] = [] := rfl
  rw [trim, hchars, hnil, List.nil_append, List.dropWhile_cons_of_neg hr, List.reverse_cons,
    List.dropWhile_append_of_pos (by simpa using hblank), List.dropWhile_cons_of_neg hr]
  rfl

theorem trim_append_right (s : Bytes)
    (ht : ∀ b ∈ t, b < 0x80 ∧ CodeLayout.isBlank b.toNat = true) : trim (s ++ t) = trim s := by
  induction t using List.reverseRecOn with
  | nil => rw [List.append_nil]
  | append_singleton t b ih =>
      obtain ⟨ht, hb⟩ := List.forall_mem_append.mp ht
      obtain ⟨hascii, hblank⟩ := hb b List.mem_cons_self
      rw [← List.append_assoc, trim_concat hascii hblank, ih ht]

theorem trim_append_left (s : Bytes)
    (ht : ∀ b ∈ t, b < 0x80 ∧ CodeLayout.isBlank b.toNat = true) : trim (t ++ s) = trim s := by
  induction t with
  | nil => rfl
  | cons b t ih =>
      obtain ⟨hb, ht⟩ := List.forall_mem_cons.mp ht
      rw [List.cons_append, trim_cons hb.1 hb.2, ih ht]

theorem trim_replicate_append (n : Nat) (s : Bytes) : trim (List.replicate n 32 ++ s) = trim s := by
  refine trim_append_left s fun b hb => ?_
  rw [List.eq_of_mem_replicate hb]
  decide

section Blank

variable {f : UInt8 → Bool} (hf : ∀ b, f b = true → b < 0x80 ∧ CodeLayout.isBlank b.toNat = true)
include hf

theorem trim_trimLeft (s : Bytes) : trim (s.trimLeft f) = trim s := by
  have hleft := trim_append_left (s.dropWhile f) fun b (hb : b ∈ s.takeWhile f) =>
    hf b (List.mem_takeWhile_imp hb)
  rw [List.takeWhile_append_dropWhile] at hleft
  exact hleft.symm

theorem trim_trimRight (s : Bytes) : trim (s.trimRight f) = trim s := by
  obtain ⟨t, hs, ht⟩ := exists_trimRight f s
  have hright := trim_append_right (s.trimRight f) fun b hb => hf b (ht b hb)
  rw [← hs] at hright
  exact hright.symm

end Blank

/-- A text between two ASCII bytes that are not blank is trimmed. -/
theorem trim_between {a : UInt8} (ha : a < 0x80) (hb : b < 0x80)
    (hblanka : CodeLayout.isBlank a.toNat = false) (hblankb : CodeLayout.isBlank b.toNat = false)
    (s : Bytes) : trim (a :: (s ++ [b])) = a :: (s ++ [b]) := by
  have hhead := characters_append ha [] (s ++ [b])
  have hlast := characters_append hb (a :: s) []
  have hnil : characters [] = [] := rfl
  rw [hnil, List.nil_append] at hhead
  rw [hnil, List.cons_append] at hlast
  refine trim_eq_of_ends (fun r hr => ?_) fun r hr => ?_
  · rw [hhead] at hr
    obtain rfl := Option.some.inj hr
    exact hblanka
  · rw [hlast, List.getLast?_concat] at hr
    obtain rfl := Option.some.inj hr
    exact hblankb

theorem trim_dropLead (s : Bytes) : trim (dropLead [32] s) = trim s := by
  cases s with
  | nil => rfl
  | cons b s =>
      by_cases hb : b = 32
      · rw [hb, trim_cons (by decide) (by decide)]
        rfl
      · rw [dropLead, if_neg (by simpa using Ne.symm hb)]

end Ends

end Bytes

end CodeLayout
