import CodeLayout.Proofs.Comment.Markup

/-!
# What a body is read as

A body is read line by line, and behind each line the paragraphs that were read fit together: the
depth of lists is told by the list tags among them, a paragraph of words is one list tag or starts
with a word that may start one and goes on with text, and what goes on is parted from what follows
by an empty line, by markup or by a block tag. So what has been read is told by these paragraphs, by
whether an empty line came last, and by whether a preformatted section is open.
-/

namespace CodeLayout

namespace Paragraph

open Comment

/-- The depth of lists behind a word. Surplus closing tags are of no account. -/
def Role.depth : Role → Nat → Nat
  | .opens, d => d + 1
  | .closes, d => d - 1
  | .item, d | .text, d => d

/-- The depth that a word stands at. A list tag stands at the depth around its list. -/
def Role.level : Role → Nat → Nat
  | .closes, d => d - 1
  | .opens, d | .item, d | .text, d => d

/-- How far the lines behind the first hang in a paragraph that starts with a word. -/
def hangOf (m : Mode) (w : Bytes) : Nat :=
  if m.doc && m.hangTags && w.head? = some 64 && !(role m w).isList then Width.text w + 1 else 0

/-- A paragraph that starts with a word. -/
def ofWord (m : Mode) (depth : Nat) (blank : Bool) (w : Bytes) : Paragraph :=
  { words := [w], indent := 2 * (role m w).level depth, hang := hangOf m w, blank }

/-- The depth of lists behind paragraphs, of which the latest comes first. -/
def depthBehind (m : Mode) : List Paragraph → Nat
  | [] => 0
  | p :: ps =>
    match p.words with
    | [] => depthBehind m ps
    | w :: _ => (role m w).depth (depthBehind m ps)

/-- Whether the words of the next line may go on in a paragraph. -/
def goesOn (m : Mode) (p : Paragraph) : Bool :=
  m.join && p.words.head?.any fun w => !(role m w).isList

/-- Whether a paragraph starts on its own, without an empty line in front of it. -/
def Starts (m : Mode) (p : Paragraph) : Prop :=
  ∀ w ∈ p.words.head?, role m w ≠ .text ∨ m.doc = true ∧ w.head? = some 64

/-- What a paragraph may be where lists are as deep as they are. -/
inductive Fits (m : Mode) (depth : Nat) : Paragraph → Prop
  /-- The lines of a preformatted section, which only the last one may close. -/
  | copied {l : Bytes} {ls : List Bytes} {blank : Bool} (hdoc : m.doc = true)
      (hopens : opensPre l = true) (hopen : ∀ k ∈ (l :: ls).dropLast, closesPre k = false) :
      Fits m depth { pre := l :: ls, indent := 2 * depth, blank }
  /-- The words of a line that is kept. -/
  | kept {ws : List Bytes} {n : Nat} {blank : Bool} (hjoin : m.join = false) (hne : ws ≠ [])
      (hatoms : ∀ a ∈ ws, IsAtom a) : Fits m depth { words := ws, indent := n, blank }
  /-- The words of lines that are joined: a list tag, or a word and the text behind it. -/
  | flowed {w : Bytes} {ws : List Bytes} {blank : Bool} (hjoin : m.join = true)
      (hunits : ∀ v ∈ w :: ws, IsUnit m v) (halone : (role m w).isList = true → ws = [])
      (htext : ∀ v ∈ ws, role m v = .text) :
      Fits m depth { ofWord m depth blank w with words := w :: ws }

/-- Whether paragraphs, of which the latest comes first, fit together. -/
inductive AreRead (m : Mode) : List Paragraph → Prop
  | nil : AreRead m []
  | cons {p : Paragraph} {ps : List Paragraph} (hfits : p.Fits m (depthBehind m ps))
      (hblank : p.blank = true → ps ≠ [])
      (hstarts : p.blank = false → ∀ q ∈ ps.head?, q.goesOn m = true → p.Starts m)
      (h : AreRead m ps) : AreRead m (p :: ps)

variable {m : Mode} {p q : Paragraph} {ps : List Paragraph} {w l : Bytes} {ws ls : List Bytes}
  {d : Nat} {blank : Bool}

theorem AreRead.tail (h : AreRead m (p :: ps)) : AreRead m ps := by
  cases h with
  | cons _ _ _ h => exact h

/-- No empty line is read in front of the first paragraph. -/
theorem AreRead.blank_first (h : AreRead m (ps ++ [p])) : p.blank = false := by
  induction ps with
  | nil =>
      cases h with
      | cons _ hblank => exact Bool.eq_false_iff.mpr fun hp => hblank hp rfl
  | cons q ps ih => exact ih h.tail

theorem goesOn_of_words (hwords : p.words = w :: ws) :
    p.goesOn m = (m.join && !(role m w).isList) := by
  rw [goesOn, hwords]
  rfl

theorem goesOn_ofWord (m : Mode) (depth : Nat) (blank : Bool) (w : Bytes) :
    (ofWord m depth blank w).goesOn m = (m.join && !(role m w).isList) :=
  goesOn_of_words rfl

theorem depthBehind_cons (hwords : p.words = w :: ws) :
    depthBehind m (p :: ps) = (role m w).depth (depthBehind m ps) := by
  rw [depthBehind, hwords]

/-- Behind a paragraph that is no list tag, lists are as deep as in front of it. -/
theorem depthBehind_of_not_isList (h : ∀ w ∈ p.words.head?, (role m w).isList = false) :
    depthBehind m (p :: ps) = depthBehind m ps := by
  cases hwords : p.words with
  | nil => rw [depthBehind, hwords]
  | cons w ws =>
      have hw := h w (by rw [hwords]; rfl)
      rw [depthBehind_cons hwords]
      cases hrole : role m w with
      | opens | closes =>
          rw [hrole] at hw
          cases hw
      | item | text => rfl

theorem role_of_not_join (hjoin : m.join = false) (w : Bytes) : role m w = .text := by
  simp [role, Mode.marks, hjoin]

theorem exists_words_of_goesOn (h : p.goesOn m = true) :
    ∃ w ws, p.words = w :: ws ∧ m.join = true ∧ (role m w).isList = false := by
  rw [goesOn, Bool.and_eq_true, Option.any_eq_true] at h
  obtain ⟨hjoin, w, hw, hlist⟩ := h
  obtain ⟨ws, hws⟩ := List.head?_eq_some_iff.mp hw
  exact ⟨w, ws, hws, hjoin, by simpa using hlist⟩

theorem words_ne_nil_of_goesOn (h : p.goesOn m = true) : p.words ≠ [] := by
  obtain ⟨w, ws, hwords, -⟩ := exists_words_of_goesOn h
  rw [hwords]
  exact List.cons_ne_nil w ws

theorem goesOn_append (hne : p.words ≠ []) (ws : List Bytes) :
    Paragraph.goesOn m { p with words := p.words ++ ws } = p.goesOn m := by
  obtain ⟨w, vs, hwords⟩ := List.exists_cons_of_ne_nil hne
  have hwords' : p.words ++ ws = w :: (vs ++ ws) := by rw [hwords, List.cons_append]
  rw [goesOn_of_words hwords, goesOn_of_words hwords']

theorem depthBehind_append (hne : p.words ≠ []) (ws : List Bytes) :
    depthBehind m ({ p with words := p.words ++ ws } :: ps) = depthBehind m (p :: ps) := by
  obtain ⟨w, vs, hwords⟩ := List.exists_cons_of_ne_nil hne
  have hwords' : p.words ++ ws = w :: (vs ++ ws) := by rw [hwords, List.cons_append]
  rw [depthBehind_cons hwords, depthBehind_cons hwords']

/-- A paragraph that goes on takes a word of text. -/
theorem Fits.concat (h : p.Fits m d) (hgoes : p.goesOn m = true) (hunit : IsUnit m w)
    (htext : role m w = .text) : Paragraph.Fits m d { p with words := p.words ++ [w] } := by
  cases h with
  | copied => simp [goesOn] at hgoes
  | kept hjoin => simp [goesOn, hjoin] at hgoes
  | @flowed v ws _ hjoin hunits _ hws =>
      rw [goesOn_of_words rfl, hjoin, Bool.true_and, Bool.not_eq_true'] at hgoes
      refine Fits.flowed hjoin ?_ (fun hlist => ?_) ?_
      · exact List.forall_mem_append.mpr ⟨hunits, List.forall_mem_singleton.mpr hunit⟩
      · rw [hgoes] at hlist
        cases hlist
      · exact List.forall_mem_append.mpr ⟨hws, List.forall_mem_singleton.mpr htext⟩

theorem AreRead.concat (h : AreRead m (p :: ps)) (hgoes : p.goesOn m = true) (hunit : IsUnit m w)
    (htext : role m w = .text) : AreRead m ({ p with words := p.words ++ [w] } :: ps) := by
  obtain ⟨v, vs, hwords, -⟩ := exists_words_of_goesOn hgoes
  cases h with
  | cons hfits hblank hstarts h =>
      refine AreRead.cons (hfits.concat hgoes hunit htext) hblank
        (fun hnone q hq hq' v' hv' => ?_) h
      refine hstarts hnone q hq hq' v' ?_
      rw [hwords] at hv' ⊢
      exact hv'

theorem areRead_ofWord (h : AreRead m ps) (hjoin : m.join = true) (hunit : IsUnit m w)
    (hblank : blank = true → ps ≠ [])
    (hstarts : blank = false → ∀ q ∈ ps.head?, q.goesOn m = true →
      role m w ≠ .text ∨ m.doc = true ∧ w.head? = some 64) :
    AreRead m (ofWord m (depthBehind m ps) blank w :: ps) := by
  refine AreRead.cons (Fits.flowed hjoin (by simpa using hunit) (fun _ => rfl) nofun) hblank
    (fun hnone q hq hgoes v hv => ?_) h
  obtain rfl := Option.some.inj hv
  exact hstarts hnone q hq hgoes

/-- A section that is open takes a line. -/
theorem AreRead.copy (h : AreRead m (p :: ps)) (hwords : p.words = [])
    (hopen : ∀ k ∈ p.pre, closesPre k = false) (l : Bytes) :
    AreRead m ({ p with pre := p.pre ++ [l] } :: ps) := by
  cases h with
  | cons hfits hblank _ h =>
      refine AreRead.cons ?_ hblank (fun _ _ _ _ w hw => ?_) h
      · cases hfits with
        | @copied k ks _ hdoc hopens _ =>
            have hopen' : ∀ j ∈ (k :: (ks ++ [l])).dropLast, closesPre j = false := by
              rwa [← List.cons_append, List.dropLast_concat]
            exact Fits.copied hdoc hopens hopen'
        | kept _ hne => exact absurd hwords hne
        | flowed => cases hwords
      · rw [hwords] at hw
        cases hw

namespace Reading

variable {r : Reading}

/-- The paragraphs that have been read, the latest first. -/
def paragraphs (r : Reading) : List Paragraph :=
  r.current.toList ++ r.done

theorem flush_eq (r : Reading) : r.flush = { r with done := r.paragraphs, current := none } := by
  obtain ⟨done, current, -⟩ := r
  cases current <;> rfl

/-- What has been read when all paragraphs are finished. -/
def resting (m : Mode) (ps : List Paragraph) (blank : Bool) : Reading :=
  { done := ps, depth := depthBehind m ps, blank }

/-- What has been read when the latest paragraph goes on if it may. -/
def holding (m : Mode) : List Paragraph → Reading
  | [] => {}
  | p :: ps =>
    if p.goesOn m then { done := ps, current := some p, depth := depthBehind m (p :: ps) }
    else resting m (p :: ps) false

/-- What has been read behind a line, which may be an empty one. -/
def behind (m : Mode) (ps : List Paragraph) (blank : Bool) : Reading :=
  if blank then resting m ps true else holding m ps

/-- What has been read when a preformatted section is open. -/
def copying (m : Mode) (p : Paragraph) (ps : List Paragraph) : Reading :=
  { done := ps, current := some p, depth := depthBehind m ps, inPre := true }

/-- Reads a word. -/
def read (m : Mode) (r : Reading) (w : Bytes) : Reading :=
  if m.marks then r.markup m w else r.word m w

theorem words_eq (m : Mode) (r : Reading) (l : Bytes) :
    r.words m l = (units m l).foldl (read m) r := by
  have hread : read m = if m.marks then markup m else word m := by
    funext r w
    rw [read]
    split_ifs <;> rfl
  rw [words, units, hread, Mode.marks]
  split_ifs <;> rfl

theorem holding_of_not_goesOn (h : p.goesOn m = false) (ps : List Paragraph) :
    holding m (p :: ps) = resting m (p :: ps) false := by
  rw [holding, h]
  rfl

theorem holding_of_not_isList (h : p.goesOn m = false)
    (hlist : ∀ w ∈ p.words.head?, (role m w).isList = false)
    (ps : List Paragraph) :
    holding m (p :: ps) = { done := p :: ps, depth := depthBehind m ps } := by
  rw [holding_of_not_goesOn h, resting, depthBehind_of_not_isList hlist]

theorem flush_holding (m : Mode) (ps : List Paragraph) :
    (holding m ps).flush = resting m ps false := by
  cases ps with
  | nil => rfl
  | cons p ps =>
      rw [holding]
      split_ifs <;> rfl

theorem flush_behind (m : Mode) (ps : List Paragraph) (blank : Bool) :
    (behind m ps blank).flush = resting m ps blank := by
  cases blank
  · exact flush_holding m ps
  · rfl

theorem inPre_behind (m : Mode) (ps : List Paragraph) (blank : Bool) :
    (behind m ps blank).inPre = false := by
  have hflush := congrArg inPre (flush_behind m ps blank)
  rwa [flush_eq] at hflush

theorem paragraphs_behind (m : Mode) (ps : List Paragraph) (blank : Bool) :
    (behind m ps blank).paragraphs = ps := by
  have hflush := congrArg done (flush_behind m ps blank)
  rwa [flush_eq] at hflush

/-- A word is read by what it does. -/
theorem read_eq (m : Mode) (r : Reading) (w : Bytes) : r.read m w =
    match role m w with
    | .opens => { r.flush.tagLine w with depth := (r.flush.tagLine w).depth + 1 }
    | .closes => Reading.tagLine { r.flush with depth := r.flush.depth - 1 } w
    | .item => r.flush.word m w
    | .text => r.word m w := by
  rw [read, role]
  cases m.marks with
  | false => rfl
  | true =>
      simp only [markup, Bool.not_true, Bool.false_eq_true, if_false, if_true]
      split_ifs <;> rfl

theorem flush_flush (r : Reading) : r.flush.flush = r.flush := by
  rw [flush_eq r, flush_eq]
  rfl

theorem read_of_ne_text (h : role m w ≠ .text) (r : Reading) : r.read m w = r.flush.read m w := by
  rw [read_eq, read_eq, flush_flush]
  cases hrole : role m w with
  | opens | closes | item => rfl
  | text => exact absurd hrole h

/-- A word that is read when all paragraphs are finished starts one. -/
theorem read_resting (hjoin : m.join = true) (ps : List Paragraph) (blank : Bool) (w : Bytes) :
    (resting m ps blank).read m w = holding m (ofWord m (depthBehind m ps) blank w :: ps) := by
  have hgoes : (ofWord m (depthBehind m ps) blank w).goesOn m = !(role m w).isList := by
    rw [goesOn_ofWord, hjoin, Bool.true_and]
  have hdepth : depthBehind m (ofWord m (depthBehind m ps) blank w :: ps) =
      (role m w).depth (depthBehind m ps) := depthBehind_cons rfl
  rw [read_eq, holding, hgoes]
  cases hrole : role m w with
  | opens | closes =>
      rw [if_neg (by simp [Role.isList]), resting, resting, hdepth, hrole, ofWord, hangOf, hrole]
      simp [tagLine, start, fresh, flush, Role.level, Role.depth, Role.isList]
  | item | text =>
      rw [if_pos (by simp [Role.isList]), hdepth, hrole, ofWord, hangOf, hrole]
      simp [word, start, fresh, flush, resting, Role.level, Role.depth, Role.isList]

/-- A word of text is added to a paragraph that goes on. -/
theorem read_holding (hgoes : p.goesOn m = true) (htext : role m w = .text) :
    (holding m (p :: ps)).read m w = holding m ({ p with words := p.words ++ [w] } :: ps) := by
  have hne := words_ne_nil_of_goesOn hgoes
  have hmore := (goesOn_append hne [w]).trans hgoes
  rw [read_eq, htext, holding, if_pos hgoes, holding, if_pos hmore, depthBehind_append hne]
  rfl

/-- A word that goes on in no paragraph is read as if all of them were finished. -/
theorem read_holding_of_ne_text (h : ∀ q ∈ ps.head?, q.goesOn m = true → role m w ≠ .text) :
    (holding m ps).read m w = (resting m ps false).read m w := by
  by_cases htext : role m w = .text
  · cases ps with
    | nil => rfl
    | cons q ps =>
        rw [holding_of_not_goesOn (Bool.eq_false_iff.mpr fun hgoes => h q rfl hgoes htext)]
  · rw [read_of_ne_text htext, flush_holding]

/-- Text is added to a paragraph that goes on. -/
theorem foldl_read_text (hgoes : p.goesOn m = true) (htext : ∀ w ∈ ws, role m w = .text) :
    ws.foldl (read m) (holding m (p :: ps)) =
      holding m ({ p with words := p.words ++ ws } :: ps) := by
  induction ws generalizing p with
  | nil => simp
  | cons w ws ih =>
      obtain ⟨hw, hws⟩ := List.forall_mem_cons.mp htext
      have hmore := (goesOn_append (words_ne_nil_of_goesOn hgoes) [w]).trans hgoes
      rw [List.foldl_cons, read_holding hgoes hw, ih hmore hws]
      simp

section Lines

theorem line_blank (hpre : r.inPre = false) (hl : l.trim = []) :
    r.line m l = { r.flush with blank := !r.paragraphs.isEmpty } := by
  rw [line, if_neg (by simp [hpre]), if_pos (by simp [hl]), flush_eq]

/-- An empty line. -/
theorem line_behind_blank (ps : List Paragraph) (blank : Bool) (hl : l.trim = []) :
    (behind m ps blank).line m l = behind m ps !ps.isEmpty := by
  rw [line_blank (inPre_behind m ps blank) hl, flush_behind, paragraphs_behind]
  cases ps <;> rfl

/-- A line of words where lines are joined. -/
theorem line_joined (hjoin : m.join = true) (hpre : r.inPre = false) (hl : l.trim ≠ [])
    (hopens : m.doc = true → opensPre l = false) : r.line m l =
      (units m l.trim).foldl (read m)
        (if m.doc = true ∧ l.trim.head? = some 64 then r.flush else r) := by
  rw [line, if_neg (by simp [hpre]), if_neg (by simpa using hl), if_neg, if_neg (by simp [hjoin]),
    words_eq, words_eq]
  · simp only [Bool.and_eq_true, decide_eq_true_eq]
    split_ifs <;> rfl
  · rw [Bool.and_eq_true]
    exact fun h => absurd h.2 (Bool.eq_false_iff.mp (hopens h.1))

/-- A line of words that is kept. -/
theorem line_kept (hjoin : m.join = false) (hl : l.trim ≠ [])
    (hopens : m.doc = true → opensPre l = false) : (behind m ps blank).line m l = holding m
      ({ words := atoms l.trim, indent := (l.takeWhile (· = 32)).length, blank } :: ps) := by
  have hword (ws : List Bytes) (p : Paragraph) (r : Reading) (h : r.current = some p) :
      ws.foldl (word m) r = { r with current := some { p with words := p.words ++ ws } } := by
    induction ws generalizing r p with
    | nil => simp [← h]
    | cons w ws ih =>
        have hword : r.word m w =
            { r with current := some { p with words := p.words ++ [w] } } := by
          rw [word, h]
        rw [List.foldl_cons, hword, ih _ _ rfl]
        simp
  have hmarks : (m.doc && m.join) = false := by rw [hjoin, Bool.and_false]
  have hlist : ∀ w ∈ (atoms l.trim).head?, (role m w).isList = false := fun w _ => by
    rw [role_of_not_join hjoin]
    rfl
  rw [line, if_neg (by simp [inPre_behind]), if_neg (by simpa using hl), if_neg,
    if_pos (by simp [hjoin]),
    keptLine, flush_behind, words, if_neg (by simp [hmarks]), hword _ _ _ rfl,
    holding_of_not_isList (by simp [goesOn, hjoin]) hlist]
  · rfl
  · rw [Bool.and_eq_true]
    exact fun h => absurd h.2 (Bool.eq_false_iff.mp (hopens h.1))

/-- A line that opens a preformatted section. -/
theorem line_opens (hdoc : m.doc = true) (hopens : opensPre l = true) :
    (behind m ps blank).line m l =
      let p : Paragraph := { pre := [l], indent := 2 * depthBehind m ps, blank }
      if closesPre l then holding m (p :: ps) else copying m p ps := by
  have htext : l.trim ≠ [] := by
    intro hnil
    rw [opensPre, hnil] at hopens
    cases hopens
  rw [line, if_neg (by simp [inPre_behind]), if_neg (by simpa using htext),
    if_pos (by rw [hdoc]; exact hopens), openPre, flush_behind]
  dsimp only
  rw [holding_of_not_isList (by simp [goesOn]) (by simp)]
  rfl

/-- A line of a preformatted section. -/
theorem line_copying (hwords : p.words = []) (l : Bytes) : (copying m p ps).line m l =
    let p : Paragraph := { p with pre := p.pre ++ [l] }
    if closesPre l then holding m (p :: ps) else copying m p ps := by
  have hpre : (copying m p ps).inPre = true := rfl
  rw [line, if_pos hpre, preLine]
  dsimp only
  rw [holding_of_not_isList (by simp [goesOn, hwords]) (by simp [hwords])]
  rfl

end Lines

section Lines

/-- The words of a line are read as paragraphs that fit together. -/
theorem exists_foldl_holding (hjoin : m.join = true) (h : AreRead m ps)
    (hws : ∀ w ∈ ws, IsUnit m w) :
    ∃ qs, ws.foldl (read m) (holding m ps) = holding m qs ∧ AreRead m qs ∧
      (qs = [] → ws = [] ∧ ps = []) := by
  induction ws generalizing ps with
  | nil => exact ⟨ps, rfl, h, fun hnil => ⟨rfl, hnil⟩⟩
  | cons w ws ih =>
      obtain ⟨hw, hws⟩ := List.forall_mem_cons.mp hws
      have hnext : ∃ p qs, (holding m ps).read m w = holding m (p :: qs) ∧ AreRead m (p :: qs) := by
        by_cases hgoes : role m w = .text ∧ ∃ q ∈ ps.head?, q.goesOn m = true
        · obtain ⟨htext, q, hq, hgoes⟩ := hgoes
          obtain ⟨qs, rfl⟩ := List.head?_eq_some_iff.mp hq
          exact ⟨_, qs, read_holding hgoes htext, h.concat hgoes hw htext⟩
        · have hnot : ∀ q ∈ ps.head?, q.goesOn m = true → role m w ≠ .text :=
            fun q hq hq' htext => hgoes ⟨htext, q, hq, hq'⟩
          rw [read_holding_of_ne_text hnot, read_resting hjoin]
          exact ⟨_, ps, rfl, areRead_ofWord h hjoin hw nofun fun _ q hq hq' =>
            Or.inl (hnot q hq hq')⟩
      obtain ⟨p, qs, hread, hareRead⟩ := hnext
      obtain ⟨qs', hfold, hareRead', hnil⟩ := ih hareRead hws
      rw [List.foldl_cons, hread]
      exact ⟨qs', hfold, hareRead', fun hqs => absurd (hnil hqs).2 (List.cons_ne_nil p qs)⟩

/-- The words of a line where all paragraphs are finished. -/
theorem exists_foldl_resting (hjoin : m.join = true) (h : AreRead m ps)
    (hblank : blank = true → ps ≠ []) (hws : ∀ v ∈ w :: ws, IsUnit m v)
    (hstarts : blank = false → ∀ q ∈ ps.head?, q.goesOn m = true →
      role m w ≠ .text ∨ m.doc = true ∧ w.head? = some 64) :
    ∃ p qs, (w :: ws).foldl (read m) (resting m ps blank) = holding m (p :: qs) ∧
      AreRead m (p :: qs) := by
  obtain ⟨hw, hws⟩ := List.forall_mem_cons.mp hws
  obtain ⟨qs, hfold, hareRead, hnil⟩ :=
    exists_foldl_holding hjoin (areRead_ofWord h hjoin hw hblank hstarts) hws
  rw [List.foldl_cons, read_resting hjoin, hfold]
  cases qs with
  | nil => exact absurd (hnil rfl).2 (List.cons_ne_nil _ _)
  | cons p qs => exact ⟨p, qs, rfl, hareRead⟩

theorem exists_line_joined (hjoin : m.join = true) (h : AreRead m ps)
    (hblank : blank = true → ps ≠ []) (hl : l.trim ≠ [])
    (hopens : m.doc = true → opensPre l = false) :
    ∃ p qs, (behind m ps blank).line m l = holding m (p :: qs) ∧ AreRead m (p :: qs) := by
  have hunits : ∀ w ∈ units m l.trim, IsUnit m w := fun _ => isUnit_of_mem_units
  obtain ⟨w, ws, hread⟩ : ∃ w ws, units m l.trim = w :: ws := by
    refine List.exists_cons_of_ne_nil ?_
    rwa [ne_eq, units_eq_nil_iff, Bytes.trim_trim]
  rw [line_joined hjoin (inPre_behind m ps blank) hl hopens, flush_behind]
  split_ifs with htag
  · obtain ⟨t, ht⟩ := List.head?_eq_some_iff.mp htag.2
    obtain ⟨u, us, hu, htagged⟩ := exists_units (m := m) (b := 64) (by decide) (by decide) t
    rw [ht, hu] at hunits ⊢
    exact exists_foldl_resting hjoin h hblank hunits fun _ _ _ _ => Or.inr ⟨htag.1, htagged⟩
  · rw [hread] at hunits ⊢
    cases blank with
    | true => exact exists_foldl_resting hjoin h hblank hunits nofun
    | false =>
        obtain ⟨qs, hfold, hareRead, hnil⟩ := exists_foldl_holding hjoin h hunits
        cases qs with
        | nil => exact absurd (hnil rfl).1 (List.cons_ne_nil w ws)
        | cons p qs => exact ⟨p, qs, hfold, hareRead⟩

end Lines

/-- Whether a reading is told by the paragraphs that were read, and these fit together. -/
inductive IsRead (m : Mode) : Reading → Prop
  | behind {ps : List Paragraph} {blank : Bool} (h : AreRead m ps)
      (hblank : blank = true → ps ≠ []) : IsRead m (behind m ps blank)
  | copying {p : Paragraph} {ps : List Paragraph} (h : AreRead m (p :: ps)) (hwords : p.words = [])
      (hopen : ∀ k ∈ p.pre, closesPre k = false) : IsRead m (copying m p ps)

theorem IsRead.holding (h : AreRead m ps) : IsRead m (holding m ps) :=
  IsRead.behind h (Bool.false_ne_true.elim ·)

/-- Reading one line. -/
theorem IsRead.line (h : r.IsRead m) (l : Bytes) : (r.line m l).IsRead m ∧
    ((r.line m l).paragraphs = [] → r.paragraphs = [] ∧ l.trim = []) := by
  have hholding (p : Paragraph) (ps : List Paragraph) :
      (Reading.holding m (p :: ps)).paragraphs ≠ [] :=
    fun hnil => List.cons_ne_nil p ps ((paragraphs_behind m (p :: ps) false).symm.trans hnil)
  cases h with
  | @behind ps blank h hblank =>
      by_cases hl : l.trim = []
      · rw [line_behind_blank ps blank hl, paragraphs_behind, paragraphs_behind]
        exact ⟨IsRead.behind h (by simp), fun hnil => ⟨hnil, hl⟩⟩
      · by_cases hopens : m.doc = true ∧ opensPre l = true
        · have hnew : AreRead m ({ pre := [l], indent := 2 * depthBehind m ps, blank } :: ps) :=
            AreRead.cons (Fits.copied hopens.1 hopens.2 nofun) hblank (fun _ _ _ _ => nofun) h
          rw [line_opens hopens.1 hopens.2]
          dsimp only
          split_ifs with hcloses
          · exact ⟨IsRead.holding hnew, fun hnil => absurd hnil (hholding _ _)⟩
          · exact ⟨IsRead.copying hnew rfl (by simpa using hcloses), nofun⟩
        · have hplain : m.doc = true → opensPre l = false :=
            fun hdoc => by simpa [hdoc] using hopens
          cases hjoin : m.join with
          | true =>
              obtain ⟨p, qs, hline, hareRead⟩ := exists_line_joined hjoin h hblank hl hplain
              rw [hline]
              exact ⟨IsRead.holding hareRead, fun hnil => absurd hnil (hholding _ _)⟩
          | false =>
              rw [line_kept hjoin hl hplain]
              refine ⟨IsRead.holding
                (AreRead.cons (Fits.kept hjoin ?_ fun _ => isAtom_of_mem_atoms) hblank ?_ h),
                fun hnil => absurd hnil (hholding _ _)⟩
              · rwa [ne_eq, atoms_eq_nil_iff, Bytes.trim_trim]
              · exact fun _ q _ hgoes => by simp [goesOn, hjoin] at hgoes
  | @copying p ps h hwords hopen =>
      have hnew := h.copy hwords hopen l
      rw [line_copying hwords]
      dsimp only
      split_ifs with hcloses
      · exact ⟨IsRead.holding hnew, fun hnil => absurd hnil (hholding _ _)⟩
      · refine ⟨IsRead.copying hnew hwords ?_, nofun⟩
        exact List.forall_mem_append.mpr ⟨hopen, by simpa using hcloses⟩

theorem IsRead.foldl (h : r.IsRead m) (ls : List Bytes) : (ls.foldl (Reading.line m) r).IsRead m ∧
    ((ls.foldl (Reading.line m) r).paragraphs = [] →
      r.paragraphs = [] ∧ ∀ l ∈ ls, l.trim = []) := by
  induction ls generalizing r with
  | nil => exact ⟨h, fun hnil => ⟨hnil, nofun⟩⟩
  | cons l ls ih =>
      obtain ⟨hline, hnil⟩ := h.line l
      obtain ⟨hfold, hnils⟩ := ih hline
      refine ⟨hfold, fun hnone => ?_⟩
      obtain ⟨hparagraphs, hls⟩ := hnils hnone
      obtain ⟨hr, hl⟩ := hnil hparagraphs
      exact ⟨hr, List.forall_mem_cons.mpr ⟨hl, hls⟩⟩

theorem isRead_empty : Reading.IsRead m {} :=
  IsRead.holding AreRead.nil

theorem IsRead.areRead (h : r.IsRead m) : AreRead m r.paragraphs := by
  cases h with
  | @behind ps blank h => rwa [paragraphs_behind]
  | copying h => exact h

end Reading

section Body

variable {body : Bytes}

theorem ofBody_eq (m : Mode) (body : Bytes) :
    ofBody m body = ((bareLines body).foldl (Reading.line m) {}).paragraphs.reverse := by
  rw [ofBody, Reading.flush_eq]

/-- The paragraphs of a body fit together. -/
theorem areRead_ofBody (m : Mode) (body : Bytes) : AreRead m (ofBody m body).reverse := by
  rw [ofBody_eq, List.reverse_reverse]
  exact (Reading.isRead_empty.foldl _).1.areRead

/-- A body without paragraphs has empty lines only. -/
theorem ofBody_eq_nil_iff : ofBody m body = [] ↔ ∀ l ∈ bareLines body, l.trim = [] := by
  rw [ofBody_eq, List.reverse_eq_nil_iff]
  refine ⟨fun h => ((Reading.isRead_empty.foldl _).2 h).2, fun h => ?_⟩
  have hfold (ls : List Bytes) (h : ∀ l ∈ ls, l.trim = []) : ls.foldl (Reading.line m) {} = {} := by
    induction ls with
    | nil => rfl
    | cons l ls ih =>
        obtain ⟨hl, hls⟩ := List.forall_mem_cons.mp h
        rw [List.foldl_cons, Reading.line_blank rfl hl]
        exact ih hls
  rw [hfold _ h]
  rfl

end Body

end Paragraph

end CodeLayout
