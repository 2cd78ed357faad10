import CodeLayout.Proofs.Comment.Again.Written
import CodeLayout.Proofs.Comment.Reading

/-!
# Rows that are read again

The first row of a paragraph is read as the start of one like it. Where lines are joined each
further row goes on in it, unless it starts with a block tag, and otherwise each row is a paragraph
of its own. Either way the words are packed into the same rows: a row is as full as it can be, and
so are consecutive rows by themselves.
-/

namespace CodeLayout

namespace Comment

open Paragraph

variable {avail : Int} {n hang : Nat} {p : Paragraph} {first ws : List Bytes}
  {more rest rows : List (List Bytes)} {l : Bytes}

/-- Behind its star a line is read as it is. -/
theorem bareLine_starLine (column : Int) (h : trimLine l = l) :
    Paragraph.bareLine false (indented column (starLine l)) = l := by
  have hdrop (n : Nat) (s : Bytes) : (List.replicate n 32 ++ 32 :: 42 :: s).dropWhile
      (fun b => b = 32 || b = 9) = 42 :: s := by
    rw [List.dropWhile_append_of_pos (by simp), List.dropWhile_cons_of_pos (by decide),
      List.dropWhile_cons_of_neg (by decide)]
  by_cases hne : l = []
  · have hline : indented column (starLine l) = List.replicate column.toNat 32 ++ [32, 42] := by
      simp [hne, indented, starLine, ascii]
    rw [Paragraph.bareLine, hline, trimLine_append _ (by simp) (by decide), if_neg (by simp),
      Bytes.trimLeft, hdrop, hne]
    rfl
  · have hline : indented column (starLine l) =
        List.replicate column.toNat 32 ++ 32 :: 42 :: 32 :: l := by
      simp [hne, indented, starLine, ascii]
    have hsplit : List.replicate column.toNat 32 ++ 32 :: 42 :: 32 :: l =
        (List.replicate column.toNat 32 ++ [32, 42, 32]) ++ l := by simp
    have htrim := trimLine_append (List.replicate column.toNat 32 ++ [32, 42, 32]) hne h
    rw [← hsplit] at htrim
    rw [Paragraph.bareLine, hline, htrim, if_neg (by simp), Bytes.trimLeft, hdrop]
    simp [Bytes.dropLead]

theorem Packed.of_append (h : Packed avail (more ++ rest)) :
    Packed avail more ∧ Packed avail rest := by
  obtain ⟨hmore, hrest⟩ := List.forall_mem_append.mp h.isRow
  exact ⟨⟨hmore, h.parts.left_of_append⟩, ⟨hrest, h.parts.right_of_append⟩⟩

/-- Whether rows are those of a paragraph: the first one is as full as it can be in its room, and
those behind it are in the room that is left by what they hang. -/
structure Fills (avail : Int) (n hang : Nat) (first : List Bytes) (rest : List (List Bytes)) :
    Prop where
  isRow : IsRow (Width.word (avail - n)) first
  full : ∀ w ∈ rest.flatten.head?,
    Width.word (avail - n) < Width.text (joinWords first) + 1 + Width.text w
  packed : Packed (Width.word (avail - n - hang)) rest

theorem exists_fills (avail : Int) (hne : p.words ≠ []) :
    ∃ first rest, Comment.rows avail p = first :: rest ∧
      Fills avail p.indent p.hang first rest := by
  rcases rows_cases avail p with ⟨hnil, -⟩ | ⟨first, rest, hrows, hfirst, hfull, hrest⟩
  · exact absurd hnil hne
  · exact ⟨first, rest, hrows, hfirst, hfull, hrest⟩

theorem head?_pack (ws : List Bytes) (avail : Int) :
    ∀ row ∈ (pack ws avail).head?, row.head? = ws.head? := by
  intro row hrow
  obtain ⟨hpacked, hflatten⟩ := pack_spec ws avail
  obtain ⟨rows, hrows⟩ := List.head?_eq_some_iff.mp hrow
  rw [← hflatten, hrows, List.flatten_cons,
    List.head?_append_of_ne_nil _ (hpacked.isRow row (by rw [hrows]; exact List.mem_cons_self)).1]

/-- Rows that are as full as possible are those of the paragraph that has their words. -/
theorem Fills.rows_eq (h : Fills avail p.indent p.hang first rest)
    (hwords : p.words = first ++ rest.flatten) : Comment.rows avail p = first :: rest := by
  obtain ⟨hpacked, hflatten⟩ := pack_spec rest.flatten (Width.word (avail - p.indent))
  have hall : Packed (Width.word (avail - p.indent))
      (first :: pack rest.flatten (Width.word (avail - p.indent))) := by
    refine ⟨List.forall_mem_cons.mpr ⟨h.isRow, hpacked.isRow⟩,
      List.isChain_cons.mpr ⟨?_, hpacked.parts⟩⟩
    intro row hrow w hw
    rw [head?_pack _ _ row hrow] at hw
    exact h.full w hw
  have hpack := hall.pack_eq
  rw [List.flatten_cons, hflatten, ← hwords] at hpack
  rw [Comment.rows, hpack]
  dsimp only
  rw [hwords, List.drop_left, h.packed.pack_eq]

theorem fills_zero_iff :
    Fills avail n 0 first rest ↔ Packed (Width.word (avail - n)) (first :: rest) := by
  have hhead (hrows : ∀ ws ∈ rest, ws ≠ []) :
      (∀ w ∈ rest.flatten.head?,
          Width.word (avail - n) < Width.text (joinWords first) + 1 + Width.text w) ↔
        ∀ ws ∈ rest.head?, Parts (Width.word (avail - n)) first ws := by
    cases rest with
    | nil => simp
    | cons ws rest =>
        rw [List.flatten_cons, List.head?_append_of_ne_nil _ (hrows ws List.mem_cons_self)]
        simp [Parts]
  constructor
  · intro h
    have hpacked := h.packed
    rw [Nat.cast_zero, sub_zero] at hpacked
    exact ⟨List.forall_mem_cons.mpr ⟨h.isRow, hpacked.isRow⟩, List.isChain_cons.mpr
      ⟨(hhead fun ws hws => (hpacked.isRow ws hws).1).mp h.full, hpacked.parts⟩⟩
  · intro h
    obtain ⟨hfirst, hrest⟩ := List.forall_mem_cons.mp h.isRow
    refine ⟨hfirst, (hhead fun ws hws => (hrest ws hws).1).mpr (List.isChain_cons.mp h.parts).1, ?_⟩
    rw [Nat.cast_zero, sub_zero]
    exact h.tail

/-- Rows that do not hang are two times rows where one of them starts a paragraph. -/
theorem Fills.split (h : Fills avail n 0 first (more ++ ws :: rest)) :
    Fills avail n 0 first more ∧ Fills avail n 0 ws rest := by
  rw [fills_zero_iff, ← List.cons_append] at h
  rw [fills_zero_iff, fills_zero_iff]
  exact h.of_append

theorem Fills.reread (h : Fills avail n hang first rest)
    (hatoms : ∀ ws ∈ first :: rest, ∀ a ∈ ws, IsAtom a) :
    Fills avail n hang (Paragraph.reread first) (rest.map Paragraph.reread) := by
  obtain ⟨hfirst, hrest⟩ := List.forall_mem_cons.mp hatoms
  refine ⟨isRow_reread hfirst h.isRow, fun w hw => ?_, packed_reread h.packed hrest⟩
  rw [joinWords_reread hfirst]
  cases rest with
  | nil => cases hw
  | cons ws rest =>
      have hws := hrest ws List.mem_cons_self
      obtain ⟨a, as, rfl⟩ := List.exists_cons_of_ne_nil (h.packed.isRow ws List.mem_cons_self).1
      obtain ⟨b, bs, hread, hextends, -⟩ := exists_reread hws
      rw [List.map_cons, List.flatten_cons, hread] at hw
      obtain rfl := Option.some.inj hw
      have hfull := h.full a rfl
      have hle := hextends.width_le
      omega

/-- The rows of words that are read again are laid out as the rows were. -/
theorem Fills.flowedLines_eq (h : Fills avail p.indent p.hang first rest)
    (hatoms : ∀ ws ∈ first :: rest, ∀ a ∈ ws, IsAtom a)
    (hwords : p.words = (first :: rest).flatMap Paragraph.reread) :
    flowedLines avail p = row p.indent first :: rest.map (row (p.indent + p.hang)) := by
  have hrow : ∀ n, ∀ ws ∈ first :: rest, row n (Paragraph.reread ws) = row n ws :=
    fun n ws hws => by
    rw [row, joinWords_reread (hatoms ws hws), row]
  rw [flowedLines, (h.reread hatoms).rows_eq (by rw [hwords, List.flatMap_cons, List.flatMap_def])]
  dsimp only
  rw [hrow _ first List.mem_cons_self, List.map_map]
  exact congrArg _ (List.map_congr_left fun ws hws => hrow _ ws (List.mem_cons_of_mem first hws))

end Comment

namespace Paragraph

open Comment

variable {m : Mode} {p q : Paragraph} {ps qs : List Paragraph} {avail : Int} {n : Nat}
  {blank : Bool} {ws first : List Bytes} {rows more rest : List (List Bytes)} {w : Bytes}

theorem trim_row (n : Nat) (h : ∀ a ∈ ws, IsAtom a) : (row n ws).trim = joinWords ws := by
  rw [row, Bytes.trim_replicate_append, trim_joinWords h]

theorem indent_row (n : Nat) (h : ∀ a ∈ ws, IsAtom a) :
    ((row n ws).takeWhile (· = 32)).length = n := by
  have hhead := Bytes.head?_ne_of_trim (b := 32) (by decide) (by decide) (trim_joinWords h)
  rw [row, List.takeWhile_append_of_pos (by simp), List.length_append, List.length_replicate]
  cases hjoin : joinWords ws with
  | nil => rfl
  | cons b t =>
      have hne : b ≠ 32 := by simpa [hjoin] using hhead
      rw [List.takeWhile_cons_of_neg (by simpa using hne)]
      rfl

/-- Whether a row has words of text only, and opens no preformatted section. -/
structure IsTextRow (m : Mode) (ws : List Bytes) : Prop where
  ne_nil : ws ≠ []
  isUnit : ∀ w ∈ ws, IsUnit m w
  isText : ∀ w ∈ ws, role m w = .text
  plain : m.doc = true → opensPre (joinWords ws) = false

/-- Whether a row is read as the start of a paragraph. -/
def Parts (m : Mode) (ws : List Bytes) : Prop :=
  m.join = false ∨ m.doc = true ∧ (joinWords ws).head? = some 64

theorem opensPre_row (n : Nat) (h : ∀ a ∈ ws, IsAtom a) :
    opensPre (row n ws) = opensPre (joinWords ws) := by
  rw [opensPre, opensPre, trim_row n h, trim_joinWords h]

theorem head?_reread (h : ∀ a ∈ ws, IsAtom a) :
    ∀ u ∈ (reread ws).head?, ∃ w ∈ ws.head?, Extends w u := by
  cases ws with
  | nil => nofun
  | cons w ws =>
      obtain ⟨u, us, hread, hextends, -⟩ := exists_reread h
      rw [hread]
      exact fun u' hu => ⟨w, rfl, Option.some.inj hu ▸ hextends⟩

/-- What is read again of a row of which all words but the first are text. -/
theorem exists_reread_row {vs : List Bytes} (hunits : ∀ v ∈ w :: vs, IsUnit m v)
    (halone : (role m w).isList = true → vs = []) (htext : ∀ v ∈ vs, role m v = .text) :
    ∃ u us, units m (joinWords (w :: vs)) = u :: us ∧ reread (w :: vs) = u :: us ∧
      role m u = role m w ∧ Extends w u ∧ (∀ v ∈ us, role m v = .text) ∧
      ((role m w).isList = true → us = []) := by
  have hatoms : ∀ v ∈ w :: vs, IsAtom v := fun v hv => (hunits v hv).isAtom
  obtain ⟨u, us, hread, hextends, hmore⟩ := exists_reread hatoms
  have hlist (hw : (role m w).isList = true) : u = w ∧ us = [] := by
    rw [halone hw, reread, joinWords_singleton, hatoms w List.mem_cons_self] at hread
    obtain ⟨rfl, rfl⟩ := List.cons.inj hread
    exact ⟨rfl, rfl⟩
  refine ⟨u, us, by rw [units_joinWords hunits, hread], hread, ?_, hextends, fun v hv => ?_,
    fun hw => (hlist hw).2⟩
  · by_cases hw : (role m w).isList = true
    · rw [(hlist hw).1]
    · exact role_extends hextends (by simpa using hw)
  · obtain ⟨a, ha, hav⟩ := hmore v hv
    rw [role_extends hav (by rw [htext a ha]; rfl), htext a ha]

theorem Extends.head? {a b : Bytes} (h : Extends a b) (ha : a ≠ []) : b.head? = a.head? := by
  obtain rfl | ⟨-, t, rfl⟩ := h
  · rfl
  · exact List.head?_append_of_ne_nil _ ha

/-- What hangs under a word hangs under what is read again of it, if it is the same. -/
theorem hangOf_of_extends {u : Bytes} (hextends : Extends w u) (hne : w ≠ [])
    (hrole : role m u = role m w) (h : hangOf m w = 0 ∨ u = w) : hangOf m u = hangOf m w := by
  rcases h with hzero | rfl
  · rw [hangOf] at hzero ⊢
    rw [hangOf, hextends.head? hne, hrole]
    split_ifs at hzero ⊢
    rfl
  · rfl

namespace Reading

/-- The words of a row where all paragraphs are finished. -/
theorem foldl_read_resting {us : List Bytes} {u : Bytes} (hjoin : m.join = true)
    (halone : (role m u).isList = true → us = []) (htext : ∀ v ∈ us, role m v = .text) :
    (u :: us).foldl (read m) (resting m qs blank) =
      holding m ({ ofWord m (depthBehind m qs) blank u with words := u :: us } :: qs) := by
  rw [List.foldl_cons, read_resting hjoin]
  by_cases hu : (role m u).isList = true
  · rw [halone hu]
    rfl
  · have hgoes : (ofWord m (depthBehind m qs) blank u).goesOn m = true := by
      rw [goesOn_ofWord, hjoin]
      simpa using hu
    rw [foldl_read_text hgoes htext]
    rfl

/-- A row where lines are joined. -/
theorem line_row_joined {r : Reading} (hjoin : m.join = true) (hpre : r.inPre = false)
    (hne : ws ≠ []) (hunits : ∀ v ∈ ws, IsUnit m v)
    (hplain : m.doc = true → opensPre (joinWords ws) = false) (n : Nat) :
    r.line m (row n ws) = (reread ws).foldl (read m)
      (if m.doc = true ∧ (joinWords ws).head? = some 64 then r.flush else r) := by
  have hatoms : ∀ v ∈ ws, IsAtom v := fun v hv => (hunits v hv).isAtom
  have htrim := trim_row n hatoms
  have htext : (row n ws).trim ≠ [] := by
    rw [htrim]
    exact joinWords_ne_nil hne hatoms
  have hopens : m.doc = true → opensPre (row n ws) = false := by rwa [opensPre_row n hatoms]
  rw [line_joined hjoin hpre htext hopens, htrim, units_joinWords hunits]

/-- A row that is kept. -/
theorem line_row_kept (hjoin : m.join = false) (hne : ws ≠ []) (hatoms : ∀ a ∈ ws, IsAtom a)
    (hplain : m.doc = true → opensPre (joinWords ws) = false) (n : Nat) :
    (behind m qs blank).line m (row n ws) =
      holding m ({ words := reread ws, indent := n, blank } :: qs) := by
  have htrim := trim_row n hatoms
  have htext : (row n ws).trim ≠ [] := by
    rw [htrim]
    exact joinWords_ne_nil hne hatoms
  have hopens : m.doc = true → opensPre (row n ws) = false := by rwa [opensPre_row n hatoms]
  rw [line_kept hjoin htext hopens, htrim, indent_row n hatoms]
  rfl

/-- The first row of a paragraph starts one like it. -/
theorem exists_line_first (hfits : p.Fits m (depthBehind m qs)) (hwords : p.words = first ++ ws)
    (hne : first ≠ []) (hstarts : p.blank = false → ∀ q ∈ qs.head?, q.goesOn m = true → p.Starts m)
    (hplain : m.doc = true → opensPre (joinWords first) = false) :
    ∃ hang, (behind m qs p.blank).line m (row p.indent first) =
        holding m ({ p with words := reread first, hang } :: qs) ∧
      (p.hang = 0 ∨ (reread first).head? = first.head? → hang = p.hang) := by
  cases hfits with
  | copied => exact absurd (List.append_eq_nil_iff.mp hwords.symm).1 hne
  | @kept vs n blank hjoin _ hatoms =>
      obtain rfl : vs = first ++ ws := hwords
      have hfirst := (List.forall_mem_append.mp hatoms).1
      exact ⟨0, line_row_kept hjoin hne hfirst hplain n, fun _ => rfl⟩
  | @flowed w vs blank hjoin hunits halone htext =>
      obtain ⟨w', vs', rfl⟩ := List.exists_cons_of_ne_nil hne
      obtain ⟨rfl, rfl⟩ : w = w' ∧ vs = vs' ++ ws := List.cons.inj hwords
      have hrow : ∀ v ∈ w :: vs', IsUnit m v := fun v hv => hunits v (by
        rw [← List.cons_append]
        exact List.mem_append_left _ hv)
      have hfirst : (role m w).isList = true → vs' = [] := fun hlist =>
        (List.append_eq_nil_iff.mp (halone hlist)).1
      obtain ⟨u, us, -, hread, hrole, hextends, hus, hlist⟩ :=
        exists_reread_row hrow hfirst (List.forall_mem_append.mp htext).1
      have hw := hrow w List.mem_cons_self
      have hhead : (joinWords (w :: vs')).head? = w.head? :=
        head?_joinWords hw.isAtom.isSpaced.ne_nil vs'
      have hline : (behind m qs blank).line m
          (row (2 * (role m w).level (depthBehind m qs)) (w :: vs')) =
          (u :: us).foldl (read m) (resting m qs blank) := by
        rw [line_row_joined hjoin (inPre_behind m qs blank) hne hrow hplain, hread, flush_behind]
        split_ifs with htag
        · rfl
        · cases blank with
          | true => rfl
          | false =>
              have hnot : ∀ q ∈ qs.head?, q.goesOn m = true → role m u ≠ .text := by
                intro q hq hgoes
                rw [hrole]
                exact (hstarts rfl q hq hgoes w rfl).resolve_right (hhead ▸ htag)
              exact congrArg (us.foldl (read m)) (read_holding_of_ne_text hnot)
      refine ⟨hangOf m u, ?_, fun hhang => ?_⟩
      · refine hline.trans ((foldl_read_resting hjoin (by rwa [hrole]) hus).trans ?_)
        rw [hread, ofWord, hrole]
        rfl
      · refine hangOf_of_extends hextends hw.isAtom.isSpaced.ne_nil hrole
          (hhang.imp_right fun hsame => ?_)
        rw [hread] at hsame
        exact Option.some.inj hsame

/-- A row behind the first goes on in its paragraph, or starts one without a hang. -/
theorem line_row (hrow : IsTextRow m ws) (hgoes : m.join = true → q.goesOn m = true)
    (hindent : m.join = true → n = 2 * depthBehind m (q :: qs))
    (hhang : m.join = true → Parts m ws → m.hangTags = false) :
    (Parts m ws ∧ (holding m (q :: qs)).line m (row n ws) =
        holding m ({ words := reread ws, indent := n } :: q :: qs)) ∨
      (¬Parts m ws ∧ ∀ k, (holding m (q :: qs)).line m (row k ws) =
        holding m ({ q with words := q.words ++ reread ws } :: qs)) := by
  have hatoms : ∀ a ∈ ws, IsAtom a := fun a ha => (hrow.isUnit a ha).isAtom
  cases hjoin : m.join with
  | false =>
      have hline : (behind m (q :: qs) false).line m (row n ws) = _ :=
        line_row_kept hjoin hrow.ne_nil hatoms hrow.plain n
      exact Or.inl ⟨Or.inl hjoin, hline⟩
  | true =>
      have hpre : (holding m (q :: qs)).inPre = false := inPre_behind m (q :: qs) false
      obtain ⟨w, vs, rfl⟩ := List.exists_cons_of_ne_nil hrow.ne_nil
      obtain ⟨hw, hvs⟩ := List.forall_mem_cons.mp hrow.isText
      have hnot : (role m w).isList = false := by
        rw [hw]
        rfl
      obtain ⟨u, us, -, hread, hrole, -, hus, -⟩ :=
        exists_reread_row hrow.isUnit (fun hlist => by rw [hnot] at hlist; cases hlist) hvs
      have hline (k : Nat) := line_row_joined hjoin hpre hrow.ne_nil hrow.isUnit hrow.plain k
      by_cases htag : m.doc = true ∧ (joinWords (w :: vs)).head? = some 64
      · refine Or.inl ⟨Or.inr htag, ?_⟩
        rw [hline, if_pos htag, flush_holding, hread,
          foldl_read_resting hjoin (by rw [hrole, hnot]; nofun) hus, ofWord, hrole, hw, hangOf,
          hhang hjoin (Or.inr htag), hindent hjoin]
        simp [Role.level]
      · refine Or.inr ⟨by simp [Parts, hjoin, htag], fun k => ?_⟩
        rw [hline, if_neg htag, hread]
        exact foldl_read_text (hgoes hjoin) (List.forall_mem_cons.mpr ⟨hrole.trans hw, hus⟩)

/-- A section that is open is closed by the last of its lines. -/
theorem foldl_copying {ls : List Bytes} (hwords : p.words = []) (hne : ls ≠ [])
    (hopen : ∀ k ∈ ls.dropLast, closesPre k = false)
    (hclosed : ∀ k ∈ ls.getLast?, closesPre k = true) :
    ls.foldl (line m) (copying m p qs) = holding m ({ p with pre := p.pre ++ ls } :: qs) := by
  induction ls generalizing p with
  | nil => exact absurd rfl hne
  | cons l ls ih =>
      rw [List.foldl_cons, line_copying hwords]
      cases ls with
      | nil => exact if_pos (hclosed l rfl)
      | cons k ls =>
          obtain ⟨hl, hrest⟩ := List.forall_mem_cons.mp hopen
          have hfold := ih (p := { p with pre := p.pre ++ [l] }) hwords
            (List.cons_ne_nil k ls) hrest hclosed
          dsimp only
          rw [if_neg (Bool.eq_false_iff.mp hl), hfold]
          simp

end Reading

/-- The lines of paragraphs behind their stars, where the latest paragraph comes first. -/
def linesOf (avail : Int) (ps : List Paragraph) : List Bytes :=
  ps.reverse.flatMap (bareParagraph avail false)

theorem linesOf_append (avail : Int) (qs ps : List Paragraph) :
    linesOf avail (qs ++ ps) = linesOf avail ps ++ linesOf avail qs := by
  rw [linesOf, List.reverse_append, List.flatMap_append]
  rfl

theorem linesOf_singleton (avail : Int) (p : Paragraph) :
    linesOf avail [p] = bareParagraph avail false p := by
  simp [linesOf]

theorem IsTextRow.text_head (h : IsTextRow m ws) : ∀ u ∈ (reread ws).head?, role m u = .text := by
  intro u hu
  obtain ⟨w, hw, hextends⟩ := head?_reread (fun a ha => (h.isUnit a ha).isAtom) u hu
  have htext := h.isText w (List.mem_of_mem_head? hw)
  rw [role_extends hextends (by rw [htext]; rfl), htext]

theorem IsTextRow.isAtom (h : IsTextRow m ws) : ∀ a ∈ ws, IsAtom a :=
  fun a ha => (h.isUnit a ha).isAtom

/-- A paragraph that a row of text starts goes on where lines are joined. -/
theorem IsTextRow.goesOn_eq (h : IsTextRow m ws) (n : Nat) :
    Paragraph.goesOn m { words := reread ws, indent := n } = m.join := by
  obtain ⟨u, us, hread⟩ := List.exists_cons_of_ne_nil (reread_ne_nil h.ne_nil h.isAtom)
  have hu := h.text_head u (by rw [hread]; rfl)
  rw [goesOn_of_words (p := { words := reread ws, indent := n }) hread, hu]
  exact Bool.and_true _

theorem IsTextRow.depthBehind_eq (h : IsTextRow m ws) (n : Nat) (ps : List Paragraph) :
    depthBehind m ({ words := reread ws, indent := n } :: ps) = depthBehind m ps :=
  depthBehind_of_not_isList fun u hu => by
    rw [h.text_head u hu]
    rfl

theorem goesOn_eq_join (h : m.join = true → q.goesOn m = true) : q.goesOn m = m.join := by
  cases hjoin : m.join with
  | false => simp [goesOn, hjoin]
  | true => exact h hjoin

/-- Whether a paragraph is made of the first rows that are read again, and is filled up by the
rest. -/
structure MadeOf (avail : Int) (first : List Bytes) (more rest : List (List Bytes))
    (q : Paragraph) : Prop where
  fills : Fills avail q.indent q.hang first (more ++ rest)
  pre : q.pre = []
  isAtom : ∀ ws ∈ first :: more, ∀ a ∈ ws, IsAtom a
  words : q.words = (first :: more).flatMap reread

namespace MadeOf

theorem words_ne_nil (h : q.MadeOf avail first more rest) : q.words ≠ [] := by
  rw [h.words, List.flatMap_cons]
  exact List.append_ne_nil_of_left_ne_nil
    (reread_ne_nil h.fills.isRow.1 (h.isAtom first List.mem_cons_self)) _

theorem lines (h : q.MadeOf avail first more []) : bareParagraph avail false q =
    (if q.blank then [[]] else []) ++ row q.indent first :: more.map (row (q.indent + q.hang)) := by
  have hfills := h.fills
  rw [List.append_nil] at hfills
  rw [bareParagraph, h.pre, List.append_nil, hfills.flowedLines_eq h.isAtom h.words, Bool.not_false,
    Bool.and_true]

/-- A row that goes on in the paragraph. -/
theorem append (h : q.MadeOf avail first more (ws :: rest)) (hatoms : ∀ a ∈ ws, IsAtom a) :
    MadeOf avail first (more ++ [ws]) rest { q with words := q.words ++ reread ws } := by
  refine ⟨?_, h.pre, ?_, by simp [h.words]⟩
  · rw [List.append_assoc]
    exact h.fills
  · rw [← List.cons_append]
    exact List.forall_mem_append.mpr ⟨h.isAtom, List.forall_mem_singleton.mpr hatoms⟩

/-- A row that starts a paragraph, where nothing hangs. -/
theorem split (h : q.MadeOf avail first more (ws :: rest)) (hzero : q.hang = 0)
    (hatoms : ∀ a ∈ ws, IsAtom a) : q.MadeOf avail first more [] ∧
      MadeOf avail ws [] rest { words := reread ws, indent := q.indent } := by
  have hfills := h.fills
  rw [hzero] at hfills
  obtain ⟨hfront, hbehind⟩ := hfills.split
  exact ⟨⟨by rwa [List.append_nil, hzero], h.pre, h.isAtom, h.words⟩,
    ⟨hbehind, rfl, List.forall_mem_singleton.mpr hatoms, by simp⟩⟩

end MadeOf

/-- The rows behind the first are read as paragraphs that are laid out as these rows. -/
theorem exists_foldl_rows (hq : q.MadeOf avail first more rest)
    (hrows : ∀ ws ∈ rest, IsTextRow m ws)
    (hgoes : rest ≠ [] → m.join = true → q.goesOn m = true ∧ q.indent = 2 * depthBehind m (q :: qs))
    (hparts : ∀ ws ∈ rest, Parts m ws → q.hang = 0 ∧ (m.join = true → m.hangTags = false)) :
    ∃ new, (rest.map (row (q.indent + q.hang))).foldl (Reading.line m)
          (Reading.holding m (q :: qs)) = Reading.holding m (new ++ qs) ∧ new ≠ [] ∧
      linesOf avail new = (if q.blank then [[]] else []) ++
        row q.indent first :: (more ++ rest).map (row (q.indent + q.hang)) ∧
      new.head?.any (goesOn m) = q.goesOn m ∧ depthBehind m (new ++ qs) = depthBehind m (q :: qs) ∧
      ∀ x, new = [x] → x.indent = q.indent ∧ x.pre = [] ∧
        x.words = (first :: (more ++ rest)).flatMap reread := by
  induction rest generalizing more first q qs with
  | nil =>
      refine ⟨[q], rfl, List.cons_ne_nil q [], ?_, rfl, rfl, fun x hx => ?_⟩
      · rw [linesOf_singleton, hq.lines, List.append_nil]
      · obtain rfl : q = x := by simpa using hx
        rw [List.append_nil]
        exact ⟨rfl, hq.pre, hq.words⟩
  | cons ws rest ih =>
      obtain ⟨hrow, hrest⟩ := List.forall_mem_cons.mp hrows
      obtain ⟨hpart, hpartsRest⟩ := List.forall_mem_cons.mp hparts
      have hbelow := hgoes (List.cons_ne_nil ws rest)
      rw [List.map_cons, List.foldl_cons]
      rcases Reading.line_row hrow (fun hjoin => (hbelow hjoin).1) (fun hjoin => (hbelow hjoin).2)
        (fun hjoin hpart' => (hpart hpart').2 hjoin) with ⟨hpart', hline⟩ | ⟨-, hline⟩
      · -- The row starts a paragraph, and the rows in front of it are all of the one at hand.
        obtain ⟨hzero, -⟩ := hpart hpart'
        obtain ⟨hfront, hbehind⟩ := hq.split hzero hrow.isAtom
        have hdepth := hrow.depthBehind_eq q.indent (q :: qs)
        have hgoes' := (hrow.goesOn_eq q.indent).trans
          (goesOn_eq_join fun hjoin => (hbelow hjoin).1).symm
        obtain ⟨new, hfold, hne, hlines, hnew, hnewDepth, -⟩ := ih hbehind hrest
          (fun _ hjoin => ⟨hgoes'.trans (hbelow hjoin).1,
            (hbelow hjoin).2.trans (congrArg _ hdepth.symm)⟩)
          fun vs hvs hvs' => ⟨rfl, (hpartsRest vs hvs hvs').2⟩
        refine ⟨new ++ [q], ?_, by simp, ?_, ?_, ?_, fun x hx => ?_⟩
        · rw [hzero, Nat.add_zero, hline, List.append_assoc]
          exact hfold
        · rw [linesOf_append, linesOf_singleton, hlines, hfront.lines, hzero, Nat.add_zero]
          simp
        · rw [List.head?_append_of_ne_nil _ hne, hnew, hgoes']
        · rw [List.append_assoc]
          exact hnewDepth.trans hdepth
        · have hlength := congrArg List.length hx
          simp only [List.length_append, List.length_singleton] at hlength
          exact absurd (List.length_eq_zero_iff.mp (by omega)) hne
      · -- The row goes on in the paragraph at hand.
        have hgoes' := goesOn_append (m := m) hq.words_ne_nil (reread ws)
        have hdepth : depthBehind m ({ q with words := q.words ++ reread ws } :: qs) =
          depthBehind m (q :: qs) := depthBehind_append hq.words_ne_nil _
        obtain ⟨new, hfold, hne, hlines, hnew, hnewDepth, hsingle⟩ :=
          ih (hq.append hrow.isAtom) hrest
          (fun _ hjoin => ⟨hgoes'.trans (hbelow hjoin).1,
            (hbelow hjoin).2.trans (congrArg _ hdepth.symm)⟩)
          hpartsRest
        rw [List.append_assoc, List.singleton_append] at hlines hsingle
        rw [hline]
        exact ⟨new, hfold, hne, hlines, hnew.trans hgoes', hnewDepth.trans hdepth, hsingle⟩

/-- Whether a paragraph is read as it is laid out: a preformatted section in it is closed, no row
opens one, no row behind the first starts a paragraph where what follows a block tag hangs, and the
tag that rows hang under is read as it was. -/
structure IsSettled (m : Mode) (avail : Int) (p : Paragraph) : Prop where
  closed : ∀ k ∈ p.pre.getLast?, closesPre k = true
  plain : m.doc = true → ∀ ws ∈ Comment.rows avail p, opensPre (joinWords ws) = false
  untagged : m.doc = true → m.join = true → m.hangTags = true →
    ∀ ws ∈ (Comment.rows avail p).tail, (joinWords ws).head? ≠ some 64
  tag : p.hang = 0 ∨ ∀ ws ∈ (Comment.rows avail p).head?, (reread ws).head? = ws.head?

theorem isSettled_iff : p.IsSettled m avail ↔
    (∀ k ∈ p.pre.getLast?, closesPre k = true) ∧
      (m.doc = true → ∀ ws ∈ Comment.rows avail p, opensPre (joinWords ws) = false) ∧
      (m.doc = true → m.join = true → m.hangTags = true →
        ∀ ws ∈ (Comment.rows avail p).tail, (joinWords ws).head? ≠ some 64) ∧
      (p.hang = 0 ∨ ∀ ws ∈ (Comment.rows avail p).head?, (reread ws).head? = ws.head?) :=
  ⟨fun h => ⟨h.closed, h.plain, h.untagged, h.tag⟩, fun ⟨hclosed, hplain, huntagged, htag⟩ =>
    ⟨hclosed, hplain, huntagged, htag⟩⟩

instance : Decidable (p.IsSettled m avail) :=
  decidable_of_iff _ isSettled_iff.symm

/-- The rows behind the first are rows of text. -/
theorem Fits.isTextRow {d : Nat} (hfits : p.Fits m d) (hwords : p.words = first ++ rest.flatten)
    (hne : first ≠ []) (hrest : ∀ ws ∈ rest, ws ≠ [])
    (hplain : m.doc = true → ∀ ws ∈ rest, opensPre (joinWords ws) = false) :
    ∀ ws ∈ rest, IsTextRow m ws := by
  have htail : ∀ v ∈ rest.flatten, IsUnit m v ∧ role m v = .text := by
    cases hfits with
    | copied => exact absurd (List.append_eq_nil_iff.mp hwords.symm).1 hne
    | @kept vs n blank hjoin _ hatoms =>
        obtain rfl : vs = first ++ rest.flatten := hwords
        refine fun v hv => ⟨⟨hatoms v (List.mem_append_right _ hv), ?_⟩, role_of_not_join hjoin v⟩
        simp [Mode.marks, hjoin]
    | @flowed w vs blank _ hunits _ htext =>
        obtain ⟨w', vs', rfl⟩ := List.exists_cons_of_ne_nil hne
        obtain ⟨-, rfl⟩ : w = w' ∧ vs = vs' ++ rest.flatten := List.cons.inj hwords
        exact fun v hv => ⟨hunits v (List.mem_cons_of_mem w (List.mem_append_right _ hv)),
          htext v (List.mem_append_right _ hv)⟩
  exact fun ws hws => ⟨hrest ws hws, fun v hv => (htail v (List.mem_flatten_of_mem hws hv)).1,
    fun v hv => (htail v (List.mem_flatten_of_mem hws hv)).2, fun hdoc => hplain hdoc ws hws⟩

theorem Fits.isAtom {d : Nat} (hfits : p.Fits m d) : ∀ a ∈ p.words, IsAtom a := by
  cases hfits with
  | copied => nofun
  | kept _ _ hatoms => exact hatoms
  | flowed _ hunits => exact fun a ha => (hunits a ha).isAtom

theorem Fits.pre_eq_nil {d : Nat} (hfits : p.Fits m d) (hne : p.words ≠ []) : p.pre = [] := by
  cases hfits with
  | copied => exact absurd rfl hne
  | kept | flowed => rfl

/-- Where a further row starts a paragraph, nothing hangs. -/
theorem Fits.hang_eq_zero {d : Nat} (hfits : p.Fits m d) (hsettled : p.IsSettled m avail)
    (hws : ws ∈ (Comment.rows avail p).tail) (hpart : Parts m ws) :
    p.hang = 0 ∧ (m.join = true → m.hangTags = false) := by
  have htags : m.join = true → m.hangTags = false := by
    intro hjoin
    obtain ⟨hdoc, htag⟩ := hpart.resolve_left (by simp [hjoin])
    exact Bool.eq_false_iff.mpr fun hhangs => hsettled.untagged hdoc hjoin hhangs ws hws htag
  refine ⟨?_, htags⟩
  cases hfits with
  | copied | kept => rfl
  | @flowed w vs blank hjoin =>
      change hangOf m w = 0
      rw [hangOf, htags hjoin]
      simp

/-- A paragraph of more than one row goes on, at the depth of what is behind it. -/
theorem Fits.goesOn (hfits : p.Fits m (depthBehind m qs)) (hwords : p.words = first ++ ws)
    (hne : first ≠ []) (hws : ws ≠ []) (hjoin : m.join = true) :
    p.goesOn m = true ∧ p.indent = 2 * depthBehind m (p :: qs) := by
  cases hfits with
  | copied => exact absurd (List.append_eq_nil_iff.mp hwords.symm).1 hne
  | kept hkept =>
      rw [hkept] at hjoin
      cases hjoin
  | @flowed w vs blank _ _ halone =>
      have hlist : (role m w).isList = false := by
        refine Bool.eq_false_iff.mpr fun hlist => ?_
        rw [halone hlist] at hwords
        obtain ⟨w', vs', rfl⟩ := List.exists_cons_of_ne_nil hne
        exact hws (List.append_eq_nil_iff.mp (List.cons.inj hwords).2.symm).2
      refine ⟨by rw [goesOn_of_words rfl, hjoin, hlist]; rfl, ?_⟩
      rw [depthBehind_of_not_isList fun v hv => Option.some.inj hv ▸ hlist]
      change 2 * (role m w).level _ = _
      cases hrole : role m w with
      | opens | closes =>
          rw [hrole] at hlist
          cases hlist
      | item | text => rfl

theorem Fits.exists_role (hfits : p.Fits m (depthBehind m qs)) (hwords : p.words = first ++ ws)
    (hne : first ≠ []) :
    ∃ w vs u us, first = w :: vs ∧ reread first = u :: us ∧ role m u = role m w := by
  obtain ⟨w, vs, rfl⟩ := List.exists_cons_of_ne_nil hne
  have hatoms : ∀ a ∈ w :: vs, IsAtom a := fun a ha =>
    hfits.isAtom a (hwords ▸ List.mem_append_left ws ha)
  obtain ⟨u, us, hread, hextends, -⟩ := exists_reread hatoms
  refine ⟨w, vs, u, us, rfl, hread, ?_⟩
  by_cases hlist : (role m w).isList = true
  · cases hfits with
    | copied => cases hwords
    | kept hjoin => rw [role_of_not_join hjoin, role_of_not_join hjoin]
    | @flowed w' vs' _ _ _ halone =>
        obtain ⟨rfl, htail⟩ := List.cons.inj hwords
        rw [halone hlist] at htail
        rw [(List.append_eq_nil_iff.mp htail.symm).1, reread, joinWords_singleton,
          hatoms w' List.mem_cons_self] at hread
        rw [(List.cons.inj hread).1]
  · exact role_extends hextends (by simpa using hlist)

/-- A line of words that are read again row by row is the same line. -/
theorem joinWords_flatMap_reread (hrows : ∀ ws ∈ rows, ws ≠ [] ∧ ∀ a ∈ ws, IsAtom a) :
    joinWords (rows.flatMap reread) = joinWords rows.flatten := by
  have hrow : ∀ ws ∈ rows, (reread ws).flatMap (32 :: ·) = ws.flatMap (32 :: ·) := by
    intro ws hws
    obtain ⟨hne, hatoms⟩ := hrows ws hws
    rw [spaced_eq (reread_ne_nil hne hatoms), joinWords_reread hatoms, spaced_eq hne]
  rw [joinWords_eq_tail, joinWords_eq_tail, List.flatMap_assoc, List.flatMap_congr hrow,
    List.flatten_eq_flatMap, List.flatMap_assoc]
  rfl

/-- What a paragraph is read as when it is read again: paragraphs, of which the latest comes first,
that are laid out as its lines. -/
structure ReadsAs (m : Mode) (avail : Int) (ps : List Paragraph) (p : Paragraph)
    (new : List Paragraph) : Prop where
  ne_nil : new ≠ []
  lines : linesOf avail new = bareParagraph avail false p
  goesOn : new.head?.any (goesOn m) = p.goesOn m
  depth : depthBehind m (new ++ ps) = depthBehind m (p :: ps)
  single : ∀ q, new = [q] →
    q.indent = p.indent ∧ q.pre = p.pre ∧ joinWords q.words = joinWords p.words

/-- The words of a paragraph are read as paragraphs that are laid out as its rows. -/
theorem exists_foldl_words (hfits : p.Fits m (depthBehind m qs)) (hne : p.words ≠ [])
    (hstarts : p.blank = false → ∀ q ∈ qs.head?, q.goesOn m = true → p.Starts m)
    (hsettled : p.IsSettled m avail) : ∃ new,
    (flowedLines avail p).foldl (Reading.line m) (Reading.behind m qs p.blank) =
      Reading.holding m (new ++ qs) ∧ ReadsAs m avail qs p new := by
  obtain ⟨first, rest, hrows, hfills⟩ := exists_fills avail hne
  have hwords : p.words = first ++ rest.flatten := by
    rw [← rows_flatten avail p, hrows, List.flatten_cons]
  have hfirst : first ≠ [] := hfills.isRow.1
  have hplain := hsettled.plain
  rw [hrows] at hplain
  have hpre := hfits.pre_eq_nil hne
  have hatoms : ∀ ws ∈ first :: rest, ∀ a ∈ ws, IsAtom a := by
    intro ws hws a ha
    refine hfits.isAtom a ?_
    rw [hwords, ← List.flatten_cons]
    exact List.mem_flatten_of_mem hws ha
  obtain ⟨hang, hline, hhang⟩ := Reading.exists_line_first hfits hwords hfirst hstarts
    fun hdoc => hplain hdoc first List.mem_cons_self
  obtain rfl : hang = p.hang :=
    hhang (hsettled.tag.imp_right fun htag => htag first (by rw [hrows]; rfl))
  let q : Paragraph := { p with words := reread first, hang := p.hang }
  obtain ⟨w, vs, u, us, rfl, hread, hrole⟩ := hfits.exists_role hwords hfirst
  have hgoes : q.goesOn m = p.goesOn m := by
    rw [goesOn_of_words (p := q) hread, goesOn_of_words hwords, hrole]
  have hdepth : depthBehind m (q :: qs) = depthBehind m (p :: qs) := by
    rw [depthBehind_cons (p := q) hread, depthBehind_cons hwords, hrole]
  have hmade : q.MadeOf avail (w :: vs) [] rest :=
    ⟨hfills, hpre, List.forall_mem_singleton.mpr (hatoms (w :: vs) List.mem_cons_self), by simp [q]⟩
  have hne : ∀ ws ∈ rest, ws ≠ [] := fun ws hws => (hfills.packed.isRow ws hws).1
  have hrest : ∀ ws ∈ rest, IsTextRow m ws := hfits.isTextRow hwords hfirst hne
    fun hdoc ws hws => hplain hdoc ws (List.mem_cons_of_mem _ hws)
  have hbelow : rest ≠ [] → m.join = true → q.goesOn m = true ∧
    q.indent = 2 * depthBehind m (q :: qs) := by
    intro hsome hjoin
    obtain ⟨ws, rest', rfl⟩ := List.exists_cons_of_ne_nil hsome
    have hmore := List.append_ne_nil_of_left_ne_nil (hne ws List.mem_cons_self) rest'.flatten
    obtain ⟨hp, hindent⟩ := hfits.goesOn hwords hfirst hmore hjoin
    exact ⟨hgoes.trans hp, hindent.trans (congrArg _ hdepth.symm)⟩
  have hparts : ∀ ws ∈ rest, Parts m ws → q.hang = 0 ∧ (m.join = true → m.hangTags = false) :=
    fun ws hws hpart => hfits.hang_eq_zero hsettled (by rwa [hrows]) hpart
  obtain ⟨new, hfold, hnew, hlines, hhead, hbehind, hsingle⟩ :=
    exists_foldl_rows hmade hrest hbelow hparts
  refine ⟨new, ?_, hnew, ?_, hhead.trans hgoes, hbehind.trans hdepth, fun x hx => ?_⟩
  · rw [flowedLines, hrows, List.foldl_cons, hline]
    exact hfold
  · rw [hlines, bareParagraph, flowedLines, hrows, hpre]
    simp [q]
  · obtain ⟨hindent, hpre', hx'⟩ := hsingle x hx
    refine ⟨hindent, hpre'.trans hpre.symm, ?_⟩
    have hall : ∀ ws ∈ (w :: vs) :: rest, ws ≠ [] := List.forall_mem_cons.mpr ⟨hfirst, hne⟩
    rw [hx', List.nil_append, joinWords_flatMap_reread fun ws hws => ⟨hall ws hws, hatoms ws hws⟩,
      List.flatten_cons, hwords]

/-- The lines of a preformatted section are read as the section. -/
theorem foldl_section {l : Bytes} {ls : List Bytes} (hdoc : m.doc = true)
    (hopens : opensPre l = true) (hopen : ∀ k ∈ (l :: ls).dropLast, closesPre k = false)
    (hclosed : ∀ k ∈ (l :: ls).getLast?, closesPre k = true) :
    (l :: ls).foldl (Reading.line m) (Reading.behind m qs blank) =
      Reading.holding m ({ pre := l :: ls, indent := 2 * depthBehind m qs, blank } :: qs) := by
  rw [List.foldl_cons, Reading.line_opens hdoc hopens]
  dsimp only
  cases ls with
  | nil => exact if_pos (hclosed l rfl)
  | cons k ls =>
      obtain ⟨hl, hrest⟩ := List.forall_mem_cons.mp hopen
      rw [if_neg (Bool.eq_false_iff.mp hl),
        Reading.foldl_copying rfl (List.cons_ne_nil k ls) hrest hclosed]
      rfl

/-- A paragraph is read as paragraphs that are laid out as its lines. -/
theorem exists_foldl_paragraph (hfits : p.Fits m (depthBehind m qs))
    (hblank : p.blank = true → qs ≠ [])
    (hstarts : p.blank = false → ∀ q ∈ qs.head?, q.goesOn m = true → p.Starts m)
    (hsettled : p.IsSettled m avail) : ∃ new,
    (bareParagraph avail false p).foldl (Reading.line m) (Reading.holding m qs) =
      Reading.holding m (new ++ qs) ∧ ReadsAs m avail qs p new := by
  have hempty : (if p.blank then [[]] else []).foldl (Reading.line m) (Reading.holding m qs) =
      Reading.behind m qs p.blank := by
    cases hp : p.blank with
    | false => rfl
    | true =>
        have hline := Reading.line_behind_blank (m := m) (l := []) qs false rfl
        rw [List.isEmpty_eq_false_iff.mpr (hblank hp)] at hline
        exact hline
  rw [bareParagraph, Bool.not_false, Bool.and_true, List.foldl_append, List.foldl_append, hempty]
  by_cases hne : p.words = []
  · cases hfits with
    | kept _ hwords => exact absurd hne hwords
    | flowed => cases hne
    | @copied l ls blank hdoc hopens hopen =>
        rw [foldl_section hdoc hopens hopen hsettled.closed]
        exact ⟨[_], rfl, List.cons_ne_nil _ _, linesOf_singleton _ _, rfl, rfl,
          fun q hq => by obtain rfl := List.singleton_inj.mp hq; exact ⟨rfl, rfl, rfl⟩⟩
  · rw [hfits.pre_eq_nil hne]
    exact exists_foldl_words hfits hne hstarts hsettled

/-- What is read of the lines of paragraphs that fit together is laid out as these lines. -/
theorem exists_foldl_again {ps : List Paragraph} (h : AreRead m ps)
    (hsettled : ∀ p ∈ ps, p.IsSettled m avail) :
    ∃ qs, (linesOf avail ps).foldl (Reading.line m) {} = Reading.holding m qs ∧
      linesOf avail qs = linesOf avail ps ∧ depthBehind m qs = depthBehind m ps ∧
      qs.head?.any (goesOn m) = ps.head?.any (goesOn m) ∧ (qs = [] → ps = []) ∧
      ∀ q, qs = [q] → ∃ p, ps = [p] ∧ q.indent = p.indent ∧ q.pre = p.pre ∧
        joinWords q.words = joinWords p.words := by
  induction h with
  | nil => exact ⟨[], rfl, rfl, rfl, rfl, fun _ => rfl, nofun⟩
  | @cons p ps hfits hblank hstarts h ih =>
      obtain ⟨hp, hps⟩ := List.forall_mem_cons.mp hsettled
      obtain ⟨qs, hfold, hlines, hdepth, hgoes, hnil, -⟩ := ih hps
      rw [← hdepth] at hfits
      have hstarts' : p.blank = false → ∀ q ∈ qs.head?, q.goesOn m = true → p.Starts m := by
        intro hnone q hq hq'
        have hany : qs.head?.any (goesOn m) = true := by
          rw [hq]
          exact hq'
        rw [hgoes, Option.any_eq_true] at hany
        obtain ⟨q', hq', hgoes'⟩ := hany
        exact hstarts hnone q' hq' hgoes'
      obtain ⟨new, hread, hagain⟩ :=
        exists_foldl_paragraph hfits (fun hp' => mt hnil (hblank hp')) hstarts' hp
      have hsplit : linesOf avail (p :: ps) = linesOf avail ps ++ bareParagraph avail false p := by
        rw [← List.singleton_append, linesOf_append, linesOf_singleton]
      refine ⟨new ++ qs, ?_, ?_, ?_, ?_, fun hnone => ?_, fun q hq => ?_⟩
      · rw [hsplit, List.foldl_append, hfold, hread]
      · rw [linesOf_append, hlines, hagain.lines, hsplit]
      · rw [hagain.depth, depthBehind, depthBehind, hdepth]
      · rw [List.head?_append_of_ne_nil _ hagain.ne_nil, hagain.goesOn]
        rfl
      · exact absurd (List.append_eq_nil_iff.mp hnone).1 hagain.ne_nil
      · obtain ⟨q', new', rfl⟩ := List.exists_cons_of_ne_nil hagain.ne_nil
        obtain ⟨rfl, hrest⟩ := List.cons.inj hq
        obtain ⟨rfl, rfl⟩ := List.append_eq_nil_iff.mp hrest
        obtain rfl := hnil rfl
        exact ⟨p, rfl, hagain.single q' rfl⟩

end Paragraph

end CodeLayout
