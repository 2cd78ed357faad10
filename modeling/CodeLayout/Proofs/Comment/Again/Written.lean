import CodeLayout.Proofs.Comment.Again.Lines
import CodeLayout.Proofs.Comment.Written
import CodeLayout.Proofs.Text.Words

/-!
# Block comments that are kept

What is written for a block comment that is not reflowed is not reflowed either, and stays as it is:
it starts as the comment did, it is closed as the comment was, and it has no text if the comment had
none.
-/

namespace CodeLayout

/-- A line behind a column. An empty line stays empty. -/
def indented (column : Int) (l : Bytes) : Bytes :=
  if l.isEmpty then [] else List.replicate column.toNat 32 ++ l

/-- A comment as it stands in a text, where the lines behind the first are at its column if they are
aligned with it. -/
def Rendered.laid (column : Int) (r : Rendered) : Bytes :=
  match r.lines with
  | [] => []
  | first :: rest =>
    Bytes.join [newline] (first :: if r.aligned then rest.map (indented column) else rest)

namespace Comment

variable {c c' : Comment} {column : Int} {s t : Bytes}

section Written

theorem textLines_join {ls : List Bytes} (hne : ls ≠ []) (h : ∀ l ∈ ls, newline ∉ l) :
    textLines (Bytes.join [newline] ls) = ls.map trimLine := by
  rw [textLines, Bytes.pieces_join hne h]

theorem mem_textLines {l : Bytes} (h : l ∈ textLines s) : newline ∉ l ∧ trimLine l = l := by
  obtain ⟨p, hp, rfl⟩ := List.mem_map.mp h
  exact ⟨fun hmem => Bytes.not_mem_of_mem_pieces hp ((Bytes.trimRight_isPrefix _ _).subset hmem),
    trimLine_trimLine p⟩

theorem textLines_ne_nil (s : Bytes) : textLines s ≠ [] := by
  simp [textLines]

theorem trim_indented (column : Int) (l : Bytes) : (indented column l).trim = l.trim := by
  rw [indented]
  split_ifs with hempty
  · rw [List.isEmpty_iff.mp hempty]
  · exact Bytes.trim_replicate_append _ _

theorem mem_indented {b : UInt8} {l : Bytes} (h : b ∈ indented column l) : b = 32 ∨ b ∈ l := by
  rw [indented] at h
  split_ifs at h
  · cases h
  · exact (List.mem_append.mp h).imp_left List.eq_of_mem_replicate

theorem trim_ne_nil_of_isStarred {l : Bytes} (h : isStarred l = true) : l.trim ≠ [] := by
  intro hnil
  rw [isStarred, hnil] at h
  cases h

/-- A line that starts with a star and is put under that of the first line stays there. -/
theorem starred_again {l : Bytes} (h : isStarred l = true) :
    trimLine (indented column (32 :: l.trim)) = indented column (32 :: l.trim) ∧
      (indented column (32 :: l.trim)).trim = l.trim := by
  have hne := trim_ne_nil_of_isStarred h
  refine ⟨?_, ?_⟩
  · have hsplit : indented column (32 :: l.trim) =
        (List.replicate column.toNat 32 ++ [32]) ++ l.trim := by
      simp [indented]
    rw [hsplit, trimLine_append _ hne (trimLine_of_trim (Bytes.trim_trim l))]
  · rw [trim_indented, Bytes.trim_cons (by decide) (by decide), Bytes.trim_trim]

/-- What is written for a comment that is kept is kept as it is. -/
theorem asWritten_again (hstyle : c.style ≠ .line) (hstyle' : c'.style ≠ .line)
    (htext : c'.text = c.asWritten.laid column) : c'.asWritten = c.asWritten := by
  obtain ⟨first, rest, hlines⟩ := List.exists_cons_of_ne_nil (textLines_ne_nil c.text)
  have hall : ∀ l ∈ first :: rest, newline ∉ l ∧ trimLine l = l := fun l hl =>
    mem_textLines (hlines ▸ hl)
  obtain ⟨⟨hnone, hsame⟩, hrest⟩ := List.forall_mem_cons.mp hall
  by_cases hstars : rest.all isStarred = true
  · have hwritten : c.asWritten = ⟨first :: rest.map fun l => 32 :: l.trim, true⟩ := by
      rw [asWritten, if_neg hstyle, hlines]
      exact if_pos hstars
    have hstarred : ∀ l ∈ rest, isStarred l = true := List.all_eq_true.mp hstars
    rw [hwritten] at htext
    have hlines' : textLines c'.text =
        first :: rest.map fun l => indented column (32 :: l.trim) := by
      have hlaid : c'.text =
          Bytes.join [newline] (first :: rest.map fun l => indented column (32 :: l.trim)) := by
        rw [htext, Rendered.laid]
        dsimp only
        rw [if_pos rfl, List.map_map]
        rfl
      rw [hlaid, textLines_join (List.cons_ne_nil _ _), List.map_cons, hsame, List.map_map]
      · exact congrArg _ (List.map_congr_left fun l hl => (starred_again (hstarred l hl)).1)
      · refine List.forall_mem_cons.mpr ⟨hnone, List.forall_mem_map.mpr fun l hl hmem => ?_⟩
        have hline := (mem_indented hmem).resolve_left (by decide)
        have htrim := (List.mem_cons.mp hline).resolve_left (by decide)
        exact (hrest l hl).1 ((Bytes.trim_isInfix l).subset htrim)
    have hstars' : (rest.map fun l => indented column (32 :: l.trim)).all isStarred = true := by
      rw [List.all_map, List.all_eq_true]
      intro l hl
      rw [Function.comp_apply, isStarred, (starred_again (hstarred l hl)).2]
      exact hstarred l hl
    rw [hwritten, asWritten, if_neg hstyle', hlines']
    dsimp only
    rw [if_pos hstars', List.map_map]
    refine congrArg (fun ls => Rendered.mk (first :: ls) true) (List.map_congr_left fun l hl => ?_)
    exact congrArg _ (starred_again (hstarred l hl)).2
  · have hwritten : c.asWritten = ⟨first :: rest, false⟩ := by
      rw [asWritten, if_neg hstyle, hlines]
      exact if_neg hstars
    have hlines' : textLines c'.text = first :: rest := by
      have hlaid : c'.text = Bytes.join [newline] (first :: rest) := by
        rw [htext, hwritten]
        rfl
      rw [hlaid, textLines_join (by simp) fun l hl => (hall l hl).1,
        List.map_congr_left fun l hl => (hall l hl).2, List.map_id']
    rw [hwritten, asWritten, if_neg hstyle', hlines']
    exact if_neg hstars

end Written

section Form

variable {closed : Bool}

/-- A writer for lines that end in a line feed. -/
def plainContext : Writer.Context :=
  ⟨(Style.normalize {}).1, [], .empty, #[]⟩

/-- The lines of a block comment as they stand in a text make up a comment of the same form. -/
theorem Encloses.laid {isDoc : Prop} {r : Rendered}
    (h : Encloses closed isDoc r.lines) (column : Int) :
    ∃ body', r.laid column = 47 :: 42 :: body' ∧ Bytes.Closes closed body' ∧
      (CommentStyle.ofText (r.laid column) = .doc ↔ isDoc) := by
  obtain ⟨first, rest, hlines, hclose, hdoc⟩ := h
  have hsep : plainContext.style.separator ∈ Style.separators := Style.normalize_separator {}
  let hanging : Bytes := if r.aligned then List.replicate column.toNat 32 else []
  have hhang : ∀ b ∈ hanging, b = 32 ∨ b = 9 := by
    intro b hb
    simp only [hanging] at hb
    split_ifs at hb
    · exact Or.inl (List.eq_of_mem_replicate hb)
    · cases hb
  have hline (l : Bytes) : Writer.commentLine plainContext hanging l =
      newline :: if r.aligned then indented column l else l := by
    have hseparator : Writer.separator plainContext = [newline] := by decide
    rw [Writer.commentLine, hseparator, indented]
    simp only [hanging]
    split_ifs <;> simp_all
  have hlaid : r.laid column =
      47 :: 42 :: (first ++ rest.flatMap (Writer.commentLine plainContext hanging)) := by
    rw [List.flatMap_congr fun l _ => hline l, Rendered.laid, hlines]
    dsimp only
    rw [Bytes.join_eq_flatMap]
    split_ifs <;> simp [List.flatMap_map]
  refine ⟨_, hlaid, hclose.closes hsep hhang, ?_⟩
  rw [hlaid, ofText_eq_doc_iff, ← isDoc_iff_closes hsep, hdoc]

/-- A text starts as its first line does. -/
theorem isPrefixOf_eq {q s first : Bytes} {rest : List Bytes}
    (hq : ∀ b ∈ q, b ≠ newline ∧ isTrailing b = false) (hs : textLines s = first :: rest) :
    q.isPrefixOf s = q.isPrefixOf first := by
  obtain ⟨p, ps, hpieces⟩ := List.exists_cons_of_ne_nil (Bytes.pieces_ne_nil newline s)
  have hfirst : trimLine p = first := by
    rw [textLines, hpieces] at hs
    exact (List.cons.inj hs).1
  have hsplit : s = p ++ ps.flatMap (newline :: ·) := by
    rw [← Bytes.join_eq_flatMap, ← hpieces, Bytes.join_pieces]
  rw [Bool.eq_iff_iff, List.isPrefixOf_iff_prefix, List.isPrefixOf_iff_prefix, ← hfirst]
  constructor
  · intro h
    have hp : q <+: p := by
      obtain ⟨t, ht⟩ := h
      rw [hsplit] at ht
      rcases List.append_eq_append_iff.mp ht with ⟨u, rfl, -⟩ | ⟨u, rfl, hu⟩
      · exact List.prefix_append q u
      · cases u with
        | nil => simp
        | cons b u =>
            -- What follows the first line starts with a line break.
            have hb : b = newline := by
              cases ps with
              | nil => cases hu
              | cons l ps => exact (List.cons.inj hu).1.symm
            exact absurd hb (hq b (by simp)).1
    obtain ⟨t, rfl⟩ := hp
    have hkeep : trimLine q = q :=
      trimLine_eq_self_iff.mpr fun b hb => (hq b (List.mem_of_getLast? hb)).2
    rw [trimLine_append_left hkeep]
    exact List.prefix_append q _
  · intro h
    rw [hsplit]
    exact (h.trans (Bytes.trimRight_isPrefix _ _)).trans (List.prefix_append _ _)

theorem isByHand_eq (raw : Bytes) : isByHand raw = (!Lexer.isClosed raw commentEnd 2 ||
    (ascii "/*-").isPrefixOf raw || (ascii "/***").isPrefixOf raw) := by
  have hlength : decide (2 + commentEnd.length ≤ raw.length) = !decide (raw.length < 4) := by
    rw [commentEnd_eq, ← decide_not, decide_eq_decide]
    exact Nat.not_lt.symm
  rw [isByHand, Lexer.isClosed, hlength, Bool.not_and, Bool.not_not,
    Bool.or_comm (decide (raw.length < 4))]
  rfl

theorem head?_asWritten (hstyle : c.style ≠ .line) :
    c.asWritten.lines.head? = (textLines c.text).head? := by
  rw [asWritten, if_neg hstyle]
  cases textLines c.text with
  | nil => rfl
  | cons first rest =>
      dsimp only
      split_ifs <;> rfl

/-- A comment that was laid out by hand still is when it is kept. -/
theorem isByHand_again (hstyle : c.style ≠ .line) (hstyle' : c'.style ≠ .line)
    (htext : c'.text = c.asWritten.laid column)
    (hclosed : Lexer.isClosed c'.text commentEnd 2 = Lexer.isClosed c.text commentEnd 2) :
    isByHand c'.text = isByHand c.text := by
  obtain ⟨first, rest, hlines⟩ := List.exists_cons_of_ne_nil (textLines_ne_nil c.text)
  obtain ⟨first', rest', hlines'⟩ := List.exists_cons_of_ne_nil (textLines_ne_nil c'.text)
  have hhead := head?_asWritten hstyle'
  rw [asWritten_again hstyle hstyle' htext, head?_asWritten hstyle, hlines, hlines'] at hhead
  obtain rfl := Option.some.inj hhead
  have hdash : ∀ b ∈ ascii "/*-", b ≠ newline ∧ isTrailing b = false := by
    simp [ascii, newline, isTrailing]
  have hstars : ∀ b ∈ ascii "/***", b ≠ newline ∧ isTrailing b = false := by
    simp [ascii, newline, isTrailing]
  rw [isByHand_eq, isByHand_eq, hclosed, isPrefixOf_eq hdash hlines, isPrefixOf_eq hdash hlines',
    isPrefixOf_eq hstars hlines, isPrefixOf_eq hstars hlines']

end Form

end Comment

namespace Paragraph

open Comment

variable {b s : Bytes}

section Bare

/-- Whether a line has nothing behind the lead it has in a body. -/
def IsBare (b : Bytes) : Prop :=
  b.trim = [] ∨ ∃ ws t : Bytes, b = ws ++ 42 :: t ∧ (∀ x ∈ ws, x = 32 ∨ x = 9) ∧ t.trim = []

/-- A line with a star has the star, what is in front of it and one space as its lead. -/
theorem bareLine_star {t : Bytes} (h : (trimLine b).trimLeft (fun x => x = 32 || x = 9) = 42 :: t) :
    bareLine false b = Bytes.dropLead [32] t := by
  rw [bareLine, if_neg Bool.false_ne_true, h]
  rfl

theorem trim_bareLine_eq_nil_iff : (bareLine false b).trim = [] ↔ IsBare b := by
  let f (x : UInt8) : Bool := x = 32 || x = 9
  have hf : ∀ x, f x = true → x < 0x80 ∧ isBlank x.toNat = true := by
    intro x hx
    simp only [f, Bool.or_eq_true, decide_eq_true_eq] at hx
    obtain rfl | rfl := hx <;> decide
  have htrim : ((trimLine b).trimLeft f).trim = b.trim := by
    rw [Bytes.trim_trimLeft hf, trimLine, Bytes.trim_trimRight fun x hx => blank_of_isTrailing hx]
  constructor
  · intro h
    rw [bareLine, if_neg Bool.false_ne_true] at h
    split at h
    · rename_i rest hrest
      obtain ⟨tail, hb, htail⟩ := Bytes.exists_trimRight isTrailing b
      change b = trimLine b ++ tail at hb
      refine Or.inr ⟨(trimLine b).takeWhile f, rest ++ tail, ?_, fun x hx => ?_, ?_⟩
      · rw [Bytes.trimLeft] at hrest
        rw [← List.cons_append, ← hrest, ← List.append_assoc, List.takeWhile_append_dropWhile]
        exact hb
      · simpa [f] using List.mem_takeWhile_imp hx
      · rw [Bytes.trim_append_right rest fun x hx => blank_of_isTrailing (htail x hx),
          ← Bytes.trim_dropLead, h]
    · exact Or.inl (htrim ▸ h)
  · rintro (hblank | ⟨ws, t, rfl, hws, ht⟩)
    · rw [bareLine, if_neg Bool.false_ne_true]
      split
      · rename_i rest hrest
        change (trimLine b).trimLeft f = 42 :: rest at hrest
        rw [hrest, hblank] at htrim
        exact absurd htrim (Bytes.trim_ne_nil (by decide) (by decide) rest)
      · rw [htrim, hblank]
    · have hstar : trimLine (ws ++ 42 :: t) = ws ++ 42 :: trimLine t := by
        have hcons : trimLine (42 :: t) = 42 :: trimLine t := Bytes.trimRight_cons (by decide) t
        rw [trimLine, Bytes.trimRight_append ws
          (by rw [← trimLine, hcons]; exact List.cons_ne_nil _ _), ← trimLine, hcons]
      have hleft : (trimLine (ws ++ 42 :: t)).trimLeft f = 42 :: trimLine t := by
        rw [hstar, Bytes.trimLeft, List.dropWhile_append_of_pos (by simpa [f] using hws),
          List.dropWhile_cons_of_neg (by decide)]
      rw [bareLine_star hleft, Bytes.trim_dropLead, trimLine,
        Bytes.trim_trimRight fun x hx => blank_of_isTrailing hx, ht]

theorem isBare_indented (column : Int) (hs : s.trim = []) :
    IsBare (List.replicate column.toNat 32 ++ 32 :: 42 :: s) := by
  refine Or.inr ⟨List.replicate column.toNat 32 ++ [32], s, by simp, fun x hx => Or.inl ?_, hs⟩
  rcases List.mem_append.mp hx with hx | hx
  · exact List.eq_of_mem_replicate hx
  · exact List.mem_singleton.mp hx

theorem trim_lead (ws s : Bytes) (hws : ∀ x ∈ ws, x = 32 ∨ x = 9) :
    Bytes.trim (ws ++ s) = s.trim := by
  refine Bytes.trim_append_left s fun x hx => ?_
  rcases hws x hx with rfl | rfl <;> decide

/-- A line with nothing but a star still has nothing else where its star is put under another. -/
theorem IsBare.starred (h : IsBare b) (hstar : isStarred b = true) (column : Int) :
    IsBare (indented column (32 :: b.trim)) := by
  rcases h with hblank | ⟨ws, t, rfl, hws, ht⟩
  · simp [isStarred, hblank] at hstar
  · rw [trim_lead ws _ hws, Bytes.trim_cons_of_blank (by decide) (by decide) ht]
    exact isBare_indented column rfl

/-- The same for the last line, which has the closing delimiter. -/
theorem IsBare.starred_end (h : IsBare b) (column : Int) : ∃ s,
    indented column (32 :: (b ++ commentEnd).trim) = s ++ commentEnd ∧ IsBare s := by
  have hindented (t : Bytes) :
      indented column (32 :: t) = List.replicate column.toNat 32 ++ 32 :: t :=
    if_neg (by simp)
  rcases h with hblank | ⟨ws, t, rfl, hws, ht⟩
  · refine ⟨List.replicate column.toNat 32 ++ [32], ?_, Or.inl ?_⟩
    · rw [hindented, commentEnd_eq, Bytes.trim_append_of_blank hblank (by decide)]
      simp
      decide
    · rw [Bytes.trim_replicate_append]
      decide
  · refine ⟨List.replicate column.toNat 32 ++ 32 :: 42 :: t, ?_, isBare_indented column ht⟩
    have htrim := Bytes.trim_between (a := 42) (b := 47) (by decide) (by decide) (by decide)
      (by decide) (t ++ [42])
    have hsplit : (42 :: t) ++ [42, 47] = 42 :: ((t ++ [42]) ++ [47]) := by simp
    rw [hindented, commentEnd_eq, List.append_assoc, trim_lead ws _ hws, hsplit, htrim]
    simp

/-- The first line of a body has nothing behind its lead as long as it is blank. -/
theorem trim_bareLine_first (b : Bytes) : (bareLine true b).trim = b.trim := by
  rw [bareLine, if_pos rfl, Bytes.trim_dropLead, trimLine,
    Bytes.trim_trimRight fun x hx => blank_of_isTrailing hx]

theorem bareLine_trimLine (isFirst : Bool) (b : Bytes) :
    bareLine isFirst (trimLine b) = bareLine isFirst b := by
  rw [bareLine, bareLine, trimLine_trimLine]

theorem bareLines_join {p : Bytes} {ps : List Bytes} (h : ∀ l ∈ p :: ps, newline ∉ l) :
    bareLines (Bytes.join [newline] (p :: ps)) = bareLine true p :: ps.map (bareLine false) := by
  rw [bareLines, Bytes.pieces_join (List.cons_ne_nil p ps) h]

end Bare

end Paragraph

namespace Comment

open Paragraph

/-- Lines between an opening and a closing delimiter. -/
theorem join_enclosed (opening closing p last : Bytes) (ps : List Bytes) :
    Bytes.join [newline] ((opening ++ p) :: (ps ++ [last ++ closing])) =
      opening ++ Bytes.join [newline] (p :: (ps ++ [last])) ++ closing := by
  rw [Bytes.join_cons_append, ← List.cons_append, Bytes.join_concat_append, List.cons_append,
    List.append_assoc]

/-- A comment without text that is kept is written without text. -/
theorem laid_asWritten_blank {c : Comment} {opening body : Bytes} (column : Int)
    (hstyle : c.style ≠ .line) (hnone : newline ∉ opening) (hlast : trimLine opening = opening)
    (htext : c.text = opening ++ body ++ commentEnd) (h : ∀ l ∈ bareLines body, l.trim = []) :
    ∃ body', c.asWritten.laid column = opening ++ body' ++ commentEnd ∧
      ∀ l ∈ bareLines body', l.trim = [] := by
  obtain ⟨p, ps, hpieces⟩ := List.exists_cons_of_ne_nil (Bytes.pieces_ne_nil newline body)
  have hbody : body = Bytes.join [newline] (p :: ps) := by rw [← hpieces, Bytes.join_pieces]
  have hfree : ∀ l ∈ p :: ps, newline ∉ l := fun l hl =>
    Bytes.not_mem_of_mem_pieces (hpieces ▸ hl)
  have hend (s : Bytes) : trimLine (s ++ commentEnd) = s ++ commentEnd :=
    trimLine_append s (by decide) (by decide)
  have hendFree : newline ∉ commentEnd := by decide
  rcases List.eq_nil_or_concat' ps with rfl | ⟨qs, last, rfl⟩
  · have hlines : textLines c.text = [c.text] := by
      have hjoin : c.text = Bytes.join [newline] [c.text] := rfl
      have hp := hfree p List.mem_cons_self
      have hmem : newline ∉ c.text := by
        rw [htext, hbody]
        simpa [Bytes.join] using ⟨hnone, hp, hendFree⟩
      rw [hjoin, textLines_join (List.cons_ne_nil _ _) (by simpa using hmem), List.map_singleton,
        ← hjoin, htext, hend]
    refine ⟨body, ?_, h⟩
    rw [asWritten, if_neg hstyle, hlines]
    exact htext
  · rw [hbody, bareLines_join hfree, List.forall_mem_cons, trim_bareLine_first, List.map_append,
      List.forall_mem_append, List.forall_mem_map, List.map_singleton, List.forall_mem_singleton,
      trim_bareLine_eq_nil_iff] at h
    obtain ⟨hfirst, hrest, hbare⟩ := h
    obtain ⟨hp, hqs⟩ := List.forall_mem_cons.mp hfree
    obtain ⟨hqs, hl⟩ := List.forall_mem_append.mp hqs
    rw [List.forall_mem_singleton] at hl
    have hlines : textLines c.text =
        (opening ++ trimLine p) :: (qs.map trimLine ++ [last ++ commentEnd]) := by
      rw [htext, hbody, ← join_enclosed, textLines_join (List.cons_ne_nil _ _), List.map_cons,
        List.map_append, List.map_singleton, trimLine_append_left hlast, hend]
      refine List.forall_mem_cons.mpr ⟨?_, List.forall_mem_append.mpr ⟨hqs, ?_⟩⟩
      · exact List.mem_append.not.mpr (not_or.mpr ⟨hnone, hp⟩)
      · rw [List.forall_mem_singleton]
        exact List.mem_append.not.mpr (not_or.mpr ⟨hl, hendFree⟩)
    have hkeep : ∀ {l : Bytes}, newline ∉ l → newline ∉ trimLine l := fun hl hmem =>
      hl ((Bytes.trimRight_isPrefix _ _).subset hmem)
    have hbareq : ∀ q ∈ qs, IsBare (trimLine q) := fun q hq => by
      rw [← trim_bareLine_eq_nil_iff, bareLine_trimLine]
      exact hrest q hq
    have hfinish : ∀ (g : Bytes → Bytes) (s : Bytes),
        (∀ q ∈ qs, newline ∉ g q ∧ IsBare (g q)) → newline ∉ s ∧ IsBare s →
        c.asWritten.laid column =
          Bytes.join [newline] ((opening ++ trimLine p) :: (qs.map g ++ [s ++ commentEnd])) →
        ∃ body', c.asWritten.laid column = opening ++ body' ++ commentEnd ∧
          ∀ l ∈ bareLines body', l.trim = [] := by
      intro g s hg hs hlaid
      have hfree' : ∀ l ∈ trimLine p :: (qs.map g ++ [s]), newline ∉ l := by
        refine List.forall_mem_cons.mpr ⟨hkeep hp, List.forall_mem_append.mpr ⟨?_, ?_⟩⟩
        · exact List.forall_mem_map.mpr fun q hq => (hg q hq).1
        · exact List.forall_mem_singleton.mpr hs.1
      refine ⟨_, hlaid.trans (join_enclosed _ _ _ _ _), ?_⟩
      rw [bareLines_join hfree', List.forall_mem_cons, trim_bareLine_first, List.map_append,
        List.forall_mem_append, List.forall_mem_map, List.map_singleton, List.forall_mem_singleton,
        trim_bareLine_eq_nil_iff, List.forall_mem_map]
      refine ⟨?_, fun q hq => trim_bareLine_eq_nil_iff.mpr (hg q hq).2, hs.2⟩
      rw [trimLine, Bytes.trim_trimRight fun x hx => blank_of_isTrailing hx, hfirst]
    by_cases hstars : (qs.map trimLine ++ [last ++ commentEnd]).all isStarred = true
    · have hwritten : c.asWritten = ⟨(opening ++ trimLine p) ::
          (qs.map trimLine ++ [last ++ commentEnd]).map fun l => 32 :: l.trim, true⟩ := by
        rw [asWritten, if_neg hstyle, hlines]
        exact if_pos hstars
      have hin : ∀ {l : Bytes}, newline ∉ l → newline ∉ indented column (32 :: l.trim) := by
        intro l hl hmem
        have hline := (mem_indented hmem).resolve_left (by decide)
        exact hl ((Bytes.trim_isInfix l).subset ((List.mem_cons.mp hline).resolve_left (by decide)))
      rw [List.all_append, Bool.and_eq_true, List.all_map, List.all_eq_true] at hstars
      obtain ⟨s, hs, hbare'⟩ := hbare.starred_end column
      have hsFree : newline ∉ s := by
        have hall := hin (List.mem_append.not.mpr (not_or.mpr ⟨hl, hendFree⟩))
        rw [hs, List.mem_append, not_or] at hall
        exact hall.1
      refine hfinish (fun q => indented column (32 :: (trimLine q).trim)) s
        (fun q hq => ⟨hin (hkeep (hqs q hq)), (hbareq q hq).starred (hstars.1 q hq) column⟩)
        ⟨hsFree, hbare'⟩ ?_
      rw [hwritten, Rendered.laid, ← hs]
      simp [Function.comp_def]
    · refine hfinish trimLine last (fun q hq => ⟨hkeep (hqs q hq), hbareq q hq⟩) ⟨hl, hbare⟩ ?_
      rw [asWritten, if_neg hstyle, hlines]
      dsimp only
      rw [if_neg hstars]
      rfl

end Comment

end CodeLayout
