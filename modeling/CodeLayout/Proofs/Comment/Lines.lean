import CodeLayout.Comment.Reflow
import CodeLayout.Output
import CodeLayout.Proofs.Text.Characters
import CodeLayout.Proofs.Token.Comments

/-!
# Lines of line comments

However line comments are laid out, each line that is written for them is a line comment of its own:
it starts with two slashes and holds no line break.
-/

namespace CodeLayout

/-- Whether a text holds no line break. -/
def Bytes.IsUnbroken (s : Bytes) : Prop :=
  ∀ b ∈ s, Lexer.isEol b = false

namespace Bytes

theorem endsLine_append (s : Bytes) {t : Bytes} (ht : t ≠ []) : (s ++ t).endsLine = t.endsLine := by
  rw [endsLine, endsLine, List.getLast?_append_of_ne_nil _ ht]

theorem endsLine_eq_false_iff {s : Bytes} :
    s.endsLine = false ↔ ∀ b ∈ s.getLast?, Lexer.isEol b = false := by
  rw [endsLine]
  cases s.getLast? with
  | none => simp
  | some b => simp [Lexer.isEol, and_comm]

end Bytes

namespace Bytes.IsUnbroken

variable {s t : Bytes}

theorem endsLine (h : s.IsUnbroken) : s.endsLine = false :=
  endsLine_eq_false_iff.mpr fun b hb => h b (List.mem_of_getLast? hb)

theorem of_subset (h : t.IsUnbroken) (hst : s ⊆ t) : s.IsUnbroken :=
  fun b hb => h b (hst hb)

theorem append (hs : s.IsUnbroken) (ht : t.IsUnbroken) : (s ++ t).IsUnbroken := by
  intro b hb
  exact (List.mem_append.mp hb).elim (hs b) (ht b)

theorem join {sep : Bytes} (hsep : sep.IsUnbroken) {ts : List Bytes}
    (h : ∀ t ∈ ts, t.IsUnbroken) : (Bytes.join sep ts).IsUnbroken := by
  fun_induction Bytes.join sep ts with
  | case1 => nofun
  | case2 t => exact h t List.mem_cons_self
  | case3 t u ts ih =>
      have hrest := ih fun v hv => h v (List.mem_cons_of_mem t hv)
      exact ((h t List.mem_cons_self).append hsep).append hrest

end Bytes.IsUnbroken

/-- Whether a text is a line comment. -/
def Bytes.IsLineComment (s : Bytes) : Prop :=
  ∃ body : Bytes, s = 47 :: 47 :: body ∧ body.IsUnbroken

namespace Bytes.IsLineComment

variable {s : Bytes}

theorem isUnbroken (h : s.IsLineComment) : s.IsUnbroken := by
  obtain ⟨body, rfl, hbody⟩ := h
  intro b hb
  rcases List.mem_cons.mp hb with rfl | hb
  · rfl
  · rcases List.mem_cons.mp hb with rfl | hb
    · rfl
    · exact hbody b hb

theorem ofText_eq (h : s.IsLineComment) : CommentStyle.ofText s = .line := by
  obtain ⟨body, rfl, -⟩ := h
  exact CommentStyle.ofText_line body

theorem ne_nil (h : s.IsLineComment) : s ≠ [] := by
  obtain ⟨body, rfl, -⟩ := h
  simp

end Bytes.IsLineComment

/-- A comment that is a line comment by its form goes on to the end of its line. -/
theorem IsComment.isLineComment {text rest : Bytes} (h : IsComment text rest)
    (hline : CommentStyle.ofText text = .line) : text.IsLineComment ∧ rest.StartsLine := by
  have hblock : ∀ body, CommentStyle.ofText (47 :: 42 :: body) ≠ .line := by
    intro body
    rw [CommentStyle.ofText_block]
    split_ifs <;> nofun
  cases h with
  | line hbody hrest => exact ⟨⟨_, rfl, hbody⟩, hrest⟩
  | closed => exact absurd hline (hblock _)
  | unclosed => exact absurd hline (hblock _)

namespace Comment

section Pack

variable {avail used : Int} {line words ws : List Bytes}

theorem packFrom_subset (h : ws ∈ packFrom avail line used words) : ws ⊆ line ++ words := by
  fun_induction packFrom avail line used words with
  | case1 line used hempty => simp at h
  | case2 line used hempty => simp_all
  | case3 line used w rest width hempty ih =>
      exact List.Subset.trans (ih h) (by simp)
  | case4 line used w rest width hempty hwide ih =>
      rcases List.mem_cons.mp h with rfl | h
      · simp
      · exact List.Subset.trans (ih h) (by simp)
  | case5 line used w rest width hempty hfits ih =>
      exact List.Subset.trans (ih h) (by simp)

/-- Packing words makes no new ones. -/
theorem pack_subset (h : ws ∈ pack words avail) : ws ⊆ words := by
  simpa using packFrom_subset h

theorem packFrom_ne_nil (h : line ≠ [] ∨ words ≠ []) : packFrom avail line used words ≠ [] := by
  fun_induction packFrom avail line used words with
  | case1 line used hempty => simp_all
  | case2 line used hempty => simp
  | case3 line used w rest width hempty ih => exact ih (Or.inl (List.cons_ne_nil w []))
  | case4 line used w rest width hempty hwide ih => simp
  | case5 line used w rest width hempty hfits ih => exact ih (Or.inl (List.cons_ne_nil w line))

theorem pack_ne_nil (h : words ≠ []) : pack words avail ≠ [] :=
  packFrom_ne_nil (Or.inr h)

end Pack

variable {raw : Bytes}

theorem trimLine_isLineComment (h : raw.IsLineComment) : (trimLine raw).IsLineComment := by
  obtain ⟨body, rfl, hbody⟩ := h
  rw [trimLine, Bytes.trimRight_cons rfl, Bytes.trimRight_cons rfl]
  exact ⟨_, rfl, hbody.of_subset (Bytes.trimRight_isPrefix _ _).subset⟩

/-- A line comment stays as it is if it fits or has less than two words, or its words are packed
into lines behind its slashes. -/
theorem reflowLine_cases (tabstop column limit : Int) (raw : Bytes) :
    (reflowLine tabstop column limit raw = [trimLine raw] ∧
      (Width.advanceWord column tabstop (trimLine raw) ≤ limit ∨
        (Bytes.words ((trimLine raw).dropWhile (· = 47))).length < 2)) ∨
      ∃ marker blank body : Bytes, trimLine raw = marker ++ body ∧ (∀ b ∈ marker, b = 47) ∧
        body.head? ≠ some 47 ∧ (blank = [] ∨ blank = [32]) ∧ body.words ≠ [] ∧
        reflowLine tabstop column limit raw =
          (pack body.words (room column limit (Width.text (marker ++ blank)))).map fun ws =>
            marker ++ blank ++ joinWords ws := by
  by_cases hfits : Width.advanceWord column tabstop (trimLine raw) ≤ limit
  · exact Or.inl ⟨if_pos hfits, Or.inl hfits⟩
  by_cases hshort : (Bytes.words ((trimLine raw).dropWhile (· = 47))).length < 2
  · exact Or.inl ⟨(if_neg hfits).trans (if_pos hshort), Or.inr hshort⟩
  · refine Or.inr ⟨(trimLine raw).takeWhile (· = 47), _, (trimLine raw).dropWhile (· = 47),
      List.takeWhile_append_dropWhile.symm, fun b hb => ?_, ?_, ?_, ?_,
      (if_neg hfits).trans (if_neg hshort)⟩
    · simpa using List.mem_takeWhile_imp hb
    · intro hhead
      have hnot := List.head?_dropWhile_not (fun b : UInt8 => b = 47) (trimLine raw)
      simp [hhead] at hnot
    · split_ifs <;> simp
    · rintro hnil
      simp [hnil] at hshort

/-- A line comment that is wrapped starts with slashes. -/
theorem exists_marker {marker body : Bytes} (h : raw.IsLineComment)
    (hraw : trimLine raw = marker ++ body) (hmarker : ∀ b ∈ marker, b = 47)
    (hbody : body.head? ≠ some 47) : ∃ more : Bytes, marker = 47 :: 47 :: more := by
  obtain ⟨rest, hrest, -⟩ := trimLine_isLineComment h
  rw [hrest] at hraw
  rcases marker with _ | ⟨a, _ | ⟨b, more⟩⟩
  · exact absurd (congrArg List.head? hraw).symm hbody
  · exact absurd (congrArg List.head? (List.cons.inj hraw).2).symm hbody
  · rw [hmarker a (by simp), hmarker b (by simp)]
    exact ⟨more, rfl⟩

/-- A line comment is laid out as line comments. -/
theorem reflowLine_isLineComment {tabstop column limit : Int} (h : raw.IsLineComment) {l : Bytes}
    (hl : l ∈ reflowLine tabstop column limit raw) : l.IsLineComment := by
  have htrim := trimLine_isLineComment h
  rcases reflowLine_cases tabstop column limit raw with
    ⟨heq, -⟩ | ⟨marker, blank, body, hraw, hmarker, hbody, hblank, -, heq⟩
  · rw [heq, List.mem_singleton] at hl
    exact hl ▸ htrim
  · rw [heq] at hl
    obtain ⟨ws, hws, rfl⟩ := List.mem_map.mp hl
    have hunbroken := htrim.isUnbroken
    obtain ⟨more, rfl⟩ := exists_marker h hraw hmarker hbody
    rw [hraw] at hunbroken
    have hwords : ∀ w ∈ ws, w.IsUnbroken := fun w hw => by
      have hinfix := Bytes.isInfix_of_mem_words (pack_subset hws hw)
      exact hunbroken.of_subset
        (List.Subset.trans hinfix.subset (List.subset_append_right _ _))
    have hspace : Bytes.IsUnbroken [32] := fun b hb => by
      rw [List.mem_singleton.mp hb]
      rfl
    have hlead : Bytes.IsUnbroken (more ++ blank) := by
      refine Bytes.IsUnbroken.append (hunbroken.of_subset fun b hb => by simp [hb]) ?_
      obtain rfl | rfl := hblank
      · nofun
      · exact hspace
    exact ⟨more ++ blank ++ joinWords ws, by simp, hlead.append (hspace.join hwords)⟩

theorem reflowLine_ne_nil (tabstop column limit : Int) (raw : Bytes) :
    reflowLine tabstop column limit raw ≠ [] := by
  rcases reflowLine_cases tabstop column limit raw with
    ⟨heq, -⟩ | ⟨marker, blank, body, -, -, -, -, hwords, heq⟩
  · simp [heq]
  · rw [heq, ne_eq, List.map_eq_nil_iff]
    exact pack_ne_nil hwords

section Render

variable {raw : List Bytes} {options : CommentOptions}

theorem render_of_line {c : Comment} (h : c.style = .line) (column limit : Int) :
    c.render column limit = ⟨if c.options.reflow then
      c.raw.flatMap (reflowLine c.options.tabstop column limit) else c.raw.map trimLine, true⟩ := by
  cases hreflow : c.options.reflow <;> simp [render, asWritten, h, hreflow]

theorem style_ofRaw_of_line (h : ∀ text ∈ raw, text.IsLineComment) :
    (ofRaw raw options).style = .line := by
  cases raw with
  | nil => rfl
  | cons text rest => exact (h text List.mem_cons_self).ofText_eq

/-- Line comments are laid out as line comments. -/
theorem render_isLineComment (options : CommentOptions) (h : ∀ text ∈ raw, text.IsLineComment)
    (column limit : Int) :
    ((ofRaw raw options).render column limit).aligned = true ∧
      ∀ l ∈ ((ofRaw raw options).render column limit).lines, l.IsLineComment := by
  rw [render_of_line (style_ofRaw_of_line h)]
  refine ⟨rfl, fun l hl => ?_⟩
  dsimp only at hl
  split_ifs at hl
  · obtain ⟨text, htext, hl⟩ := List.mem_flatMap.mp hl
    exact reflowLine_isLineComment (h text htext) hl
  · obtain ⟨text, htext, rfl⟩ := List.mem_map.mp hl
    exact trimLine_isLineComment (h text htext)

theorem render_lines_ne_nil (options : CommentOptions) (h : ∀ text ∈ raw, text.IsLineComment)
    (hne : raw ≠ []) (column limit : Int) :
    ((ofRaw raw options).render column limit).lines ≠ [] := by
  obtain ⟨text, rest, rfl⟩ := List.exists_cons_of_ne_nil hne
  rw [render_of_line (style_ofRaw_of_line h)]
  dsimp only
  split_ifs
  · simp [ofRaw, reflowLine_ne_nil]
  · simp [ofRaw]

end Render

end Comment

namespace Writer

/-- A comment is written as its first line and the others, each behind a line break. -/
theorem commentText_cons (x : Context) (text : Bytes) {p : Placement} {r : Rendered}
    {first : Bytes} {rest : List Bytes} (hr : p.rendered = some r)
    (hlines : r.lines = first :: rest) :
    commentText x text p =
      first ++ rest.flatMap (commentLine x (if r.aligned then indentText x p.hanging else [])) := by
  have hwritten : commentLines text p = (first :: rest, r.aligned) := by
    rw [commentLines, hr]
    simp [hlines]
  rw [commentText, hwritten]

/-- A comment without empty lines is its lines, each but the first behind a line break. -/
theorem commentText_eq_join (x : Context) (text : Bytes) {p : Placement} {r : Rendered}
    (hr : p.rendered = some r) (hlines : r.lines ≠ []) (hne : ∀ l ∈ r.lines, l ≠ []) :
    commentText x text p =
      Bytes.join (separator x ++ if r.aligned then indentText x p.hanging else []) r.lines := by
  obtain ⟨first, rest, hsplit⟩ := List.exists_cons_of_ne_nil hlines
  rw [commentText_cons x text hr hsplit, hsplit]
  rw [hsplit] at hne
  have hrest : ∀ l ∈ rest, l ≠ [] := fun l hl => hne l (List.mem_cons_of_mem first hl)
  clear hsplit hne
  induction rest generalizing first with
  | nil => simp [Bytes.join]
  | cons l rest ih =>
      rw [List.forall_mem_cons] at hrest
      rw [List.flatMap_cons, commentLine, if_neg (by simpa using hrest.1), Bytes.join,
        ← ih l hrest.2]
      simp

end Writer

end CodeLayout
