import CodeLayout.Proofs.Comment.Closing
import CodeLayout.Proofs.Text.Words

/-!
# What paragraphs are made of

The words and lines of the paragraphs of a body are cut out of the body, or put together from parts
of it with spaces in between. So they have what all words and lines of the body have. In particular
they hold the closing delimiter only if the body does.
-/

namespace CodeLayout

namespace Bytes

theorem dropLead_isSuffix (p s : Bytes) : dropLead p s <:+ s := by
  rw [dropLead]
  split_ifs
  · exact List.drop_suffix _ _
  · exact List.suffix_refl s

end Bytes

namespace Paragraph

/-- Whether nothing in a paragraph closes a comment. -/
structure IsOpen (p : Paragraph) : Prop where
  words : ∀ w ∈ p.words, w.IsOpen
  pre : ∀ l ∈ p.pre, l.IsOpen

section Words

variable {w : Bytes} {ws : List Bytes}

theorem joinInline_isOpen {acc : Option (Bytes × Int)} (hacc : ∀ a ∈ acc, a.1.IsOpen)
    (hws : ∀ w ∈ ws, w.IsOpen) : ∀ w ∈ joinInline acc ws, w.IsOpen := by
  have hjoin : ∀ {v w : Bytes}, v.IsOpen → w.IsOpen → Bytes.IsOpen (Bytes.join [32] [v, w]) :=
    fun hv hw => Bytes.IsOpen.join (by simpa using ⟨hv, hw⟩)
  fun_induction joinInline acc ws with
  | case1 => simp
  | case2 w depth =>
      rw [List.forall_mem_singleton]
      exact hacc _ rfl
  | case3 f fs hopens ih =>
      obtain ⟨hf, hfs⟩ := List.forall_mem_cons.mp hws
      exact ih (fun a ha => Option.some.inj ha ▸ hf) hfs
  | case4 f fs hopens ih =>
      obtain ⟨hf, hfs⟩ := List.forall_mem_cons.mp hws
      exact List.forall_mem_cons.mpr ⟨hf, ih hacc hfs⟩
  | case5 w depth f fs w' depth' hdepth ih =>
      obtain ⟨hf, hfs⟩ := List.forall_mem_cons.mp hws
      exact ih (fun a ha => Option.some.inj ha ▸ hjoin (hacc _ rfl) hf) hfs
  | case6 w depth f fs w' depth' hdepth ih =>
      obtain ⟨hf, hfs⟩ := List.forall_mem_cons.mp hws
      exact List.forall_mem_cons.mpr ⟨hjoin (hacc _ rfl) hf, ih (by simp) hfs⟩

theorem atoms_isOpen {line : Bytes} (h : line.IsOpen) : ∀ w ∈ atoms line, w.IsOpen :=
  joinInline_isOpen nofun fun _ hw => h.of_isInfix (Bytes.isInfix_of_mem_words hw)

/-- A word is cut into its pieces. -/
theorem flatten_splitMarkupFrom (left : Nat) (cur s : Bytes) :
    (splitMarkupFrom left cur s).flatten = cur.reverse ++ s := by
  have hpiece (cur : Bytes) : (piece cur).flatten = cur.reverse := by
    rw [piece]
    split_ifs with hempty
    · rw [List.isEmpty_iff.mp hempty]
      rfl
    · simp
  fun_induction splitMarkupFrom left cur s <;> simp_all

theorem flatten_splitMarkup (w : Bytes) : (splitMarkup w).flatten = w := by
  rw [splitMarkup]
  split_ifs
  · simp
  · rw [flatten_splitMarkupFrom]
    rfl

theorem splitMarkup_isInfix {v : Bytes} (h : v ∈ splitMarkup w) : v <:+: w := by
  obtain ⟨front, back, hsplit⟩ := List.append_of_mem h
  refine ⟨front.flatten, back.flatten, ?_⟩
  rw [← flatten_splitMarkup w, hsplit, List.flatten_append, List.flatten_cons, List.append_assoc]

theorem splitMarkup_isOpen (h : w.IsOpen) : ∀ p ∈ splitMarkup w, p.IsOpen :=
  fun _ hp => h.of_isInfix (splitMarkup_isInfix hp)

end Words

/-- Whether every word of a paragraph has one property and every line that is copied another. -/
structure All (P Q : Bytes → Prop) (p : Paragraph) : Prop where
  words : ∀ w ∈ p.words, P w
  pre : ∀ l ∈ p.pre, Q l

/-- Whether what a line may be read as has a property: its words, and the pieces of these. -/
def AreWords (P : Bytes → Prop) (l : Bytes) : Prop :=
  ∀ a ∈ atoms l, P a ∧ ∀ w ∈ splitMarkup a, P w

namespace Reading

/-- Whether all that was read has the properties. -/
structure All (P Q : Bytes → Prop) (r : Reading) : Prop where
  done : ∀ p ∈ r.done, p.All P Q
  current : ∀ p ∈ r.current, p.All P Q

variable {P Q : Bytes → Prop} {m : Mode} {r : Reading} {l w : Bytes}

theorem All.flush (h : r.All P Q) : r.flush.All P Q := by
  rw [Reading.flush]
  split
  · rename_i p hp
    exact ⟨List.forall_mem_cons.mpr ⟨h.current p hp, h.done⟩, nofun⟩
  · exact h

theorem All.start (h : r.All P Q) {p : Paragraph} (hp : p.All P Q) : (r.start p).All P Q :=
  ⟨h.done, fun _ hq => Option.some.inj hq ▸ hp⟩

theorem All.word (h : r.All P Q) (hw : P w) : (r.word m w).All P Q := by
  rw [Reading.word]
  split
  · rename_i p hp
    have hcurrent := h.current p hp
    refine ⟨h.done, fun q hq => ?_⟩
    obtain rfl := Option.some.inj hq
    refine ⟨fun v hv => ?_, hcurrent.pre⟩
    rcases List.mem_append.mp hv with hv | hv
    · exact hcurrent.words v hv
    · exact List.mem_singleton.mp hv ▸ hw
  · exact h.start ⟨by simpa using hw, by simp [fresh]⟩

theorem All.tagLine (h : r.All P Q) (hw : P w) : (r.tagLine w).All P Q :=
  (h.start ⟨by simpa using hw, by simp [fresh]⟩).flush

theorem All.markup (h : r.All P Q) (hw : P w) : (r.markup m w).All P Q := by
  rw [Reading.markup]
  dsimp only
  split_ifs
  · have htag := h.flush.tagLine hw
    exact ⟨htag.done, htag.current⟩
  · exact All.tagLine ⟨h.flush.done, h.flush.current⟩ hw
  · exact h.flush.word hw
  · exact h.word hw

theorem All.foldl (h : r.All P Q) {R : Bytes → Prop} {f : Reading → Bytes → Reading}
    (hf : ∀ {r : Reading} {w : Bytes}, r.All P Q → R w → (f r w).All P Q) {ws : List Bytes}
    (hws : ∀ w ∈ ws, R w) : (ws.foldl f r).All P Q := by
  induction ws generalizing r with
  | nil => exact h
  | cons w ws ih =>
      obtain ⟨hw, hrest⟩ := List.forall_mem_cons.mp hws
      exact ih (hf h hw) hrest

theorem All.words (h : r.All P Q) (hl : AreWords P l) : (r.words m l).All P Q := by
  rw [Reading.words]
  split_ifs
  · refine h.foldl (R := P) All.markup fun w hw => ?_
    obtain ⟨a, ha, hw⟩ := List.mem_flatMap.mp hw
    exact (hl a ha).2 w hw
  · exact h.foldl (R := P) All.word fun a ha => (hl a ha).1

theorem All.preLine (h : r.All P Q) (hl : Q l) : (r.preLine l).All P Q := by
  have hnext : Reading.All P Q
      { r with current := r.current.map fun p => { p with pre := p.pre ++ [l] } } := by
    refine ⟨h.done, fun q hq => ?_⟩
    obtain ⟨p, hp, rfl⟩ := Option.map_eq_some_iff.mp hq
    have hcurrent := h.current p hp
    refine ⟨hcurrent.words, fun k hk => ?_⟩
    rcases List.mem_append.mp hk with hk | hk
    · exact hcurrent.pre k hk
    · exact List.mem_singleton.mp hk ▸ hl
  rw [Reading.preLine]
  dsimp only
  split_ifs
  · exact All.flush ⟨hnext.done, hnext.current⟩
  · exact hnext

theorem All.openPre (h : r.All P Q) (hl : Q l) : (r.openPre l).All P Q := by
  have hstart := h.flush.start (p := { r.flush.fresh with pre := [l] })
    ⟨by simp [fresh], by simpa using hl⟩
  rw [Reading.openPre]
  dsimp only
  split_ifs
  · exact hstart.flush
  · exact ⟨hstart.done, hstart.current⟩

theorem All.keptLine (h : r.All P Q) (hl : AreWords P l.trim) : (r.keptLine m l).All P Q :=
  ((h.flush.start ⟨by simp [fresh], by simp [fresh]⟩).words hl).flush

/-- Reading a line of which the words and the text have the properties. -/
theorem All.line (h : r.All P Q) (hl : Q l ∧ AreWords P l.trim) : (r.line m l).All P Q := by
  obtain ⟨hl, htrim⟩ := hl
  rw [Reading.line]
  dsimp only
  split_ifs
  · exact h.preLine hl
  · exact ⟨h.flush.done, h.flush.current⟩
  · exact h.openPre hl
  · exact h.keptLine htrim
  · exact h.flush.words htrim
  · exact h.words htrim

end Reading

/-- Paragraphs have the properties that the words and the texts of the lines of their body have. -/
theorem all_of_mem_ofBody {P Q : Bytes → Prop} {m : Mode} {body : Bytes}
    (h : ∀ l ∈ bareLines body, Q l ∧ AreWords P l.trim) : ∀ p ∈ ofBody m body, p.All P Q := by
  have hstart : Reading.All P Q {} := ⟨nofun, nofun⟩
  intro p hp
  exact (hstart.foldl Reading.All.line h).flush.done p (List.mem_reverse.mp hp)

theorem bareLine_isInfix (isFirst : Bool) (l : Bytes) : bareLine isFirst l <:+: l := by
  have htrim : Comment.trimLine l <:+: l := (Bytes.trimRight_isPrefix _ l).isInfix
  rw [bareLine]
  split_ifs
  · exact (Bytes.dropLead_isSuffix _ _).isInfix.trans htrim
  · have hleft : (Comment.trimLine l).trimLeft (fun b => b = 32 || b = 9) <:+: Comment.trimLine l :=
      (List.dropWhile_suffix _).isInfix
    split
    · rename_i rest heq
      rw [heq] at hleft
      have hstar : rest <:+: 42 :: rest := (List.suffix_cons 42 rest).isInfix
      exact (Bytes.dropLead_isSuffix _ _).isInfix.trans (hstar.trans (hleft.trans htrim))
    · exact hleft.trans htrim

theorem bareLines_isOpen {body : Bytes} (h : body.IsOpen) : ∀ l ∈ bareLines body, l.IsOpen := by
  have hpieces : ∀ l ∈ body.pieces newline, l.IsOpen := fun l hl =>
    h.of_isInfix (Bytes.pieces_isInfix hl)
  intro l hl
  rw [bareLines] at hl
  split at hl
  · simp at hl
  · rename_i first rest heq
    rw [heq, List.forall_mem_cons] at hpieces
    rcases List.mem_cons.mp hl with rfl | hl
    · exact hpieces.1.of_isInfix (bareLine_isInfix true first)
    · obtain ⟨k, hk, rfl⟩ := List.mem_map.mp hl
      exact (hpieces.2 k hk).of_isInfix (bareLine_isInfix false k)

/-- The paragraphs of a body that closes nothing close nothing. -/
theorem ofBody_isOpen {m : Mode} {body : Bytes} (h : body.IsOpen) :
    ∀ p ∈ ofBody m body, p.IsOpen := by
  have hlines : ∀ l ∈ bareLines body, l.IsOpen ∧ AreWords Bytes.IsOpen l.trim := by
    intro l hl
    have hopen := bareLines_isOpen h l hl
    refine ⟨hopen, fun a ha => ?_⟩
    have hatom := atoms_isOpen (hopen.of_isInfix (Bytes.trim_isInfix l)) a ha
    exact ⟨hatom, splitMarkup_isOpen hatom⟩
  exact fun p hp => ⟨(all_of_mem_ofBody hlines p hp).words, (all_of_mem_ofBody hlines p hp).pre⟩

end Paragraph

end CodeLayout
