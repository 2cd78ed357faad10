import CodeLayout.Proofs.Columns.Writer
import CodeLayout.Proofs.Covered
import CodeLayout.Proofs.Formatter
import CodeLayout.Proofs.Kept.Declaration
import CodeLayout.Proofs.Kept.Expression
import CodeLayout.Proofs.Kept.Statement
import CodeLayout.Proofs.Kept.Trivia
import CodeLayout.Proofs.Lines.Demanded

/-!
# Line breaks of the input are kept

All elements of all groups of a whole text are marked, and all items of its blocks have their blank
lines, if the builder starts with all that is between the tokens. Numbering and measuring the tree
changes none of this.

Where line breaks are not to be joined, an element of a group that had a line break in front of it
starts a line of the result. The builder marks the element, laying out gives it a line of its own,
and the writer holds the line break back until the first token or comment of the element comes.
-/

namespace CodeLayout

namespace Build

open Chunk Node

variable {x : BuildContext} {spacing : Spacing} {build : NodeBuilder} {depth : Nat}

/-- Each kind of node is marked if the nodes below it are. -/
theorem marks_production (hb : MarksNodes x spacing build depth) {n : Node}
    (hn : n.Fine x (depth + 1)) :
    Marks x spacing (production x build n) fun c => Opens spacing n.opening? c.toList := by
  cases n with
  | leaf id t => exact (marks_token id t).last fun _ hc => hc
  | branch kind start stop children =>
      have hk : (branch kind start stop children).isKind kind = true := by simp [isKind, kind?]
      have hparts := hn.parts hk
      -- Where a builder gets the children only, the node is found from `hparts`, not from the goal.
      cases kind with
      | packageDecl | importDecl => exact marks_qualified hb hparts
      | typeDecl => exact marks_typeDecl hb hparts
      | modifiers => exact marks_modifiers hb false hparts
      | annot => exact marks_annot hb hparts
      | annotArgs => exact (marks_list hb _ hparts :)
      | clause => exact marks_clause hb _ hparts
      | typeList => exact marks_typeList hb hparts
      | typeBody | switchBody | block => exact marks_block hb hparts
      | enumBody => exact marks_enumBody hb hparts
      | enumConstant => exact marks_enumConstant hb hparts
      | pair | initializer | tryStmt | switchStmt => exact (marks_spacedNodes hb hparts :)
      | method => exact marks_method hb hparts
      | params => exact (marks_list hb _ hparts :)
      | param => exact marks_param hb hparts
      | varDecl => exact marks_varDecl hb false hparts
      | declarators => exact marks_declarators hb hparts
      | declarator => exact marks_declarator hb hparts
      | type => exact marks_type hb hparts
      | ifStmt => exact marks_ifStmt hb hparts
      | whileStmt | synchronizedStmt | catchClause | finallyClause => exact marks_wordStmt hb hparts
      | doStmt => exact marks_doStmt hb hparts
      | forStmt => exact marks_forStmt hb hparts
      | forControl => exact marks_forControl hb hparts
      | resources => exact marks_resources hb hparts
      | switchCase => exact marks_switchCase hb hparts
      | returnStmt | throwStmt | jump | yieldStmt | assertStmt => exact marks_simpleStmt hb hparts
      | labeled => exact marks_labeled hb hparts
      | binary => exact marks_binary hb hparts
      | assign => exact marks_assign hb hparts
      | conditional => exact marks_conditional hb hparts
      | unary => exact marks_unary hb hparts
      | cast => exact marks_cast hb hparts
      | call => exact marks_call hb hparts
      | args => exact (marks_list hb _ hparts :)
      | select => exact marks_selectChain hb hparts (hn.formed.takes hk)
      | creation => exact marks_creation hb hparts
      | arrayInit => exact marks_arrayInit hb hparts
      | lambda => exact marks_lambda hb hparts
      | exprStmt | emptyStmt | operator | postfixExpr | paren | index | methodRef =>
          exact (marks_gluedNodes hb hparts :)
      | unit | enumConstants | raw => exact marks_raw hb (by decide) hparts

theorem marksNodes_within (hx : x.IsLexed) (depth : Nat) :
    MarksNodes x spacing (within x depth) depth := by
  induction depth with
  | zero =>
      refine ⟨fun n hn => ?_, completes_within hx 0, fun _ => keeps_within 0⟩
      have hle := hn.le
      cases n <;> simp [Node.depth] at hle
  | succ depth ih =>
      exact ⟨fun n hn => marks_production ih hn, completes_within hx (depth + 1),
        fun _ => keeps_within (depth + 1)⟩

/-- All elements of a text are marked, and its items have the blank lines before them that are to be
kept. -/
theorem marks_unit {kind : NodeKind} {root : Node} (hx : x.IsLexed) (hroot : root.Formed)
    (hwithin : root.Within x.tokens) (hnodup : root.ids.Nodup) (hk : root.isKind kind = true) :
    Marks x spacing (unit x root) fun cs => ∀ c ∈ cs, c.MarksItem spacing := by
  obtain ⟨hfine, -⟩ := hroot.children_fine hwithin hnodup hk
  have hnodes : MarksNodes x spacing (within x root.depth) root.depth :=
    marksNodes_within hx root.depth
  refine (marks_items (marksNodes_item hnodes) hfine).bind fun own hown => ?_
  exact (marks_detach none true).last fun comments hcomments =>
    List.forall_mem_append.mpr ⟨hown.marks, hcomments.marks⟩

end Build

namespace Chunk

variable {spacing : Spacing} {c : Chunk} {cs : List Chunk} {tabstop : Int} {n : Nat}

theorem tail_annotateList : ∃ k, (annotateList tabstop n cs).1.tail =
    (annotateList tabstop k cs.tail).1 := by
  cases cs with
  | nil => exact ⟨n, rfl⟩
  | cons c cs => exact ⟨_, rfl⟩

theorem breakBefore_annotate : (c.annotate tabstop n).1.traits.breakBefore =
    c.traits.breakBefore := by
  cases c <;> rfl

theorem blank_annotate : (c.annotate tabstop n).1.traits.blank = c.traits.blank := by
  cases c <;> rfl

theorem Marked.annotate (h : c.Marked spacing) : (c.annotate tabstop n).1.Marked spacing := by
  intro start hstart hbreaks
  rw [content_annotate] at hstart
  rw [breakBefore_annotate]
  exact h start hstart hbreaks

/-- What numbering and measuring keeps below some trees, it keeps for trees that are no items. -/
theorem marksAll_annotateList
    (h : ∀ c ∈ cs, ∀ n, c.MarksBelow spacing → (c.annotate tabstop n).1.MarksBelow spacing)
    (hcs : ∀ c ∈ cs, c.MarksAll spacing) (n : Nat) :
    ∀ d ∈ (annotateList tabstop n cs).1, d.MarksAll spacing := by
  intro d hd
  obtain ⟨c, hc, k, rfl⟩ := mem_annotateList hd
  exact ⟨h c hc k (hcs c hc).below, blank_annotate.trans (hcs c hc).blank⟩

/-- What numbering and measuring keeps below some trees, it keeps for items. -/
theorem marksItem_annotateList
    (h : ∀ c ∈ cs, ∀ n, c.MarksBelow spacing → (c.annotate tabstop n).1.MarksBelow spacing)
    (hcs : ∀ c ∈ cs, c.MarksItem spacing) (n : Nat) :
    ∀ d ∈ (annotateList tabstop n cs).1, d.MarksItem spacing := by
  intro d hd
  obtain ⟨c, hc, k, rfl⟩ := mem_annotateList hd
  refine ⟨h c hc k (hcs c hc).below, fun l hl => blank_annotate.trans ?_⟩
  rw [content_annotate] at hl
  exact (hcs c hc).timed l hl

/-- Numbering and measuring keeps all marks and all blank lines. -/
theorem MarksBelow.annotate (h : c.MarksBelow spacing) (n : Nat) :
    (c.annotate tabstop n).1.MarksBelow spacing := by
  induction c using byParts generalizing n with
  | token t s => exact marksBelow_token
  | comment t s b => exact marksBelow_comment
  | group t context breakFirst cs ih =>
      obtain ⟨hmarked, hcs⟩ := marksBelow_group.mp h
      refine marksBelow_group.mpr ⟨fun hcontext e he => ?_, ?_⟩
      · obtain ⟨k, htail⟩ : ∃ k, (annotateList tabstop (n + 1) cs).1.tail =
            (annotateList tabstop k cs.tail).1 := tail_annotateList
        rw [htail] at he
        obtain ⟨d, hd, k, rfl⟩ := mem_annotateList he
        exact (hmarked hcontext d hd).annotate
      · exact marksAll_annotateList (fun d hd n hd' => ih d hd hd' n) hcs (n + 1)
  | block t o k i cs iho ihk ih =>
      obtain ⟨ho, hcs, hk⟩ := marksBelow_block.mp h
      obtain ⟨o', k', cs', m, m', hopening, hitems, hclosing, heq⟩ :=
        annotate_block tabstop n t o k i cs
      have hopen := marksAll_annotateList (fun d hd n hd' => iho d hd hd' n) ho (n + 1)
      have hbelow := marksItem_annotateList (fun d hd n hd' => ih d hd hd' n) hcs m
      have hclose := marksAll_annotateList (fun d hd n hd' => ihk d hd hd' n) hk m'
      rw [hopening] at hopen
      rw [hitems] at hbelow
      rw [hclosing] at hclose
      rw [heq]
      exact marksBelow_block.mpr ⟨hopen, hbelow, hclose⟩

variable {file : SourceFile} {kind : SourceKind} {style : Style} {tree : Node}

/-- The builder marks all elements of the groups of a text, and gives all items of its blocks their
blank lines. -/
theorem ofNode_marksAll (htree : (Node.ofStream (TokenStream.ofFile file) kind).tree = .ok tree)
    (h : ofNode (TokenStream.ofFile file) tree style
      (Regions.ofStream (TokenStream.ofFile file) style) = .ok c) :
    c.MarksAll ((TokenStream.ofFile file).spacing style) := by
  obtain ⟨hformed, hkind⟩ := Node.ofStream_formed htree
  obtain ⟨-, hmarks⟩ := Build.marks_unit (TokenStream.ofFile_isLexed file style) hformed
    (Node.ofStream_within htree) (Node.ofStream_nodup htree) hkind _
    (Build.knows_ofStream file style (Regions.ofStream (TokenStream.ofFile file) style))
  rw [ofNode_eq_ok h]
  exact ⟨marksBelow_block.mpr ⟨nofun, hmarks, nofun⟩, rfl⟩

/-- A text that has tokens or comments is built into a neat tree. -/
theorem ofNode_neat (htree : (Node.ofStream (TokenStream.ofFile file) kind).tree = .ok tree)
    (h : ofNode (TokenStream.ofFile file) tree style
      (Regions.ofStream (TokenStream.ofFile file) style) = .ok c) (hfull : c.content ≠ []) :
    c.Neat := by
  obtain ⟨items, rfl, hheads⟩ := ofNode_heads htree h
  refine neat_block.mpr ⟨nofun, fun d hd => (hheads d hd).neat, Or.inr ?_⟩
  rintro rfl
  exact hfull rfl

end Chunk

namespace Chunk

variable {c d : Chunk} {cs ds : List Chunk}

/-- A chunk that is marked demands a line break before it. -/
theorem startsHard_of_breakBefore (c : Chunk) (h : c.traits.breakBefore = true) :
    c.startsHard = true := by
  cases c with
  | token t s => exact h
  | comment t s b => exact h
  | group t context breakFirst cs =>
      rw [startsHard]
      exact Bool.or_eq_true_iff.mpr (Or.inl h)
  | block t o k i cs => cases o <;> exact Bool.or_eq_true_iff.mpr (Or.inl h)

/-- Whether each chunk of a list is followed by what is below it. -/
def Nested (cs : List Chunk) : Prop :=
  ∀ front c back, cs = front ++ c :: back → c.walk <+: c :: back

theorem nested_nil : Nested [] :=
  fun front _ _ h => by cases front <;> cases h

theorem Nested.append (hcs : Nested cs) (hds : Nested ds) : Nested (cs ++ ds) := by
  intro front c back h
  rcases List.append_eq_append_iff.mp h with ⟨more, rfl, hsplit⟩ | ⟨more, rfl, hsplit⟩
  · exact hds more c back hsplit
  · cases more with
    | nil => exact hds [] c back hsplit.symm
    | cons d more =>
        obtain ⟨rfl, rfl⟩ := List.cons.inj hsplit
        exact (hcs front c more rfl).trans (List.prefix_append (c :: more) ds)

theorem nested_walkList (h : ∀ c ∈ cs, Nested c.walk) : Nested (walkList cs) := by
  induction cs with
  | nil => exact nested_nil
  | cons c cs ih =>
      obtain ⟨hc, hcs⟩ := List.forall_mem_cons.mp h
      exact hc.append (ih hcs)

theorem nested_of_tail (h : Nested c.walk.tail) : Nested c.walk := by
  intro front d back hsplit
  rw [walk_eq] at hsplit
  cases front with
  | nil =>
      obtain ⟨rfl, hback⟩ := List.cons.inj hsplit
      have heq : c.walk = c :: back := c.walk_eq.trans (congrArg _ hback)
      exact heq ▸ List.prefix_refl _
  | cons e front => exact h front d back (List.cons.inj hsplit).2

/-- What is below a chunk of a tree comes right behind the chunk. -/
theorem nested_walk (c : Chunk) : Nested c.walk := by
  induction c using byParts with
  | token t s => exact nested_of_tail nested_nil
  | comment t s b => exact nested_of_tail nested_nil
  | group t context breakFirst cs ih => exact nested_of_tail (nested_walkList ih)
  | block t o k i cs iho ihk ih =>
      refine nested_of_tail ?_
      rw [walk_block]
      exact ((nested_walkList iho).append (nested_walkList ih)).append (nested_walkList ihk)

theorem walk_isInfix (h : d ∈ c.walk) : d.walk <:+: c.walk := by
  obtain ⟨front, back, hsplit⟩ := List.append_of_mem h
  obtain ⟨rest, hrest⟩ := c.nested_walk front d back hsplit
  exact ⟨front, rest, by rw [hsplit, ← hrest, List.append_assoc]⟩

theorem mem_walk_of_movable {e : Chunk} (hd : d ∈ c.walk) (he : e ∈ d.movable) : e ∈ c.walk := by
  refine (walk_isInfix hd).subset ?_
  cases d with
  | group t context breakFirst cs =>
      rw [movable] at he
      split_ifs at he
      · cases he
      · exact List.mem_cons_of_mem _
          (mem_walkList.mpr ⟨e, List.mem_of_mem_tail he, mem_walk e⟩)
  | _ => cases he

/-- In front of the first token or comment of a tree there are only groups and blocks. -/
theorem exists_branches {first : Leaf} (h : c.content.head? = some first) :
    ∃ branches leaf rest, c.walk = branches ++ leaf :: rest ∧
      (∀ b ∈ branches, b.leaf? = none) ∧ leaf.leaf? = some first := by
  obtain ⟨more, hcontent⟩ := List.head?_eq_some_iff.mp h
  obtain ⟨branches, leaf, rest, hwalk, hbranches, hleaf, -⟩ :=
    List.filterMap_eq_cons_iff.mp hcontent
  exact ⟨branches, leaf, rest, hwalk, hbranches, hleaf⟩

end Chunk

/-- Wherever a line break is demanded between two elements of a group, the second one starts a
line. -/
theorem Layout.ofChunk_heedsAll (c : Chunk) (file : SourceFile) (style : Style) {p : Position}
    (h : (ofChunk c file style).position = .ok p) :
    Placing.HeedsAll (fun id => ((ofChunk c file style).layout.placements.getD id {}).line?)
      (ofChunk c file style).layout.chunk := by
  have hroot := Placing.assigns_root (x := ⟨style, file, budget (c.annotate style.tabSize 0).2⟩)
    (Chunk.nodup_ids_annotate style.tabSize c)
    { placements := Array.replicate (c.annotate style.tabSize 0).2 {} }
    fun id hid => by
      obtain ⟨d, hd, rfl⟩ := List.mem_map.mp hid
      simpa using Chunk.id_lt hd
  exact hroot.2.2 p h _ fun _ _ => rfl

/-- An element that is marked starts a line. -/
theorem Layout.newLine_of_breakBefore {l : Layout} {d e : Chunk}
    (h : Placing.HeedsAll (fun id => (l.placements.getD id {}).line?) l.chunk)
    (hd : d ∈ l.chunk.walk) (he : e ∈ d.movable) (hbreak : e.traits.breakBefore = true) :
    (l.placements.getD e.traits.id {}).newLine = true := by
  have hstarts := e.startsHard_of_breakBefore hbreak
  cases d with
  | group t context breakFirst cs =>
      have htail : e ∈ cs.tail := by
        rw [Chunk.movable] at he
        split_ifs at he
        · cases he
        · exact he
      obtain ⟨i, hi⟩ := List.mem_iff_getElem?.mp htail
      rw [List.getElem?_tail] at hi
      obtain ⟨hlt, -⟩ := List.getElem?_eq_some_iff.mp hi
      rw [Placement.newLine_eq_isSome]
      exact (h _ hd).1.getElem? none (List.getElem?_eq_getElem (Nat.lt_of_succ_lt hlt)) hi
        (by simp [hstarts])
  | _ => cases he

namespace Writer

variable {x : Context} {w w' : Writer} {cs branches : List Chunk} {leaf : Chunk} {t : Traits}
  {p : Placement} {blank : Int}

/-- Whether a line break is held back, with so many blank lines at least. -/
structure HoldsBreak (w : Writer) (blank : Int) : Prop where
  newLine : w.gap.newLine = true
  blank : blank ≤ w.gap.blank

theorem holdsBreak_request (hp : p.newLine = true) : (w.request t p).HoldsBreak t.blank := by
  rw [request, if_pos hp]
  exact ⟨rfl, Int.le_max_right _ _⟩

theorem HoldsBreak.request (h : w.HoldsBreak blank) (t : Traits) (p : Placement) :
    (w.request t p).HoldsBreak blank := by
  obtain ⟨hnew, hblank⟩ := h
  rw [Writer.request]
  split_ifs
  · exact ⟨rfl, Int.le_trans hblank (Int.le_max_left _ _)⟩
  · exact ⟨hnew, hblank⟩
  · exact ⟨hnew, hblank⟩

/-- Of groups and blocks only the white space is of account. -/
theorem write_of_leaf?_eq_none {c : Chunk} (h : c.leaf? = none) :
    write x w c = .ok (w.request c.traits (x.placements.getD c.traits.id {})) := by
  cases c <;> first | rfl | cases h

/-- A line break that is held back stays until a token or a comment comes. -/
theorem HoldsBreak.foldlM (hw : w.HoldsBreak blank) (hcs : ∀ c ∈ cs, c.leaf? = none)
    (h : cs.foldlM (write x) w = .ok w') : w'.HoldsBreak blank := by
  induction cs generalizing w with
  | nil =>
      obtain rfl := Except.ok.inj h
      exact hw
  | cons c cs ih =>
      obtain ⟨hc, hrest⟩ := List.forall_mem_cons.mp hcs
      rw [List.foldlM_cons, write_of_leaf?_eq_none hc] at h
      exact ih (hw.request _ _) hrest h

/-- Where a tree starts a line, a line break is held back when its first token or comment comes. -/
theorem holdsBreak_before {c : Chunk} {rest : List Chunk}
    (hwalk : c.walk = branches ++ leaf :: rest) (hbranches : ∀ b ∈ branches, b.leaf? = none)
    (hline : (x.placements.getD c.traits.id {}).newLine = true)
    (h : branches.foldlM (write x) w = .ok w') :
    (w'.request leaf.traits (x.placements.getD leaf.traits.id {})).HoldsBreak c.traits.blank := by
  rw [Chunk.walk_eq] at hwalk
  cases branches with
  | nil =>
      obtain ⟨rfl, -⟩ := List.cons.inj hwalk
      exact holdsBreak_request hline
  | cons b branches =>
      obtain ⟨rfl, -⟩ := List.cons.inj hwalk
      obtain ⟨hb, hbelow⟩ := List.forall_mem_cons.mp hbranches
      rw [List.foldlM_cons, write_of_leaf?_eq_none hb] at h
      exact ((holdsBreak_request hline).foldlM hbelow h).request _ _

end Writer

/-- Whether what comes behind a text starts a line: nothing but indentation is on its last line. -/
def Bytes.AtLineStart (s : Bytes) : Prop :=
  ∃ front indent, s = front ++ indent ∧ (∀ b ∈ indent, b = 32 ∨ b = 9) ∧
    ∀ b ∈ front.getLast?, Lexer.isEol b = true

theorem Bytes.atLineStart_append {front indent : Bytes} (hindent : ∀ b ∈ indent, b = 32 ∨ b = 9)
    (hfront : ∀ b ∈ front.getLast?, Lexer.isEol b = true) : AtLineStart (front ++ indent) :=
  ⟨front, indent, rfl, hindent, hfront⟩

/-- Behind a line break that was copied a line starts. -/
theorem Stroke.isEol_of_copiedBreak {s : TokenStream} {style : Style} {ks : List Stroke}
    (h : copiedBreak s ks = true) :
    ∀ b ∈ (textAll s style ks).getLast?, Lexer.isEol b = true := by
  rcases List.eq_nil_or_concat ks with rfl | ⟨ks, ⟨gap, piece⟩, rfl⟩
  · cases h
  · simp only [copiedBreak, List.concat_eq_append, List.getLast?_append, List.getLast?_singleton,
      Option.some_or, Option.any_some] at h
    cases piece with
    | region v =>
        intro b hb
        simp only [Bytes.endsLine] at h
        rw [List.concat_eq_append, textAll_append, textAll_singleton, text, Piece.text,
          ← List.append_assoc, List.getLast?_append] at hb
        cases hlast : (s.file.text.slice v.start v.stop).getLast? with
        | none => simp [hlast] at h
        | some last =>
            rw [hlast] at hb h
            obtain rfl := Option.some.inj hb
            simpa [Lexer.isEol, or_comm] using h
    | _ => cases h

/-- Behind the white space that is held back a line starts if it holds a line break. -/
theorem Writer.Wrote.atLineStart {s : TokenStream} {x : Writer.Context} {ks : List Stroke}
    {w : Writer} (hsep : x.style.separator ∈ Style.separators)
    (h : Writer.Wrote s x.style (Writer.separator x) ks w) (hnew : w.gap.newLine = true) :
    (Stroke.textAll s x.style ks ++ Writer.gapText x w).AtLineStart := by
  have hindent := Style.indentation_blank x.style w.nextLine.level w.nextLine.align
  have hbreaks : w.breaksLine = true := by simp [Writer.breaksLine, hnew]
  rw [Writer.gapText]
  by_cases hstarted : w.started = true
  · rw [if_neg (by simp [hstarted]), if_pos hbreaks, ← List.append_assoc]
    refine Bytes.atLineStart_append hindent ?_
    split_ifs with hcopied
    · rcases Nat.eq_zero_or_pos w.gap.blank.toNat with hzero | hpos
      · rw [hzero, List.replicate_zero, List.flatten_nil, List.append_nil, List.append_nil]
        exact Stroke.isEol_of_copiedBreak (h.copiedBreak ▸ hcopied)
      · obtain ⟨n, hn⟩ := Nat.exists_eq_add_of_lt hpos
        rw [hn, Nat.zero_add, List.nil_append, List.replicate_succ, List.flatten_cons]
        exact Writer.isEol_separators hsep _ n
    · exact Writer.isEol_separators hsep _ _
  · have hks : ks = [] := by simpa [h.started] using hstarted
    rw [if_pos (by simpa using hstarted), hks]
    exact ⟨[], [], rfl, by simp, by simp⟩

namespace Writer

variable {s : TokenStream} {regions : Regions} {x : Context} {w : Writer} {ks : List Stroke}
  {c e : Chunk} {first : Leaf}

/-- The first token or comment of a tree that starts a line is written behind the white space that
is held back then, a line break among it. -/
theorem Traced.exists_stroke (h : Traced s regions x w c.walk ks) (he : e ∈ c.walk)
    (hfirst : e.content.head? = some first)
    (hline : (x.placements.getD e.traits.id {}).newLine = true)
    (hout : regions.Misses first.start) :
    ∃ front leaf back w' before k after, c.walk = front ++ leaf :: back ∧
      leaf.leaf? = some first ∧ front.foldlM (write x) w = .ok w' ∧ ks = before ++ k :: after ∧
      k.piece.StandsAt s first.start ∧
      let now := w'.request leaf.traits (x.placements.getD leaf.traits.id {})
      k.gap = gapText x now ∧ now.HoldsBreak e.traits.blank ∧
        Wrote s x.style (separator x) before now := by
  obtain ⟨branches, leaf, rest, hwalk, hbranches, hleaf⟩ := Chunk.exists_branches hfirst
  obtain ⟨front, back, hsplit⟩ := Chunk.walk_isInfix he
  rw [hwalk] at hsplit
  -- In the whole tree, the groups that the leaf is the first of come right before it.
  have hplace : c.walk = (front ++ branches) ++ leaf :: (rest ++ back) := by
    rw [← hsplit]
    simp
  obtain ⟨w', before, now, after, idss, hfold, rfl, -, hholds, hputs⟩ := h _ leaf _ hplace
  obtain ⟨piece, rfl, hstands⟩ := (hputs first hleaf).outside hout
  have hbelow := hfold
  rw [List.foldlM_append] at hbelow
  obtain ⟨w₀, -, hbelow⟩ := exists_of_bind_eq_ok hbelow
  exact ⟨_, leaf, _, w', before, ⟨_, piece⟩, after, hplace, hleaf, hfold, rfl, hstands, rfl,
    holdsBreak_before hwalk hbranches hline hbelow, (hholds.request _ _).wrote⟩

/-- The first token or comment of a tree that starts a line is written at the start of one. -/
theorem Traced.atLineStart (hsep : x.style.separator ∈ Style.separators)
    (h : Traced s regions x w c.walk ks) (he : e ∈ c.walk) (hfirst : e.content.head? = some first)
    (hline : (x.placements.getD e.traits.id {}).newLine = true)
    (hout : regions.Misses first.start) :
    ∃ before k after, ks = before ++ k :: after ∧ k.piece.StandsAt s first.start ∧
      (Stroke.textAll s x.style before ++ k.gap).AtLineStart := by
  obtain ⟨-, leaf, -, w', before, k, after, -, -, -, hks, hstands, hgap, hbreak, hwrote⟩ :=
    h.exists_stroke he hfirst hline hout
  exact ⟨before, k, after, hks, hstands, hgap ▸ hwrote.atLineStart hsep hbreak.newLine⟩

end Writer

/-- An element that had a line break in front of it starts a line. -/
theorem Formatted.newLine_of_movable {file : SourceFile} {kind : SourceKind} {style : Style}
    {formatted : Formatted} (hkeep : style.joinWrapped = false)
    (h : (Formatted.ofFile file kind style).1 = .ok formatted) {d e : Chunk} {start : Int}
    (hd : d ∈ formatted.layout.chunk.walk) (he : e ∈ d.movable)
    (hstart : Leaf.opening? e.content = some start)
    (hbreak : (TokenStream.ofFile file).BreaksBefore start) :
    (formatted.layout.placements.getD e.traits.id {}).newLine = true := by
  obtain ⟨tree, chunk, p, htree, hchunk, heq, hposition, -⟩ := ofFile_eq_ok h
  have hlayout := layout_eq h
  rw [heq] at hlayout
  rw [hlayout] at hd ⊢
  have hmarks : (chunk.annotate style.tabSize 0).1.MarksBelow _ :=
    (Chunk.ofNode_marksAll htree hchunk).below.annotate 0
  exact Layout.newLine_of_breakBefore (Layout.ofChunk_heedsAll chunk file style hposition) hd he
    ((hmarks d hd).movable e he start hstart ⟨hkeep, hbreak⟩)

namespace Formatter

/-- Line breaks of the input are kept: where they are not to be joined, each element of a group but
the first, under any context but the plain one, starts a line of the result if a line break was in
front of its first token and no region covers its first token or comment. -/
theorem format_keeps_lineBreak (f : Formatter) (text : Bytes) (hmax : text.length < 2 ^ 63)
    (hkeep : f.effective.1.joinWrapped = false) {formatted : Formatted}
    (h : (Formatted.ofFile ⟨[], text⟩ f.kind f.effective.1).1 = .ok formatted) {d e : Chunk}
    {first : Leaf} {start : Int} (hd : d ∈ formatted.layout.chunk.walk) (he : e ∈ d.movable)
    (hfirst : e.content.head? = some first) (hstart : Leaf.opening? e.content = some start)
    (hbreak : (TokenStream.ofFile ⟨[], text⟩).BreaksBefore start)
    (hout : (Regions.ofStream (TokenStream.ofFile ⟨[], text⟩) f.effective.1).Misses first.start) :
    ∃ before k after, Stroke.Cover (TokenStream.ofFile ⟨[], text⟩) f.effective.1
        (Regions.ofStream (TokenStream.ofFile ⟨[], text⟩) f.effective.1) f.effective.1.separator
        (before ++ k :: after) ∧
      (f.format text).1 = (Stroke.output (TokenStream.ofFile ⟨[], text⟩) f.effective.1
        f.effective.1.separator (before ++ k :: after)).text ∧
      k.piece.StandsAt (TokenStream.ofFile ⟨[], text⟩) first.start ∧
      (Stroke.textAll (TokenStream.ofFile ⟨[], text⟩) f.effective.1 before ++
        k.gap).AtLineStart := by
  have hsep : f.effective.1.separator ∈ Style.separators := Style.normalize_separator _
  obtain ⟨ks, hcover, -, houtput, -, htraced, -⟩ := Formatted.ofFile_traced hmax hsep h
  obtain ⟨before, k, after, rfl, hstands, hline⟩ := htraced.atLineStart hsep
    (Chunk.mem_walk_of_movable hd he) hfirst
    (Formatted.newLine_of_movable hkeep h hd he hstart hbreak) hout
  refine ⟨before, k, after, hcover, ?_, hstands, hline⟩
  rw [← houtput]
  simp only [format, run, h]

/-- A formatter that keeps line breaks between elements. -/
def keeping : Formatter where
  style := { Style.default with joinWrapped := false }
  kind := .body

/-- A call with a line break before the comment of its second argument. -/
def brokenCall : Bytes :=
  ascii "foo(a,\n    /* c */ b, d);\n"

/-- The second argument starts a line with its comment. -/
theorem format_keeps_lineBreak_comment :
    keeping.effective.1.joinWrapped = false ∧ ∃ before k after,
      Stroke.Cover (TokenStream.ofFile ⟨[], brokenCall⟩) keeping.effective.1
        (Regions.ofStream (TokenStream.ofFile ⟨[], brokenCall⟩) keeping.effective.1)
        keeping.effective.1.separator (before ++ k :: after) ∧
      (keeping.format brokenCall).1 = (Stroke.output (TokenStream.ofFile ⟨[], brokenCall⟩)
        keeping.effective.1 keeping.effective.1.separator (before ++ k :: after)).text ∧
      k.piece.StandsAt (TokenStream.ofFile ⟨[], brokenCall⟩) 11 ∧
      (Stroke.textAll (TokenStream.ofFile ⟨[], brokenCall⟩) keeping.effective.1 before ++
        k.gap).AtLineStart := by
  have hlength : brokenCall.length < 2 ^ 63 := by decide
  have hkeep : keeping.effective.1.joinWrapped = false := by decide
  have hruns : (Formatted.ofFile ⟨[], brokenCall⟩ keeping.kind
      keeping.effective.1).1.toOption.bind (fun formatted =>
        formatted.layout.chunk.walk[6]?.bind fun d => d.movable.head?.map fun e =>
          (e.content.head?.map Leaf.start, Leaf.opening? e.content)) =
      some (some 11, some 19) := by decide +kernel
  have hbreak : (TokenStream.ofFile ⟨[], brokenCall⟩).BreaksBefore 19 :=
    ⟨(3, ⟨.punct, 5, ascii ","⟩), (7, ⟨.ident, 19, ascii "b"⟩), by decide +kernel, rfl,
      by decide +kernel⟩
  have hspans : (Regions.ofStream (TokenStream.ofFile ⟨[], brokenCall⟩)
      keeping.effective.1).spans = [] := by decide +kernel
  cases hok : (Formatted.ofFile ⟨[], brokenCall⟩ keeping.kind keeping.effective.1).1 with
  | error fault =>
      rw [hok] at hruns
      cases hruns
  | ok formatted =>
      rw [hok] at hruns
      obtain ⟨_, ⟨⟩, hgroup⟩ := Option.bind_eq_some_iff.mp hruns
      obtain ⟨d, hd, helement⟩ := Option.bind_eq_some_iff.mp hgroup
      obtain ⟨e, he, hleads⟩ := Option.map_eq_some_iff.mp helement
      obtain ⟨hhead, hstart⟩ := Prod.mk.inj hleads
      obtain ⟨first, hfirst, hfirstStart⟩ := Option.map_eq_some_iff.mp hhead
      obtain ⟨before, k, after, hcover, htext, hstands, hline⟩ := format_keeps_lineBreak keeping
        brokenCall hlength hkeep hok (List.mem_of_getElem? hd) (List.mem_of_mem_head? he) hfirst
        hstart hbreak (by simp [Regions.Misses, hspans])
      exact ⟨hkeep, before, k, after, hcover, htext, hfirstStart ▸ hstands, hline⟩

end Formatter

end CodeLayout
