import CodeLayout.Proofs.Account.Declaration
import CodeLayout.Proofs.Account.Expression
import CodeLayout.Proofs.Account.Partition
import CodeLayout.Proofs.Account.Statement
import CodeLayout.Proofs.Chunk.OfNode
import CodeLayout.Proofs.Formatter
import CodeLayout.Proofs.Formed.Tree

/-!
# A tree that covers its text is formatted

The builder of a formed tree places all of its leaves and all comments, and each of its items can
come first.

If the tree of a text has all tokens with structure, no step behind it meets a fault: the chunks
have all tokens and comments, all of them are laid out without falling back, and they come in the
order of the input when they are written.
-/

namespace CodeLayout

namespace Build

open Chunk Node

variable {x : BuildContext} {build : NodeBuilder} {depth : Nat}

/-- Each kind of node is settled if the nodes below it are. -/
theorem completes_production (hx : x.IsLexed) (hb : Completes x build depth) :
    Completes x (production x build) (depth + 1) := by
  intro n hn
  cases n with
  | leaf id t =>
      obtain ⟨hget, -⟩ := hn.within (id, t) (by simp [Node.leaves])
      exact (settles_token id (hx id t hget).1).last fun c hc => ⟨c, rfl, hc⟩
  | branch kind start stop children =>
      have hk : (branch kind start stop children).isKind kind = true := by simp [isKind, kind?]
      have hparts := hn.parts hk
      have htakes := hn.formed.takes hk
      cases kind with
      | packageDecl | importDecl => exact settles_qualified hb hparts
      | typeDecl => exact settles_typeDecl hb hparts
      | modifiers => exact settles_modifiers hb false hparts
      | annot => exact settles_annot hb hparts
      | annotArgs => exact settles_list hb _ hparts
      | clause => exact settles_clause hb _ hparts htakes
      | typeList => exact settles_typeList hb hparts
      | typeBody | switchBody | block => exact settles_block hb hparts
      | enumBody => exact settles_enumBody hb hparts
      | enumConstant => exact settles_enumConstant hb hparts
      | pair | initializer | tryStmt | switchStmt => exact settles_spacedNodes hb hparts
      | method => exact settles_method hb hparts
      | params => exact settles_list hb _ hparts
      | param => exact settles_param hb hparts
      | varDecl => exact settles_varDecl hb false hparts
      | declarators => exact settles_declarators hb hparts
      | declarator => exact settles_declarator hb hx hparts htakes
      | type => exact settles_type hb hparts
      | ifStmt => exact settles_ifStmt hb hparts
      | whileStmt | synchronizedStmt | catchClause | finallyClause =>
          exact settles_wordStmt hb hparts
      | doStmt => exact settles_doStmt hb hparts
      | forStmt => exact settles_forStmt hb hparts
      | forControl => exact settles_forControl hb hparts
      | resources => exact settles_resources hb hparts
      | switchCase => exact settles_switchCase hb hparts
      | returnStmt | throwStmt | jump | yieldStmt | assertStmt => exact settles_simpleStmt hb hparts
      | labeled => exact settles_labeled hb hparts
      | binary => exact settles_binary hb hparts
      | assign => exact settles_assign hb hparts htakes
      | conditional => exact settles_conditional hb hparts
      | unary => exact settles_unary hb hparts htakes
      | cast => exact settles_cast hb hparts
      | call => exact settles_call hb hparts
      | args => exact settles_list hb _ hparts
      | select => exact settles_selectChain hb hparts htakes
      | creation => exact settles_creation hb hparts
      | arrayInit => exact settles_arrayInit hb hparts
      | lambda => exact settles_lambda hb hparts
      | exprStmt | emptyStmt | operator | postfixExpr | paren | index | methodRef =>
          exact settles_gluedNodes hb hparts
      | unit | enumConstants | raw => exact settles_raw hb (by decide) hparts

theorem completes_within (hx : x.IsLexed) (depth : Nat) : Completes x (within x depth) depth := by
  induction depth with
  | zero =>
      intro n hn
      have hle := hn.le
      cases n <;> simp [Node.depth] at hle
  | succ depth ih => exact completes_production hx ih

/-- The builder of a whole text places all that is wanted, and its items can come first. -/
theorem settled_unit {wanted : List Nat} {st : BuildState} {kind : NodeKind} {root : Node}
    (hx : x.IsLexed) (hroot : root.Formed) (hwithin : root.Within x.tokens)
    (hk : root.isKind kind = true) (hst : Owes wanted st root.ids) :
    ((unit x root).run st).2.placed.reverse = wanted ∧
      ∀ c ∈ ((unit x root).run st).1, c.IsHead := by
  obtain ⟨hfine, hids⟩ := hroot.children_fine hwithin hst.nodup hk
  have hitems := settles_items (completes_item (completes_within hx root.depth)) hfine
  rw [hids, ← List.append_nil (root.children.flatMap Node.ids)] at hst
  obtain ⟨howes, hown, -⟩ := hitems wanted [] st hst
  rcases hout : (items x (item x (within x root.depth)) root.children).run st with ⟨own, st'⟩
  rw [hout] at howes hown
  obtain ⟨_, _, -, -, comments, hcomments, hrun⟩ := detach_places (x := x) none true st'
  have hall := placed_detach_end (x := x) howes
  rw [hrun] at hall
  rw [unit, run_bind_eq hout, run_bind_eq hrun]
  exact ⟨hall, List.forall_mem_append.mpr ⟨hown, hcomments⟩⟩

end Build

/-- What the lexer gives is as builders rely on it. -/
theorem TokenStream.ofFile_isLexed (file : SourceFile) (style : Style) :
    ((TokenStream.ofFile file).buildContext style).IsLexed := by
  intro id t hget
  have hmem : t ∈ Token.ofText file.text := by
    have h := Array.mem_of_getElem? hget
    simpa [TokenStream.buildContext, TokenStream.ofFile] using h
  exact ⟨Token.text_ne_nil hmem, Token.text_ne_equals hmem⟩

section Tree

variable {file : SourceFile} {kind : SourceKind} {style : Style} {tree : Node} {chunk : Chunk}

/-- The tokens of a tree are tokens with structure, each once and in order. -/
theorem Node.ofStream_sublist
    (htree : (Node.ofStream (TokenStream.ofFile file) kind).tree = .ok tree) :
    tree.ids.Sublist ((TokenStream.ofFile file).structural.map Prod.fst) := by
  obtain ⟨tree', htree', hcovers⟩ := Node.ofStream_covers (TokenStream.ofFile file) kind
  obtain rfl := Except.ok.inj (htree.symm.trans htree')
  have hleaves := hcovers.sublist.map Prod.fst
  rwa [Node.leavesList_singleton] at hleaves

theorem Node.ofStream_nodup
    (htree : (Node.ofStream (TokenStream.ofFile file) kind).tree = .ok tree) :
    tree.ids.Nodup :=
  (Build.owes_ofStream (TokenStream.ofFile file) default .empty).nodup.sublist
    (ofStream_sublist htree)

/-- The items of a whole text can come first, whatever tokens its tree has. -/
theorem Chunk.ofNode_heads
    (htree : (Node.ofStream (TokenStream.ofFile file) kind).tree = .ok tree)
    (hchunk : Chunk.ofNode (TokenStream.ofFile file) tree style
      (Regions.ofStream (TokenStream.ofFile file) style) = .ok chunk) :
    ∃ items, chunk = .block { breakAfter := .mandatory } none none false items ∧
      ∀ c ∈ items, c.IsHead := by
  obtain ⟨hformed, hroot⟩ := Node.ofStream_formed htree
  have howes := Build.owes_ofStream (TokenStream.ofFile file) style
    (Regions.ofStream (TokenStream.ofFile file) style)
  obtain ⟨-, hheads⟩ := Build.settled_unit (TokenStream.ofFile_isLexed file style) hformed
    (Node.ofStream_within htree) hroot
    ⟨rfl, Node.ofStream_nodup htree, fun id hid =>
      howes.lt id ((Node.ofStream_sublist htree).subset hid)⟩
  exact ⟨_, Chunk.ofNode_eq_ok hchunk, hheads⟩

end Tree

/-- The chunks of a tree that covers its text have all tokens and comments. -/
theorem Chunk.ofNode_of_covers {file : SourceFile} {kind : SourceKind} {tree : Node}
    (htree : (Node.ofStream (TokenStream.ofFile file) kind).tree = .ok tree)
    (hall : tree.leaves.map Prod.fst = (TokenStream.ofFile file).structural.map Prod.fst)
    (style : Style) (regions : Regions) :
    ∃ items, Chunk.ofNode (TokenStream.ofFile file) tree style regions =
      .ok (.block { breakAfter := .mandatory } none none false items) := by
  obtain ⟨hformed, hroot⟩ := Node.ofStream_formed htree
  have howes := Build.owes_ofStream (TokenStream.ofFile file) style regions
  rw [← hall] at howes
  obtain ⟨hplaced, -⟩ := Build.settled_unit (TokenStream.ofFile_isLexed file style) hformed
    (Node.ofStream_within htree) hroot howes
  exact ⟨_, if_pos hplaced⟩

namespace Writer

variable {s : TokenStream} {style : Style} {regions : Regions} {x : Context} {w : Writer}
  {c : Chunk} {cs : List Chunk} {l : Leaf} {ids : List Nat} {idss : List (List Nat)}

/-- The range of a token or a comment in the input. -/
theorem range_of_shows (hc : c.leaf? = some l) (h : l.Shows (s.buildContext style) regions ids) :
    ∃ first last, first ∈ ids ∧ last ∈ ids ∧ c.traits.start = (s.tokenAt first).start ∧
      c.traits.stop = (s.tokenAt last).stop := by
  cases c with
  | token t text =>
      obtain rfl := Option.some.inj hc
      obtain ⟨id, token, rfl, hget, -, hstart, hstop, -⟩ := h.token_inv
      have htoken : s.tokenAt id = token := TokenStream.tokenAt_of_getElem? hget
      exact ⟨id, id, by simp, by simp, by rw [htoken]; exact hstart, by rw [htoken]; exact hstop⟩
  | comment t text contents =>
      obtain rfl := Option.some.inj hc
      obtain ⟨run, rfl, hrun, hstart, hstop, -⟩ := h.comment_inv
      obtain ⟨first, more, hids⟩ := List.exists_cons_of_ne_nil hrun.nonempty
      refine ⟨run.ids.headD 0, run.ids.getLastD 0, ?_, ?_, hstart, hstop⟩
      · simp [hids]
      · rw [List.getLastD_eq_getLast?, List.getLast?_eq_getLast_of_ne_nil hrun.nonempty]
        exact List.getLast_mem hrun.nonempty
  | group t context breakFirst children => cases hc
  | block t opening closing indented items => cases hc

theorem last_request (w : Writer) (t : Traits) (p : Placement) : (w.request t p).last = w.last := by
  obtain ⟨gap, heq⟩ := request_eq w t p
  rw [heq]

theorem last_token (w : Writer) (t : Traits) (text : Bytes) : (w.token x t text).last = w.last := by
  rw [token]
  split_ifs <;> rfl

theorem last_comment (w : Writer) (text : Bytes) (contents : Option Comment) (p : Placement) :
    (w.comment x text contents p).last = w.last :=
  rfl

/-- A token or a comment that starts behind the last one is written, and is the last one then. -/
theorem leaf_eq_ok {t : Traits} {write : Writer → Writer} (hstart : 0 ≤ t.start)
    (hlast : w.last ≤ t.start) (hwrite : ∀ w, (write w).last = w.last) :
    ∃ w', w.leaf x t write = .ok w' ∧ w'.last = t.stop := by
  rw [leaf, if_neg (Int.not_lt.mpr hstart), if_neg (Int.not_lt.mpr hlast)]
  dsimp only
  split_ifs
  · exact ⟨_, rfl, rfl⟩
  · split
    · exact ⟨_, rfl, rfl⟩
    · exact ⟨_, rfl, hwrite _⟩

/-- One chunk is written. Only a token or a comment moves the end of what is written. -/
theorem write_eq_ok (hstart : c.isLeaf = true → 0 ≤ c.traits.start ∧ w.last ≤ c.traits.start) :
    ∃ w', Writer.write x w c = .ok w' ∧
      w'.last = if c.isLeaf then c.traits.stop else w.last := by
  have hrequest := last_request w c.traits (x.placements.getD c.traits.id {})
  cases c with
  | token t text =>
      obtain ⟨hzero, hlast⟩ := hstart rfl
      exact leaf_eq_ok hzero (hrequest.trans_le hlast) fun w => last_token w t text
  | comment t text contents =>
      obtain ⟨hzero, hlast⟩ := hstart rfl
      exact leaf_eq_ok hzero (hrequest.trans_le hlast) fun w => last_comment w text contents _
  | group t context breakFirst children => exact ⟨_, rfl, hrequest⟩
  | block t opening closing indented items => exact ⟨_, rfl, hrequest⟩

/-- Chunks for tokens and comments that follow each other are written. -/
theorem foldlM_eq_ok (hshows : List.Forall₂ (Leaf.Shows (s.buildContext style) regions)
      (cs.filterMap Chunk.leaf?) idss)
    (horder : idss.flatten.Pairwise fun i j => (s.tokenAt i).stop ≤ (s.tokenAt j).start)
    (hlast : ∀ id ∈ idss.flatten, w.last ≤ (s.tokenAt id).start) :
    ∃ w', cs.foldlM (Writer.write x) w = .ok w' := by
  induction cs generalizing w idss with
  | nil => exact ⟨w, rfl⟩
  | cons c cs ih =>
      rw [List.foldlM_cons]
      cases hleaf : c.leaf? with
      | none =>
          rw [List.filterMap_cons_none hleaf] at hshows
          have hno : c.isLeaf = false := by
            cases c <;> first | rfl | cases hleaf
          obtain ⟨w', hwrite, hsame⟩ := write_eq_ok (x := x) (w := w) (c := c) (by simp [hno])
          rw [hno] at hsame
          rw [hwrite]
          exact ih hshows horder fun id hid => hsame.trans_le (hlast id hid)
      | some l =>
          rw [List.filterMap_cons_some hleaf] at hshows
          obtain ⟨ids, idss, hl, hmore, rfl⟩ := List.forall₂_cons_left_iff.mp hshows
          rw [List.flatten_cons] at horder hlast
          obtain ⟨-, horder', hbefore⟩ := List.pairwise_append.mp horder
          obtain ⟨first, last, hfirst, hlast', hstart, hstop⟩ := range_of_shows hleaf hl
          have hyes : c.isLeaf = true := by
            cases c <;> first | rfl | cases hleaf
          obtain ⟨w', hwrite, hend⟩ := write_eq_ok (x := x) (w := w) (c := c) fun _ => by
            rw [hstart]
            exact ⟨Int.natCast_nonneg _, hlast first (List.mem_append_left _ hfirst)⟩
          rw [hyes, if_pos rfl, hstop] at hend
          rw [hwrite]
          refine ih hmore horder' fun id hid => ?_
          rw [hend]
          exact Int.ofNat_le.mpr (hbefore last hlast' id hid)

end Writer

/-- A tree that covers its text is always formatted. Reading comes to a tree, and if that has all
tokens with structure, then its chunks stand for all tokens and comments of the text in order, each
once, a comment for those of its run; laying them out meets no fault and falls back nowhere, since
all that may be recorded is that it gave up on optional breaks; and they are written. -/
theorem Formatted.ofFile_of_covers (file : SourceFile) (kind : SourceKind) (style : Style) :
    ∃ tree, (Node.ofStream (TokenStream.ofFile file) kind).tree = .ok tree ∧
      (tree.leaves.map Prod.fst = (TokenStream.ofFile file).structural.map Prod.fst →
        ∃ chunk output,
          Chunk.ofNode (TokenStream.ofFile file) tree style
            (Regions.ofStream (TokenStream.ofFile file) style) = .ok chunk ∧
          (∃ idss, List.Forall₂ (Leaf.Shows ((TokenStream.ofFile file).buildContext style)
              (Regions.ofStream (TokenStream.ofFile file) style)) chunk.content idss ∧
            idss.flatten = (TokenStream.ofFile file).significant) ∧
          (∃ p, (Layout.ofChunk chunk file style).position = .ok p) ∧
          (∀ d ∈ (Layout.ofChunk chunk file style).report, ∃ n, d.problem = .gaveUp n) ∧
          Output.ofLayout (Layout.ofChunk chunk file style).layout file style
            (Regions.ofStream (TokenStream.ofFile file) style) = .ok output ∧
          (Formatted.ofFile file kind style).1 =
            .ok ⟨tree, chunk, (Layout.ofChunk chunk file style).layout, output⟩) := by
  obtain ⟨tree, htree, -⟩ := Node.ofStream_covers (TokenStream.ofFile file) kind
  refine ⟨tree, htree, fun hall => ?_⟩
  obtain ⟨items, hchunk⟩ := Chunk.ofNode_of_covers htree hall style
    (Regions.ofStream (TokenStream.ofFile file) style)
  obtain ⟨-, idss, hshows, hids⟩ := Chunk.ofNode_shows (Node.ofStream_within htree) hchunk
  obtain ⟨⟨p, hposition⟩, hreport⟩ := Layout.ofChunk_ok file style (Leaf.Shows.contents hshows)
  have hlaid := hshows
  rw [← Chunk.content_annotate style.tabSize 0] at hlaid
  obtain ⟨w, hfold⟩ := Writer.foldlM_eq_ok (w := Writer.anchor {} 0) (x := ⟨style, file.text,
      Regions.ofStream (TokenStream.ofFile file) style, (Layout.ofChunk (.block
        { breakAfter := .mandatory } none none false items) file style).layout.placements⟩) hlaid
    (hids ▸ TokenStream.significant_pairwise (TokenStream.ofFile_inOrder file)) fun id _ =>
      Int.le_trans (by decide) (Int.natCast_nonneg _)
  have houtput : Output.ofLayout (Layout.ofChunk (.block { breakAfter := .mandatory } none none
      false items) file style).layout file style
      (Regions.ofStream (TokenStream.ofFile file) style) = .ok (w.finish _) :=
    congrArg (Except.map _) hfold
  refine ⟨_, _, hchunk, ⟨idss, hshows, hids⟩, ⟨p, hposition⟩, hreport, houtput, ?_⟩
  simp only [Formatted.ofFile, htree, Except.bind, hchunk, Except.map, hposition, houtput]
  rfl

/-- A text with an operand, a body and an argument missing, and a comment in between. -/
def Formatted.incompleteClass : SourceFile :=
  ⟨[], ascii "class A \x7b int x = ; /* c */ void f( \x7b g(1,); if () \x7d"⟩

/-- Its tree covers it, so it is formatted. -/
theorem Formatted.ofFile_of_covers_incomplete :
    (Node.ofStream (TokenStream.ofFile Formatted.incompleteClass) .unit).tree.toOption.map
        (fun tree => tree.leaves.map Prod.fst) =
      some ((TokenStream.ofFile Formatted.incompleteClass).structural.map Prod.fst) ∧
    ∃ formatted, (Formatted.ofFile Formatted.incompleteClass .unit Style.default.normalize.1).1 =
      .ok formatted := by
  have hall : (Node.ofStream (TokenStream.ofFile Formatted.incompleteClass) .unit).tree.toOption.map
      (fun tree => tree.leaves.map Prod.fst) =
        some ((TokenStream.ofFile Formatted.incompleteClass).structural.map Prod.fst) := by
    decide +kernel
  obtain ⟨tree, htree, hformats⟩ :=
    Formatted.ofFile_of_covers Formatted.incompleteClass .unit Style.default.normalize.1
  rw [htree] at hall
  obtain ⟨chunk, output, -, -, -, -, -, hformatted⟩ := hformats (Option.some.inj hall)
  exact ⟨by rw [htree]; exact hall, _, hformatted⟩

end CodeLayout
