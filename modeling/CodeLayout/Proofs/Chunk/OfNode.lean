import CodeLayout.Chunk.OfNode
import CodeLayout.Proofs.Chunk.Declaration
import CodeLayout.Proofs.Chunk.Expression
import CodeLayout.Proofs.Chunk.Statement

/-!
# The chunks of a syntax tree hold its text

All builders lay what their chunks hold. Since the indices that are placed are compared with those
of the stream in the end, the chunks of a tree hold every token and comment once and in order.
-/

namespace CodeLayout

namespace Build

open Chunk

variable {x : BuildContext} {regions : Regions} {build : NodeBuilder}

/-- Each kind of node lays what its chunk holds if the nodes below it do. -/
theorem keeps_production (hb : Keeps x regions build) : Keeps x regions (production x build) := by
  intro n hn
  cases n with
  | leaf id t =>
      obtain ⟨hget, hkind⟩ := hn (id, t) (by simp [Node.leaves])
      exact (adds_token hget hkind).map fun c => contentAny_some c
  | branch kind start stop children =>
      have hchildren : ∀ c ∈ children, c.Within x.tokens := hn.children
      cases kind with
      | packageDecl | importDecl => exact adds_qualified hb hn
      | typeDecl => exact adds_typeDecl hb hn
      | modifiers => exact adds_modifiers hb false hn
      | annot => exact adds_annot hb hn
      | annotArgs => exact adds_list hb _ hchildren
      | clause => exact adds_clause hb _ hn
      | typeList => exact adds_typeList hb hn
      | typeBody | switchBody | block => exact keeps_block hb _ hn
      | enumBody => exact adds_enumBody hb hn
      | enumConstant => exact adds_enumConstant hb hn
      | pair | initializer | tryStmt | switchStmt => exact adds_spacedNodes hb hchildren
      | method => exact adds_method hb hn
      | params => exact adds_list hb _ hchildren
      | param => exact adds_param hb hn
      | varDecl => exact adds_varDecl hb false hn
      | declarators => exact adds_declarators hb hn
      | declarator => exact adds_declarator hb hn
      | type => exact adds_type hb hn
      | ifStmt => exact adds_ifStmt hb hn
      | whileStmt | synchronizedStmt | catchClause | finallyClause => exact adds_wordStmt hb hn
      | doStmt => exact adds_doStmt hb hn
      | forStmt => exact adds_forStmt hb hn
      | forControl => exact adds_forControl hb hn
      | resources => exact adds_resources hb hn
      | switchCase => exact adds_switchCase hb hn
      | returnStmt | throwStmt | jump | yieldStmt | assertStmt => exact adds_simpleStmt hb hn
      | labeled => exact adds_labeled hb hn
      | binary => exact adds_binary hb hn
      | assign => exact adds_assign hb hn
      | conditional => exact adds_conditional hb hn
      | unary => exact adds_unary hb hn
      | cast => exact adds_cast hb hn
      | call => exact adds_call hb hn
      | args => exact adds_list hb _ hchildren
      | select => exact adds_selectChain hb hn
      | creation => exact adds_creation hb hn
      | arrayInit => exact adds_arrayInit hb hn
      | lambda => exact adds_lambda hb hn
      | exprStmt | emptyStmt | operator | postfixExpr | paren | index | methodRef =>
          exact adds_gluedNodes hb hchildren
      | unit | enumConstants | raw => exact adds_raw hb hn

theorem keeps_within (depth : Nat) : Keeps x regions (within x depth) := by
  induction depth with
  | zero => exact fun _ _ => Adds.pure rfl
  | succ depth ih => exact keeps_production ih

theorem adds_unit {root : Node} (hroot : root.Within x.tokens) :
    Adds x regions (unit x root) contentAll := by
  intro before
  have hitem : Keeps x regions (item x (within x root.depth)) := keeps_item (keeps_within _)
  refine Lays.add (adds_items fun n hn => hitem n (hroot.children n hn)) fun own => ?_
  exact Lays.add (adds_detach none true) fun comments => Lays.pure (by simp)

end Build

/-- The chunks of a tree, if there are any, are the items that were built. -/
theorem Chunk.ofNode_eq_ok {s : TokenStream} {root : Node} {style : Style} {regions : Regions}
    {c : Chunk} (h : Chunk.ofNode s root style regions = .ok c) :
    c = .block { breakAfter := .mandatory } none none false
      ((Build.unit (s.buildContext style) root).run
        { trivia := TriviaIndex.ofStream s style regions }).1 := by
  by_cases hall : ((Build.unit (s.buildContext style) root).run
      { trivia := TriviaIndex.ofStream s style regions }).2.placed.reverse = s.significant
  · exact (Except.ok.inj ((if_pos hall).symm.trans h)).symm
  · exact nomatch (if_neg hall).symm.trans h

/-- The chunks of a tree are a block that holds every token and comment of the stream once and in
order. -/
theorem Chunk.ofNode_shows {s : TokenStream} {root : Node} {style : Style} {regions : Regions}
    {c : Chunk} (hroot : root.Within s.tokens) (h : Chunk.ofNode s root style regions = .ok c) :
    (∃ t items, c = .block t none none false items) ∧
      ∃ idss, List.Forall₂ (Leaf.Shows (s.buildContext style) regions) c.content idss ∧
        idss.flatten = s.significant := by
  have hstart : Build.Laid (s.buildContext style) regions [] []
      { trivia := TriviaIndex.ofStream s style regions } :=
    ⟨⟨[], .nil, rfl⟩, TriviaIndex.ofStream_all s style regions⟩
  obtain ⟨_, rfl, hlaid⟩ := Build.adds_unit (x := s.buildContext style) hroot [] [] _ hstart
  obtain ⟨idss, hshows, hplaced⟩ := hlaid.shows
  by_cases hall : ((Build.unit (s.buildContext style) root).run
      { trivia := TriviaIndex.ofStream s style regions }).2.placed.reverse = s.significant
  · obtain rfl := Except.ok.inj ((if_pos hall).symm.trans h)
    refine ⟨⟨_, _, rfl⟩, idss, ?_, hplaced.symm.trans hall⟩
    rw [content_block, contentAny_none, List.append_nil]
    exact hshows
  · exact nomatch (if_neg hall).symm.trans h

end CodeLayout
