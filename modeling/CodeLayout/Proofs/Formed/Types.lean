import CodeLayout.Proofs.Formed.Chain
import CodeLayout.Proofs.Syntax.Types
import CodeLayout.Proofs.Total

/-!
# Trees in the form that builders rely on

Some builders of chunks go by the places of the children of a node: they read a fixed number of
them, or look for one of a kind. `NodeKind.Takes` says which children they do not lose, and a tree
is formed if all of its branches are like that and none of them is empty. What the parsers give is
built, which is more: a branch covers the range from its first child to its last, and the children
of a chain are a chain. Here is what the parsers that others are put together from give, and the
parsers of types.

What a production gives is built if what the rules give is. A rule for a braced initializer must
also give a node that is not empty where there is a token, since selectors may follow it, and the
rule for operators of at least a precedence must leave none of them behind what it gives.
-/

namespace CodeLayout

/-- Whether a node is a token that is no equals sign. An identifier never is one. -/
def Node.IsNamePart : Node → Prop
  | .leaf _ t => t.kind = .ident ∨ t.text ≠ ascii "="
  | .branch .. => False

/-- Which children a branch of a kind may have, where a builder goes by their places. -/
def NodeKind.Takes : NodeKind → List Node → Prop
  | .clause, cs => ∃ word types, cs = word :: types ∧ word.isKind .typeList = false ∧
      (types = [] ∨ ∃ n, types = [n] ∧ n.isKind .typeList = true)
  | .unary, cs => cs.length ≤ 2
  | .assign, cs => cs.length ≤ 3
  | .select, cs => cs.length = 2 ∨ cs.length = 3
  | .declarator, cs => ∃ names value, cs = names ++ value ∧ (∀ n ∈ names, n.IsNamePart) ∧
      value.length ≤ 2
  | _, _ => True

/-- Whether no branch below a node is empty, and all branches have children that are not lost. -/
inductive Node.Formed : Node → Prop
  | leaf (id : Nat) (t : Token) : Formed (.leaf id t)
  | branch {kind : NodeKind} {start stop : Nat} {children : List Node}
      (takes : kind.Takes children) (full : ∀ c ∈ children, c.isEmpty = false)
      (below : ∀ c ∈ children, Formed c) : Formed (.branch kind start stop children)

/-- Which children a branch of a kind has where it comes from a parser. -/
def NodeKind.Admits : NodeKind → List Node → Prop
  | .binary, cs => Node.IsChain cs
  | kind, cs => kind.Takes cs

theorem NodeKind.Admits.takes {kind : NodeKind} {cs : List Node} (h : kind.Admits cs) :
    kind.Takes cs := by
  cases kind with
  | binary => exact trivial
  | _ => exact h

/-- Whether no branch of a tree has an empty child, and all branches have children that their kind
admits and cover the range from the first to the last of them. -/
inductive Node.Built : Node → Prop
  | leaf (id : Nat) (t : Token) : Built (.leaf id t)
  | branch {kind : NodeKind} {start stop : Nat} {children : List Node}
      (admits : kind.Admits children) (full : ∀ c ∈ children, c.isEmpty = false)
      (first : start = (children.head?.map Node.start).getD 0)
      (last : stop = (children.getLast?.map Node.stop).getD 0)
      (below : ∀ c ∈ children, Built c) : Built (.branch kind start stop children)

theorem Node.Built.formed {n : Node} (h : n.Built) : n.Formed := by
  induction h with
  | leaf id t => exact .leaf id t
  | branch admits full _ _ _ ih => exact .branch admits.takes full ih

/-- Whether a node is built if it is there. -/
def Node.OptBuilt (o : Option Node) : Prop :=
  ∀ n, o = some n → n.Built

/-- Whether the nodes of a list that are there are built. -/
def Node.AllBuilt (os : List (Option Node)) : Prop :=
  ∀ o ∈ os, OptBuilt o

namespace Node

variable {kind : NodeKind} {n : Node} {o : Option Node} {os : List (Option Node)}

@[simp] theorem optBuilt_none : OptBuilt none :=
  nofun

@[simp] theorem optBuilt_some : OptBuilt (some n) ↔ n.Built :=
  ⟨fun h => h n rfl, fun h _ heq => Option.some.inj heq ▸ h⟩

@[simp] theorem allBuilt_nil : AllBuilt [] :=
  List.forall_mem_nil _

@[simp] theorem allBuilt_cons : AllBuilt (o :: os) ↔ OptBuilt o ∧ AllBuilt os :=
  List.forall_mem_cons

@[simp] theorem allBuilt_append {ps : List (Option Node)} :
    AllBuilt (os ++ ps) ↔ AllBuilt os ∧ AllBuilt ps :=
  List.forall_mem_append

@[simp] theorem built_leaf (id : Nat) (t : Token) : (leaf id t).Built :=
  .leaf id t

theorem mem_children_make (hn : n ∈ (make kind os).children) :
    some n ∈ os ∧ n.isEmpty = false := by
  rw [children_make, List.mem_filter, List.reduceOption_mem_iff] at hn
  simpa using hn

/-- A branch of built nodes is built if its kind admits them. -/
theorem built_make (hk : kind.Admits (make kind os).children) (h : AllBuilt os) :
    (make kind os).Built := by
  have hmem : ∀ c ∈ (make kind os).children, some c ∈ os ∧ c.isEmpty = false :=
    fun _ hc => mem_children_make hc
  exact .branch hk (fun c hc => (hmem c hc).2) rfl rfl fun c hc => h _ (hmem c hc).1 c rfl

theorem length_children_make : (make kind os).children.length ≤ os.length := by
  rw [children_make]
  exact Nat.le_trans (List.length_filter_le _ _) (List.reduceOption_length_le os)

/-- A branch with a node that is there and holds something is not empty. -/
theorem isEmpty_make (hn : some n ∈ os) (hfull : n.isEmpty = false) :
    (make kind os).isEmpty = false := by
  have hmem : n ∈ (make kind os).children := by
    rw [children_make, List.mem_filter, List.reduceOption_mem_iff]
    exact ⟨hn, by simp [hfull]⟩
  simp only [isEmpty, make, children] at hmem ⊢
  simpa using List.ne_nil_of_mem hmem

/-- Whether a node has a place of its own in a chain: it is built, not empty, and neither an
operator nor a chain. -/
structure IsOperand (n : Node) : Prop where
  built : n.Built
  full : n.isEmpty = false
  notOperator : n.isKind .operator = false
  notBinary : n.isKind .binary = false

/-- Whether a node is an operand if it is there. -/
def OptOperand (o : Option Node) : Prop :=
  ∀ n, o = some n → n.IsOperand

/-- Whether a node is there, and is an operand. -/
def SomeOperand (o : Option Node) : Prop :=
  ∃ n, o = some n ∧ n.IsOperand

theorem SomeOperand.optOperand (h : SomeOperand o) : OptOperand o := by
  obtain ⟨n, rfl, hn⟩ := h
  rintro _ ⟨rfl⟩
  exact hn

theorem OptOperand.built (h : OptOperand o) : OptBuilt o :=
  fun n hn => (h n hn).built

theorem SomeOperand.built (h : SomeOperand o) : OptBuilt o :=
  h.optOperand.built

theorem optOperand_none : OptOperand none :=
  nofun

theorem isOperand_leaf (id : Nat) (t : Token) : (leaf id t).IsOperand :=
  ⟨.leaf id t, rfl, rfl, rfl⟩

/-- A branch with a node in it that is not empty, of any other kind than operators and chains. -/
theorem isOperand_make (hkind : kind ≠ .operator ∧ kind ≠ .binary)
    (hk : kind.Admits (make kind os).children) (h : AllBuilt os) (hn : some n ∈ os)
    (hfull : n.isEmpty = false) : (make kind os).IsOperand where
  built := built_make hk h
  full := isEmpty_make hn hfull
  notOperator := by simpa [isKind, kind?, make] using hkind.1
  notBinary := by simpa [isKind, kind?, make] using hkind.2

/-- A branch that starts with a token. -/
theorem isOperand_make_leaf {id : Nat} {t : Token} (hkind : kind ≠ .operator ∧ kind ≠ .binary)
    (hk : kind.Admits (make kind (some (.leaf id t) :: os)).children) (h : AllBuilt os) :
    (make kind (some (.leaf id t) :: os)).IsOperand :=
  isOperand_make hkind hk (allBuilt_cons.mpr ⟨by simp, h⟩) List.mem_cons_self rfl

end Node

/-- The token at a position where a text is. -/
theorem Cursor.get?_of_isAt {c : Cursor} {k : Int} {t : String} (h : c.isAt k t = true)
    (ht : ascii t ≠ []) : ∃ l, c.get? k = some l ∧ l.token.text = ascii t := by
  simp only [isAt, text, beq_iff_eq] at h
  cases hl : c.get? k with
  | none =>
      rw [hl] at h
      exact absurd h.symm ht
  | some l =>
      rw [hl] at h
      exact ⟨l, rfl, h⟩

namespace Parser

open Node Cursor

variable {α : Type} {s : ParserState} {post : α → Prop} {more : Parser Bool} {m : Cursor → Bool}
  {step : Parser (List (Option Node) × Bool)} {P : Option Node → Prop} {Q : Cursor → Prop}

section Looking

theorem Ensures.cursor {f : Cursor → Parser α} (h : Ensures (f s.cursor) s post) :
    Ensures (Parser.cursor >>= f) s post :=
  Ensures.look rfl h

theorem Ensures.isAt {t : String} {f : Bool → Parser α}
    (h : Ensures (f (s.cursor.isAt 0 t)) s post) : Ensures (Parser.isAt t >>= f) s post :=
  Ensures.look rfl h

theorem Ensures.isName {f : Bool → Parser α} (h : Ensures (f (s.cursor.isName 0)) s post) :
    Ensures (Parser.isName >>= f) s post :=
  Ensures.look rfl h

theorem Ensures.bound {f : Nat → Parser α} (h : Ensures (f s.cursor.bound) s post) :
    Ensures (Parser.bound >>= f) s post :=
  Ensures.look rfl h

theorem Ensures.before {t : String} {f : Bool → Parser α}
    (h : Ensures (f (!s.cursor.isAt 0 t && !s.cursor.isDone)) s post) :
    Ensures (Parser.before t >>= f) s post :=
  Ensures.look rfl h

theorem Ensures.peekOperator {f : Bytes × Nat → Parser α}
    (h : ∀ op k, s.cursor.operator = (op, k) → Ensures (f (op, k)) s post) :
    Ensures (Grammar.peekOperator >>= f) s post :=
  Ensures.look rfl (h _ _ rfl)

theorem Ensures.unexpected {want place : Bytes} {f : Unit → Parser α}
    (h : ∀ s, Ensures (f ()) s post) : Ensures (Parser.unexpected want place >>= f) s post :=
  Ensures.change (h _)

theorem Leads.cursor {f : Cursor → Parser α} {ends : α → ParserState → Prop}
    (h : Leads (f s.cursor) s ends) : Leads (Parser.cursor >>= f) s ends :=
  Leads.look rfl h

theorem Leads.isAt {t : String} {f : Bool → Parser α} {ends : α → ParserState → Prop}
    (h : Leads (f (s.cursor.isAt 0 t)) s ends) : Leads (Parser.isAt t >>= f) s ends :=
  Leads.look rfl h

theorem Leads.peekOperator {f : Bytes × Nat → Parser α} {ends : α → ParserState → Prop}
    (h : ∀ op k, s.cursor.operator = (op, k) → Leads (f (op, k)) s ends) :
    Leads (Grammar.peekOperator >>= f) s ends :=
  Leads.look rfl (h _ _ rfl)

theorem Leads.bound {f : Nat → Parser α} {ends : α → ParserState → Prop}
    (h : Leads (f s.cursor.bound) s ends) : Leads (Parser.bound >>= f) s ends :=
  Leads.look rfl h

/-- What is recorded does not move the cursor. -/
theorem Leads.unexpected {want place : Bytes} {f : Unit → Parser α} {ends : α → ParserState → Prop}
    (h : ∀ s', s'.cursor = s.cursor → Leads (f ()) s' ends) :
    Leads (Parser.unexpected want place >>= f) s ends :=
  Leads.change (h _ rfl)

end Looking

section Primitives

/-- The token at the cursor is taken. -/
theorem Ensures.next_leaf {l : Lexeme} (h : s.cursor.get? 0 = some l) :
    Ensures Parser.next s fun n => n = some (.leaf l.id l.token) := by
  intro a s' hrun
  rw [next_run h] at hrun
  exact (Except.ok.inj (Prod.mk.inj hrun).1).symm

theorem Ensures.next : Ensures Parser.next s OptBuilt := by
  cases hl : s.cursor.get? 0 with
  | none =>
      intro a s' hrun
      rw [next_run_none hl] at hrun
      rw [← Except.ok.inj (Prod.mk.inj hrun).1]
      exact optBuilt_none
  | some l =>
      refine (Ensures.next_leaf hl).mono fun n hn => ?_
      rw [hn]
      exact optBuilt_some.mpr (built_leaf _ _)

/-- A token is taken where there is one. -/
theorem Ensures.next_some (h : 0 < s.cursor.left) :
    Ensures Parser.next s fun n => ∃ id t, n = some (.leaf id t) := by
  obtain ⟨l, hl⟩ := get?_zero_of_left_pos h
  exact (Ensures.next_leaf hl).mono fun n hn => ⟨_, _, hn⟩

theorem Ensures.none : Ensures (Pure.pure none : Parser (Option Node)) s OptBuilt :=
  Ensures.pure optBuilt_none

theorem Ensures.nil : Ensures (Pure.pure [] : Parser (List (Option Node))) s AllBuilt :=
  Ensures.pure allBuilt_nil

theorem Ensures.accept (t : String) : Ensures (Parser.accept t) s OptBuilt :=
  Ensures.isAt (Ensures.ite (fun _ => Ensures.next) fun _ => Ensures.none)

theorem Ensures.acceptName : Ensures Parser.acceptName s OptBuilt :=
  Ensures.isName (Ensures.ite (fun _ => Ensures.next) fun _ => Ensures.none)

theorem Ensures.expect (t place : String) : Ensures (Parser.expect t place) s OptBuilt := by
  refine (Ensures.accept t).bind fun n s₁ h₁ => ?_
  cases n with
  | none => exact Ensures.unexpected fun s₂ => Ensures.none
  | some n => exact Ensures.pure h₁

theorem Ensures.node {kind : NodeKind} {ns : List (Option Node)}
    (hk : kind.Admits (make kind ns).children) (h : AllBuilt ns) :
    Ensures (Parser.node kind ns) s OptBuilt :=
  Ensures.pure (optBuilt_some.mpr (built_make hk h))

theorem Ensures.tokens (k : Nat) : Ensures (Parser.tokens k) s AllBuilt := by
  induction k generalizing s with
  | zero => exact Ensures.nil
  | succ k ih =>
      refine Ensures.next.bind fun n s₁ h₁ => ?_
      refine ih.bind fun ns s₂ h₂ => ?_
      exact Ensures.pure (allBuilt_cons.mpr ⟨h₁, h₂⟩)

theorem Ensures.tokens_some (k : Nat) (h : 0 < s.cursor.left) :
    Ensures (Parser.tokens (k + 1)) s fun ns =>
      ∃ id t rest, ns = some (.leaf id t) :: rest ∧ AllBuilt rest := by
  refine (Ensures.next_some h).bind ?_
  rintro _ s₁ ⟨id, t, rfl⟩
  exact (Ensures.tokens k).bind fun rest s₂ h₂ => Ensures.pure ⟨id, t, rest, rfl, h₂⟩

end Primitives

section Loops

/-- What holds of all nodes of each step of a loop holds of all nodes of the loop. A loop ends where
its condition fails, or behind a step that does not ask for more. -/
theorem Leads.collectFrom (hmore : ∀ s, more.run s = (Except.ok (m s.cursor), s))
    (hexit : ∀ c, m c = false → Q c) (hstep : ∀ s, m s.cursor = true → Leads step s fun r s' =>
      (∀ n ∈ r.1, P n) ∧ (r.2 = false → Q s'.cursor)) {fuel : Nat} {last : Option Nat} :
    Leads (collectFrom fuel last more step) s fun ns s' => (∀ n ∈ ns, P n) ∧ Q s'.cursor := by
  induction fuel generalizing s last with
  | zero => exact Leads.throw _
  | succ fuel ih =>
      refine Leads.look (hmore s) (Leads.ite (fun hm => ?_) fun hm => Leads.pure
        ⟨by simp, hexit _ (by simpa using hm)⟩)
      refine Leads.cursor (Leads.ite (fun _ => Leads.throw _) fun _ => ?_)
      refine (hstep s hm).bind ?_
      rintro ⟨nodes, again⟩ s₁ ⟨hnodes, hend⟩
      refine Leads.ite (fun _ => ?_) fun hagain => Leads.pure ⟨hnodes, hend (by simpa using hagain)⟩
      refine ih.bind fun rest s₂ hrest => ?_
      exact Leads.pure ⟨List.forall_mem_append.mpr ⟨hnodes, hrest.1⟩, hrest.2⟩

theorem Leads.collect (m : Cursor → Bool) (hmore : ∀ s, more.run s = (Except.ok (m s.cursor), s))
    (hexit : ∀ c, m c = false → Q c) (hstep : ∀ s, m s.cursor = true → Leads step s fun r s' =>
      (∀ n ∈ r.1, P n) ∧ (r.2 = false → Q s'.cursor)) :
    Leads (Parser.collect more step) s fun ns s' => (∀ n ∈ ns, P n) ∧ Q s'.cursor :=
  Leads.look rfl (Leads.collectFrom hmore hexit hstep)

theorem Ensures.collect (m : Cursor → Bool)
    (hmore : ∀ s, more.run s = (Except.ok (m s.cursor), s))
    (hstep : ∀ s, m s.cursor = true → Ensures step s fun r => ∀ n ∈ r.1, P n) :
    Ensures (Parser.collect more step) s fun ns => ∀ n ∈ ns, P n := by
  have hleads := Leads.collect (Q := fun _ => True) (s := s) m hmore (fun _ _ => trivial)
    fun s hm => Leads.of_ensures (hstep s hm) fun _ _ h => ⟨h, fun _ => trivial⟩
  exact hleads.ensures fun _ _ h => h.1

theorem Ensures.many {one : Parser (Option Node)} (m : Cursor → Bool)
    (hmore : ∀ s, more.run s = (Except.ok (m s.cursor), s))
    (hone : ∀ s, m s.cursor = true → Ensures one s OptBuilt) :
    Ensures (Parser.many more one) s AllBuilt := by
  refine Ensures.collect m hmore fun s₁ hm => ?_
  refine (hone s₁ hm).bind fun n s₂ h => ?_
  exact Ensures.pure (by simpa using h)

/-- The first node of a repetition. -/
theorem Ensures.many_first {one : Parser (Option Node)} (m : Cursor → Bool)
    (hmore : ∀ s, more.run s = (Except.ok (m s.cursor), s)) (hm : m s.cursor = true)
    (hone : Ensures one s P) : Ensures (Parser.many more one) s fun ns => ∃ o ∈ ns, P o := by
  refine Ensures.bound (Ensures.look (hmore s) (Ensures.ite (fun _ => ?_) fun hnot => ?_))
  · refine Ensures.cursor (Ensures.ite (fun _ => Ensures.throw _) fun _ => ?_)
    have hstep : Ensures (do return ([← one], true)) s fun r => ∃ o ∈ r.1, P o :=
      hone.bind fun o s₁ ho => Ensures.pure ⟨o, by simp, ho⟩
    refine hstep.bind ?_
    rintro ⟨nodes, again⟩ s₁ ⟨o, hmem, ho⟩
    refine Ensures.ite (fun _ => ?_) fun _ => Ensures.pure ⟨o, hmem, ho⟩
    refine Ensures.bind_run fun rest s₂ _ => ?_
    exact Ensures.pure ⟨o, List.mem_append_left _ hmem, ho⟩
  · exact absurd hm hnot

theorem Ensures.separated {element : Parser (Option Node)} {separator : String}
    (m : Cursor → Bool) (hmore : ∀ s, more.run s = (Except.ok (m s.cursor), s))
    (helement : ∀ s, m s.cursor = true → Ensures element s OptBuilt) :
    Ensures (Parser.separated more element separator) s AllBuilt := by
  refine Ensures.collect m hmore fun s₁ hm => ?_
  refine (helement s₁ hm).bind fun n s₂ h₂ => ?_
  cases n with
  | none => exact Ensures.pure (by simp)
  | some e =>
      refine (Ensures.accept separator).bind fun mark s₃ h₃ => ?_
      cases mark with
      | none => exact Ensures.pure (by simpa using h₂)
      | some t => exact Ensures.pure (List.forall_mem_cons.mpr ⟨h₂, by simpa using h₃⟩)

/-- The brackets behind a name are no equals signs. -/
theorem Ensures.dims : Ensures Parser.dims s fun ns =>
    ∀ o ∈ ns, ∀ n, o = some n → n.IsNamePart := by
  refine Ensures.collect (fun c => c.isAt 0 "[" && c.isAt 1 "]") (fun _ => rfl) fun s₁ hm => ?_
  simp only [Bool.and_eq_true] at hm
  obtain ⟨l, hl, htext⟩ := get?_of_isAt hm.1 (by decide)
  obtain ⟨l', hl', htext'⟩ := get?_of_isAt hm.2 (by decide)
  refine Ensures.bind_run fun n s₂ hrun => ?_
  rw [next_run hl] at hrun
  obtain ⟨⟨rfl⟩, rfl⟩ := Prod.mk.inj hrun
  have hnext : ({ s₁.cursor with pos := s₁.cursor.pos + 1 } : Cursor).get? 0 = some l' := by
    simpa [get?] using hl'
  refine (Ensures.next_leaf hnext).bind ?_
  rintro _ s₃ rfl
  refine Ensures.pure ?_
  simp only [List.forall_mem_cons, Option.some.injEq, forall_eq', Node.IsNamePart, htext, htext']
  exact ⟨Or.inr (by decide), Or.inr (by decide), by simp⟩

theorem Ensures.dims_built : Ensures Parser.dims s AllBuilt := by
  refine Ensures.dims.mono fun ns hns o ho n hn => ?_
  have hname := hns o ho n hn
  cases n with
  | leaf id t => exact .leaf id t
  | branch kind start stop children => exact hname.elim

end Loops

end Parser

namespace Grammar

open CodeLayout.Node CodeLayout.Parser CodeLayout.Cursor

/-- The precedence of the operator at the cursor; zero if there is none. -/
def nextPrecedence (c : Cursor) : Nat :=
  precedence c.operator.1

/-- Whether a node can stand behind an operator that binds less tightly than a precedence. -/
structure IsBound (least : Nat) (n : Node) : Prop where
  built : n.Built
  full : n.isEmpty = false
  notOperator : n.isKind .operator = false
  binds : n.isKind .binary = true → least ≤ chainPrecedence n.children

theorem IsBound.of_isOperand {n : Node} (h : n.IsOperand) (least : Nat) : IsBound least n where
  built := h.built
  full := h.full
  notOperator := h.notOperator
  binds hbinary := by simp [h.notBinary] at hbinary

/-- Every rule gives built nodes. Behind operands that are joined by operators of at least a
precedence there is no such operator, and where there is no operand there is none at all. -/
structure Formal (g : Grammar) : Prop where
  built : ∀ r s, Ensures (g r) s OptBuilt
  full : ∀ e s, 0 < s.cursor.left → Ensures (g (.arrayInit e)) s SomeOperand
  joined : ∀ least s, Leads (g (.binary least)) s fun o s' =>
    (∀ n, o = some n → IsBound least n) ∧ (o = none → nextPrecedence s'.cursor = 0) ∧
      (nextPrecedence s'.cursor = 0 ∨ nextPrecedence s'.cursor < least)

variable {g : Grammar} {s : ParserState}

theorem ensures_annotName : Ensures annotName s AllBuilt := by
  refine Ensures.collect (fun c => c.isWord 0) (fun _ => rfl) fun s₁ _ => ?_
  refine Ensures.next.bind fun word s₂ h₂ => ?_
  refine (Ensures.accept ".").bind fun dot s₃ h₃ => ?_
  cases dot with
  | none => exact Ensures.pure (by simpa using h₂)
  | some d => exact Ensures.pure (allBuilt_cons.mpr ⟨h₂, by simpa using h₃⟩)

section Rules

variable (hg : Formal g)
include hg

theorem ensures_annotArg : Ensures (annotArg g) s OptBuilt := by
  refine Ensures.cursor (Ensures.ite (fun _ => ?_) fun _ => hg.built _ s)
  refine Ensures.next.bind fun name s₁ h₁ => ?_
  refine Ensures.next.bind fun eq s₂ h₂ => ?_
  refine (hg.built _ s₂).bind fun value s₃ h₃ => ?_
  exact Ensures.node trivial (by simp [h₁, h₂, h₃])

theorem ensures_annotArgs : Ensures (annotArgs g) s OptBuilt := by
  refine Ensures.next.bind fun opening s₁ h₁ => ?_
  refine (Ensures.separated (fun c => !c.isAt 0 ")" && !c.isDone) (fun _ => rfl)
    fun _ _ => ensures_annotArg hg).bind fun args s₂ h₂ => ?_
  refine (Ensures.expect ")" "annotation").bind fun closing s₃ h₃ => ?_
  exact Ensures.node trivial (by simp [h₁, h₂, h₃])

theorem ensures_annot (hpos : 0 < s.cursor.left) : Ensures (annot g) s SomeOperand := by
  refine (Ensures.next_some hpos).bind ?_
  rintro _ s₁ ⟨id, t, rfl⟩
  refine ensures_annotName.bind fun name s₂ h₂ => ?_
  refine Ensures.isAt (Ensures.ite (fun _ => ?_) fun _ => ?_)
  · refine (ensures_annotArgs hg).bind fun args s₃ h₃ => ?_
    exact Ensures.pure ⟨_, rfl, isOperand_make_leaf (by decide) trivial (by simp [h₂, h₃])⟩
  · exact Ensures.pure ⟨_, rfl, isOperand_make_leaf (by decide) trivial (by simp [h₂])⟩

theorem ensures_annotValue : Ensures (annotValue g) s OptBuilt := by
  refine Ensures.isAt (Ensures.ite (fun _ => hg.built _ s) fun _ => ?_)
  refine Ensures.isAt (Ensures.ite (fun hat => ?_) fun _ => hg.built _ s)
  exact (ensures_annot hg (left_pos_of_isAt hat (by decide))).mono fun _ h => h.built

/-- A part of a type: an annotation or a token, and not nothing where there is a token. -/
theorem ensures_typePart : Ensures (do if ← isAt "@" then annot g else next) s fun o =>
    OptBuilt o ∧ (0 < s.cursor.left → ∃ n, o = some n ∧ n.isEmpty = false) := by
  refine Ensures.isAt (Ensures.ite (fun hat => ?_) fun _ => fun o s' hrun => ⟨?_, fun hpos => ?_⟩)
  · refine (ensures_annot hg (left_pos_of_isAt hat (by decide))).mono fun o ho => ⟨ho.built, ?_⟩
    obtain ⟨n, rfl, hn⟩ := ho
    exact fun _ => ⟨n, rfl, hn.full⟩
  · exact Ensures.next o s' hrun
  · obtain ⟨id, t, rfl⟩ := Ensures.next_some hpos o s' hrun
    exact ⟨_, rfl, rfl⟩

/-- A type is not empty, unless the annotations in front of it are never closed. -/
theorem ensures_type : Ensures (type g) s fun o => OptBuilt o ∧
    ((s.cursor.skipType 0).isSome = true → s.cursor.isAnnot 0 = false → SomeOperand o) := by
  refine Ensures.cursor ?_
  cases hskip : s.cursor.skipType 0 with
  | none => exact Ensures.unexpected fun _ => Ensures.pure ⟨optBuilt_none, nofun⟩
  | some k =>
      intro o s' hrun
      have hparts := Ensures.many (s := s) (fun c => (c.pos : Int) < s.cursor.pos + k)
        (fun _ => rfl) fun s₁ _ => (ensures_typePart hg (s := s₁)).mono fun _ h => h.1
      obtain ⟨parts, s₁, hmany, hnode⟩ := exists_of_run_bind hrun
      have hbuilt := hparts parts s₁ hmany
      obtain ⟨⟨rfl⟩, rfl⟩ := Prod.mk.inj hnode
      refine ⟨optBuilt_some.mpr (built_make trivial hbuilt), fun _ hannot => ?_⟩
      obtain ⟨hlt, hreach⟩ := skipType_bounds hskip
      rw [skipAnnots_eq_self hannot] at hlt
      have hpos : 0 < s.cursor.left := by
        simp only [Cursor.Reaches] at hreach
        simp only [Cursor.left]
        omega
      obtain ⟨o, hmem, n, rfl, hn⟩ := Ensures.many_first (s := s)
        (fun c => (c.pos : Int) < s.cursor.pos + k) (fun _ => rfl) (decide_eq_true (by omega))
        ((ensures_typePart hg).mono fun _ h => h.2 hpos) parts s₁ hmany
      exact ⟨_, rfl, isOperand_make (by decide) trivial hbuilt hmem hn⟩

theorem ensures_type_built : Ensures (type g) s OptBuilt :=
  (ensures_type hg).mono fun _ h => h.1

omit hg in
theorem ensures_typeParams : Ensures typeParams s OptBuilt := by
  refine Ensures.cursor ?_
  cases s.cursor.skipTypeArgs 0 with
  | none => exact Ensures.none
  | some k => exact (Ensures.tokens _).bind fun ns s₁ h₁ => Ensures.node trivial h₁

/-- A list of types is a node of its own kind. -/
theorem ensures_typeList (place : Bytes) : Ensures (typeList g place) s fun n =>
    OptBuilt n ∧ ∃ types, n = some (make .typeList types) := by
  refine (Ensures.separated (fun _ => true) (fun _ => rfl) fun s₁ _ => ?_).bind
    fun types s₂ h₂ => Ensures.pure ⟨optBuilt_some.mpr (built_make trivial h₂), types, rfl⟩
  refine Ensures.cursor (Ensures.ite (fun _ => ?_) fun _ => ensures_type_built hg)
  exact Ensures.unexpected fun _ => Ensures.none

/-- Where no modifier is given, no annotation stands at the cursor. -/
theorem leads_modifier (member : Bool) : Leads (modifier g member) s fun o s' =>
    OptOperand o ∧ (o = none → s'.cursor.isAnnot 0 = false) := by
  have hsome : ∀ {p : Parser (Option Node)} {s : ParserState}, Ensures p s SomeOperand →
      Leads p s fun o s' => OptOperand o ∧ (o = none → s'.cursor.isAnnot 0 = false) := fun h =>
    Leads.of_ensures h fun o s' ho => ⟨ho.optOperand, fun hnone => by
      obtain ⟨n, rfl, -⟩ := ho
      cases hnone⟩
  have hnext : ∀ {s : ParserState}, 0 < s.cursor.left → Ensures next s SomeOperand := fun hpos =>
    (Ensures.next_some hpos).mono fun o ⟨id, t, ho⟩ => ⟨_, ho, isOperand_leaf id t⟩
  refine Leads.cursor (Leads.ite (fun hannot => hsome ?_) fun hannot => ?_)
  · simp only [isAnnot, Bool.and_eq_true] at hannot
    exact ensures_annot hg (left_pos_of_isAt hannot.1 (by decide))
  have hnone : Leads (pure none : Parser (Option Node)) s fun o s' =>
      OptOperand o ∧ (o = none → s'.cursor.isAnnot 0 = false) :=
    Leads.pure ⟨optOperand_none, fun _ => by simpa using hannot⟩
  refine Leads.ite (fun hat => hsome (hnext (left_pos_of_isAt hat (by decide)))) fun _ => ?_
  refine Leads.ite (fun _ => hnone) fun _ => Leads.ite (fun hat => hsome ?_) fun _ => ?_
  · simp only [Bool.and_eq_true] at hat
    refine (Ensures.tokens_some 2 (left_pos_of_isAt hat.1.1 (by decide))).bind ?_
    rintro _ s₁ ⟨id, t, rest, rfl, hrest⟩
    exact Ensures.pure ⟨_, rfl, isOperand_make_leaf (by decide) trivial hrest⟩
  · refine Leads.ite (fun hword => hsome (hnext ?_)) fun _ => hnone
    simp only [isMemberModifier, Bool.and_eq_true] at hword
    exact left_pos_of_isWord hword.1.1.1.1

/-- Behind modifiers no annotation stands at the cursor. -/
theorem leads_modifiers (member : Bool) : Leads (modifiers g member) s fun o s' =>
    OptOperand o ∧ s'.cursor.isAnnot 0 = false := by
  refine (Leads.collect (P := SomeOperand) (Q := fun c => c.isAnnot 0 = false) (fun _ => true)
    (fun _ => rfl) (fun _ => nofun) fun s₁ _ => ?_).bind ?_
  · refine (leads_modifier hg member).bind fun m s₂ h₂ => ?_
    cases m with
    | none => exact Leads.pure ⟨by simp, fun _ => h₂.2 rfl⟩
    | some n => exact Leads.pure ⟨by simpa using ⟨n, rfl, h₂.1 n rfl⟩, nofun⟩
  · rintro parts s₁ ⟨h₁, hannot⟩
    refine Leads.ite (fun _ => Leads.pure ⟨optOperand_none, hannot⟩) fun hparts => ?_
    cases parts with
    | nil => exact absurd rfl hparts
    | cons o os =>
        obtain ⟨n, rfl, hn⟩ := h₁ o List.mem_cons_self
        refine Leads.pure ⟨?_, hannot⟩
        rintro _ ⟨rfl⟩
        exact isOperand_make (by decide) trivial (fun o ho => (h₁ o ho).built) List.mem_cons_self
          hn.full

theorem ensures_modifiers (member : Bool) : Ensures (modifiers g member) s OptBuilt :=
  (leads_modifiers hg member).ensures fun _ _ h => h.1.built

end Rules

end Grammar

end CodeLayout
