import CodeLayout.Proofs.Formed.Tree
import CodeLayout.Proofs.Syntax.Tree
import CodeLayout.Proofs.Token.Lexer

/-!
# The nodes of the tree of a stream

What holds where a node is made holds of every node of a tree. A node for operators holds a chain. A
node covers the range from its first token to its last, since this is where its first child starts
and its last child ends; and as the tokens of a tree are in order, its children are.
-/

namespace CodeLayout

namespace Node

variable {n d : Node} {cs : List Node} {R : Nat × Token → Nat × Token → Prop}

/-- Whether a node has tokens and covers the range from the first to the last of them. -/
def IsTight (n : Node) : Prop :=
  ∃ first last, n.leaves.head? = some first ∧ n.leaves.getLast? = some last ∧
    n.start = first.2.start ∧ n.stop = last.2.stop

theorem mem_preorderList_iff : d ∈ preorderList cs ↔ ∃ c ∈ cs, d ∈ c.preorder := by
  induction cs with
  | nil => simp [preorderList]
  | cons c cs ih => simp [preorderList, ih]

theorem leavesList_eq_flatMap (cs : List Node) : leavesList cs = cs.flatMap leaves := by
  induction cs with
  | nil => rfl
  | cons c cs ih => rw [leavesList, ih, List.flatMap_cons]

/-- What is below a built node that is not empty is built and not empty. -/
theorem Built.of_mem_preorder (h : n.Built) (hfull : n.isEmpty = false) :
    ∀ d ∈ n.preorder, d.Built ∧ d.isEmpty = false := by
  induction h with
  | leaf id t => exact fun d hd => List.mem_singleton.mp hd ▸ ⟨.leaf id t, rfl⟩
  | branch admits full first last below ih =>
      intro d hd
      rcases List.mem_cons.mp hd with rfl | hd
      · exact ⟨.branch admits full first last below, hfull⟩
      · obtain ⟨c, hc, hd⟩ := mem_preorderList_iff.mp hd
        exact ih c hc (full c hc) d hd

theorem Built.child (h : n.Built) {c : Node} (hc : c ∈ n.children) :
    c.Built ∧ c.isEmpty = false := by
  cases h with
  | leaf id t => cases hc
  | branch admits full first last below => exact ⟨below c hc, full c hc⟩

theorem Built.isChain (h : n.Built) (hkind : n.isKind .binary = true) : IsChain n.children := by
  cases h with
  | leaf id t => cases hkind
  | branch admits full first last below =>
      obtain rfl := Option.some.inj (of_decide_eq_true hkind)
      exact admits

/-- The first token of nodes is that of the first of them, and so is the last one of the last. -/
theorem head?_leavesList (h : ∀ c ∈ cs, c.leaves ≠ []) :
    (leavesList cs).head? = cs.head?.bind fun c => c.leaves.head? := by
  cases cs with
  | nil => rfl
  | cons c cs =>
      rw [leavesList, List.head?_append_of_ne_nil _ (h c List.mem_cons_self)]
      rfl

theorem getLast?_leavesList (h : ∀ c ∈ cs, c.leaves ≠ []) :
    (leavesList cs).getLast? = cs.getLast?.bind fun c => c.leaves.getLast? := by
  induction cs using List.reverseRecOn with
  | nil => rfl
  | append_singleton cs c _ =>
      rw [leavesList_append, leavesList_singleton,
        List.getLast?_append_of_ne_nil _ (h c (by simp)), List.getLast?_concat]
      rfl

theorem IsTight.leaves_ne_nil (h : n.IsTight) : n.leaves ≠ [] := by
  obtain ⟨first, -, hfirst, -⟩ := h
  intro hnil
  rw [hnil] at hfirst
  cases hfirst

/-- A built node that is not empty is tight. -/
theorem Built.isTight (h : n.Built) (hfull : n.isEmpty = false) : n.IsTight := by
  induction h with
  | leaf id t => exact ⟨(id, t), (id, t), rfl, rfl, rfl, rfl⟩
  | @branch kind start stop children admits full first last below ih =>
      have htight : ∀ c ∈ children, c.IsTight := fun c hc => ih c hc (full c hc)
      have hne : children ≠ [] := by simpa [isEmpty] using hfull
      have hleaves : ∀ c ∈ children, c.leaves ≠ [] := fun c hc => (htight c hc).leaves_ne_nil
      obtain ⟨t, -, ht, -, hstart, -⟩ := htight _ (List.head_mem hne)
      obtain ⟨-, u, -, hu, -, hstop⟩ := htight _ (List.getLast_mem hne)
      refine ⟨t, u, ?_, ?_, ?_, ?_⟩
      · rw [leaves, head?_leavesList hleaves, List.head?_eq_some_head hne]
        exact ht
      · rw [leaves, getLast?_leavesList hleaves, List.getLast?_eq_some_getLast hne]
        exact hu
      · rw [Node.start, first, List.head?_eq_some_head hne]
        exact hstart
      · rw [Node.stop, last, List.getLast?_eq_some_getLast hne]
        exact hstop

/-- If the tokens of a tree are in order, so are those of the children of each of its nodes. -/
theorem Formed.pairwise_children (h : n.Formed) (hleaves : n.leaves.Pairwise R) :
    ∀ d ∈ n.preorder, d.children.Pairwise fun a b => ∀ x ∈ a.leaves, ∀ y ∈ b.leaves, R x y := by
  induction h with
  | leaf id t => exact fun d hd => List.mem_singleton.mp hd ▸ .nil
  | @branch kind start stop children takes full below ih =>
      rw [leaves, leavesList_eq_flatMap, List.pairwise_flatMap] at hleaves
      intro d hd
      rcases List.mem_cons.mp hd with rfl | hd
      · exact hleaves.2
      · obtain ⟨c, hc, hd⟩ := mem_preorderList_iff.mp hd
        exact ih c hc (hleaves.1 c hc) d hd

end Node

/-- The tokens with structure are in order if all tokens of a stream are. -/
theorem TokenStream.structural_inOrder (s : TokenStream)
    (h : Token.InOrder 0 s.file.text.length s.tokens.toList) :
    s.structural.Pairwise fun a b => a.2.stop ≤ b.2.start := by
  have hzip : s.tokens.toList.zipIdx.Pairwise fun a b => a.1.stop ≤ b.1.start := by
    rw [← List.pairwise_map (R := fun a b : Token => a.stop ≤ b.start), List.zipIdx_map_fst]
    exact h.pairwise
  exact List.pairwise_map.mpr (hzip.filter _)

namespace Node

variable {s : TokenStream} {kind : SourceKind} {tree : Node}

/-- Reading a stream always comes to a tree, and every node for operators in it holds a chain. -/
theorem ofStream_chains (s : TokenStream) (kind : SourceKind) : ∃ tree,
    (ofStream s kind).tree = .ok tree ∧
      ∀ n ∈ tree.preorder, n.isKind .binary = true → IsChain n.children := by
  obtain ⟨tree, htree, -⟩ := ofStream_covers s kind
  refine ⟨tree, htree, fun n hn hbinary => ?_⟩
  obtain ⟨items, rfl, hitems⟩ := ofStream_built htree
  rcases List.mem_cons.mp hn with rfl | hn
  · cases hbinary
  · obtain ⟨c, hc, hn⟩ := mem_preorderList_iff.mp hn
    exact ((hitems c hc).1.of_mem_preorder (hitems c hc).2 n hn).1.isChain hbinary

/-- A test binds less tightly than a sum, and yet it may be the first operand of one. -/
example : ((ofStream (TokenStream.ofFile ⟨[], ascii "a instanceof B + c;"⟩) .body).tree.toOption.map
    render) = some (ascii ("(Unit (ExprStmt (Binary (Binary a (Operator instanceof) (Type B)) " ++
      "(Operator +) c) ;))")) := by
  decide +kernel

/-- Reading a stream always comes to a tree. Every node below its root has tokens and covers the
range from the first to the last of them, and the tokens of each child of a node come in front of
those of the next. So if the tokens of the stream are in order, as those of a file are, each child
ends before the next one starts. -/
theorem ofStream_tight (s : TokenStream) (kind : SourceKind) : ∃ tree,
    (ofStream s kind).tree = .ok tree ∧ (∀ n ∈ preorderList tree.children, n.IsTight) ∧
      (∀ n ∈ tree.preorder, n.children.Pairwise fun a b =>
        ∀ t ∈ a.leaves, ∀ u ∈ b.leaves, t.1 < u.1) ∧
      (Token.InOrder 0 s.file.text.length s.tokens.toList →
        ∀ n ∈ tree.preorder, n.children.Pairwise fun a b => a.stop ≤ b.start) := by
  obtain ⟨tree, htree, hcovers⟩ := ofStream_covers s kind
  have hsub := hcovers.sublist
  rw [leavesList_singleton] at hsub
  obtain ⟨hformed, -⟩ := ofStream_formed htree
  obtain ⟨items, rfl, hitems⟩ := ofStream_built htree
  have hbelow : ∀ n ∈ preorderList items, n.Built ∧ n.isEmpty = false := fun n hn => by
    obtain ⟨c, hc, hn⟩ := mem_preorderList_iff.mp hn
    exact (hitems c hc).1.of_mem_preorder (hitems c hc).2 n hn
  refine ⟨_, htree, fun n hn => (hbelow n hn).1.isTight (hbelow n hn).2, ?_, fun hin n hn => ?_⟩
  · exact hformed.pairwise_children (s.structural_pairwise.sublist hsub)
  have hchild : ∀ c ∈ n.children, c.Built ∧ c.isEmpty = false := by
    rcases List.mem_cons.mp hn with rfl | hn
    · exact hitems
    · exact fun c hc => (hbelow n hn).1.child hc
  have htokens := hformed.pairwise_children ((s.structural_inOrder hin).sublist hsub) n hn
  refine htokens.imp_of_mem fun {a b} ha hb hab => ?_
  obtain ⟨-, t, -, ht, -, hstop⟩ := (hchild a ha).1.isTight (hchild a ha).2
  obtain ⟨u, -, hu, -, hstart, -⟩ := (hchild b hb).1.isTight (hchild b hb).2
  rw [hstop, hstart]
  exact hab t (List.mem_of_getLast? ht) u (List.mem_of_head? hu)

/-- The tokens of a file are in order, and so are the nodes for a statement whose expression does
not end. -/
theorem ofStream_tight_unfinished : ∃ tree,
    (ofStream (TokenStream.ofFile ⟨[], ascii "a + b instanceof;"⟩) .body).tree = .ok tree ∧
      ∀ n ∈ tree.preorder, n.children.Pairwise fun a b => a.stop ≤ b.start := by
  obtain ⟨tree, htree, -, -, hchildren⟩ :=
    ofStream_tight (TokenStream.ofFile ⟨[], ascii "a + b instanceof;"⟩) .body
  exact ⟨tree, htree, hchildren (TokenStream.ofFile_inOrder _)⟩

end Node

end CodeLayout
