import CodeLayout.Proofs.Kept.Basic

/-!
# Lists and types keep line breaks

The elements of a list are marked by the builder of lists. All other builders put marked chunks one
behind the other.
-/

namespace CodeLayout.Build

open Chunk Node

/-- A builder of nodes marks what is below them, and its chunks start where the nodes do. It settles
the nodes and lays what its chunks hold. -/
structure MarksNodes (x : BuildContext) (spacing : Spacing) (build : NodeBuilder) (depth : Nat) :
    Prop where
  marks : ∀ n : Node, n.Fine x depth →
    Marks x spacing (build n) fun c => Opens spacing n.opening? c.toList
  completes : Completes x build depth
  keeps : ∀ regions, Keeps x regions build

instance {x : BuildContext} {spacing : Spacing} {build : NodeBuilder} {depth : Nat} :
    CoeFun (MarksNodes x spacing build depth) fun _ => ∀ n : Node, n.Fine x depth →
      Marks x spacing (build n) fun c => Opens spacing n.opening? c.toList :=
  ⟨MarksNodes.marks⟩

variable {x : BuildContext} {spacing : Spacing} {build : NodeBuilder} {depth : Nat} {n : Node}
  {ns : List Node} {parts : List Chunk} {s : Option Int} {start : Int}

section Lists

variable (hb : MarksNodes x spacing build depth)
include hb

theorem marks_gluedNodes (hn : n.Parts x depth) :
    Marks x spacing (gluedNodes build n.children) fun c => Opens spacing n.opening? c.toList := by
  rw [hn.opening?_eq]
  exact marks_sequence fun c hc s parts hparts => marks_glued hparts (hb c (hn.fine c hc))

theorem marks_spacedNodes (hn : n.Parts x depth) :
    Marks x spacing (spacedNodes build n.children) fun c => Opens spacing n.opening? c.toList := by
  rw [hn.opening?_eq]
  exact marks_sequence fun c hc s parts hparts => marks_spaced hparts (hb c (hn.fine c hc))

omit hb in
/-- An element, and others behind it. -/
theorem marks_element_cons {c : Chunk} {m : Build (List Chunk)} (hn : n.Fine x depth)
    (hc : Opens spacing n.opening? [c]) (hm : Marks x spacing m (Row spacing s)) :
    Marks x spacing (do let e ← element x n c; return e :: (← m)) (Row spacing (n.opening?.or s)) :=
  Marks.element hn hc fun _ he hmarked => hm.last fun _ hes => Row.cons he hmarked hes

omit hb in
theorem opens_spacedUnless {c : Chunk} (isFirst : Bool) (hc : Opens spacing s [c]) :
    Opens spacing s [if isFirst then c else c.withSpace] := by
  split_ifs
  · exact hc
  · exact hc.withSpace

omit hb in
/-- A node that is there starts with one of its tokens, whatever comes behind it. -/
theorem or_opening (hn : n.Fine x depth) (s : Option Int) : n.opening?.or s = n.opening? := by
  obtain ⟨-, t, -, -, hopening⟩ := hn.opening
  rw [hopening]
  rfl

omit hb in
/-- The chunk of a node that is there. -/
theorem exists_some_of_fine {c : Option Chunk} (hn : n.Fine x depth)
    (hc : Opens spacing n.opening? c.toList) : ∃ d, c = some d ∧ Opens spacing n.opening? [d] := by
  obtain ⟨-, t, -, -, hopening⟩ := hn.opening
  rw [hopening] at hc ⊢
  obtain ⟨d, rfl, hd⟩ := hc.exists_some
  exact ⟨d, rfl, opens_singleton.mpr hd⟩

theorem marks_elements (sep : Bytes) (isFirst : Bool)
    {ns : List Node} (hns : ∀ n ∈ ns, n.Fine x depth) :
    Marks x spacing (elements x build sep isFirst ns) (Row spacing (ns.findSome? opening?)) := by
  match ns with
  | [] => exact Marks.pure row_nil
  | [n] =>
      have hn := hns n (by simp)
      rw [elements, findSome?_cons_or]
      refine (hb n hn).bind fun c hc => ?_
      obtain ⟨d, rfl, hd⟩ := exists_some_of_fine hn hc
      exact marks_element_cons hn (opens_spacedUnless isFirst hd) (m := Pure.pure [])
        (Marks.pure row_nil)
  | n :: mark :: rest =>
      have hn := hns n (by simp)
      have hmark := hns mark (by simp)
      have htail : ∀ m ∈ mark :: rest, m.Fine x depth := fun m hm => hns m (by simp_all)
      have hrest : ∀ m ∈ rest, m.Fine x depth := fun m hm => hns m (by simp [hm])
      rw [elements, findSome?_cons_or]
      refine (hb n hn).bind fun c hc => ?_
      obtain ⟨d, rfl, hd⟩ := exists_some_of_fine hn hc
      refine Marks.ite (fun _ => ?_) fun _ => ?_
      · refine (hb mark hmark).bind fun c' hc' => ?_
        have hboth := opens_sequence (opens_glued (opens_glued opens_nil hc) hc')
        rw [Option.none_or, or_opening hn] at hboth
        obtain ⟨e, heq, he⟩ := exists_some_of_fine hn hboth
        rw [heq, or_opening hn, ← or_opening hn (rest.findSome? opening?)]
        exact marks_element_cons hn (opens_spacedUnless isFirst he)
          (marks_elements sep false hrest)
      · exact marks_element_cons hn (opens_spacedUnless isFirst hd)
          (marks_elements sep false htail)
termination_by ns.length

theorem marks_optional {o : Option Node} (ho : ∀ n ∈ o.toList, n.Fine x depth) :
    Marks x spacing (optional build o)
      fun c => Opens spacing (o.toList.findSome? opening?) c.toList := by
  cases o with
  | none => exact Marks.pure opens_nil
  | some n =>
      rw [Option.toList_some, findSome?_cons_or, List.findSome?_nil, Option.or_none]
      exact hb n (ho n (by simp))

omit hb in
theorem opens_bracketed {context : WrapContext} {opening closing : Option Chunk} {es : List Chunk}
    {s' s'' : Option Int} (ho : Opens spacing s opening.toList) (hes : Row spacing s' es)
    (hc : Opens spacing s'' closing.toList) :
    Opens spacing (s.or (s'.or s'')) [bracketed context opening closing es] := by
  have hinner : Opens spacing s' (if es.isEmpty then none else
      some (Chunk.ofElements context es)).toList := by
    split_ifs with hempty
    · have hnil := hes.opening
      rw [List.isEmpty_iff.mp hempty] at hnil
      exact ⟨nofun, hnil⟩
    · exact hes.ofElements context
  have hparts : ∀ a b c : Option Chunk, [a, b, c].filterMap id =
      a.toList ++ (b.toList ++ c.toList) := by
    intro a b c
    cases a <;> cases b <;> cases c <;> rfl
  rw [bracketed, hparts]
  exact (ho.append (hinner.append hc)).seq

theorem marks_list (context : WrapContext)
    (hn : n.Parts x depth) :
    Marks x spacing (list x build context n.children) fun c =>
      Opens spacing n.opening? c.toList := by
  -- What is between the brackets, whether or not there is an opening one.
  have hinner : ∀ (s : Option Int) (opening : Option Chunk) (inner : List Node),
      (∀ c ∈ inner, c.Fine x depth) → Opens spacing s opening.toList → Marks x spacing (do
        let es ← elements x build (ascii ",") true (splitClosing closesList inner).1
        return some (bracketed context opening
          (← optional build (splitClosing closesList inner).2) es))
        fun c => Opens spacing (s.or (inner.findSome? opening?)) c.toList := by
    intro s opening inner hfine ho
    obtain ⟨hin, hclosing⟩ := splitClosing_mem closesList inner
    have hsplit : inner.findSome? opening? = _ :=
      congrArg (List.findSome? opening?) (splitClosing_append closesList inner).symm
    rw [hsplit, List.findSome?_append]
    refine (marks_elements hb (ascii ",") true fun c hc => hfine c (hin c hc)).bind
      fun es hes => ?_
    exact (marks_optional hb fun c hc => hfine c (hclosing c (Option.mem_toList.mp hc))).last
      fun closing hc => opens_bracketed ho hes hc
  obtain ⟨hne, hfine, -⟩ := hn
  rw [Node.opening?_eq hne]
  cases hchildren : n.children with
  | nil => exact absurd hchildren hne
  | cons c rest =>
      rw [hchildren] at hfine
      rw [list.eq_def]
      dsimp only
      split_ifs with hopens
      · rw [findSome?_cons_or]
        exact (hb c (hfine c List.mem_cons_self)).bind fun o ho =>
          hinner _ o rest (fun d hd => hfine d (List.mem_cons_of_mem c hd)) ho
      · exact hinner none none (c :: rest) hfine opens_nil

theorem marks_annot (hn : n.Parts x depth) :
    Marks x spacing (annot x build n) fun c => Opens spacing n.opening? c.toList := by
  rw [hn.opening?_eq]
  refine marks_sequence fun c hc s parts hparts => ?_
  have hfine := hn.fine c hc
  split_ifs with hk
  · exact marks_glued hparts (marks_list hb _ (hfine.below hk))
  · exact marks_glued hparts (hb c hfine)

theorem marks_type (hn : n.Parts x depth) :
    Marks x spacing (type x build n) fun c => Opens spacing n.opening? c.toList := by
  rw [hn.opening?_eq, type]
  -- A part with or without a space before it.
  have hpart : ∀ (apart : Bool) (last : Bytes) {m : Build (Option Chunk)} {parts : List Chunk}
      {s s' : Option Int}, Opens spacing s parts →
      (Marks x spacing m fun c => Opens spacing s' c.toList) →
      Marks x spacing (do
        let c ← m
        return (if apart then spaced parts c else glued parts c, last))
        fun acc => Opens spacing (s.or s') acc.1 := by
    intro apart last m parts s s' hparts hm
    refine hm.last fun c hc => ?_
    split_ifs
    · exact opens_spaced hparts hc
    · exact opens_glued hparts hc
  refine (marks_parts (fun acc : List Chunk × Bytes => acc.1) rfl
    fun c hc s acc hparts => ?_).bind fun acc hacc => Marks.pure (opens_sequence hacc)
  have hfine := hn.fine c hc
  obtain ⟨parts, previous⟩ := acc
  rw [typePart.eq_def]
  cases c with
  | leaf id t => exact hpart _ _ hparts (hb _ hfine)
  | branch kind start stop children =>
      refine Marks.ite (fun hk => ?_) fun _ => ?_
      · exact hpart _ _ hparts (marks_annot hb (hfine.below hk))
      · exact hpart true [] hparts (hb _ hfine)

omit hb in
/-- A change of the traits of a chunk that may be missing. -/
theorem opens_any_modify {c : Option Chunk} {f : Chunk → Chunk} (hc : Opens spacing s c.toList)
    (hf : ∀ d, Opens spacing s [d] → Opens spacing s [f d]) : Opens spacing s (c.map f).toList := by
  cases c with
  | none => exact hc
  | some d => exact hf d hc

theorem marks_modifiers (decl : Bool) (hn : n.Parts x depth) :
    Marks x spacing (modifiers x build decl n) fun c => Opens spacing n.opening? c.toList := by
  rw [hn.opening?_eq, modifiers]
  refine Marks.last (marks_parts (fun parts => parts) rfl fun c hc s parts hparts => ?_)
    fun parts hparts => opens_any_modify (opens_sequence hparts) fun d hd => ?_
  · refine (hb c (hn.fine c hc)).last fun d hd => opens_spaced hparts ?_
    split_ifs
    · exact opens_any_modify hd fun e he => opens_modify he (fun _ => ⟨rfl, rfl⟩) fun _ => rfl
    · exact hd
  · split_ifs
    · exact opens_modify hd (fun _ => ⟨rfl, rfl⟩) fun _ => rfl
    · exact hd

omit hb in
/-- Comments between items do not matter for where the items start. -/
theorem marks_items {item : NodeBuilder} (hitem : MarksNodes x spacing item depth)
    (hns : ∀ n ∈ ns, n.Fine x depth) :
    Marks x spacing (items x item ns) (Items spacing (ns.findSome? opening?)) := by
  induction ns with
  | nil => exact Marks.pure items_nil
  | cons n ns ih =>
      have hn := hns n List.mem_cons_self
      obtain ⟨id, -, hid, -⟩ := hn.opening
      rw [items, hid, findSome?_cons_or]
      refine (marks_detach (some id) false).bind fun comments hcomments => ?_
      refine Marks.blankBefore hn hid (hitem.completes n hn)
        (fun regions => hitem.keeps regions n hn.within) (hitem n hn) fun blank c hc _ hblank => ?_
      refine (ih fun m hm => hns m (List.mem_cons_of_mem n hm)).last fun cs hcs => ?_
      rw [List.append_assoc]
      exact hcomments.before ((hc.items hblank).append hcs)

/-- The items of a block behind its opening brace, and the comments in front of the other one as
the last items. -/
theorem marks_closed {rest : List Node} {opening : Option Chunk}
    {f : List Node → Build (List Chunk)} (hrest : ∀ c ∈ rest, c.Fine x depth)
    (hopening : Opens spacing (some start) opening.toList)
    (hinside : ∀ inner, (∀ c ∈ inner, c.Fine x depth) →
      Marks x spacing (f inner) fun cs => ∀ c ∈ cs, c.MarksItem spacing) :
    Marks x spacing (do
      let own ← f (splitClosing (isText "\x7d") rest).1
      match (splitClosing (isText "\x7d") rest).2 with
      | none => return some (Chunk.ofItems opening none own)
      | some c =>
        let comments ← detach x c.firstId? true
        return some (Chunk.ofItems opening (← build c) (own ++ comments)))
      fun c => Opens spacing (some start) c.toList := by
  obtain ⟨hin, hclosing⟩ := splitClosing_mem (isText "\x7d") rest
  refine (hinside _ fun c hc => hrest c (hin c hc)).bind fun own hown => ?_
  cases hc : (splitClosing (isText "\x7d") rest).2 with
  | none => exact Marks.pure (opens_ofItems hopening hown nofun)
  | some c =>
      refine (marks_detach c.firstId? true).bind fun comments hcomments => ?_
      refine (hb c (hrest c (hclosing c (by simp [hc])))).last fun closing hclose => ?_
      exact opens_ofItems hopening (List.forall_mem_append.mpr ⟨hown, hcomments.marks⟩)
        hclose.marks

theorem marks_braces {item : NodeBuilder} (hitem : MarksNodes x spacing item depth)
    (hn : n.Parts x depth) :
    Marks x spacing (braces x build item n) fun c => Opens spacing n.opening? c.toList := by
  obtain ⟨hne, hfine, -⟩ := hn
  rw [Node.opening?_eq hne, braces.eq_def]
  cases hchildren : n.children with
  | nil => exact absurd hchildren hne
  | cons first rest =>
      rw [hchildren] at hfine
      obtain ⟨hfirst, hrest⟩ := List.forall_mem_cons.mp hfine
      rw [findSome?_cons_or, or_opening hfirst]
      refine (hb first hfirst).bind fun opening hopening => ?_
      obtain ⟨-, t, -, -, hstart⟩ := hfirst.opening
      rw [hstart] at hopening ⊢
      exact marks_closed hb hrest hopening fun inner hinner =>
        (marks_items hitem hinner).mono fun _ h => h.marks

/-- The right side of an assignment, which may be moved to another line. -/
theorem marks_assignment {lhs : Option Chunk} {rhs : Node}
    (hlhs : Opens spacing s lhs.toList) (hrhs : rhs.Fine x depth) :
    Marks x spacing (assignment x build lhs rhs)
      fun c => Opens spacing (s.or rhs.opening?) c.toList := by
  rw [assignment]
  refine (hb rhs hrhs).bind fun c hc => ?_
  obtain ⟨r, rfl, hr⟩ := exists_some_of_fine hrhs hc
  refine Marks.element hrhs hr.withSpace fun d hd hmarked => Marks.pure ?_
  have hrow := Row.cons hd hmarked row_nil
  rw [Option.or_none] at hrow
  exact hlhs.elements hrow (by cases lhs <;> simp) .assignment

theorem marks_param (hn : n.Parts x depth) :
    Marks x spacing (param x build n) fun c => Opens spacing n.opening? c.toList := by
  rw [hn.opening?_eq]
  refine marks_sequence fun c hc s parts hparts => ?_
  have hfine := hn.fine c hc
  split_ifs with hk
  · exact marks_spaced hparts (marks_modifiers hb false (hfine.below hk))
  · exact marks_glued hparts (hb c hfine)
  · exact marks_spaced hparts (hb c hfine)

theorem marks_varDecl (decl : Bool) (hn : n.Parts x depth) :
    Marks x spacing (varDecl x build decl n) fun c => Opens spacing n.opening? c.toList := by
  rw [hn.opening?_eq]
  refine marks_sequence fun c hc s parts hparts => ?_
  have hfine := hn.fine c hc
  split_ifs with hk
  · exact marks_spaced hparts (marks_modifiers hb decl (hfine.below hk))
  · exact marks_glued hparts (hb c hfine)
  · exact marks_spaced hparts (hb c hfine)

theorem marksNodes_item : MarksNodes x spacing (item x build) depth where
  marks _ hn := Marks.ite (fun hk => marks_varDecl hb true (hn.below hk)) fun _ => hb _ hn
  completes := completes_item hb.completes
  keeps regions := keeps_item (hb.keeps regions)

theorem marks_block (hn : n.Parts x depth) :
    Marks x spacing (block x build n) fun c => Opens spacing n.opening? c.toList :=
  marks_braces hb (marksNodes_item hb) hn

end Lists

end CodeLayout.Build
