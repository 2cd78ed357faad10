import CodeLayout.Chunk.Declaration
import CodeLayout.Proofs.Kept.Lists

/-!
# Declarations keep line breaks

A clause goes with the first of its types, so both start where the word of the clause does.
-/

namespace CodeLayout.Build

open Chunk Node

variable {x : BuildContext} {spacing : Spacing} {build : NodeBuilder} {depth : Nat} {n : Node}
  {ns : List Node} {parts : List Chunk} {s : Option Int}

section Declarations

variable (hb : MarksNodes x spacing build depth)
include hb

theorem marks_qualifiedParts (hns : ∀ n ∈ ns, n.Fine x depth) (named : Bool)
    (hparts : Opens spacing s parts) : Marks x spacing (qualifiedParts build named parts ns)
      (Opens spacing (s.or (ns.findSome? opening?))) := by
  induction ns generalizing named parts s with
  | nil => exact Marks.pure (by rwa [List.findSome?_nil, Option.or_none])
  | cons n ns ih =>
      obtain ⟨hn, hrest⟩ := List.forall_mem_cons.mp hns
      rw [qualifiedParts, findSome?_cons_or, ← Option.or_assoc]
      refine (hb n hn).bind fun c hc => ?_
      have hspaced := opens_spaced hparts hc
      exact Marks.ite (fun _ => ih hrest named hspaced) fun _ => Marks.ite
        (fun _ => ih hrest named (opens_glued hparts hc)) fun _ => ih hrest true hspaced

theorem marks_qualified (hn : n.Parts x depth) :
    Marks x spacing (qualified build n) fun c => Opens spacing n.opening? c.toList := by
  rw [hn.opening?_eq, qualified]
  have hfine := hn.fine
  generalize n.children = children at hfine ⊢
  cases children with
  | nil => exact Marks.pure opens_nil
  | cons first rest =>
      obtain ⟨hfirst, hrest⟩ := List.forall_mem_cons.mp hfine
      rw [findSome?_cons_or]
      refine (hb first hfirst).bind fun c hc => ?_
      exact (marks_qualifiedParts hb hrest false (opens_spaced opens_nil hc)).last
        fun _ h => opens_sequence h

theorem marks_clause (context : WrapContext)
    (hn : n.Parts x depth) :
    Marks x spacing (clause x build context n) fun c => Opens spacing n.opening? c.toList := by
  have htypes : ∀ types, n.first? .typeList = some types → ∀ c ∈ types.children,
      c.Fine x depth := fun types htypes =>
    ((hn.fine types (List.mem_of_find?_eq_some htypes)).below (List.find?_some htypes)).fine
  rw [hn.opening?_eq, clause]
  have hfine := hn.fine
  generalize n.first? .typeList = types at htypes ⊢
  generalize n.children = children at hfine ⊢
  cases children with
  | nil => exact Marks.pure opens_nil
  | cons wordNode rest =>
      have hword := hfine wordNode List.mem_cons_self
      rw [findSome?_cons_or, or_opening hword]
      refine (hb wordNode hword).bind fun word hw => ?_
      cases types with
      | none => exact Marks.pure hw
      | some types =>
          refine (marks_elements hb (ascii ",") true (htypes types rfl)).bind fun es hes => ?_
          cases es with
          | nil => exact Marks.pure hw
          | cons e es =>
              obtain ⟨he, hrest⟩ := List.forall_mem_cons.mp hes.marks
              obtain ⟨-, t, -, -, hstart⟩ := hword.opening
              have hseq :
                  Opens spacing wordNode.opening? [Chunk.seq (word.toList ++ [e.withSpace])] := by
                rw [hstart] at hw ⊢
                exact (hw.behind (by simpa using he)).seq
              refine Marks.element hword hseq fun d hd _ => Marks.pure ?_
              rw [hstart] at hd ⊢
              have hall : Opens spacing (some (t.start : Int)) (d :: es) := hd.behind hrest
              exact hall.group (fun e' he' => hes.marked e' (List.mem_cons_of_mem e he'))
                context true

theorem marks_typeList (hn : n.Parts x depth) :
    Marks x spacing (typeList x build n) fun c => Opens spacing n.opening? c.toList := by
  rw [hn.opening?_eq]
  exact (marks_elements hb (ascii ",") true hn.fine).last fun _ hes => hes.toOpens.seq

theorem marks_typeHeadPart (h : TypeHead)
    (hh : Opens spacing s h.parts) (hn : n.Fine x depth) :
    Marks x spacing (typeHeadPart x build h n) fun h' =>
      Opens spacing (s.or n.opening?) h'.parts := by
  cases n with
  | leaf id t =>
      refine (hb _ hn).last fun c hc => ?_
      dsimp only
      split_ifs
      · exact opens_glued hh hc
      · exact opens_spaced hh hc
  | branch kind start stop children =>
      have hbelow : (branch kind start stop children).Parts x depth :=
        Fine.below hn (show Node.isKind kind _ = true by simp [isKind, kind?])
      have hspaced {m : Build (Option Chunk)} {s' : Option Int}
          (hm : Marks x spacing m fun c => Opens spacing s' c.toList) :
          Marks x spacing (do let c ← m; return { h with parts := spaced h.parts c })
            fun h' => Opens spacing (s.or s') h'.parts :=
        hm.last fun _ hc => opens_spaced hh hc
      have hglued {m : Build (Option Chunk)} {s' : Option Int}
          (hm : Marks x spacing m fun c => Opens spacing s' c.toList) :
          Marks x spacing (do let c ← m; return { h with parts := glued h.parts c })
            fun h' => Opens spacing (s.or s') h'.parts :=
        hm.last fun _ hc => opens_glued hh hc
      rw [typeHeadPart.eq_def]
      dsimp only
      split
      · exact hspaced (marks_modifiers hb true hbelow)
      · exact hglued (marks_type hb hbelow)
      · exact hglued (marks_list hb _ hbelow)
      · exact hspaced (marks_clause hb _ hbelow)
      · exact hspaced (hb _ hn)

theorem marks_typeDecl (hn : n.Parts x depth) :
    Marks x spacing (typeDecl x build n) fun c => Opens spacing n.opening? c.toList := by
  rw [hn.opening?_eq, typeDecl]
  refine Marks.last (marks_parts TypeHead.parts rfl fun c hc s h hh => ?_)
    fun _ hh => opens_sequence hh
  exact marks_typeHeadPart hb h hh (hn.fine c hc)

/-- The constants of an enumeration and the comments before them make items; what is left are nodes
that were given. -/
theorem marks_constants {ns : List Node} (hns : ∀ n ∈ ns, n.Fine x depth) :
    Marks x spacing (constants x build ns) fun r =>
      (∀ c ∈ r.1, c.MarksItem spacing) ∧ ∀ n ∈ r.2, n.Fine x depth := by
  unfold constants
  -- The semicolon goes behind the constants, and then the item is finished.
  extract_lets finish ending
  have hfinish : ∀ (comments parts : List Chunk) (blank : Int) (rest : List Node),
      (∀ c ∈ comments, c.MarksItem spacing) → (∀ c ∈ parts, c.MarksAll spacing) →
      (∀ l ∈ (contentAll parts).head?, blank = spacing.blank l.start) →
      (∀ n ∈ rest, n.Fine x depth) → Marks x spacing (finish (comments, blank, parts, rest))
        fun r => (∀ c ∈ r.1, c.MarksItem spacing) ∧ ∀ n ∈ r.2, n.Fine x depth := by
    intro comments parts blank rest hcomments hparts hblank hrest
    have hfirst : ∀ l ∈ (contentAny (sequence parts)).head?, blank = spacing.blank l.start := by
      simpa using hblank
    have hown := (opens_sequence (opens_self hparts)).items hfirst
    exact Marks.pure ⟨List.forall_mem_append.mpr ⟨hcomments, hown.marks⟩, hrest⟩
  clear_value finish
  have hending : ∀ (comments parts : List Chunk) (blank : Int) (rest : List Node),
      (∀ c ∈ comments, c.MarksItem spacing) → (∀ c ∈ parts, c.MarksAll spacing) →
      (∀ l ∈ (contentAll parts).head?, blank = spacing.blank l.start) →
      (parts ≠ [] → contentAll parts ≠ []) → (∀ n ∈ rest, n.Fine x depth) →
      Marks x spacing (ending (comments, blank, parts, rest))
        fun r => (∀ c ∈ r.1, c.MarksItem spacing) ∧ ∀ n ∈ r.2, n.Fine x depth := by
    intro comments parts blank rest hcomments hparts hblank hne hrest
    simp only [ending]
    cases rest with
    | nil => exact hfinish comments parts blank [] hcomments hparts hblank hrest
    | cons n others =>
        obtain ⟨hn, hothers⟩ := List.forall_mem_cons.mp hrest
        obtain ⟨id, -, hid, -⟩ := hn.firstId
        refine Marks.ite (fun _ => ?_)
          fun _ => hfinish comments parts blank (n :: others) hcomments hparts hblank hrest
        rw [hid]
        simp only [pure_bind]
        cases parts with
        | nil =>
            refine (marks_detach (some id) false).bind fun more hmore => ?_
            refine Marks.blankBefore hn hid (hb.completes n hn)
              (fun regions => hb.keeps regions n hn.within) (hb n hn) fun blank c hc _ hblank => ?_
            refine hfinish (comments ++ more) _ blank others
              (List.forall_mem_append.mpr ⟨hcomments, hmore.marks⟩)
              (opens_glued opens_nil hc).marks ?_ hothers
            simpa using hblank
        | cons d ds =>
            refine (hb n hn).bind fun c hc => ?_
            refine hfinish comments _ blank others hcomments
              (opens_glued (opens_self hparts) hc).marks ?_ hothers
            obtain ⟨l, ls, hcontent⟩ := List.exists_cons_of_ne_nil (hne (by simp))
            rw [contentAll_glued, hcontent]
            rw [hcontent] at hblank
            exact hblank
  clear_value ending
  have hnone := fun (rest : List Node) (hrest : ∀ n ∈ rest, n.Fine x depth) =>
    hending [] [] 0 rest (List.forall_mem_nil _) (List.forall_mem_nil _) (by simp) (by simp) hrest
  cases ns with
  | nil => exact hnone [] hns
  | cons n rest =>
      obtain ⟨hn, hrest⟩ := List.forall_mem_cons.mp hns
      dsimp only
      split
      · rename_i id hk hid
        have hparts := hn.below hk
        have hsettles := settles_elements hb.completes (ascii ",") true hparts.fine
        rw [← hparts.ids] at hsettles
        refine (marks_detach (some id) false).bind fun comments hcomments => ?_
        refine Marks.blankBefore hn hid hsettles
          (fun regions => adds_elements (hb.keeps regions) _ true hn.within.children)
          (marks_elements hb (ascii ",") true hparts.fine) fun blank es hes helements hblank => ?_
        refine hending comments _ blank rest hcomments.marks (hes.ofElements .enumConstants).marks
          (by simpa using hblank) (fun _ => ?_) hrest
        have hneat := ((helements.isFilled hparts.ne_nil).ofElements .enumConstants).neat
        simpa using hneat.content_ne_nil
      · exact hnone rest hrest
      · exact hnone (n :: rest) hns

theorem marks_enumBody (hn : n.Parts x depth) :
    Marks x spacing (enumBody x build n) fun c => Opens spacing n.opening? c.toList := by
  rw [hn.opening?_eq, enumBody]
  have hfine := hn.fine
  generalize n.children = children at hfine ⊢
  cases children with
  | nil => exact Marks.pure opens_nil
  | cons first rest =>
      obtain ⟨hfirst, hrest⟩ := List.forall_mem_cons.mp hfine
      rw [findSome?_cons_or, or_opening hfirst]
      refine (hb first hfirst).bind fun opening hopening => ?_
      obtain ⟨-, t, -, -, hstart⟩ := hfirst.opening
      rw [hstart] at hopening ⊢
      dsimp only
      have h := marks_closed hb (f := fun inner => do
        let r ← constants x build inner
        return r.1 ++ (← items x (item x build) r.2)) hrest hopening fun inner hinner => ?_
      · simp only [bind_assoc, pure_bind] at h
        exact h
      · refine (marks_constants hb hinner).bind fun r hr => ?_
        exact (marks_items (marksNodes_item hb) hr.2).last fun cs hcs =>
          List.forall_mem_append.mpr ⟨hr.1, hcs.marks⟩

theorem marks_enumConstant (hn : n.Parts x depth) :
    Marks x spacing (enumConstant x build n) fun c => Opens spacing n.opening? c.toList := by
  rw [hn.opening?_eq]
  refine marks_sequence fun c hc s parts hparts => ?_
  have hfine := hn.fine c hc
  split_ifs with hm ha
  · exact marks_spaced hparts (marks_modifiers hb false (hfine.below hm))
  · exact marks_glued hparts (marks_list hb _ (hfine.below ha))
  · exact marks_spaced hparts (hb c hfine)

theorem marks_method (hn : n.Parts x depth) :
    Marks x spacing (method x build n) fun c => Opens spacing n.opening? c.toList := by
  rw [hn.opening?_eq]
  refine marks_sequence fun c hc s parts hparts => ?_
  have hfine := hn.fine c hc
  split_ifs with hm hp hk
  · exact marks_spaced hparts (marks_modifiers hb true (hfine.below hm))
  · exact marks_glued hparts (marks_list hb _ (hfine.below hp))
  · exact marks_spaced hparts (marks_clause hb _ (hfine.below hk))
  · exact marks_glued hparts (hb c hfine)
  · exact marks_spaced hparts (hb c hfine)

theorem marks_declarators (hn : n.Parts x depth) :
    Marks x spacing (declarators x build n) fun c => Opens spacing n.opening? c.toList := by
  rw [hn.opening?_eq]
  refine (marks_elements hb (ascii ",") true hn.fine).bind fun es hes => ?_
  match es with
  | [] => exact Marks.pure hes.toOpens
  | [e] => exact Marks.pure hes.toOpens
  | d :: e :: es => exact Marks.pure (hes.ofElements .multipleFields)

theorem marks_declaratorParts (hns : ∀ n ∈ ns, n.Fine x depth)
    (hparts : Opens spacing s parts) : Marks x spacing (declaratorParts x build parts ns)
      fun c => Opens spacing (s.or (ns.findSome? opening?)) c.toList := by
  induction ns generalizing parts s with
  | nil =>
      rw [List.findSome?_nil, Option.or_none]
      exact Marks.pure (opens_sequence hparts)
  | cons n ns ih =>
      obtain ⟨hn, hrest⟩ := List.forall_mem_cons.mp hns
      rw [declaratorParts, findSome?_cons_or, ← Option.or_assoc]
      refine (hb n hn).bind fun c hc => ?_
      refine Marks.ite (fun _ => ?_) fun _ => ih hrest (opens_glued hparts hc)
      have hlhs := opens_sequence (opens_spaced hparts hc)
      cases ns with
      | nil =>
          rw [List.findSome?_nil, Option.or_none]
          exact Marks.pure hlhs
      | cons value others =>
          -- The name is there, so what comes behind the value does not matter.
          obtain ⟨start, hstart⟩ : ∃ start, s.or n.opening? = some start := by
            obtain ⟨-, t, -, -, hopening⟩ := hn.opening
            cases s <;> simp [hopening]
          rw [hstart] at hlhs ⊢
          exact marks_assignment hb hlhs (hrest value List.mem_cons_self)

theorem marks_declarator (hn : n.Parts x depth) :
    Marks x spacing (declarator x build n) fun c => Opens spacing n.opening? c.toList := by
  rw [hn.opening?_eq]
  exact marks_declaratorParts hb hn.fine opens_nil

end Declarations

section Raw

mutual

theorem marks_rawPart (hb : MarksNodes x spacing build depth) {n : Node} (hn : n.Fine x depth)
    {acc : List Chunk × Option Nat} {s : Option Int} (hacc : Opens spacing s acc.1) :
    Marks x spacing (rawPart x build acc n) fun r => Opens spacing (s.or n.opening?) r.1 := by
  match n with
  | .leaf id t =>
      rw [rawPart]
      refine (hb _ hn).last fun c hc => opens_glued hacc ?_
      split_ifs
      · exact hc.any_withSpace
      · exact hc
  | .branch kind start stop children =>
      have hbelow : (branch kind start stop children).Parts x depth :=
        Fine.below hn (show Node.isKind kind _ = true by simp [isKind, kind?])
      rw [rawPart]
      refine Marks.ite (fun _ => ?_) fun _ => ?_
      · refine (marks_block hb hbelow).last fun c hc => opens_glued hacc ?_
        split_ifs
        · exact hc.any_withSpace
        · exact hc
      · rw [hbelow.opening?_eq]
        exact marks_rawParts hb hbelow.fine hacc

theorem marks_rawParts (hb : MarksNodes x spacing build depth) {ns : List Node}
    (hns : ∀ n ∈ ns, n.Fine x depth) {acc : List Chunk × Option Nat} {s : Option Int}
    (hacc : Opens spacing s acc.1) : Marks x spacing (rawParts x build acc ns)
      fun r => Opens spacing (s.or (ns.findSome? opening?)) r.1 := by
  match ns with
  | [] => exact Marks.pure (by rwa [List.findSome?_nil, Option.or_none])
  | n :: ns =>
      rw [rawParts, findSome?_cons_or, ← Option.or_assoc]
      refine (marks_rawPart hb (hns n List.mem_cons_self) hacc).bind fun r hr => ?_
      exact marks_rawParts hb (fun m hm => hns m (List.mem_cons_of_mem n hm)) hr

end

theorem marks_raw (hb : MarksNodes x spacing build depth) {kind : NodeKind} {start stop : Nat}
    {children : List Node} (hk : kind ≠ .block)
    (hn : (branch kind start stop children).Parts x depth) :
    Marks x spacing (raw x build (branch kind start stop children))
      fun c => Opens spacing (branch kind start stop children).opening? c.toList := by
  rw [hn.opening?_eq, raw, rawPart, if_neg hk]
  refine (marks_rawParts hb hn.fine opens_nil).last fun r hr => ?_
  rw [Option.none_or] at hr
  exact opens_sequence hr

end Raw

end CodeLayout.Build
