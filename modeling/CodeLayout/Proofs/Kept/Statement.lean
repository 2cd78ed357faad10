import CodeLayout.Chunk.Statement
import CodeLayout.Proofs.Kept.Lists

/-!
# Statements keep line breaks
-/

namespace CodeLayout.Build

open Chunk Node

variable {x : BuildContext} {spacing : Spacing} {build : NodeBuilder} {depth : Nat} {n : Node}
  {ns : List Node} {parts : List Chunk} {s : Option Int}

section Statements

variable (hb : MarksNodes x spacing build depth)
include hb

/-- Items one level deeper than what comes before them. -/
theorem marks_indented (hns : ∀ n ∈ ns, n.Fine x depth) (hparts : Opens spacing s parts) :
    Marks x spacing (do
      let own ← items x (item x build) ns
      return spaced parts (some (Chunk.ofItems none none own)))
      (Opens spacing (s.or (ns.findSome? opening?))) := by
  refine (marks_items (marksNodes_item hb) hns).last fun own hown => opens_spaced hparts ?_
  refine opens_singleton.mpr ⟨⟨marksBelow_block.mpr ⟨nofun, hown.marks, nofun⟩, rfl⟩, ?_⟩
  rw [content_ofItems, contentAny_none, List.nil_append, List.append_nil, hown.opening]

theorem marks_body (hn : n.Fine x depth) (hparts : Opens spacing s parts) :
    Marks x spacing (body x build parts n) (Opens spacing (s.or n.opening?)) := by
  refine Marks.ite (fun _ => marks_glued hparts (hb n hn)) fun _ => ?_
  refine Marks.ite (fun hk => marks_spaced hparts (marks_block hb (hn.below hk))) fun _ => ?_
  have hone : ∀ c ∈ [n], c.Fine x depth := by simpa using hn
  have hitems := marks_indented hb hone hparts
  rwa [findSome?_cons_or, List.findSome?_nil, Option.or_none] at hitems

theorem marks_ifParts {ns : List Node} {parts : List Chunk} {s : Option Int}
    (hns : ∀ n ∈ ns, n.Fine x depth) (hparts : Opens spacing s parts) :
    Marks x spacing (ifParts x build parts ns) (Opens spacing (s.or (ns.findSome? opening?))) := by
  match ns with
  | [] =>
      rw [List.findSome?_nil, Option.or_none]
      exact Marks.pure hparts
  | [n] =>
      have hn : n.Fine x depth := hns n (by simp)
      rw [ifParts, findSome?_cons_or, List.findSome?_nil, Option.or_none]
      exact Marks.ite (fun _ => marks_spaced hparts (hb n hn)) fun _ => marks_body hb hn hparts
  | n :: m :: rest =>
      have hn : n.Fine x depth := hns n (by simp)
      have hm : m.Fine x depth := hns m (by simp)
      have htail : ∀ k ∈ m :: rest, k.Fine x depth := fun k hk => hns k (List.mem_cons_of_mem n hk)
      have hrest : ∀ k ∈ rest, k.Fine x depth := fun k hk => htail k (List.mem_cons_of_mem m hk)
      rw [ifParts, findSome?_cons_or, ← Option.or_assoc]
      refine Marks.ite (fun _ => ?_) fun _ => Marks.ite (fun _ => ?_) fun _ => ?_
      · exact (hb n hn).bind fun c hc => marks_ifParts htail (opens_spaced hparts hc)
      · refine (hb n hn).bind fun c hc => ?_
        have hbehind := opens_spaced hparts hc
        refine Marks.ite (fun _ => ?_) fun _ => marks_ifParts htail hbehind
        rw [findSome?_cons_or, ← Option.or_assoc]
        exact (hb m hm).bind fun d hd => marks_ifParts hrest (opens_spaced hbehind hd)
      · exact (marks_body hb hn hparts).bind fun _ hparts' => marks_ifParts htail hparts'
termination_by ns.length

theorem marks_ifStmt (hn : n.Parts x depth) :
    Marks x spacing (ifStmt x build n) fun c => Opens spacing n.opening? c.toList := by
  rw [hn.opening?_eq, ifStmt]
  have hfine := hn.fine
  generalize n.children = children at hfine ⊢
  cases children with
  | nil => exact Marks.pure opens_nil
  | cons first rest =>
      obtain ⟨hfirst, hrest⟩ := List.forall_mem_cons.mp hfine
      rw [findSome?_cons_or]
      refine (hb first hfirst).bind fun c hc => ?_
      exact (marks_ifParts hb hrest (opens_spaced opens_nil hc)).last fun _ h => opens_sequence h

theorem marks_wordStmt (hn : n.Parts x depth) :
    Marks x spacing (wordStmt x build n) fun c => Opens spacing n.opening? c.toList := by
  rw [hn.opening?_eq]
  refine marks_sequence_zipIdx fun c hc i s parts hparts => ?_
  have hfine := hn.fine c hc
  dsimp only
  split_ifs with _ _ hk
  · exact marks_spaced hparts (hb c hfine)
  · exact marks_glued hparts (hb c hfine)
  · exact marks_glued hparts (marks_param hb (hfine.below hk))
  · exact marks_body hb hfine hparts

theorem marks_doStmt (hn : n.Parts x depth) :
    Marks x spacing (doStmt x build n) fun c => Opens spacing n.opening? c.toList := by
  rw [hn.opening?_eq]
  refine marks_sequence_zipIdx fun c hc i s parts hparts => ?_
  have hfine := hn.fine c hc
  dsimp only
  split_ifs
  · exact marks_spaced hparts (hb c hfine)
  · exact marks_glued hparts (hb c hfine)
  · exact marks_body hb hfine hparts

theorem marks_forStmt (hn : n.Parts x depth) :
    Marks x spacing (forStmt x build n) fun c => Opens spacing n.opening? c.toList := by
  rw [hn.opening?_eq]
  refine marks_sequence_zipIdx fun c hc i s parts hparts => ?_
  have hfine := hn.fine c hc
  dsimp only
  split_ifs
  · exact marks_spaced hparts (hb c hfine)
  · exact marks_body hb hfine hparts

theorem marks_forParts (hns : ∀ n ∈ ns, n.Fine x depth) (behindParen : Bool)
    (hparts : Opens spacing s parts) : Marks x spacing (forParts x build behindParen parts ns)
      (Opens spacing (s.or (ns.findSome? opening?))) := by
  induction ns generalizing behindParen parts s with
  | nil =>
      rw [List.findSome?_nil, Option.or_none]
      exact Marks.pure hparts
  | cons n ns ih =>
      obtain ⟨hn, hrest⟩ := List.forall_mem_cons.mp hns
      have hpart {m : Build (Option Chunk)}
          (hm : Marks x spacing m fun c => Opens spacing n.opening? c.toList) :
          Marks x spacing (do
            let c ← m
            forParts x build (isText "(" n)
              (if parts.isEmpty || behindParen || isText ";" n || isText ")" n then glued parts c
                else spaced parts c) ns)
            (Opens spacing ((s.or n.opening?).or (ns.findSome? opening?))) := by
        refine hm.bind fun c hc => ih hrest _ ?_
        split_ifs
        · exact opens_glued hparts hc
        · exact opens_spaced hparts hc
      rw [forParts, findSome?_cons_or, ← Option.or_assoc]
      dsimp only
      split
      · rename_i hk
        exact hpart (marks_varDecl hb false (hn.below hk))
      · split
        · rename_i hk
          exact hpart (marks_param hb (hn.below hk))
        · exact hpart (hb n hn)

theorem marks_forControl (hn : n.Parts x depth) :
    Marks x spacing (forControl x build n) fun c => Opens spacing n.opening? c.toList := by
  rw [hn.opening?_eq]
  refine (marks_forParts hb hn.fine false opens_nil).last fun parts hparts => ?_
  rw [Option.none_or] at hparts
  exact opens_sequence hparts

theorem marks_resources (hn : n.Parts x depth) :
    Marks x spacing (resources x build n) fun c => Opens spacing n.opening? c.toList := by
  rw [hn.opening?_eq, resources]
  have hfine := hn.fine
  generalize n.children = children at hfine ⊢
  cases children with
  | nil => exact Marks.pure opens_nil
  | cons first rest =>
      obtain ⟨hfirst, hrest⟩ := List.forall_mem_cons.mp hfine
      obtain ⟨hin, hclosing⟩ := splitClosing_mem (isText ")") rest
      have hsplit : rest.findSome? opening? = _ :=
        congrArg (List.findSome? opening?) (splitClosing_append (isText ")") rest).symm
      rw [findSome?_cons_or, hsplit, List.findSome?_append]
      refine (hb first hfirst).bind fun opening hopening => ?_
      refine (marks_elements hb (ascii ";") true fun m hm => hrest m (hin m hm)).bind
        fun es hes => ?_
      exact (marks_optional hb fun m hm => hrest m (hclosing m (Option.mem_toList.mp hm))).last
        fun closing hclose => opens_bracketed hopening hes hclose

theorem marks_caseParts (hns : ∀ n ∈ ns, n.Fine x depth) (hparts : Opens spacing s parts) :
    Marks x spacing (caseParts x build parts ns)
      (Opens spacing (s.or (ns.findSome? opening?))) := by
  induction ns generalizing parts s with
  | nil =>
      rw [List.findSome?_nil, Option.or_none]
      exact Marks.pure hparts
  | cons n rest ih =>
      obtain ⟨hn, hrest⟩ := List.forall_mem_cons.mp hns
      rw [caseParts, findSome?_cons_or, ← Option.or_assoc]
      split_ifs with _ _ hempty _ hk
      · exact (hb n hn).bind fun c hc => ih hrest (opens_glued hparts hc)
      · rw [List.isEmpty_iff.mp hempty, List.findSome?_nil, Option.or_none]
        exact marks_glued hparts (hb n hn)
      · exact (hb n hn).bind fun c hc => marks_indented hb hrest (opens_glued hparts hc)
      · refine (hb n hn).bind fun c hc => ?_
        refine marks_foldlM (fun parts => parts) (opens_spaced hparts hc)
          fun m hm s parts hparts => ?_
        exact marks_spaced hparts (marksNodes_item hb m (hrest m hm))
      · exact (marks_param hb (hn.below hk)).bind fun c hc => ih hrest (opens_spaced hparts hc)
      · exact (hb n hn).bind fun c hc => ih hrest (opens_spaced hparts hc)

theorem marks_switchCase (hn : n.Parts x depth) :
    Marks x spacing (switchCase x build n) fun c => Opens spacing n.opening? c.toList := by
  rw [hn.opening?_eq, switchCase]
  have hfine := hn.fine
  generalize n.children = children at hfine ⊢
  cases children with
  | nil => exact Marks.pure opens_nil
  | cons first rest =>
      obtain ⟨hfirst, hrest⟩ := List.forall_mem_cons.mp hfine
      rw [findSome?_cons_or]
      refine (hb first hfirst).bind fun c hc => ?_
      exact (marks_caseParts hb hrest (opens_spaced opens_nil hc)).last fun _ h => opens_sequence h

theorem marks_simpleStmt (hn : n.Parts x depth) :
    Marks x spacing (simpleStmt build n) fun c => Opens spacing n.opening? c.toList := by
  rw [hn.opening?_eq]
  refine marks_sequence fun c hc s parts hparts => ?_
  have hfine := hn.fine c hc
  split_ifs
  · exact marks_glued hparts (hb c hfine)
  · exact marks_spaced hparts (hb c hfine)

theorem marks_labeled (hn : n.Parts x depth) :
    Marks x spacing (labeled x build n) fun c => Opens spacing n.opening? c.toList := by
  rw [hn.opening?_eq]
  refine marks_sequence fun c hc s parts hparts => ?_
  have hfine := hn.fine c hc
  split_ifs
  · exact marks_glued hparts (hb c hfine)
  · exact marks_spaced hparts (marksNodes_item hb c hfine)

end Statements

end CodeLayout.Build
