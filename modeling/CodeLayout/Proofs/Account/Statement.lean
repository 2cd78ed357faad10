import CodeLayout.Chunk.Statement
import CodeLayout.Proofs.Account.Lists

/-!
# Statements settle their nodes
-/

namespace CodeLayout.Build

open Chunk Node

variable {x : BuildContext} {build : NodeBuilder} {depth : Nat} {n : Node} {ns : List Node}
  {parts : List Chunk}

section Statements

variable (hb : Completes x build depth)
include hb

/-- Items one level deeper than what comes before them. -/
theorem settles_indented (hns : ∀ n ∈ ns, n.Fine x depth) (hne : ns ≠ [])
    (hparts : IsFilled parts) :
    Settles (do
      let own ← items x (item x build) ns
      return spaced parts (some (Chunk.ofItems none none own))) (ns.flatMap Node.ids) IsFilled := by
  refine (settles_items (completes_item hb) hns).last ?_
  rintro own ⟨hown, hfull⟩
  exact isFilled_spaced_behind hparts (neat_ofItems (fun c hc => (hown c hc).neat) (hfull hne))

theorem settles_body (hn : n.Fine x depth) (hparts : IsFilled parts) :
    Settles (body x build parts n) n.ids IsFilled := by
  refine Settles.ite (fun _ => settles_glued hparts.toIsRow (hb n hn)) fun _ => ?_
  refine Settles.ite (fun hk => ?_) fun _ => ?_
  · exact settles_spaced hparts.toIsRow (settles_block hb (hn.below hk))
  have hns : ∀ m ∈ [n], m.Fine x depth := by simpa using hn
  have h := settles_indented hb hns (by simp) hparts
  rwa [List.flatMap_singleton] at h

theorem settles_ifParts {ns : List Node} {parts : List Chunk} (hns : ∀ n ∈ ns, n.Fine x depth)
    (hparts : IsFilled parts) :
    Settles (ifParts x build parts ns) (ns.flatMap Node.ids) IsFilled := by
  match ns with
  | [] => exact Settles.pure hparts
  | [n] =>
      have hn : n.Fine x depth := hns n (by simp)
      rw [ifParts, List.flatMap_singleton]
      exact Settles.ite (fun _ => settles_spaced hparts.toIsRow (hb n hn))
        fun _ => settles_body hb hn hparts
  | n :: m :: rest =>
      have hn : n.Fine x depth := hns n (by simp)
      have hm : m.Fine x depth := hns m (by simp)
      have htail : ∀ k ∈ m :: rest, k.Fine x depth := fun k hk => hns k (List.mem_cons_of_mem n hk)
      have hrest : ∀ k ∈ rest, k.Fine x depth := fun k hk => htail k (List.mem_cons_of_mem m hk)
      rw [ifParts, List.flatMap_cons]
      refine Settles.ite (fun _ => ?_) fun _ => Settles.ite (fun _ => ?_) fun _ => ?_
      · refine (hb n hn).bind ?_
        rintro _ ⟨c, rfl, hc⟩
        exact settles_ifParts htail (isFilled_spaced hparts.toIsRow hc)
      · refine (hb n hn).bind ?_
        rintro _ ⟨c, rfl, hc⟩
        have hbehind := isFilled_spaced hparts.toIsRow hc
        refine Settles.ite (fun _ => ?_) fun _ => settles_ifParts htail hbehind
        rw [List.flatMap_cons]
        refine (hb m hm).bind ?_
        rintro _ ⟨d, rfl, hd⟩
        exact settles_ifParts hrest (isFilled_spaced hbehind.toIsRow hd)
      · exact (settles_body hb hn hparts).bind fun parts' hparts' =>
          settles_ifParts htail hparts'
termination_by ns.length

theorem settles_ifStmt (hn : n.Parts x depth) : Settles (ifStmt x build n) n.ids IsBuilt := by
  obtain ⟨hne, hfine, hids⟩ := hn
  rw [hids, ifStmt]
  cases hchildren : n.children with
  | nil => exact absurd hchildren hne
  | cons first rest =>
      rw [hchildren] at hfine
      rw [List.flatMap_cons]
      refine (hb first (hfine first List.mem_cons_self)).bind ?_
      rintro _ ⟨c, rfl, hc⟩
      exact (settles_ifParts hb (fun m hm => hfine m (List.mem_cons_of_mem first hm))
        (isFilled_spaced isRow_nil hc)).last fun _ h => isBuilt_sequence h

theorem settles_wordStmt (hn : n.Parts x depth) : Settles (wordStmt x build n) n.ids IsBuilt := by
  rw [hn.ids]
  refine settles_sequence_zipIdx hn.ne_nil fun c hc i parts hparts hbehind => ?_
  have hfine := hn.fine c hc
  dsimp only
  split_ifs with _ _ hk
  · exact settles_spaced hparts (hb c hfine)
  · exact settles_glued hparts (hb c hfine)
  · exact settles_glued hparts (settles_param hb (hfine.below hk))
  · exact settles_body hb hfine ⟨hparts, hbehind (by simp_all)⟩

theorem settles_doStmt (hn : n.Parts x depth) : Settles (doStmt x build n) n.ids IsBuilt := by
  rw [hn.ids]
  refine settles_sequence_zipIdx hn.ne_nil fun c hc i parts hparts hbehind => ?_
  have hfine := hn.fine c hc
  dsimp only
  split_ifs
  · exact settles_spaced hparts (hb c hfine)
  · exact settles_glued hparts (hb c hfine)
  · exact settles_body hb hfine ⟨hparts, hbehind (by simp_all)⟩

theorem settles_forStmt (hn : n.Parts x depth) : Settles (forStmt x build n) n.ids IsBuilt := by
  rw [hn.ids]
  refine settles_sequence_zipIdx hn.ne_nil fun c hc i parts hparts hbehind => ?_
  have hfine := hn.fine c hc
  dsimp only
  split_ifs
  · exact settles_spaced hparts (hb c hfine)
  · exact settles_body hb hfine ⟨hparts, hbehind (by simp_all)⟩

theorem settles_forParts (hns : ∀ n ∈ ns, n.Fine x depth) (behindParen : Bool)
    (hparts : IsRow parts) (hfull : parts ≠ [] ∨ ns ≠ []) :
    Settles (forParts x build behindParen parts ns) (ns.flatMap Node.ids) IsFilled := by
  induction ns generalizing behindParen parts with
  | nil => exact Settles.pure ⟨hparts, by simpa using hfull⟩
  | cons n ns ih =>
      have hn : n.Fine x depth := hns n List.mem_cons_self
      have hrest : ∀ m ∈ ns, m.Fine x depth := fun m hm => hns m (List.mem_cons_of_mem n hm)
      -- The header goes on behind one more part.
      have hmore : ∀ (isGlued : Bool) {m : Build (Option Chunk)}, Settles m n.ids IsBuilt →
          Settles (m >>= fun c => forParts x build (isText "(" n)
            (if isGlued then glued parts c else spaced parts c) ns)
            (n.ids ++ ns.flatMap Node.ids) IsFilled := by
        intro isGlued m hm
        refine hm.bind ?_
        rintro _ ⟨c, rfl, hc⟩
        have hfilled : IsFilled (if isGlued then glued parts (some c)
            else spaced parts (some c)) := by
          split_ifs
          · exact isFilled_glued hparts hc
          · exact isFilled_spaced hparts hc
        exact ih hrest _ hfilled.toIsRow (Or.inl hfilled.ne_nil)
      rw [forParts, List.flatMap_cons]
      exact Settles.ite (fun hk => hmore _ (settles_varDecl hb false (hn.below hk))) fun _ =>
        Settles.ite (fun hk => hmore _ (settles_param hb (hn.below hk))) fun _ => hmore _ (hb n hn)

theorem settles_forControl (hn : n.Parts x depth) :
    Settles (forControl x build n) n.ids IsBuilt := by
  rw [hn.ids]
  exact (settles_forParts hb hn.fine false isRow_nil (Or.inr hn.ne_nil)).last
    fun _ h => isBuilt_sequence h

theorem settles_resources (hn : n.Parts x depth) :
    Settles (resources x build n) n.ids IsBuilt := by
  obtain ⟨hne, hfine, hids⟩ := hn
  rw [hids, resources]
  cases hchildren : n.children with
  | nil => exact absurd hchildren hne
  | cons first rest =>
      rw [hchildren] at hfine
      have hrest : ∀ m ∈ rest, m.Fine x depth := fun m hm => hfine m (List.mem_cons_of_mem first hm)
      obtain ⟨hin, hclosing⟩ := splitClosing_mem (isText ")") rest
      rw [List.flatMap_cons, ← splitClosing_append (isText ")") rest, List.flatMap_append]
      refine (hb first (hfine first List.mem_cons_self)).bind ?_
      rintro _ ⟨opening, rfl, hopening⟩
      simp only [splitClosing_append]
      refine (settles_elements hb _ true fun m hm => hrest m (hin m hm)).bind fun es hes => ?_
      refine (settles_optional hb fun m hm =>
        hrest m (hclosing m (Option.mem_toList.mp hm))).last ?_
      rintro closing ⟨hheads, -⟩
      exact ⟨_, rfl, isHead_bracketed (by simpa using hopening) hheads hes.isRow (Or.inl rfl)⟩

theorem settles_caseParts (hns : ∀ n ∈ ns, n.Fine x depth) (hparts : IsFilled parts) :
    Settles (caseParts x build parts ns) (ns.flatMap Node.ids) IsFilled := by
  induction ns generalizing parts with
  | nil => exact Settles.pure hparts
  | cons n rest ih =>
      obtain ⟨hn, hrest⟩ := List.forall_mem_cons.mp hns
      -- The label goes on behind one more part.
      have hmore : ∀ {m : Build (Option Chunk)}, Settles m n.ids IsBuilt →
          Settles (m >>= fun c => caseParts x build (spaced parts c) rest)
            (n.ids ++ rest.flatMap Node.ids) IsFilled := by
        intro m hm
        refine hm.bind ?_
        rintro _ ⟨c, rfl, hc⟩
        exact ih hrest (isFilled_spaced hparts.toIsRow hc)
      rw [caseParts, List.flatMap_cons]
      refine Settles.ite (fun _ => ?_) fun _ => Settles.ite (fun _ => ?_) fun _ =>
        Settles.ite (fun _ => ?_) fun _ => Settles.ite (fun hk => ?_) fun _ => ?_
      · refine (hb n hn).bind ?_
        rintro _ ⟨c, rfl, hc⟩
        exact ih hrest (isFilled_glued hparts.toIsRow hc)
      · refine (hb n hn).bind ?_
        rintro _ ⟨c, rfl, hc⟩
        have hbehind := isFilled_glued hparts.toIsRow hc
        cases rest with
        | nil => exact Settles.pure hbehind
        | cons m ms => exact settles_indented hb hrest (by simp) hbehind
      · refine (hb n hn).bind ?_
        rintro _ ⟨c, rfl, hc⟩
        refine Settles.foldlM (isFilled_spaced hparts.toIsRow hc) fun m hm parts' hparts' => ?_
        exact settles_spaced hparts'.toIsRow (completes_item hb m (hrest m hm))
      · exact hmore (settles_param hb (hn.below hk))
      · exact hmore (hb n hn)

theorem settles_switchCase (hn : n.Parts x depth) :
    Settles (switchCase x build n) n.ids IsBuilt := by
  obtain ⟨hne, hfine, hids⟩ := hn
  rw [hids, switchCase]
  cases hchildren : n.children with
  | nil => exact absurd hchildren hne
  | cons first rest =>
      rw [hchildren] at hfine
      rw [List.flatMap_cons]
      refine (hb first (hfine first List.mem_cons_self)).bind ?_
      rintro _ ⟨c, rfl, hc⟩
      exact (settles_caseParts hb (fun m hm => hfine m (List.mem_cons_of_mem first hm))
        (isFilled_spaced isRow_nil hc)).last fun _ h => isBuilt_sequence h

theorem settles_simpleStmt (hn : n.Parts x depth) :
    Settles (simpleStmt build n) n.ids IsBuilt := by
  rw [hn.ids]
  refine settles_sequence hn.ne_nil fun c hc parts hparts => ?_
  have hfine := hn.fine c hc
  split_ifs
  · exact settles_glued hparts (hb c hfine)
  · exact settles_spaced hparts (hb c hfine)

theorem settles_labeled (hn : n.Parts x depth) : Settles (labeled x build n) n.ids IsBuilt := by
  rw [hn.ids]
  refine settles_sequence hn.ne_nil fun c hc parts hparts => ?_
  have hfine := hn.fine c hc
  split_ifs
  · exact settles_glued hparts (hb c hfine)
  · exact settles_spaced hparts (completes_item hb c hfine)

end Statements

end CodeLayout.Build
