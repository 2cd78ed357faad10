import CodeLayout.Chunk.Declaration
import CodeLayout.Proofs.Account.Lists

/-!
# Declarations settle their nodes

A clause and a declared variable are read by the places of their children, and a formed tree has
them where they are read.
-/

namespace CodeLayout.Build

open Chunk Node

variable {x : BuildContext} {build : NodeBuilder} {depth : Nat} {n : Node} {ns : List Node}
  {parts : List Chunk}

section Declarations

variable (hb : Completes x build depth)
include hb

theorem settles_qualifiedParts (hns : ∀ n ∈ ns, n.Fine x depth) (named : Bool)
    (hparts : IsFilled parts) :
    Settles (qualifiedParts build named parts ns) (ns.flatMap Node.ids) IsFilled := by
  induction ns generalizing named parts with
  | nil => exact Settles.pure hparts
  | cons n ns ih =>
      obtain ⟨hn, hrest⟩ := List.forall_mem_cons.mp hns
      rw [qualifiedParts, List.flatMap_cons]
      refine (hb n hn).bind ?_
      rintro _ ⟨c, rfl, hc⟩
      have hspaced := isFilled_spaced hparts.toIsRow hc
      exact Settles.ite (fun _ => ih hrest named hspaced) fun _ => Settles.ite
        (fun _ => ih hrest named (isFilled_glued hparts.toIsRow hc)) fun _ => ih hrest true hspaced

theorem settles_qualified (hn : n.Parts x depth) : Settles (qualified build n) n.ids IsBuilt := by
  obtain ⟨hne, hfine, hids⟩ := hn
  rw [hids, qualified]
  cases hchildren : n.children with
  | nil => exact absurd hchildren hne
  | cons first rest =>
      rw [hchildren] at hfine
      rw [List.flatMap_cons]
      refine (hb first (hfine first List.mem_cons_self)).bind ?_
      rintro _ ⟨c, rfl, hc⟩
      exact (settles_qualifiedParts hb (fun m hm => hfine m (List.mem_cons_of_mem first hm)) false
        (isFilled_spaced isRow_nil hc)).last fun _ h => isBuilt_sequence h

theorem settles_clause (context : WrapContext) (hn : n.Parts x depth)
    (htakes : NodeKind.clause.Takes n.children) : Settles (clause x build context n) n.ids
      IsBuilt := by
  obtain ⟨-, hfine, hids⟩ := hn
  obtain ⟨word, types, hchildren, hword, htypes⟩ := htakes
  have hfirst : n.first? .typeList = types.head? := by
    rw [first?, hchildren, List.find?_cons, hword]
    rcases htypes with rfl | ⟨t, rfl, ht⟩
    · rfl
    · simp [ht]
  rw [hids, clause, hfirst, hchildren, List.flatMap_cons]
  rw [hchildren] at hfine
  refine (hb word (hfine word (by simp))).bind ?_
  rintro _ ⟨c, rfl, hc⟩
  rcases htypes with rfl | ⟨t, rfl, ht⟩
  · exact Settles.pure ⟨c, rfl, hc⟩
  · have hparts := (hfine t (by simp)).below ht
    rw [List.flatMap_singleton, hparts.ids]
    refine (settles_elements hb (ascii ",") true hparts.fine).ended fun es hes => ?_
    obtain ⟨e, es, rfl⟩ := List.exists_cons_of_ne_nil (hes.ne_nil hparts.ne_nil)
    obtain ⟨he, hrest⟩ := List.forall_mem_cons.mp hes.neat
    have hspaced : ∀ d ∈ [e.withSpace], d.Neat := by simpa using he
    have hhead := (hc.cons hspaced).seq
    refine Settles.element hhead.neat fun d hd hsame => Settles.pure ⟨_, rfl, ?_⟩
    exact (IsHead.cons ⟨hsame hhead.toIsFirst, hd⟩ hrest).group context true

theorem settles_typeList (hn : n.Parts x depth) : Settles (typeList x build n) n.ids IsBuilt := by
  rw [hn.ids]
  refine (settles_elements hb (ascii ",") true hn.fine).last fun es hes => ?_
  exact ⟨_, rfl, (hes.isFilled hn.ne_nil).seq⟩

theorem settles_typeHeadPart (h : TypeHead) (hh : IsRow h.parts) (hn : n.Fine x depth) :
    Settles (typeHeadPart x build h n) n.ids fun h' => IsFilled h'.parts := by
  cases n with
  | leaf id t =>
      refine (hb _ hn).last ?_
      rintro _ ⟨c, rfl, hc⟩
      dsimp only
      split_ifs
      · exact isFilled_glued hh hc
      · exact isFilled_spaced hh hc
  | branch kind start stop children =>
      -- A child with or without a space before it.
      have hspaced : ∀ {m : Build (Option Chunk)} {ids : List Nat}, Settles m ids IsBuilt →
          Settles (do let c ← m; return { h with parts := spaced h.parts c }) ids
            fun h' => IsFilled h'.parts := by
        intro m ids hm
        refine hm.last ?_
        rintro _ ⟨c, rfl, hc⟩
        exact isFilled_spaced hh hc
      have hglued : ∀ {m : Build (Option Chunk)} {ids : List Nat}, Settles m ids IsBuilt →
          Settles (do let c ← m; return { h with parts := glued h.parts c }) ids
            fun h' => IsFilled h'.parts := by
        intro m ids hm
        refine hm.last ?_
        rintro _ ⟨c, rfl, hc⟩
        exact isFilled_glued hh hc
      have hkind : (branch kind start stop children).isKind kind = true := by simp [isKind, kind?]
      have hbelow := hn.below hkind
      have htakes := hn.formed.takes hkind
      rw [typeHeadPart.eq_def]
      dsimp only
      split
      · exact hspaced (settles_modifiers hb true hbelow)
      · exact hglued (settles_type hb hbelow)
      · exact hglued (settles_list hb _ hbelow)
      · exact hspaced (settles_clause hb _ hbelow htakes)
      · exact hspaced (hb _ hn)

theorem settles_typeDecl (hn : n.Parts x depth) : Settles (typeDecl x build n) n.ids IsBuilt := by
  rw [hn.ids, typeDecl]
  have hfold : Settles (n.children.foldlM (typeHeadPart x build) {}) (n.children.flatMap Node.ids)
      fun h => IsFilled h.parts :=
    settles_fold (P := fun h => IsRow h.parts) hn.ne_nil (fun _ h => h.toIsRow) isRow_nil
      fun c hc h hh => settles_typeHeadPart hb h hh (hn.fine c hc)
  exact hfold.last fun h hh => isBuilt_sequence hh

/-- The constants of an enumeration are settled; the nodes that are left are the last ones. -/
theorem settles_constants {ns : List Node} (hns : ∀ n ∈ ns, n.Fine x depth) :
    ∃ before rest, ns = before ++ rest ∧
      Settles (constants x build ns) (before.flatMap Node.ids)
        fun r => r.2 = rest ∧ ∀ c ∈ r.1, c.IsHead := by
  unfold constants
  extract_lets finish ending
  have hfinish : ∀ (comments parts : List Chunk) (blank : Int) (rest : List Node),
      (∀ c ∈ comments, c.IsHead) → IsRow parts →
      Settles (finish (comments, blank, parts, rest)) []
        fun r => r.2 = rest ∧ ∀ c ∈ r.1, c.IsHead := by
    intro comments parts blank rest hcomments hparts
    refine Settles.pure ⟨rfl, List.forall_mem_append.mpr ⟨hcomments, fun c hc => ?_⟩⟩
    obtain ⟨d, hd, rfl⟩ := List.mem_map.mp hc
    have hne : parts ≠ [] := by
      rintro rfl
      simp [sequence] at hd
    obtain ⟨e, he, hhead⟩ := isBuilt_sequence ⟨hparts, hne⟩
    rw [he] at hd
    obtain rfl : d = e := by simpa using hd
    exact hhead.modify fun _ => rfl
  clear_value finish
  -- The semicolon goes behind the constants.
  have hending : ∀ (nodes : List Node), (∀ n ∈ nodes, n.Fine x depth) →
      ∃ before rest, nodes = before ++ rest ∧ ∀ (comments parts : List Chunk) (blank : Int),
        (∀ c ∈ comments, c.IsHead) → IsRow parts →
        Settles (ending (comments, blank, parts, nodes)) (before.flatMap Node.ids)
          fun r => r.2 = rest ∧ ∀ c ∈ r.1, c.IsHead := by
    intro nodes hnodes
    simp only [ending]
    cases nodes with
    | nil => exact ⟨[], [], rfl, fun comments parts blank => hfinish comments parts blank []⟩
    | cons n others =>
        have hn : n.Fine x depth := hnodes n List.mem_cons_self
        have hmark : ∀ (comments parts : List Chunk) (blank : Int), (∀ c ∈ comments, c.IsHead) →
            IsRow parts → Settles (do
              let c ← build n
              finish (comments, blank, glued parts c, others)) n.ids
              fun r => r.2 = others ∧ ∀ c ∈ r.1, c.IsHead := by
          intro comments parts blank hcomments hparts
          refine (hb n hn).ended ?_
          rintro _ ⟨c, rfl, hc⟩
          exact hfinish comments _ blank others hcomments (isFilled_glued hparts hc).toIsRow
        dsimp only
        split_ifs
        · refine ⟨[n], others, rfl, fun comments parts blank hcomments hparts => ?_⟩
          rw [List.flatMap_singleton]
          split
          · rename_i id hid
            obtain ⟨id', behind, hid', hids⟩ := hn.firstId
            obtain rfl : id' = id := Option.some.inj (hid'.symm.trans hid)
            rw [hids]
            refine Settles.detach id' false fun more hmore => ?_
            refine (settles_blankBefore id').quiet fun blank _ => ?_
            rw [← hids]
            exact hmark _ [] blank (List.forall_mem_append.mpr ⟨hcomments, hmore⟩) isRow_nil
          · exact hmark comments _ blank hcomments hparts
        · exact ⟨[], n :: others, rfl, fun comments parts blank => hfinish comments parts blank _⟩
  clear_value ending
  cases ns with
  | nil =>
      obtain ⟨before, rest, hsplit, hrun⟩ := hending [] hns
      exact ⟨before, rest, hsplit, hrun [] [] 0 (by simp) isRow_nil⟩
  | cons n others =>
      obtain ⟨hn, hothers⟩ := List.forall_mem_cons.mp hns
      obtain ⟨id, behind, hid, hids⟩ := hn.firstId
      dsimp only
      rw [hid]
      cases hk : n.isKind .enumConstants with
      | false =>
          obtain ⟨before, rest, hsplit, hrun⟩ := hending (n :: others) hns
          exact ⟨before, rest, hsplit, hrun [] [] 0 (by simp) isRow_nil⟩
      | true =>
          have hparts := hn.below hk
          obtain ⟨before, rest, hsplit, hrun⟩ := hending others hothers
          refine ⟨n :: before, rest, congrArg (n :: ·) hsplit, ?_⟩
          rw [List.flatMap_cons, hids, List.cons_append]
          refine Settles.detach id false fun comments hcomments => ?_
          refine (settles_blankBefore id).quiet fun blank _ => ?_
          rw [← List.cons_append, ← hids, hparts.ids]
          refine (settles_elements hb (ascii ",") true hparts.fine).bind fun es hes => ?_
          have hconstants := (hes.isFilled hparts.ne_nil).ofElements .enumConstants
          exact hrun comments _ blank hcomments (isFilled_singleton hconstants).toIsRow

theorem settles_enumBody (hn : n.Parts x depth) : Settles (enumBody x build n) n.ids IsBuilt := by
  obtain ⟨hne, hfine, hids⟩ := hn
  rw [hids, enumBody]
  cases hchildren : n.children with
  | nil => exact absurd hchildren hne
  | cons first rest =>
      rw [hchildren] at hfine
      rw [List.flatMap_cons]
      refine (hb first (hfine first List.mem_cons_self)).bind ?_
      rintro _ ⟨opening, rfl, hopening⟩
      dsimp only
      have h := settles_closed hb (f := fun inner => do
        let r ← constants x build inner
        return r.1 ++ (← items x (item x build) r.2))
        (fun c hc => hfine c (List.mem_cons_of_mem first hc)) hopening fun inner hinner => ?_
      · simp only [bind_assoc, pure_bind] at h
        exact h
      · obtain ⟨before, members, rfl, hconstants⟩ := settles_constants hb hinner
        rw [List.flatMap_append]
        refine hconstants.bind ?_
        rintro ⟨own, _⟩ ⟨rfl, hown⟩
        refine (settles_items (completes_item hb) fun c hc =>
          hinner c (List.mem_append_right before hc)).last fun cs hcs => ?_
        exact List.forall_mem_append.mpr ⟨hown, hcs.1⟩

theorem settles_enumConstant (hn : n.Parts x depth) :
    Settles (enumConstant x build n) n.ids IsBuilt := by
  rw [hn.ids]
  refine settles_sequence hn.ne_nil fun c hc parts hparts => ?_
  have hfine := hn.fine c hc
  split_ifs with hm ha
  · exact settles_spaced hparts (settles_modifiers hb false (hfine.below hm))
  · exact settles_glued hparts (settles_list hb _ (hfine.below ha))
  · exact settles_spaced hparts (hb c hfine)

theorem settles_method (hn : n.Parts x depth) : Settles (method x build n) n.ids IsBuilt := by
  rw [hn.ids]
  refine settles_sequence hn.ne_nil fun c hc parts hparts => ?_
  have hfine := hn.fine c hc
  split_ifs with hm hp hk
  · exact settles_spaced hparts (settles_modifiers hb true (hfine.below hm))
  · exact settles_glued hparts (settles_list hb _ (hfine.below hp))
  · exact settles_spaced hparts (settles_clause hb _ (hfine.below hk) (hfine.formed.takes hk))
  · exact settles_glued hparts (hb c hfine)
  · exact settles_spaced hparts (hb c hfine)

theorem settles_declarators (hn : n.Parts x depth) :
    Settles (declarators x build n) n.ids IsBuilt := by
  rw [hn.ids]
  refine (settles_elements hb (ascii ",") true hn.fine).ended fun es hes => ?_
  have hfilled := hes.isFilled hn.ne_nil
  match es with
  | [] => exact absurd rfl hfilled.ne_nil
  | [e] => exact Settles.pure ⟨e, rfl, hfilled.isHead⟩
  | d :: e :: es => exact Settles.pure ⟨_, rfl, hfilled.ofElements .multipleFields⟩

omit hb in
/-- A part of the name of a variable is no equals sign. -/
theorem isText_equals_namePart (hx : x.IsLexed) (hn : n.Within x.tokens) (hname : n.IsNamePart) :
    isText "=" n = false := by
  cases n with
  | branch kind start stop children => exact hname.elim
  | leaf id t =>
      have hid : x.tokens[id]? = some t := (hn (id, t) (by simp [Node.leaves])).1
      have ht : t.text ≠ ascii "=" := hname.elim (hx id t hid).2 fun h => h
      simpa [isText, isToken, text?] using ht

theorem settles_declaratorParts (hx : x.IsLexed) {names value : List Node}
    (hnames : ∀ n ∈ names, n.Fine x depth ∧ n.IsNamePart) (hvalue : ∀ n ∈ value, n.Fine x depth)
    (hle : value.length ≤ 2) (hparts : IsRow parts) (hfull : parts ≠ [] ∨ names ++ value ≠ []) :
    Settles (declaratorParts x build parts (names ++ value)) ((names ++ value).flatMap Node.ids)
      IsBuilt := by
  induction names generalizing parts with
  | nil =>
      match value with
      | [] => exact Settles.pure (isBuilt_sequence ⟨hparts, by simpa using hfull⟩)
      | [v] =>
          rw [List.nil_append, declaratorParts, List.flatMap_singleton]
          refine (hb v (hvalue v (by simp))).ended ?_
          rintro _ ⟨c, rfl, hc⟩
          refine Settles.ite (fun _ => ?_) fun _ => ?_
          · exact Settles.pure (isBuilt_sequence (isFilled_spaced hparts hc))
          · exact Settles.pure (isBuilt_sequence (isFilled_glued hparts hc))
      | [v, w] =>
          rw [List.nil_append, declaratorParts, List.flatMap_cons, List.flatMap_singleton]
          refine (hb v (hvalue v (by simp))).bind ?_
          rintro _ ⟨c, rfl, hc⟩
          refine Settles.ite (fun _ => ?_) fun _ => ?_
          · obtain ⟨l, hl, hhead⟩ := isBuilt_sequence (isFilled_spaced hparts hc)
            rw [hl]
            exact settles_assignment hb hhead (hvalue w (by simp))
          · rw [declaratorParts]
            refine (hb w (hvalue w (by simp))).ended ?_
            rintro _ ⟨d, rfl, hd⟩
            have hglued := isFilled_glued hparts hc
            refine Settles.ite (fun _ => ?_) fun _ => ?_
            · exact Settles.pure (isBuilt_sequence (isFilled_spaced hglued.toIsRow hd))
            · exact Settles.pure (isBuilt_sequence (isFilled_glued hglued.toIsRow hd))
      | _ :: _ :: _ :: _ => simp at hle
  | cons n names ih =>
      obtain ⟨⟨hn, hname⟩, hrest⟩ := List.forall_mem_cons.mp hnames
      rw [List.cons_append, declaratorParts, List.flatMap_cons,
        isText_equals_namePart hx hn.within hname]
      refine (hb n hn).bind ?_
      rintro _ ⟨c, rfl, hc⟩
      have hglued := isFilled_glued hparts hc
      exact ih hrest hglued.toIsRow (Or.inl hglued.ne_nil)

theorem settles_declarator (hx : x.IsLexed) (hn : n.Parts x depth)
    (htakes : NodeKind.declarator.Takes n.children) :
    Settles (declarator x build n) n.ids IsBuilt := by
  obtain ⟨hne, hfine, hids⟩ := hn
  obtain ⟨names, value, hchildren, hnames, hle⟩ := htakes
  rw [hids, declarator, hchildren]
  rw [hchildren] at hne hfine
  exact settles_declaratorParts hb hx
    (fun n hn => ⟨hfine n (List.mem_append_left value hn), hnames n hn⟩)
    (fun n hn => hfine n (List.mem_append_right names hn)) hle isRow_nil (Or.inr hne)

end Declarations

section Raw

variable {acc : List Chunk × Option Nat}

/-- The parts of nodes that are not understood. Where the end of a part is known, there is one. -/
structure IsRawRow (acc : List Chunk × Option Nat) : Prop extends IsRow acc.1 where
  full : acc.2.isSome = true → acc.1 ≠ []

/-- One more part, behind a space only if there are others before it. -/
theorem IsRawRow.add {c : Chunk} (h : IsRawRow acc) (hc : c.IsHead) {apart : Bool}
    (hapart : apart = true → acc.2.isSome = true) :
    IsFilled (glued acc.1 (if apart then (some c).map withSpace else some c)) := by
  cases apart with
  | false => exact isFilled_glued h.toIsRow hc
  | true => exact IsFilled.append ⟨h.toIsRow, h.full (hapart rfl)⟩ (by simpa using hc.neat)

theorem isRawRow_of_isFilled (h : IsFilled acc.1) : IsRawRow acc :=
  ⟨h.toIsRow, fun _ => h.ne_nil⟩

mutual

theorem settles_rawPart (hb : Completes x build depth) {n : Node} (hn : n.Fine x depth)
    {acc : List Chunk × Option Nat} (hacc : IsRawRow acc) :
    Settles (rawPart x build acc n) n.ids fun r => IsFilled r.1 := by
  match n with
  | .leaf id t =>
      rw [rawPart]
      refine (hb _ hn).last ?_
      rintro _ ⟨c, rfl, hc⟩
      exact hacc.add hc fun hapart => by cases h : acc.2 <;> simp_all
  | .branch kind start stop children =>
      rw [rawPart]
      refine Settles.ite (fun hk => ?_) fun _ => ?_
      · refine (settles_block hb (hn.below (by simpa [isKind, kind?] using hk))).last ?_
        rintro _ ⟨c, rfl, hc⟩
        exact hacc.add hc id
      · have hkind : (branch kind start stop children).isKind kind = true := by simp [isKind, kind?]
        have hparts := hn.below hkind
        rw [hparts.ids]
        exact (settles_rawParts hb hparts.fine hacc).mono fun r hr =>
          ⟨hr.1.toIsRow, hr.2 (Or.inr hparts.ne_nil)⟩

theorem settles_rawParts (hb : Completes x build depth) {ns : List Node}
    (hns : ∀ n ∈ ns, n.Fine x depth) {acc : List Chunk × Option Nat} (hacc : IsRawRow acc) :
    Settles (rawParts x build acc ns) (ns.flatMap Node.ids) fun r =>
      IsRawRow r ∧ (acc.1 ≠ [] ∨ ns ≠ [] → r.1 ≠ []) := by
  match ns with
  | [] => exact Settles.pure ⟨hacc, by simp⟩
  | n :: ns =>
      rw [rawParts, List.flatMap_cons]
      refine (settles_rawPart hb (hns n List.mem_cons_self) hacc).bind fun r hr => ?_
      refine (settles_rawParts hb (fun m hm => hns m (List.mem_cons_of_mem n hm))
        (isRawRow_of_isFilled hr)).mono fun r' hr' => ⟨hr'.1, fun _ => hr'.2 (Or.inl hr.ne_nil)⟩

end

theorem settles_raw (hb : Completes x build depth) {kind : NodeKind} {start stop : Nat}
    {children : List Node} (hk : kind ≠ .block)
    (hn : (branch kind start stop children).Parts x depth) :
    Settles (raw x build (branch kind start stop children))
      (branch kind start stop children).ids IsBuilt := by
  rw [hn.ids, raw, rawPart, if_neg hk]
  refine (settles_rawParts hb hn.fine ⟨isRow_nil, by simp⟩).last fun r hr => ?_
  exact isBuilt_sequence ⟨hr.1.toIsRow, hr.2 (Or.inr hn.ne_nil)⟩

end Raw

end CodeLayout.Build
