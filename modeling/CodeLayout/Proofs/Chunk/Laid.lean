import CodeLayout.Proofs.Chunk.Content
import CodeLayout.Proofs.Chunk.Trivia
import Mathlib.Data.List.Forall2
import Mathlib.Tactic.SplitIfs

/-!
# Chunks and the indices that are placed

A builder records the index of a token or a comment when it makes the chunk of it. `Lays` follows
both: what the chunks built so far hold is, in order, what the indices placed so far stand for.
There is one rule for each way of putting builders together.
-/

namespace CodeLayout

/-- The comment that the comments at some indices are taken together as. -/
def Build.commentOf (x : BuildContext) (ids : List Nat) : Comment :=
  Comment.ofRaw (ids.map (textOf x)) (commentOptions x { ids } (ids.map (textOf x)))

/-- A token or a comment of a tree of chunks stands for tokens of the stream. -/
inductive Leaf.Shows (x : BuildContext) (regions : Regions) : Leaf → List Nat → Prop
  | token {id : Nat} {t : Token} (hget : x.tokens[id]? = some t)
      (hkind : t.kind.isSkippable = false) : Shows x regions (.token t.start t.stop t.text) [id]
  | comment {run : CommentRun} (hrun : run.Fits x.tokens x.style regions) :
      Shows x regions (.comment (x.tokens.getD (run.ids.headD 0) default).start
        (x.tokens.getD (run.ids.getLastD 0) default).stop (Build.commentOf x run.ids).text
        (some (Build.commentOf x run.ids))) run.ids

theorem Leaf.Shows.token_inv {x : BuildContext} {regions : Regions} {start stop : Int}
    {text : Bytes} {ids : List Nat} (h : (Leaf.token start stop text).Shows x regions ids) :
    ∃ id t, ids = [id] ∧ x.tokens[id]? = some t ∧ t.kind.isSkippable = false ∧
      start = t.start ∧ stop = t.stop ∧ text = t.text := by
  cases h with
  | token hget hkind => exact ⟨_, _, rfl, hget, hkind, rfl, rfl, rfl⟩

theorem Leaf.Shows.comment_inv {x : BuildContext} {regions : Regions} {start stop : Int}
    {text : Bytes} {contents : Option Comment} {ids : List Nat}
    (h : (Leaf.comment start stop text contents).Shows x regions ids) :
    ∃ run : CommentRun, ids = run.ids ∧ run.Fits x.tokens x.style regions ∧
      start = (x.tokens.getD (run.ids.headD 0) default).start ∧
      stop = (x.tokens.getD (run.ids.getLastD 0) default).stop ∧
      text = (Build.commentOf x run.ids).text ∧ contents = some (Build.commentOf x run.ids) := by
  cases h with
  | comment hrun => exact ⟨_, rfl, hrun, rfl, rfl, rfl, rfl⟩

/-- Whether all leaves of a node are tokens with structure of a stream. -/
def Node.Within (ts : Array Token) (n : Node) : Prop :=
  ∀ l ∈ n.leaves, ts[l.1]? = some l.2 ∧ l.2.kind.isSkippable = false

namespace Node

theorem mem_leavesList {l : Nat × Token} {ns : List Node} :
    l ∈ leavesList ns ↔ ∃ n ∈ ns, l ∈ n.leaves := by
  induction ns with
  | nil => simp [leavesList]
  | cons n ns ih => simp [leavesList, ih]

theorem Within.children {ts : Array Token} {n : Node} (h : n.Within ts) :
    ∀ c ∈ n.children, c.Within ts := by
  intro c hc l hl
  cases n with
  | leaf id t => simp [Node.children] at hc
  | branch kind start stop children =>
      exact h l (by simpa [leaves, mem_leavesList] using ⟨c, hc, hl⟩)

end Node

namespace Build

open Chunk

/-- What the chunks built so far hold, and what is placed behind some first indices. All runs that
are left are runs of the stream. -/
structure Laid (x : BuildContext) (regions : Regions) (first : List Nat) (leaves : List Leaf)
    (st : BuildState) : Prop where
  shows : ∃ idss, List.Forall₂ (Leaf.Shows x regions) leaves idss ∧
    st.placed.reverse = first ++ idss.flatten
  runs : st.trivia.All (CommentRun.Fits x.tokens x.style regions)

/-- A builder that is run when some leaves are laid lays some more. -/
def Lays {α : Type} (x : BuildContext) (regions : Regions) (m : Build α) (before : List Leaf)
    (post : α → List Leaf → Prop) : Prop :=
  ∀ first st, Laid x regions first before st →
    ∃ after, post (m.run st).1 after ∧ Laid x regions first after (m.run st).2

/-- A builder lays the leaves that its result holds. -/
def Adds {α : Type} (x : BuildContext) (regions : Regions) (m : Build α) (holds : α → List Leaf) :
    Prop :=
  ∀ before, Lays x regions m before fun a after => after = before ++ holds a

section Rules

variable {α β : Type} {x : BuildContext} {regions : Regions} {m : Build α} {k : α → Build β}
  {before : List Leaf} {mid : α → List Leaf → Prop} {post : β → List Leaf → Prop}
  {holds : α → List Leaf}

theorem Lays.pure {a : α} (h : mid a before) : Lays x regions (Pure.pure a) before mid :=
  fun _ _ hst => ⟨before, h, hst⟩

theorem Lays.bind (hm : Lays x regions m before mid)
    (hk : ∀ a after, mid a after → Lays x regions (k a) after post) :
    Lays x regions (m >>= k) before post := by
  intro first st hst
  obtain ⟨after, hmid, hafter⟩ := hm first st hst
  exact hk _ after hmid first _ hafter

theorem Lays.add (hm : Adds x regions m holds)
    (hk : ∀ a, Lays x regions (k a) (before ++ holds a) post) :
    Lays x regions (m >>= k) before post := by
  refine (hm before).bind ?_
  rintro a _ rfl
  exact hk a

theorem Adds.pure {a : α} (h : holds a = []) : Adds x regions (Pure.pure a) holds :=
  fun before => Lays.pure (by rw [h, List.append_nil])

theorem Adds.map {f : α → β} {holds' : β → List Leaf} (hm : Adds x regions m holds)
    (hf : ∀ a, holds' (f a) = holds a) : Adds x regions (f <$> m) holds' := by
  intro before first st hst
  obtain ⟨_, rfl, hafter⟩ := hm before first st hst
  exact ⟨_, congrArg (before ++ ·) (hf _).symm, hafter⟩

theorem Lays.ite {c : Prop} [Decidable c] {m' : Build α} (h : c → Lays x regions m before mid)
    (h' : ¬c → Lays x regions m' before mid) :
    Lays x regions (if c then m else m') before mid := by
  by_cases hc : c
  · rw [if_pos hc]
    exact h hc
  · rw [if_neg hc]
    exact h' hc

theorem Adds.ite {c : Prop} [Decidable c] {m' : Build α} (h : c → Adds x regions m holds)
    (h' : ¬c → Adds x regions m' holds) : Adds x regions (if c then m else m') holds :=
  fun before => Lays.ite (fun hc => h hc before) fun hc => h' hc before

/-- An invariant of the accumulator and what is laid that each step keeps. -/
theorem Lays.foldlM {ns : List α} {f : β → α → Build β} {b : β} (inv : β → List Leaf → Prop)
    (hb : inv b before) (hf : ∀ n ∈ ns, ∀ b now, inv b now → Lays x regions (f b n) now inv) :
    Lays x regions (ns.foldlM f b) before inv := by
  induction ns generalizing b before with
  | nil => exact Lays.pure hb
  | cons n ns ih =>
      rw [List.foldlM_cons]
      refine (hf n List.mem_cons_self b before hb).bind fun c now hc => ?_
      exact ih hc fun n' hn' => hf n' (List.mem_cons_of_mem n hn')

theorem Adds.mapM {as : List α} {f : α → Build Chunk}
    (hf : ∀ a ∈ as, Adds x regions (f a) content) : Adds x regions (as.mapM f) contentAll := by
  induction as with
  | nil => exact Adds.pure rfl
  | cons a as ih =>
      intro before
      rw [List.mapM_cons]
      refine Lays.add (hf a List.mem_cons_self) fun c => ?_
      refine Lays.add (ih fun a' ha' => hf a' (List.mem_cons_of_mem a ha')) fun cs => ?_
      exact Lays.pure (by simp)

end Rules

section Extends

variable {α : Type} {x : BuildContext} {regions : Regions} {m : Build (Option Chunk)}
  {parts : List Chunk}

/-- A builder lays what it puts behind some parts. -/
def Extends (x : BuildContext) (regions : Regions) (m : Build (List Chunk)) (parts : List Chunk) :
    Prop :=
  ∀ before, Lays x regions m (before ++ contentAll parts) fun parts' after =>
    after = before ++ contentAll parts'

theorem Extends.pure : Extends x regions (Pure.pure parts) parts :=
  fun _ => Lays.pure rfl

theorem Extends.bind {m : Build (List Chunk)} {k : List Chunk → Build (List Chunk)}
    (hm : Extends x regions m parts) (hk : ∀ parts', Extends x regions (k parts') parts') :
    Extends x regions (m >>= k) parts := by
  intro before
  refine (hm before).bind ?_
  rintro parts' _ rfl
  exact hk parts' before

/-- A part that goes behind others. -/
theorem Extends.part {α : Type} {m : Build α} {holds : α → List Leaf}
    {k : α → Build (List Chunk)} {parts' : α → List Chunk} (hm : Adds x regions m holds)
    (hparts : ∀ a, contentAll (parts' a) = contentAll parts ++ holds a)
    (hk : ∀ a, Extends x regions (k a) (parts' a)) : Extends x regions (m >>= k) parts := by
  intro before
  refine Lays.add hm fun a => ?_
  have ha := hk a before
  rwa [hparts, ← List.append_assoc] at ha

theorem extends_spaced (hm : Adds x regions m contentAny) :
    Extends x regions (do return spaced parts (← m)) parts :=
  Extends.part hm (contentAll_spaced parts) fun _ => Extends.pure

theorem extends_glued (hm : Adds x regions m contentAny) :
    Extends x regions (do return glued parts (← m)) parts :=
  Extends.part hm (contentAll_glued parts) fun _ => Extends.pure

theorem Extends.foldlM {ns : List α} {f : List Chunk → α → Build (List Chunk)}
    (hf : ∀ n ∈ ns, ∀ parts, Extends x regions (f parts n) parts) :
    Extends x regions (ns.foldlM f parts) parts := by
  intro before
  refine Lays.foldlM _ rfl fun n hn parts' now hnow => ?_
  subst hnow
  exact hf n hn parts' before

/-- The sequence of parts that are put one behind the other. -/
theorem Extends.sequence {m : Build (List Chunk)} (hm : Extends x regions m []) :
    Adds x regions (do return sequence (← m)) contentAny := by
  intro before
  have hparts := hm before
  rw [contentAll_nil, List.append_nil] at hparts
  refine hparts.bind ?_
  rintro parts _ rfl
  exact Lays.pure (by simp)

/-- The sequence of parts, one for each node, that are put one behind the other. -/
theorem adds_foldlM {ns : List α} {f : List Chunk → α → Build (List Chunk)}
    (hf : ∀ n ∈ ns, ∀ parts, Extends x regions (f parts n) parts) :
    Adds x regions (do return Build.sequence (← ns.foldlM f [])) contentAny :=
  (Extends.foldlM hf).sequence

end Extends

section Leaves

variable {α : Type} {x : BuildContext} {regions : Regions} {run : CommentRun} {before : List Leaf}
  {post : α → List Leaf → Prop}

theorem Laid.place {st : BuildState} {leaf : Leaf} {first ids : List Nat}
    (h : Laid x regions first before st) (hleaf : leaf.Shows x regions ids) :
    Laid x regions first (before ++ [leaf]) { st with placed := ids.reverse ++ st.placed } := by
  obtain ⟨idss, hall, hplaced⟩ := h.shows
  refine ⟨⟨idss ++ [ids], List.rel_append hall (.cons hleaf .nil), ?_⟩, h.runs⟩
  simp [hplaced]

theorem lays_place {leaf : Leaf} {ids : List Nat} (hleaf : leaf.Shows x regions ids) :
    Lays x regions (place ids) before fun _ after => after = before ++ [leaf] :=
  fun _ _ hst => ⟨_, rfl, hst.place hleaf⟩

theorem Lays.triviaAt (id : Option Nat) {k : Trivia → Build α}
    (hk : ∀ t, (∀ run ∈ t.runs, run.Fits x.tokens x.style regions) →
      Lays x regions (k t) before post) :
    Lays x regions (triviaAt id >>= k) before post :=
  fun first st hst => hk _ (hst.runs id) first st hst

theorem adds_modifyTrivia (id : Option Nat) {f : Trivia → Trivia}
    (hf : ∀ t, (f t).runs ⊆ t.runs) :
    Adds x regions (modifyTrivia id f) fun _ => [] :=
  fun before _ _ hst => ⟨before, (List.append_nil before).symm, hst.shows, hst.runs.drop id hf⟩

theorem adds_comment (hrun : run.Fits x.tokens x.style regions) :
    Adds x regions (comment x run) content := by
  intro before first st hst
  have hlaid := hst.place (Leaf.Shows.comment hrun)
  refine ⟨_, ?_, hlaid⟩
  change _ = before ++ (Chunk.comment _ _ _).content
  rw [content_comment]
  rfl

theorem adds_leadingComments {runs : List CommentRun}
    (hruns : ∀ run ∈ runs, run.Fits x.tokens x.style regions) :
    Adds x regions (leadingComments x runs) contentAll := by
  induction runs with
  | nil => exact Adds.pure rfl
  | cons run runs ih =>
      intro before
      rw [leadingComments]
      refine Lays.add (adds_comment (hruns run List.mem_cons_self)) fun c => ?_
      refine Lays.add (ih fun r hr => hruns r (List.mem_cons_of_mem run hr)) fun cs => ?_
      refine Lays.pure ?_
      split_ifs <;> simp [content_modify]

theorem adds_token {id : Nat} {t : Token} (hget : x.tokens[id]? = some t)
    (hkind : t.kind.isSkippable = false) : Adds x regions (token x id t) content := by
  intro before
  rw [token]
  refine Lays.triviaAt (some id) fun around hruns => ?_
  have hleading : ∀ run ∈ around.leading, run.Fits x.tokens x.style regions := fun run hrun =>
    hruns run (List.mem_append_left _ hrun)
  refine Lays.add (adds_leadingComments hleading) fun leading => ?_
  refine (lays_place (Leaf.Shows.token hget hkind)).bind ?_
  rintro _ _ rfl
  extract_lets c rest
  have hlead : contentAll (leading.head?.toList ++ leading.tail.map withSpace) =
      contentAll leading := by
    cases leading <;> simp
  have hdrop : ∀ t : Trivia, Trivia.runs { t with leading := [], trailing := none } ⊆ t.runs := by
    simp [Trivia.runs]
  have hrest : ∀ trailing, Lays x regions (rest trailing)
      (before ++ contentAll leading ++ [.token t.start t.stop t.text] ++ contentAll trailing)
      fun c after => after = before ++ c.content := by
    intro trailing
    refine Lays.add (adds_modifyTrivia (some id) hdrop) fun _ => ?_
    have hparts :
        contentAll (leading.head?.toList ++ leading.tail.map withSpace ++ [c] ++ trailing) =
          contentAll leading ++ [.token t.start t.stop t.text] ++ contentAll trailing := by
      rw [contentAll_append, contentAll_append, hlead]
      simp [c]
    split
    · rename_i only heq
      rw [heq] at hparts
      exact Lays.pure (by simpa using hparts.symm)
    · exact Lays.pure (by rw [content_seq, hparts]; simp)
  cases htrailing : around.trailing with
  | none => simpa using hrest []
  | some run =>
      have hrun : run.Fits x.tokens x.style regions := hruns run (by simp [Trivia.runs, htrailing])
      refine Lays.add (adds_comment hrun) fun c => ?_
      simpa using hrest [c.withSpace]

theorem adds_detach (id : Option Nat) (all : Bool) :
    Adds x regions (detach x id all) contentAll := by
  intro before
  rw [detach]
  refine Lays.triviaAt id fun around hruns => ?_
  refine Lays.add (Adds.mapM fun run hrun => ?_) fun items => ?_
  · have hfits : run.Fits x.tokens x.style regions :=
      hruns run (List.mem_append_left _ (List.takeWhile_subset _ hrun))
    intro before
    refine Lays.add (adds_comment hfits) fun c => ?_
    refine Lays.pure (congrArg (before ++ ·) (content_modify c fun _ => ?_).symm)
    exact ⟨rfl, rfl⟩
  · refine Lays.add (adds_modifyTrivia id fun t => ?_) fun _ => Lays.pure (by simp)
    exact List.append_subset.mpr
      ⟨fun run hrun => List.mem_append_left _ (List.mem_of_mem_drop hrun),
      List.subset_append_right _ _⟩

theorem adds_blankBefore (id : Nat) : Adds x regions (blankBefore x id) fun _ => [] := by
  intro before
  rw [blankBefore]
  exact Lays.triviaAt (some id) fun around _ => Lays.pure (by simp)

/-- The mark of an element keeps what the element holds. -/
theorem Lays.element {n : Node} {c : Chunk} {k : Chunk → Build α}
    (hk : ∀ d, d.content = c.content → Lays x regions (k d) before post) :
    Lays x regions (element x n c >>= k) before post := by
  have hmark : ∀ broken : Bool, Lays x regions
      (Pure.pure (if !x.style.joinWrapped && broken then
        c.modify fun t => { t with breakBefore := true } else c) >>= k) before post := by
    intro broken
    refine hk _ ?_
    split_ifs
    · exact content_modify c fun _ => ⟨rfl, rfl⟩
    · rfl
  rw [Build.element]
  cases n.firstId? with
  | none => exact hmark false
  | some id => exact Lays.triviaAt (some id) fun around _ => hmark around.broken

theorem adds_items {item : NodeBuilder} {ns : List Node}
    (hitem : ∀ n ∈ ns, Adds x regions (item n) contentAny) :
    Adds x regions (items x item ns) contentAll := by
  induction ns with
  | nil => exact Adds.pure rfl
  | cons n ns ih =>
      have hrest := ih fun m hm => hitem m (List.mem_cons_of_mem n hm)
      rw [items]
      split
      · exact hrest
      · rename_i id _
        intro before
        refine Lays.add (adds_detach (some id) false) fun comments => ?_
        refine Lays.add (adds_blankBefore id) fun blank => ?_
        refine Lays.add (hitem n List.mem_cons_self) fun c => ?_
        refine Lays.add hrest fun cs => Lays.pure ?_
        rw [contentAll_append, contentAll_append, contentAll_map]
        · simp
        · exact fun c => content_modify c fun _ => ⟨rfl, rfl⟩

end Leaves

end Build

end CodeLayout
