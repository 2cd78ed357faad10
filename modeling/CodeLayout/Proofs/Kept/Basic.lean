import CodeLayout.Proofs.Account.Lists

/-!
# White space that is kept

Where line breaks are kept, a builder marks each element of a group that a line break was in front
of. What stands in front of an element is known by the token that the element starts with: `Opens`
says which one that is, and that all marks are there. The items of a block, and nothing else, get
the blank lines that were right before their first token or comment: `MarksItem` says so. `Marks`
carries both through a builder, which never forgets the white space of the input. There is one rule
for each way of putting builders together.
-/

namespace CodeLayout

theorem findSome?_cons_or {α β : Type} (f : α → Option β) (a : α) (as : List α) :
    (a :: as).findSome? f = (f a).or (as.findSome? f) := by
  rw [List.findSome?_cons]
  cases f a <;> rfl

/-- Where a token starts in the input. Comments are passed over. -/
def Leaf.start? : Leaf → Option Int
  | .token start _ _ => some start
  | .comment .. => none

/-- Where the first token among some leaves starts in the input. -/
def Leaf.opening? (ls : List Leaf) : Option Int :=
  ls.findSome? start?

@[simp] theorem Leaf.opening?_nil : opening? [] = none :=
  rfl

@[simp] theorem Leaf.opening?_append (ls ls' : List Leaf) :
    opening? (ls ++ ls') = (opening? ls).or (opening? ls') :=
  List.findSome?_append

/-- Where the first token of a node starts in the input. -/
def Node.opening? (n : Node) : Option Int :=
  n.leaves.head?.map fun l => (l.2.start : Int)

namespace Node

variable {x : BuildContext} {depth : Nat} {n : Node} {ns : List Node}

theorem opening?_leavesList (ns : List Node) :
    (leavesList ns).head?.map (fun l => (l.2.start : Int)) = ns.findSome? opening? := by
  induction ns with
  | nil => rfl
  | cons n ns ih =>
      rw [leavesList, List.head?_append, Option.map_or, ih, findSome?_cons_or]
      rfl

/-- A branch starts with the first token of its children. -/
theorem opening?_eq (h : n.children ≠ []) : n.opening? = n.children.findSome? opening? := by
  cases n with
  | leaf id t => exact absurd rfl h
  | branch kind start stop children => exact opening?_leavesList children

theorem Parts.opening?_eq (h : n.Parts x depth) : n.opening? = n.children.findSome? opening? :=
  Node.opening?_eq h.ne_nil

/-- A node with leaves starts with a token of the stream. -/
theorem Fine.opening (h : n.Fine x depth) : ∃ id t, n.firstId? = some id ∧
    x.tokens[id]? = some t ∧ n.opening? = some (t.start : Int) := by
  obtain ⟨⟨id, t⟩, ls, hleaves⟩ := List.exists_cons_of_ne_nil (h.formed.leaves_ne_nil h.full)
  have hmem : (id, t) ∈ n.leaves := by simp [hleaves]
  exact ⟨id, t, by simp [firstId?, hleaves], (h.within _ hmem).1, by simp [opening?, hleaves]⟩

end Node

/-- What is to be kept of the white space of the input, by where tokens and comments start. -/
structure Spacing where
  /-- Whether a line break is to be kept that is anywhere between a token and the one before it. -/
  breaks : Int → Prop
  /-- The number of blank lines to be kept right before a token or a comment. -/
  blank : Int → Int

namespace Chunk

variable (spacing : Spacing)

/-- The elements of a group that may be moved to another line, the first one aside. -/
def movable : Chunk → List Chunk
  | .group _ context _ cs => if context = .plain then [] else cs.tail
  | _ => []

/-- The elements of a group and the braces of a block. -/
def parts : Chunk → List Chunk
  | .group _ _ _ cs => cs
  | .block _ o c _ _ => o.toList ++ c.toList
  | _ => []

/-- Whether a chunk must start a line if a line break was in front of its first token. -/
def Marked (c : Chunk) : Prop :=
  ∀ start, Leaf.opening? c.content = some start → spacing.breaks start →
    c.traits.breakBefore = true

/-- Whether as many blank lines are before a chunk as are to be kept before its first token or
comment. -/
def Timed (c : Chunk) : Prop :=
  ∀ l ∈ c.content.head?, c.traits.blank = spacing.blank l.start

/-- Whether all that may be moved in a group is marked, and only the items of a block have blank
lines before them, as many as are to be kept. -/
structure MarksHere (c : Chunk) : Prop where
  movable : ∀ e ∈ c.movable, e.Marked spacing
  items : ∀ e ∈ c.items, e.Timed spacing
  parts : ∀ e ∈ c.parts, e.traits.blank = 0

/-- Whether this is so for all groups and blocks of a tree. -/
def MarksBelow (c : Chunk) : Prop :=
  ∀ d ∈ c.walk, d.MarksHere spacing

/-- Whether this is so for all groups and blocks of a tree that is no item. -/
structure MarksAll (c : Chunk) : Prop where
  below : c.MarksBelow spacing
  blank : c.traits.blank = 0

/-- Whether this is so for all groups and blocks of an item. -/
structure MarksItem (c : Chunk) : Prop where
  below : c.MarksBelow spacing
  timed : c.Timed spacing

/-- Chunks of which the first token starts somewhere, with all marks below them. -/
structure Opens (start : Option Int) (cs : List Chunk) : Prop where
  marks : ∀ c ∈ cs, c.MarksAll spacing
  opening : Leaf.opening? (contentAll cs) = start

/-- Elements of a group, all of which are marked. -/
structure Row (start : Option Int) (cs : List Chunk) : Prop extends Opens spacing start cs where
  marked : ∀ c ∈ cs, c.Marked spacing

/-- Items of a block of which the first token starts somewhere. -/
structure Items (start : Option Int) (cs : List Chunk) : Prop where
  marks : ∀ c ∈ cs, c.MarksItem spacing
  opening : Leaf.opening? (contentAll cs) = start

variable {spacing} {c d : Chunk} {o : Option Chunk} {cs ds : List Chunk} {s s' : Option Int}
  {start blank : Int} {t : Traits} {context : WrapContext}

theorem marksBelow_token {text : Bytes} : (token t text).MarksBelow spacing := by
  rw [MarksBelow, walk, List.forall_mem_singleton]
  exact ⟨List.forall_mem_nil _, List.forall_mem_nil _, List.forall_mem_nil _⟩

theorem marksBelow_comment {text : Bytes} {contents : Option Comment} :
    (comment t text contents).MarksBelow spacing := by
  rw [MarksBelow, walk, List.forall_mem_singleton]
  exact ⟨List.forall_mem_nil _, List.forall_mem_nil _, List.forall_mem_nil _⟩

theorem marksBelow_walkList : (∀ d ∈ walkList cs, d.MarksHere spacing) ↔
    ∀ c ∈ cs, c.MarksBelow spacing := by
  simp only [mem_walkList, MarksBelow]
  exact ⟨fun h c hc d hd => h d ⟨c, hc, hd⟩, fun h d ⟨c, hc, hd⟩ => h c hc d hd⟩

theorem marksBelow_group {breakFirst : Bool} :
    (group t context breakFirst cs).MarksBelow spacing ↔
      (context ≠ .plain → ∀ e ∈ cs.tail, e.Marked spacing) ∧ ∀ c ∈ cs, c.MarksAll spacing := by
  have hmovable : (∀ e ∈ (group t context breakFirst cs).movable, e.Marked spacing) ↔
      (context ≠ .plain → ∀ e ∈ cs.tail, e.Marked spacing) := by
    rw [movable]
    by_cases hplain : context = .plain <;> simp [hplain]
  rw [MarksBelow, walk, List.forall_mem_cons, marksBelow_walkList]
  constructor
  · rintro ⟨hhere, hbelow⟩
    exact ⟨hmovable.mp hhere.movable, fun c hc => ⟨hbelow c hc, hhere.parts c hc⟩⟩
  · rintro ⟨hmarked, hcs⟩
    exact ⟨⟨hmovable.mpr hmarked, List.forall_mem_nil _, fun c hc => (hcs c hc).blank⟩,
      fun c hc => (hcs c hc).below⟩

theorem marksBelow_block {close : Option Chunk} {indented : Bool} :
    (block t o close indented cs).MarksBelow spacing ↔ (∀ c ∈ o.toList, c.MarksAll spacing) ∧
      (∀ c ∈ cs, c.MarksItem spacing) ∧ ∀ c ∈ close.toList, c.MarksAll spacing := by
  rw [MarksBelow, walk_block, List.forall_mem_cons, List.forall_mem_append, List.forall_mem_append,
    marksBelow_walkList, marksBelow_walkList, marksBelow_walkList]
  constructor
  · rintro ⟨hhere, ⟨ho, hcs⟩, hclose⟩
    obtain ⟨hoParts, hcloseParts⟩ := List.forall_mem_append.mp hhere.parts
    exact ⟨fun c hc => ⟨ho c hc, hoParts c hc⟩, fun c hc => ⟨hcs c hc, hhere.items c hc⟩,
      fun c hc => ⟨hclose c hc, hcloseParts c hc⟩⟩
  · rintro ⟨ho, hcs, hclose⟩
    refine ⟨⟨List.forall_mem_nil _, fun c hc => (hcs c hc).timed, ?_⟩,
      ⟨fun c hc => (ho c hc).below, fun c hc => (hcs c hc).below⟩, fun c hc => (hclose c hc).below⟩
    exact List.forall_mem_append.mpr
      ⟨fun c hc => (ho c hc).blank, fun c hc => (hclose c hc).blank⟩

/-- The traits of a chunk do not matter for the marks below it. -/
@[simp] theorem marksBelow_modify {f : Traits → Traits} :
    (c.modify f).MarksBelow spacing ↔ c.MarksBelow spacing := by
  cases c with
  | token t text => exact iff_of_true marksBelow_token marksBelow_token
  | comment t text contents => exact iff_of_true marksBelow_comment marksBelow_comment
  | group t context breakFirst cs => simp only [modify, marksBelow_group]
  | block t o close indented cs => simp only [modify, marksBelow_block]

theorem marksAll_modify {f : Traits → Traits} (hf : ∀ t, (f t).blank = t.blank) :
    (c.modify f).MarksAll spacing ↔ c.MarksAll spacing := by
  have hblank : (c.modify f).traits.blank = c.traits.blank := by
    cases c <;> exact hf _
  exact ⟨fun h => ⟨marksBelow_modify.mp h.below, hblank.symm.trans h.blank⟩,
    fun h => ⟨marksBelow_modify.mpr h.below, hblank.trans h.blank⟩⟩

@[simp] theorem marksAll_withSpace : c.withSpace.MarksAll spacing ↔ c.MarksAll spacing :=
  marksAll_modify fun _ => rfl

/-- A tree becomes an item with the blank lines that are to be kept before it. -/
theorem MarksAll.item (h : c.MarksAll spacing)
    (hblank : ∀ l ∈ c.content.head?, blank = spacing.blank l.start) :
    (c.modify fun t => { t with blank }).MarksItem spacing := by
  have hcontent : (c.modify fun t => { t with blank }).content = c.content :=
    content_modify c fun _ => ⟨rfl, rfl⟩
  refine ⟨marksBelow_modify.mpr h.below, fun l hl => ?_⟩
  rw [← hblank l (hcontent ▸ hl)]
  cases c <;> rfl

theorem opens_nil : Opens spacing none [] :=
  ⟨nofun, rfl⟩

theorem opens_self (h : ∀ c ∈ cs, c.MarksAll spacing) :
    Opens spacing (Leaf.opening? (contentAll cs)) cs :=
  ⟨h, rfl⟩

theorem opens_singleton :
    Opens spacing s [c] ↔ c.MarksAll spacing ∧ Leaf.opening? c.content = s := by
  constructor
  · rintro ⟨hmarks, hopening⟩
    exact ⟨hmarks c (by simp), by simpa using hopening⟩
  · rintro ⟨hmarks, hopening⟩
    exact ⟨by simpa using hmarks, by simpa using hopening⟩

theorem Opens.append (h : Opens spacing s cs) (h' : Opens spacing s' ds) :
    Opens spacing (s.or s') (cs ++ ds) :=
  ⟨List.forall_mem_append.mpr ⟨h.marks, h'.marks⟩, by
    rw [contentAll_append, Leaf.opening?_append, h.opening, h'.opening]⟩

/-- Comments in front of chunks do not matter for where the chunks start. -/
theorem Opens.before (h : Opens spacing none cs) (h' : Opens spacing s ds) :
    Opens spacing s (cs ++ ds) := by
  have happend := h.append h'
  rwa [Option.none_or] at happend

theorem Opens.comment_cons (h : Opens spacing none [c]) (h' : Opens spacing s cs) :
    Opens spacing s (c :: cs) :=
  h.before h'

/-- What comes behind a first token does not matter for where chunks start. -/
theorem Opens.behind (h : Opens spacing (some start) cs) (hds : ∀ d ∈ ds, d.MarksAll spacing) :
    Opens spacing (some start) (cs ++ ds) :=
  h.append ⟨hds, rfl⟩

/-- Chunks with a token are there. -/
theorem Opens.exists_some (h : Opens spacing (some start) o.toList) :
    ∃ c, o = some c ∧ c.MarksAll spacing ∧ Leaf.opening? c.content = some start := by
  cases o with
  | none => cases h.opening
  | some c => exact ⟨c, rfl, opens_singleton.mp h⟩

theorem Opens.withSpace (h : Opens spacing s cs) : Opens spacing s (cs.map Chunk.withSpace) :=
  ⟨by simpa using h.marks, by rw [contentAll_withSpace]; exact h.opening⟩

theorem Opens.any_withSpace (h : Opens spacing s o.toList) :
    Opens spacing s (o.map Chunk.withSpace).toList := by
  cases o with
  | none => exact h
  | some c => exact h.withSpace

theorem Opens.seq (h : Opens spacing s cs) : Opens spacing s [Chunk.seq cs] :=
  opens_singleton.mpr ⟨⟨marksBelow_group.mpr ⟨fun hplain => absurd rfl hplain, h.marks⟩, rfl⟩, by
    rw [content_seq, h.opening]⟩

/-- A group whose elements are marked, the first one aside. -/
theorem Opens.group (h : Opens spacing s cs) (hmarked : ∀ e ∈ cs.tail, e.Marked spacing)
    (context : WrapContext) (breakFirst : Bool) :
    Opens spacing s [Chunk.group {} context breakFirst cs] :=
  opens_singleton.mpr ⟨⟨marksBelow_group.mpr ⟨fun _ => hmarked, h.marks⟩, rfl⟩, by
    rw [content_group, h.opening]⟩

/-- Marked elements behind a first one. -/
theorem Opens.elements (h : Opens spacing s cs) (h' : Row spacing s' ds)
    (hone : cs.length ≤ 1) (context : WrapContext) :
    Opens spacing (s.or s') [Chunk.ofElements context (cs ++ ds)] := by
  refine (h.append h'.toOpens).group (fun e he => h'.marked e ?_) context false
  match cs, hone with
  | [], _ => exact List.mem_of_mem_tail he
  | [c], _ => exact he

theorem Row.ofElements (h : Row spacing s cs) (context : WrapContext) :
    Opens spacing s [Chunk.ofElements context cs] :=
  h.toOpens.group (fun e he => h.marked e (List.mem_of_mem_tail he)) context false

theorem row_nil : Row spacing none [] :=
  ⟨opens_nil, nofun⟩

theorem Row.cons (h : Opens spacing s [c]) (hc : c.Marked spacing) (h' : Row spacing s' cs) :
    Row spacing (s.or s') (c :: cs) :=
  ⟨h.append h'.toOpens, List.forall_mem_cons.mpr ⟨hc, h'.marked⟩⟩

theorem items_nil : Items spacing none [] :=
  ⟨nofun, rfl⟩

theorem Items.append (h : Items spacing s cs) (h' : Items spacing s' ds) :
    Items spacing (s.or s') (cs ++ ds) :=
  ⟨List.forall_mem_append.mpr ⟨h.marks, h'.marks⟩, by
    rw [contentAll_append, Leaf.opening?_append, h.opening, h'.opening]⟩

/-- Comments in front of items do not matter for where the items start. -/
theorem Items.before (h : Items spacing none cs) (h' : Items spacing s ds) :
    Items spacing s (cs ++ ds) := by
  have happend := h.append h'
  rwa [Option.none_or] at happend

/-- The items that a tree makes, if it is there, with the blank lines before them. -/
theorem Opens.items (h : Opens spacing s o.toList)
    (hblank : ∀ l ∈ (contentAny o).head?, blank = spacing.blank l.start) :
    Items spacing s (o.toList.map fun c => c.modify fun t => { t with blank }) := by
  cases o with
  | none => exact ⟨nofun, h.opening⟩
  | some c =>
      obtain ⟨hmarks, hopening⟩ := opens_singleton.mp h
      refine ⟨by simpa using hmarks.item (by simpa using hblank), ?_⟩
      simpa [content_modify c (f := fun t => { t with blank }) fun _ => ⟨rfl, rfl⟩] using hopening

theorem opens_ofItems {close : Option Chunk} (h : Opens spacing (some start) o.toList)
    (hcs : ∀ c ∈ cs, c.MarksItem spacing) (hclose : ∀ c ∈ close.toList, c.MarksAll spacing) :
    Opens spacing (some start) [ofItems o close cs] := by
  refine opens_singleton.mpr ⟨⟨marksBelow_block.mpr ⟨h.marks, hcs, hclose⟩, rfl⟩, ?_⟩
  have hopening : Leaf.opening? (contentAny o) = some start := h.opening
  rw [content_ofItems, Leaf.opening?_append, Leaf.opening?_append, hopening]
  rfl

end Chunk

namespace Build

open Chunk

variable {spacing : Spacing} {parts cs : List Chunk} {c : Option Chunk} {s s' : Option Int}

theorem opens_spaced (h : Opens spacing s parts) (hc : Opens spacing s' c.toList) :
    Opens spacing (s.or s') (spaced parts c) := by
  have hopening : Leaf.opening? (contentAll (spaced parts c)) = s.or s' := by
    rw [contentAll_spaced, Leaf.opening?_append, h.opening]
    exact congrArg _ hc.opening
  refine ⟨?_, hopening⟩
  cases c with
  | none => exact h.marks
  | some c =>
      refine List.forall_mem_append.mpr ⟨h.marks, List.forall_mem_singleton.mpr ?_⟩
      have hmarks := hc.marks c (by simp)
      split_ifs
      · exact hmarks
      · exact marksAll_withSpace.mpr hmarks

theorem opens_glued (h : Opens spacing s parts) (hc : Opens spacing s' c.toList) :
    Opens spacing (s.or s') (glued parts c) := by
  have hopening : Leaf.opening? (contentAll (glued parts c)) = s.or s' := by
    rw [contentAll_glued, Leaf.opening?_append, h.opening]
    exact congrArg _ hc.opening
  refine ⟨?_, hopening⟩
  cases c with
  | none => exact h.marks
  | some c => exact List.forall_mem_append.mpr ⟨h.marks, hc.marks⟩

theorem opens_sequence (h : Opens spacing s parts) : Opens spacing s (sequence parts).toList := by
  match parts with
  | [] => exact h
  | [c] => exact h
  | c :: d :: cs => exact h.seq

/-- What surrounds the tokens of a stream tells all that is to be kept of the white space of the
input. -/
structure Knows (x : BuildContext) (spacing : Spacing) (st : BuildState) : Prop where
  size : st.trivia.tokens.size = x.tokens.size
  broken : ∀ (id : Nat) (t : Token), x.tokens[id]? = some t → spacing.breaks t.start →
    x.style.joinWrapped = false ∧ (st.trivia.get (some id)).broken = true
  blank : ∀ (id : Nat) (t : Token), x.tokens[id]? = some t → t.kind.isSkippable = false →
    min ((st.trivia.get (some id)).blank : Int) x.style.blankLines = spacing.blank t.start
  runs : ∃ regions, st.trivia.All fun run => run.Fits x.tokens x.style regions ∧
    min (run.blank : Int) x.style.blankLines =
      spacing.blank (x.tokens.getD (run.ids.headD 0) default).start

/-- A builder forgets nothing of that, and its result satisfies a condition. -/
def Marks {α : Type} (x : BuildContext) (spacing : Spacing) (m : Build α) (post : α → Prop) :
    Prop :=
  ∀ st, Knows x spacing st → Knows x spacing (m.run st).2 ∧ post (m.run st).1

section Rules

variable {α β : Type} {x : BuildContext} {m m' : Build α} {k : α → Build β} {mid mid' : α → Prop}
  {post : β → Prop}

theorem Marks.mono (h : Marks x spacing m mid) (himp : ∀ a, mid a → mid' a) :
    Marks x spacing m mid' :=
  fun st hst => ⟨(h st hst).1, himp _ (h st hst).2⟩

theorem Marks.pure {a : α} (h : mid a) : Marks x spacing (Pure.pure a) mid :=
  fun _ hst => ⟨hst, h⟩

theorem Marks.bind (hm : Marks x spacing m mid) (hk : ∀ a, mid a → Marks x spacing (k a) post) :
    Marks x spacing (m >>= k) post := by
  intro st hst
  obtain ⟨hknows, ha⟩ := hm st hst
  exact hk _ ha _ hknows

/-- A builder that ends in a plain step. -/
theorem Marks.last {f : α → β} (hm : Marks x spacing m mid) (hf : ∀ a, mid a → post (f a)) :
    Marks x spacing (m >>= fun a => Pure.pure (f a)) post :=
  hm.bind fun a ha => Marks.pure (hf a ha)

theorem Marks.ite {p : Prop} [Decidable p] (h : p → Marks x spacing m mid)
    (h' : ¬p → Marks x spacing m' mid) : Marks x spacing (if p then m else m') mid := by
  by_cases hp : p
  · rw [if_pos hp]
    exact h hp
  · rw [if_neg hp]
    exact h' hp

/-- A condition on the accumulator that each step keeps. -/
theorem Marks.foldlM {ns : List α} {f : β → α → Build β} {b : β} (hb : post b)
    (hf : ∀ n ∈ ns, ∀ b, post b → Marks x spacing (f b n) post) :
    Marks x spacing (ns.foldlM f b) post := by
  induction ns generalizing b with
  | nil => exact Marks.pure hb
  | cons n ns ih =>
      rw [List.foldlM_cons]
      refine (hf n List.mem_cons_self b hb).bind fun b' hb' => ?_
      exact ih hb' fun n' hn' => hf n' (List.mem_cons_of_mem n hn')

theorem Marks.triviaAt {id : Option Nat} {k : Trivia → Build α}
    (hk : ∀ t : Trivia, (∀ run ∈ t.leading, min (run.blank : Int) x.style.blankLines =
      spacing.blank (x.tokens.getD (run.ids.headD 0) default).start) → Marks x spacing (k t) mid) :
    Marks x spacing (triviaAt id >>= k) mid := by
  intro st hst
  obtain ⟨regions, hruns⟩ := hst.runs
  exact hk _ (fun run hrun => (hruns id run (List.mem_append_left _ hrun)).2) st hst

end Rules

section Parts

variable {α : Type} {x : BuildContext} {m : Build (Option Chunk)} {as : List α}
  {f : List Chunk → α → Build (List Chunk)} {startOf : α → Option Int}

theorem marks_spaced (hparts : Opens spacing s parts)
    (hm : Marks x spacing m fun c => Opens spacing s' c.toList) :
    Marks x spacing (do return spaced parts (← m)) (Opens spacing (s.or s')) :=
  hm.last fun _ hc => opens_spaced hparts hc

theorem marks_glued (hparts : Opens spacing s parts)
    (hm : Marks x spacing m fun c => Opens spacing s' c.toList) :
    Marks x spacing (do return glued parts (← m)) (Opens spacing (s.or s')) :=
  hm.last fun _ hc => opens_glued hparts hc

/-- Parts that are put one behind the other, in an accumulator that may hold more than them. -/
theorem marks_foldlM {β : Type} (partsOf : β → List Chunk) {g : β → α → Build β} {b : β}
    (hb : Opens spacing s (partsOf b))
    (hg : ∀ a ∈ as, ∀ s b, Opens spacing s (partsOf b) →
      Marks x spacing (g b a) fun b' => Opens spacing (s.or (startOf a)) (partsOf b')) :
    Marks x spacing (as.foldlM g b)
      fun b' => Opens spacing (s.or (as.findSome? startOf)) (partsOf b') := by
  induction as generalizing s b with
  | nil => exact Marks.pure (by rwa [List.findSome?_nil, Option.or_none])
  | cons a as ih =>
      rw [List.foldlM_cons, findSome?_cons_or, ← Option.or_assoc]
      refine (hg a List.mem_cons_self s b hb).bind fun b' hb' => ?_
      exact ih hb' fun a' ha' => hg a' (List.mem_cons_of_mem a ha')

/-- Parts that are put one behind the other from the first one on. -/
theorem marks_parts {β : Type} (partsOf : β → List Chunk) {g : β → α → Build β} {b : β}
    (hb : partsOf b = []) (hg : ∀ a ∈ as, ∀ s b, Opens spacing s (partsOf b) →
      Marks x spacing (g b a) fun b' => Opens spacing (s.or (startOf a)) (partsOf b')) :
    Marks x spacing (as.foldlM g b) fun b' =>
      Opens spacing (as.findSome? startOf) (partsOf b') := by
  have hnil : Opens spacing none (partsOf b) := by
    rw [hb]
    exact opens_nil
  refine (marks_foldlM partsOf hnil hg).mono fun b' hb' => ?_
  rwa [Option.none_or] at hb'

/-- The sequence of parts that are put one behind the other. -/
theorem marks_sequence (hf : ∀ a ∈ as, ∀ s parts, Opens spacing s parts →
      Marks x spacing (f parts a) (Opens spacing (s.or (startOf a)))) :
    Marks x spacing (do return sequence (← as.foldlM f []))
      fun c => Opens spacing (as.findSome? startOf) c.toList :=
  (marks_parts (fun parts => parts) rfl hf).last fun _ hparts => opens_sequence hparts

/-- Parts that are put one behind the other by steps that know the places of their nodes. -/
theorem marks_sequence_zipIdx {ns : List Node} {f : List Chunk → Node × Nat → Build (List Chunk)}
    (hf : ∀ n ∈ ns, ∀ i s parts, Opens spacing s parts →
      Marks x spacing (f parts (n, i)) (Opens spacing (s.or n.opening?))) :
    Marks x spacing (do return sequence (← ns.zipIdx.foldlM f []))
      fun c => Opens spacing (ns.findSome? Node.opening?) c.toList := by
  have hfst : ns.findSome? Node.opening? = ns.zipIdx.findSome? fun e => e.1.opening? := by
    conv_lhs => rw [← List.zipIdx_map_fst 0 ns, List.findSome?_map]
    rfl
  rw [hfst]
  refine marks_sequence ?_
  rintro ⟨n, i⟩ hn s parts hparts
  exact hf n (List.fst_mem_of_mem_zipIdx hn) i s parts hparts

end Parts

section Leaves

variable {α : Type} {x : BuildContext} {post : α → Prop}

/-- What stands around tokens is changed: there are no other runs, and the line breaks and blank
lines right before tokens stay. -/
theorem marks_modifyTrivia (id : Option Nat) {f : Trivia → Trivia}
    (hbroken : ∀ t, (f t).broken = t.broken) (hblank : ∀ t, (f t).blank = t.blank)
    (hruns : ∀ t, (f t).runs ⊆ t.runs) : Marks x spacing (modifyTrivia id f) fun _ => True := by
  intro st hst
  have hkept {α : Type} {g : Trivia → α} (hg : ∀ t, g (f t) = g t) (i : Nat) :
      g ((st.trivia.modify id f).get (some i)) = g (st.trivia.get (some i)) := by
    cases id with
    | none =>
        simp only [TriviaIndex.modify, TriviaIndex.get, Array.getD_eq_getD_getElem?]
        cases st.trivia.tokens[i]? with
        | none => exact hg _
        | some t => rfl
    | some j =>
        simp only [TriviaIndex.modify, TriviaIndex.get, Array.getD_eq_getD_getElem?,
          Array.getElem?_modify]
        split_ifs
        · cases st.trivia.tokens[i]? with
          | none => rfl
          | some t => exact hg t
        · rfl
  refine ⟨⟨?_, fun i t ht hbreaks => ?_, fun i t ht hkind => ?_, ?_⟩, trivial⟩
  · refine Eq.trans ?_ hst.size
    change (st.trivia.modify id f).tokens.size = _
    cases id <;> simp [TriviaIndex.modify]
  · obtain ⟨hkeep, hbreak⟩ := hst.broken i t ht hbreaks
    exact ⟨hkeep, (hkept hbroken i).trans hbreak⟩
  · refine Eq.trans ?_ (hst.blank i t ht hkind)
    exact congrArg (fun n : Nat => min (n : Int) x.style.blankLines) (hkept hblank i)
  · obtain ⟨regions, hall⟩ := hst.runs
    exact ⟨regions, hall.drop id hruns⟩

theorem marks_place (ids : List Nat) : Marks x spacing (place ids) fun _ => True :=
  fun _ hst => ⟨⟨hst.size, hst.broken, hst.blank, hst.runs⟩, trivial⟩

theorem marks_comment (run : CommentRun) :
    Marks x spacing (comment x run) fun c => Opens spacing none [c] := by
  refine (marks_place run.ids).bind fun _ _ => Marks.pure ?_
  exact opens_singleton.mpr ⟨⟨marksBelow_comment, rfl⟩, by simp [Leaf.opening?, Leaf.start?]⟩

theorem opens_modify {f : Traits → Traits} {c : Chunk} (h : Opens spacing s [c])
    (hf : ∀ t, (f t).start = t.start ∧ (f t).stop = t.stop) (hblank : ∀ t, (f t).blank = t.blank) :
    Opens spacing s [c.modify f] := by
  obtain ⟨hmarks, hopening⟩ := opens_singleton.mp h
  exact opens_singleton.mpr
    ⟨(marksAll_modify hblank).mpr hmarks, by rw [content_modify c hf, hopening]⟩

theorem marks_leadingComments (runs : List CommentRun) :
    Marks x spacing (leadingComments x runs) (Opens spacing none) := by
  induction runs with
  | nil => exact Marks.pure opens_nil
  | cons run runs ih =>
      rw [leadingComments]
      refine (marks_comment run).bind fun c hc => ih.last fun cs hcs => Opens.comment_cons ?_ hcs
      split_ifs
      · exact opens_modify hc (fun _ => ⟨rfl, rfl⟩) fun _ => rfl
      · exact hc

/-- A token starts where it does, whatever comments are in front of it. -/
theorem marks_token (id : Nat) (t : Token) :
    Marks x spacing (token x id t) fun c => Opens spacing (some (t.start : Int)) [c] := by
  rw [token]
  refine Marks.triviaAt fun around _ => ?_
  refine (marks_leadingComments around.leading).bind fun leading hleading => ?_
  refine (marks_place [id]).bind fun _ _ => ?_
  extract_lets c rest
  have hlead : Opens spacing none (leading.head?.toList ++ leading.tail.map withSpace) := by
    cases leading with
    | nil => exact opens_nil
    | cons d ds =>
        obtain ⟨hmarks, hopening⟩ := hleading
        refine ⟨by simpa using hmarks, ?_⟩
        simpa using hopening
  have hc : Opens spacing (some (t.start : Int)) [c] :=
    opens_singleton.mpr ⟨⟨marksBelow_token, rfl⟩, by simp [c, Leaf.opening?, Leaf.start?]⟩
  have hrest : ∀ trailing, (∀ d ∈ trailing, d.MarksAll spacing) →
      Marks x spacing (rest trailing) fun c => Opens spacing (some (t.start : Int)) [c] := by
    intro trailing htrailing
    refine Marks.bind (marks_modifyTrivia (some id) (fun _ => rfl) (fun _ => rfl)
      (by simp [Trivia.runs])) fun _ _ => ?_
    have hparts := (hlead.before hc).behind htrailing
    split
    · rename_i only heq
      rw [heq] at hparts
      exact Marks.pure hparts
    · exact Marks.pure hparts.seq
  cases around.trailing with
  | none => exact hrest [] (by simp)
  | some run =>
      refine (marks_comment run).bind fun d hd => hrest [d.withSpace] ?_
      simpa using hd.marks

/-- A comment as an item of a block. -/
theorem marks_commentItem {run : CommentRun} (hrun : min (run.blank : Int) x.style.blankLines =
    spacing.blank (x.tokens.getD (run.ids.headD 0) default).start) :
    Marks x spacing (do
      let c ← comment x run
      return c.modify fun t => { t with blank := min (run.blank : Int) x.style.blankLines })
      fun c => Items spacing none [c] := by
  rw [comment]
  simp only [bind_assoc, pure_bind]
  refine (marks_place run.ids).bind fun _ _ => Marks.pure ?_
  refine Opens.items (o := some _) ⟨List.forall_mem_singleton.mpr ⟨marksBelow_comment, rfl⟩, ?_⟩ ?_
  · simp [Leaf.opening?, Leaf.start?]
  · simpa [Leaf.start] using hrun

theorem marks_detach (id : Option Nat) (all : Bool) :
    Marks x spacing (detach x id all) (Items spacing none) := by
  have hmapM : ∀ runs : List CommentRun, (∀ run ∈ runs, min (run.blank : Int) x.style.blankLines =
      spacing.blank (x.tokens.getD (run.ids.headD 0) default).start) →
      Marks x spacing (runs.mapM fun run => do
        let c ← comment x run
        return c.modify fun t => { t with blank := min (run.blank : Int) x.style.blankLines })
        (Items spacing none) := by
    intro runs hruns
    induction runs with
    | nil => exact Marks.pure items_nil
    | cons run runs ih =>
        obtain ⟨hrun, hrest⟩ := List.forall_mem_cons.mp hruns
        rw [List.mapM_cons]
        exact (marks_commentItem hrun).bind fun c hc => (ih hrest).last fun cs hcs => hc.before hcs
  refine Marks.triviaAt fun around hleading => ?_
  refine (hmapM _ fun run hrun => ?_).bind fun items hitems => ?_
  · exact hleading run (List.takeWhile_subset _ hrun)
  · refine Marks.last (marks_modifyTrivia id (fun _ => rfl) (fun _ => rfl) fun t => ?_)
      fun _ _ => hitems
    exact List.append_subset.mpr
      ⟨fun run hrun => List.mem_append_left _ (List.mem_of_mem_drop hrun),
      List.subset_append_right _ _⟩

/-- An element is marked if it starts with the first token of the node that it is made of. -/
theorem Marks.element {n : Node} {c : Chunk} {k : Chunk → Build α} {depth : Nat}
    (hn : n.Fine x depth) (hc : Opens spacing n.opening? [c])
    (hk : ∀ d, Opens spacing n.opening? [d] → d.Marked spacing → Marks x spacing (k d) post) :
    Marks x spacing (element x n c >>= k) post := by
  obtain ⟨id, t, hid, ht, hopening⟩ := hn.opening
  rw [hopening] at hc hk
  intro st hst
  have hrun : (Build.element x n c).run st = (if !x.style.joinWrapped &&
      (st.trivia.get (some id)).broken then c.modify fun t => { t with breakBefore := true }
        else c, st) := by
    simp only [Build.element, hid]
    rfl
  rw [run_bind_eq hrun]
  have hd : Opens spacing (some (t.start : Int)) [if !x.style.joinWrapped &&
      (st.trivia.get (some id)).broken then c.modify fun t => { t with breakBefore := true }
        else c] := by
    split_ifs
    · exact opens_modify hc (fun _ => ⟨rfl, rfl⟩) fun _ => rfl
    · exact hc
  refine hk _ hd (fun start hstart hbreaks => ?_) st hst
  rw [(opens_singleton.mp hd).2] at hstart
  obtain ⟨hkeep, hbroken⟩ := hst.broken id t ht (Option.some.inj hstart ▸ hbreaks)
  rw [if_pos (by simp [hkeep, hbroken])]
  cases c <;> rfl

/-- The tokens of a builder start with the comments that lead the first one. -/
theorem head_around {m : Build α} {mid : α → Prop} {holds : α → List Leaf} {id : Nat}
    {ids : List Nat} {st : BuildState} {l : Leaf} {regions : Regions}
    (hruns : st.trivia.All (CommentRun.Fits x.tokens x.style regions))
    (hsize : st.trivia.tokens.size = x.tokens.size) (hnodup : (id :: ids).Nodup)
    (hlt : ∀ i ∈ id :: ids, i < x.tokens.size) (hm : Settles m (id :: ids) mid)
    (hadds : Adds x regions m holds) (hl : l ∈ (holds (m.run st).1).head?) :
    l.start = (x.tokens.getD
      (((st.trivia.get (some id)).leading.flatMap CommentRun.ids ++ [id]).headD 0)
      default).start := by
  obtain ⟨howes, -⟩ := hm (st.placed.reverse ++ st.trivia.owed (id :: ids)) [] st
    ⟨by rw [List.append_nil], by rwa [List.append_nil], by rwa [List.append_nil, hsize]⟩
  obtain ⟨_, rfl, hlaid⟩ := hadds [] st.placed.reverse st ⟨⟨[], .nil, by simp⟩, hruns⟩
  obtain ⟨idss, hshows, hplaced⟩ := hlaid.shows
  obtain ⟨ls, hholds⟩ := List.head?_eq_some_iff.mp hl
  rw [List.nil_append, hholds] at hshows
  obtain ⟨first, idss, hfirst, -, rfl⟩ := List.forall₂_cons_left_iff.mp hshows
  -- What the builder places is what it owed, so both start with the same index.
  have haccount := howes.account
  rw [hplaced, List.append_assoc, List.append_cancel_left_eq, TriviaIndex.owed_cons,
    Trivia.around] at haccount
  obtain ⟨i, is, rfl, hstart⟩ : ∃ i is, first = i :: is ∧
      l.start = (x.tokens.getD i default).start := by
    cases l with
    | token start stop text =>
        obtain ⟨i, t, rfl, ht, -, rfl, -⟩ := hfirst.token_inv
        exact ⟨i, [], rfl, by simp [Leaf.start, Array.getD_eq_getD_getElem?, ht]⟩
    | comment start stop text contents =>
        obtain ⟨run, rfl, hfits, rfl, -⟩ := hfirst.comment_inv
        obtain ⟨i, is, his⟩ := List.exists_cons_of_ne_nil hfits.nonempty
        exact ⟨i, is, his, by simp [Leaf.start, his]⟩
  rw [hstart]
  generalize (st.trivia.get (some id)).leading.flatMap CommentRun.ids = lead at haccount ⊢
  cases lead with
  | nil => rw [(List.cons.inj haccount).1]; rfl
  | cons j js => rw [(List.cons.inj haccount).1]; rfl

/-- The blank lines that are looked for before a node are those before the first token or comment of
what is made of it. -/
theorem Marks.blankBefore {m : Build α} {mid mid' : α → Prop} {holds : α → List Leaf}
    {k : Int → α → Build β} {n : Node} {depth id : Nat} {post : β → Prop} (hn : n.Fine x depth)
    (hid : n.firstId? = some id) (hsettles : Settles m n.ids mid')
    (hadds : ∀ regions, Adds x regions m holds) (hm : Marks x spacing m mid)
    (hk : ∀ blank a, mid a → mid' a → (∀ l ∈ (holds a).head?, blank = spacing.blank l.start) →
      Marks x spacing (k blank a) post) :
    Marks x spacing (blankBefore x id >>= fun blank => m >>= k blank) post := by
  obtain ⟨first, rest, hfirst, hids⟩ := hn.firstId
  obtain rfl : id = first := Option.some.inj (hid.symm.trans hfirst)
  have hnodup := hn.nodup
  have hwithin : ∀ i ∈ n.ids, ∃ t, x.tokens[i]? = some t ∧ t.kind.isSkippable = false := by
    intro i hi
    obtain ⟨l, hl, rfl⟩ := List.mem_map.mp hi
    exact ⟨l.2, hn.within l hl⟩
  rw [hids] at hsettles hnodup hwithin
  obtain ⟨t, ht, hkind⟩ := hwithin id List.mem_cons_self
  have hlt : ∀ i ∈ id :: rest, i < x.tokens.size := by
    intro i hi
    obtain ⟨t, ht, -⟩ := hwithin i hi
    exact (Array.getElem?_eq_some_iff.mp ht).1
  intro st hst
  obtain ⟨regions, hruns⟩ := hst.runs
  have hfits : st.trivia.All (CommentRun.Fits x.tokens x.style regions) := fun i run hrun =>
    (hruns i run hrun).1
  obtain ⟨hnext, hmid⟩ := hm st hst
  obtain ⟨-, hmid'⟩ := hsettles _ [] st
    ⟨rfl, by rwa [List.append_nil], by rwa [List.append_nil, hst.size]⟩
  have hrun : ∃ n : Nat, (Build.blankBefore x id).run st = (min (n : Int) x.style.blankLines, st) ∧
      min (n : Int) x.style.blankLines = spacing.blank (x.tokens.getD (((st.trivia.get
        (some id)).leading.flatMap CommentRun.ids ++ [id]).headD 0) default).start := by
    rw [Build.blankBefore, run_bind_eq (rfl : (Build.triviaAt _).run st = (_, st))]
    cases hleading : (st.trivia.get (some id)).leading with
    | nil =>
        refine ⟨_, rfl, ?_⟩
        rw [hst.blank id t ht hkind]
        simp [Array.getD_eq_getD_getElem?, ht]
    | cons run runs =>
        obtain ⟨hfirst, hblank⟩ := hruns (some id) run (by simp [Trivia.runs, hleading])
        obtain ⟨i, is, his⟩ := List.exists_cons_of_ne_nil hfirst.nonempty
        refine ⟨_, rfl, ?_⟩
        rw [hblank, his]
        simp [his]
  obtain ⟨n, hrun, hblank⟩ := hrun
  rw [run_bind_eq hrun]
  refine hk _ _ hmid hmid' (fun l hl => ?_) _ hnext
  rw [head_around hfits hst.size hnodup hlt hsettles (hadds regions) hl]
  exact hblank

end Leaves

end Build

end CodeLayout
