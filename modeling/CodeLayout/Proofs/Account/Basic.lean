import CodeLayout.Proofs.Chunk.Neat
import CodeLayout.Proofs.Chunk.Trivia
import CodeLayout.Proofs.Formed.Types
import Mathlib.Data.List.TakeWhile

/-!
# The account of a builder

A builder owes the indices of the tokens it has not come to yet, and of the comments around them.
`Owes` is its account: what is placed and what is owed make up the indices that are wanted.
`Settles` says that a builder pays for some tokens, in order and whatever is owed besides. There is
one rule for each way of putting builders together.
-/

namespace CodeLayout

/-- The indices of a token and the comments around it. -/
def Trivia.around (t : Trivia) (id : Nat) : List Nat :=
  t.leading.flatMap CommentRun.ids ++ id :: t.trailing.toList.flatMap CommentRun.ids

/-- The indices of some tokens, the comments around them, and those at the end of the text. -/
def TriviaIndex.owed (x : TriviaIndex) (ids : List Nat) : List Nat :=
  ids.flatMap (fun id => (x.get (some id)).around id) ++
    x.ending.leading.flatMap CommentRun.ids

namespace Build

/-- The tokens at some indices are still to be placed, and with the comments around them they are
all that is wanted besides what is placed. -/
structure Owes (wanted : List Nat) (st : BuildState) (ids : List Nat) : Prop where
  account : st.placed.reverse ++ st.trivia.owed ids = wanted
  nodup : ids.Nodup
  lt : ∀ id ∈ ids, id < st.trivia.tokens.size

/-- A builder places the tokens at some indices with the comments around them, and its result
satisfies a condition. -/
def Settles {α : Type} (m : Build α) (ids : List Nat) (post : α → Prop) : Prop :=
  ∀ wanted rest st, Owes wanted st (ids ++ rest) →
    Owes wanted (m.run st).2 rest ∧ post (m.run st).1

section Rules

variable {α β : Type} {m m' : Build α} {k : α → Build β} {ids ids' : List Nat}
  {mid mid' : α → Prop} {post : β → Prop}

theorem Settles.mono (h : Settles m ids mid) (himp : ∀ a, mid a → mid' a) : Settles m ids mid' :=
  fun wanted rest st hst => ⟨(h wanted rest st hst).1, himp _ (h wanted rest st hst).2⟩

theorem Settles.pure {a : α} (h : mid a) : Settles (Pure.pure a) [] mid :=
  fun _ _ _ hst => ⟨hst, h⟩

theorem Settles.bind (hm : Settles m ids mid) (hk : ∀ a, mid a → Settles (k a) ids' post) :
    Settles (m >>= k) (ids ++ ids') post := by
  intro wanted rest st hst
  rw [List.append_assoc] at hst
  obtain ⟨hmid, ha⟩ := hm wanted (ids' ++ rest) st hst
  exact hk _ ha wanted rest _ hmid

/-- A builder that ends in steps that settle nothing. -/
theorem Settles.ended (hm : Settles m ids mid) (hk : ∀ a, mid a → Settles (k a) [] post) :
    Settles (m >>= k) ids post := by
  have h := hm.bind hk
  rwa [List.append_nil] at h

/-- A builder that ends in a plain step. -/
theorem Settles.last {f : α → β} (hm : Settles m ids mid) (hf : ∀ a, mid a → post (f a)) :
    Settles (m >>= fun a => Pure.pure (f a)) ids post :=
  hm.ended fun a ha => Settles.pure (hf a ha)

/-- A step that settles nothing, followed by others. -/
theorem Settles.quiet (hm : Settles m [] mid) (hk : ∀ a, mid a → Settles (k a) ids post) :
    Settles (m >>= k) ids post :=
  hm.bind hk

theorem Settles.ite {c : Prop} [Decidable c] (h : c → Settles m ids mid)
    (h' : ¬c → Settles m' ids mid) : Settles (if c then m else m') ids mid := by
  by_cases hc : c
  · rw [if_pos hc]
    exact h hc
  · rw [if_neg hc]
    exact h' hc

/-- A condition on the accumulator that each step keeps. -/
theorem Settles.foldlM {ns : List α} {f : β → α → Build β} {b : β} {idsOf : α → List Nat}
    (hb : post b) (hf : ∀ n ∈ ns, ∀ b, post b → Settles (f b n) (idsOf n) post) :
    Settles (ns.foldlM f b) (ns.flatMap idsOf) post := by
  induction ns generalizing b with
  | nil => exact Settles.pure hb
  | cons n ns ih =>
      rw [List.foldlM_cons, List.flatMap_cons]
      refine (hf n List.mem_cons_self b hb).bind fun c hc => ?_
      exact ih hc fun n' hn' => hf n' (List.mem_cons_of_mem n hn')

/-- Looking at what stands around a token settles nothing. -/
theorem Settles.triviaAt (id : Option Nat) {k : Trivia → Build α}
    (hk : ∀ t, Settles (k t) ids mid) : Settles (triviaAt id >>= k) ids mid :=
  fun wanted rest st hst => hk _ wanted rest st hst

end Rules

end Build

namespace TriviaIndex

variable {x : TriviaIndex} {f : Trivia → Trivia} {i j : Nat} {ids rest : List Nat}

theorem get_modify_self (hi : i < x.tokens.size) :
    (x.modify (some i) f).get (some i) = f (x.get (some i)) := by
  simp only [get, modify, Array.getD_eq_getD_getElem?, Array.getElem?_modify, if_true,
    Array.getElem?_eq_getElem hi, Option.map_some, Option.getD_some]

theorem get_modify_of_ne (h : i ≠ j) : (x.modify (some i) f).get (some j) = x.get (some j) := by
  simp [get, modify, Array.getD_eq_getD_getElem?, Array.getElem?_modify, h]

theorem get_modify_none (hi : i < x.tokens.size) :
    (x.modify none f).get (some i) = x.get (some i) := by
  simp [get, modify, Array.getD_eq_getD_getElem?, hi]

theorem owed_cons (id : Nat) (rest : List Nat) :
    x.owed (id :: rest) = (x.get (some id)).around id ++ x.owed rest := by
  simp [owed]

/-- A change around one token does not matter for others. -/
theorem owed_modify_of_not_mem (h : i ∉ ids) : (x.modify (some i) f).owed ids = x.owed ids := by
  have hget : ∀ id ∈ ids, ((x.modify (some i) f).get (some id)).around id =
      (x.get (some id)).around id := by
    intro id hid
    have hne : i ≠ id := by
      rintro rfl
      exact h hid
    rw [get_modify_of_ne hne]
  rw [owed, owed, List.flatMap_congr hget]
  rfl

end TriviaIndex

namespace Build

open Chunk

variable {x : BuildContext} {st : BuildState} {wanted ids rest : List Nat} {id : Nat}
  {run : CommentRun} {runs : List CommentRun} {t : Token}

theorem comment_places (run : CommentRun) (st : BuildState) : ∃ c, c.IsHead ∧
    (comment x run).run st = (c, { st with placed := run.ids.reverse ++ st.placed }) :=
  ⟨_, ⟨⟨rfl, rfl⟩, neat_comment _⟩, rfl⟩

theorem run_bind_eq {α β : Type} {m : Build α} {k : α → Build β} {a : α} {st st' : BuildState}
    (h : m.run st = (a, st')) : (m >>= k).run st = (k a).run st' := by
  rw [StateT.run_bind, h]
  rfl

theorem leadingComments_places (runs : List CommentRun) (st : BuildState) : ∃ cs,
    (∀ c ∈ cs, c.IsHead) ∧ (leadingComments x runs).run st =
      (cs, { st with placed := (runs.flatMap CommentRun.ids).reverse ++ st.placed }) := by
  induction runs generalizing st with
  | nil => exact ⟨[], by simp, rfl⟩
  | cons run runs ih =>
      obtain ⟨c, hc, hrun⟩ := comment_places (x := x) run st
      obtain ⟨cs, hcs, hruns⟩ := ih { st with placed := run.ids.reverse ++ st.placed }
      rw [leadingComments, run_bind_eq hrun]
      extract_lets d
      have hd : d.IsHead := by
        simp only [d]
        split_ifs
        · exact hc.modify fun _ => rfl
        · exact hc
      refine ⟨d :: cs, List.forall_mem_cons.mpr ⟨hd, hcs⟩, ?_⟩
      rw [run_bind_eq hruns, List.flatMap_cons, List.reverse_append, List.append_assoc]
      rfl

/-- A token is placed with the comments around it. Its chunk is alone, or in a sequence with
theirs. -/
theorem token_places (id : Nat) (ht : t.text ≠ []) (st : BuildState) :
    ∃ c, c.IsHead ∧ (token x id t).run st = (c,
      { trivia := st.trivia.modify (some id) fun t => { t with leading := [], trailing := none }
        placed := ((st.trivia.get (some id)).around id).reverse ++ st.placed }) := by
  obtain ⟨leading, hheads, hleading⟩ :=
    leadingComments_places (x := x) (st.trivia.get (some id)).leading st
  rw [token, run_bind_eq (rfl : (triviaAt _).run st = (_, st)), run_bind_eq hleading]
  extract_lets lead c rest
  rw [run_bind_eq (rfl : (place [id]).run _ = (_, _))]
  have hfilled : ∀ trailing : List Chunk, (∀ c ∈ trailing, c.Neat) →
      IsFilled (lead ++ [c] ++ trailing) := by
    intro trailing htrailing
    have hc : c.Neat := neat_token.mpr ht
    have hbehind : ∀ d ∈ c :: trailing, d.Neat := List.forall_mem_cons.mpr ⟨hc, htrailing⟩
    rw [List.append_assoc, List.singleton_append]
    cases leading with
    | nil => exact IsHead.cons ⟨⟨rfl, rfl⟩, hc⟩ htrailing
    | cons d ds =>
        obtain ⟨hd, hds⟩ := List.forall_mem_cons.mp hheads
        refine (IsHead.cons hd fun e he => ?_).append hbehind
        obtain ⟨e', he', rfl⟩ := List.mem_map.mp he
        exact neat_withSpace.mpr (hds e' he').neat
  -- What the token does behind its comments.
  have hrest : ∀ (trailing : List Chunk) (st₂ : BuildState), (∀ c ∈ trailing, c.Neat) →
      ∃ d, d.IsHead ∧ (rest trailing).run st₂ = (d, { st₂ with
        trivia := st₂.trivia.modify (some id) fun t =>
          { t with leading := [], trailing := none } }) := by
    intro trailing st₂ htrailing
    have hparts := hfilled trailing htrailing
    simp only [rest]
    rw [run_bind_eq (rfl : (modifyTrivia _ _).run st₂ = (_, _))]
    split
    · rename_i d heq
      rw [heq] at hparts
      exact ⟨d, hparts.isHead, rfl⟩
    · exact ⟨_, hparts.seq, rfl⟩
  cases htrailing : (st.trivia.get (some id)).trailing with
  | none =>
      obtain ⟨d, hd, hrun⟩ := hrest [] _ (by simp)
      refine ⟨d, hd, hrun.trans ?_⟩
      simp [Trivia.around, htrailing]
  | some run =>
      obtain ⟨e, he, htrail⟩ := comment_places (x := x) run { st with
        placed := [id].reverse ++
          (((st.trivia.get (some id)).leading.flatMap CommentRun.ids).reverse ++ st.placed) }
      obtain ⟨d, hd, hrun⟩ := hrest [e.withSpace] _ (by simpa using he.neat)
      rw [run_bind_eq htrail]
      refine ⟨d, hd, hrun.trans ?_⟩
      simp [Trivia.around, htrailing]

/-- A token is settled with the comments around it. -/
theorem settles_token (id : Nat) (ht : t.text ≠ []) : Settles (token x id t) [id] IsHead := by
  intro wanted rest st hst
  obtain ⟨hid, hnodup⟩ : id ∉ rest ∧ rest.Nodup := List.nodup_cons.mp hst.nodup
  obtain ⟨c, hc, hrun⟩ := token_places (x := x) id ht st
  rw [hrun]
  refine ⟨⟨?_, hnodup, fun i hi => ?_⟩, hc⟩
  · rw [← hst.account, List.singleton_append, TriviaIndex.owed_cons,
      TriviaIndex.owed_modify_of_not_mem hid]
    simp
  · simpa [TriviaIndex.modify] using hst.lt i (List.mem_cons_of_mem id hi)

/-- The comments that are detached are placed, each of them a chunk. -/
theorem detach_places (id : Option Nat) (all : Bool) (st : BuildState) :
    ∃ taken left, (st.trivia.get id).leading = taken ++ left ∧ (all = true → left = []) ∧
      ∃ cs, (∀ c ∈ cs, c.IsHead) ∧ (detach x id all).run st = (cs,
        { trivia := st.trivia.modify id fun t => { t with leading := t.leading.drop taken.length }
          placed := (taken.flatMap CommentRun.ids).reverse ++ st.placed }) := by
  have hmapM : ∀ (runs : List CommentRun) (st : BuildState), ∃ cs, (∀ c ∈ cs, c.IsHead) ∧
      (runs.mapM fun run => do
        let c ← comment x run
        return c.modify fun t => { t with blank := min (run.blank : Int) x.style.blankLines }).run
        st = (cs, { st with placed := (runs.flatMap CommentRun.ids).reverse ++ st.placed }) := by
    intro runs
    induction runs with
    | nil => exact fun st => ⟨[], by simp, rfl⟩
    | cons run runs ih =>
        intro st
        obtain ⟨c, hc, hrun⟩ := comment_places (x := x) run st
        obtain ⟨cs, hcs, hruns⟩ := ih { st with placed := run.ids.reverse ++ st.placed }
        refine ⟨c.modify (fun t => { t with
          blank := min (run.blank : Int) x.style.blankLines }) :: cs,
          List.forall_mem_cons.mpr ⟨hc.modify fun _ => rfl, hcs⟩, ?_⟩
        rw [List.mapM_cons, bind_assoc, run_bind_eq hrun, pure_bind, run_bind_eq hruns,
          List.flatMap_cons, List.reverse_append, List.append_assoc]
        rfl
  refine ⟨(st.trivia.get id).leading.takeWhile fun run => all || (run.ownLine && run.newline),
    (st.trivia.get id).leading.dropWhile fun run => all || (run.ownLine && run.newline),
    List.takeWhile_append_dropWhile.symm,
    fun hall => List.dropWhile_eq_nil_iff.mpr fun _ _ => by simp [hall], ?_⟩
  obtain ⟨cs, hcs, hrun⟩ := hmapM
    ((st.trivia.get id).leading.takeWhile fun run => all || (run.ownLine && run.newline)) st
  refine ⟨cs, hcs, ?_⟩
  rw [detach, run_bind_eq (rfl : (triviaAt _).run st = (_, st)), run_bind_eq hrun]
  rfl

/-- Comments in front of a token may be settled before the token is. -/
theorem Settles.detach {α : Type} {k : List Chunk → Build α} {post : α → Prop} (id : Nat)
    (all : Bool) (hk : ∀ cs, (∀ c ∈ cs, c.IsHead) → Settles (k cs) (id :: ids) post) :
    Settles (detach x (some id) all >>= k) (id :: ids) post := by
  intro wanted rest st hst
  obtain ⟨taken, left, hleading, -, cs, hcs, hrun⟩ := detach_places (x := x) (some id) all st
  obtain ⟨hid, -⟩ : id ∉ ids ++ rest ∧ (ids ++ rest).Nodup := List.nodup_cons.mp hst.nodup
  rw [run_bind_eq hrun]
  refine hk cs hcs wanted rest _ ⟨?_, hst.nodup, fun i hi => ?_⟩
  · rw [← hst.account, List.cons_append, TriviaIndex.owed_cons, TriviaIndex.owed_cons,
      TriviaIndex.owed_modify_of_not_mem hid,
      TriviaIndex.get_modify_self (hst.lt id List.mem_cons_self)]
    simp [Trivia.around, hleading]
  · simpa [TriviaIndex.modify] using hst.lt i hi

/-- Where all tokens are settled, the comments at the end are all that is left. -/
theorem placed_detach_end (hst : Owes wanted st []) :
    ((Build.detach x none true).run st).2.placed.reverse = wanted := by
  obtain ⟨taken, left, hleading, hleft, cs, -, hrun⟩ := detach_places (x := x) none true st
  have hending : st.trivia.ending.leading = taken ++ left := hleading
  rw [hrun, ← hst.account]
  simp [TriviaIndex.owed, hending, hleft rfl]

/-- Looking for blank lines settles nothing. -/
theorem settles_blankBefore (id : Nat) : Settles (blankBefore x id) [] fun _ => True :=
  Settles.triviaAt (some id) fun _ => Settles.pure trivial

/-- The mark of an element keeps that the chunk is neat, and that it can come first. -/
theorem Settles.element {α : Type} {n : Node} {c : Chunk} {k : Chunk → Build α}
    {post : α → Prop} (hc : c.Neat)
    (hk : ∀ d, d.Neat → (c.IsFirst → d.IsFirst) → Settles (k d) ids post) :
    Settles (element x n c >>= k) ids post := by
  have hmark : ∀ broken : Bool, Settles
      (Pure.pure (if !x.style.joinWrapped && broken then
        c.modify fun t => { t with breakBefore := true } else c) >>= k) ids post := by
    intro broken
    rw [pure_bind]
    split_ifs
    · exact hk _ (neat_modify.mpr hc) fun h => h.modify fun _ => rfl
    · exact hk _ hc id
  rw [Build.element]
  cases n.firstId? with
  | none => exact hmark false
  | some id => exact Settles.triviaAt (some id) fun t => hmark t.broken

end Build

end CodeLayout
