import CodeLayout.Chunk.OfNode
import CodeLayout.Proofs.Account.Basic
import CodeLayout.Proofs.Agree
import CodeLayout.Proofs.Alike.Node
import CodeLayout.Proofs.Chunk.Laid

/-!
# Chunks that differ in places only

The bare form of a chunk forgets where in the input it comes from. What is left around a token
counts only as far as a style looks at it. Builders that are run where the same is left around
tokens that meet make chunks of one bare form from nodes that differ in places only.
-/

namespace CodeLayout

/-- Traits without the range in the input. -/
def Traits.bare (t : Traits) : Traits :=
  { t with start := -1, stop := -1 }

namespace Chunk

mutual

/-- A chunk without the places of its parts in the input. -/
def bare : Chunk → Chunk
  | .token t s => .token t.bare s
  | .comment t s c => .comment t.bare s c
  | .group t x b cs => .group t.bare x b (bareList cs)
  | .block t o c i cs =>
    .block t.bare
      (match o with
        | some o => some (bare o)
        | none => none)
      (match c with
        | some c => some (bare c)
        | none => none) i (bareList cs)

/-- Chunks without the places of their parts in the input. -/
def bareList : List Chunk → List Chunk
  | [] => []
  | c :: cs => bare c :: bareList cs

end

theorem bareList_eq_map (cs : List Chunk) : bareList cs = cs.map bare := by
  induction cs with
  | nil => rfl
  | cons c cs ih => rw [bareList, ih, List.map_cons]

theorem bare_group (t : Traits) (x : WrapContext) (b : Bool) (cs : List Chunk) :
    (group t x b cs).bare = group t.bare x b (cs.map bare) := by
  rw [bare, bareList_eq_map]

theorem bare_block (t : Traits) (o c : Option Chunk) (i : Bool) (cs : List Chunk) :
    (block t o c i cs).bare = block t.bare (o.map bare) (c.map bare) i (cs.map bare) := by
  cases o <;> cases c <;> rw [bare, bareList_eq_map] <;> rfl

theorem traits_bare (c : Chunk) : c.bare.traits = c.traits.bare := by
  cases c with
  | token t s => rfl
  | comment t s c => rfl
  | group t x b cs => rfl
  | block t o c i cs =>
      rw [bare_block]
      rfl

theorem bare_modify {f : Traits → Traits} (hf : ∀ t, (f t).bare = f t.bare) (c : Chunk) :
    (c.modify f).bare = c.bare.modify f := by
  cases c with
  | token t s => exact congrArg (Chunk.token · s) (hf t)
  | comment t s c => exact congrArg (Chunk.comment · s c) (hf t)
  | group t x b cs => exact congrArg (Chunk.group · x b _) (hf t)
  | block t o c i cs =>
      rw [modify, bare_block, bare_block, modify, hf]

/-- The chunks differ in places only. -/
def Alike (c d : Chunk) : Prop :=
  c.bare = d.bare

/-- Chunks that may be missing and differ in places only. -/
abbrev OptAlike : Option Chunk → Option Chunk → Prop :=
  Option.Rel Alike

/-- Lists of chunks that differ in places only. -/
abbrev Alikes : List Chunk → List Chunk → Prop :=
  List.Forall₂ Alike

section Alike

variable {c d : Chunk} {o p o' p' : Option Chunk} {cs ds es fs : List Chunk}

theorem Alikes.map_bare (h : Alikes cs ds) : cs.map bare = ds.map bare := by
  induction h with
  | nil => rfl
  | cons hcd _ ih => rw [List.map_cons, List.map_cons, hcd, ih]

theorem Alikes.append (h : Alikes cs ds) (h' : Alikes es fs) : Alikes (cs ++ es) (ds ++ fs) :=
  List.rel_append h h'

theorem OptAlike.map_bare (h : OptAlike o p) : o.map bare = p.map bare := by
  cases h with
  | none => rfl
  | some h => exact congrArg some h

theorem OptAlike.toList (h : OptAlike o p) : Alikes o.toList p.toList := by
  cases h with
  | none => exact .nil
  | some h => exact .cons h .nil

theorem OptAlike.map (h : OptAlike o p) {f g : Chunk → Chunk}
    (hf : ∀ c d, c.Alike d → (f c).Alike (g d)) : OptAlike (o.map f) (p.map g) := by
  cases h with
  | none => exact .none
  | some h => exact .some (hf _ _ h)

theorem Alike.modify {f : Traits → Traits} (hf : ∀ t, (f t).bare = f t.bare) (h : c.Alike d) :
    (c.modify f).Alike (d.modify f) := by
  rw [Alike, bare_modify hf, bare_modify hf, h]

theorem Alike.withSpace (h : c.Alike d) : c.withSpace.Alike d.withSpace :=
  h.modify fun _ => rfl

theorem Alike.group (t : Traits) (x : WrapContext) (b : Bool) (h : Alikes cs ds) :
    (Chunk.group t x b cs).Alike (.group t x b ds) := by
  rw [Alike, bare_group, bare_group, h.map_bare]

theorem Alike.seq (h : Alikes cs ds) : (Chunk.seq cs).Alike (.seq ds) :=
  Alike.group _ _ _ h

theorem Alike.ofElements (x : WrapContext) (h : Alikes cs ds) :
    (Chunk.ofElements x cs).Alike (.ofElements x ds) :=
  Alike.group _ _ _ h

theorem Alike.ofItems (ho : OptAlike o p) (hc : OptAlike o' p') (h : Alikes cs ds) :
    (Chunk.ofItems o o' cs).Alike (.ofItems p p' ds) := by
  have hnone : o.isNone = p.isNone := by cases ho <;> rfl
  rw [Alike, Chunk.ofItems, Chunk.ofItems, bare_block, bare_block, ho.map_bare, hc.map_bare,
    h.map_bare, hnone]

end Alike

end Chunk

namespace Build

open Chunk

section Parts

variable {o p : Option Chunk} {cs ds : List Chunk}

theorem spaced_alike (h : Alikes cs ds) (ho : OptAlike o p) :
    Alikes (spaced cs o) (spaced ds p) := by
  cases ho with
  | none => exact h
  | some hcd =>
      cases h with
      | nil => exact .cons hcd .nil
      | cons hfirst hrest => exact .append (.cons hfirst hrest) (.cons hcd.withSpace .nil)

theorem glued_alike (h : Alikes cs ds) (ho : OptAlike o p) :
    Alikes (glued cs o) (glued ds p) := by
  cases ho with
  | none => exact h
  | some hcd => exact h.append (.cons hcd .nil)

theorem sequence_alike (h : Alikes cs ds) : OptAlike (sequence cs) (sequence ds) := by
  cases h with
  | nil => exact .none
  | cons hcd hrest =>
      cases hrest with
      | nil => exact .some hcd
      | cons hnext hrest => exact .some (.seq (.cons hcd (.cons hnext hrest)))

theorem filterMap_alike {os ps : List (Option Chunk)} (h : List.Forall₂ OptAlike os ps) :
    Alikes (os.filterMap id) (ps.filterMap id) := by
  induction h with
  | nil => exact .nil
  | cons hop _ ih =>
      cases hop with
      | none => exact ih
      | some hcd => exact .cons hcd ih

theorem bracketed_alike (context : WrapContext) {o' p' : Option Chunk} (ho : OptAlike o p)
    (hc : OptAlike o' p') (h : Alikes cs ds) :
    (bracketed context o o' cs).Alike (bracketed context p p' ds) := by
  apply Alike.seq
  apply filterMap_alike
  cases h with
  | nil => exact .cons ho (.cons .none (.cons hc .nil))
  | cons hfirst hrest =>
      exact .cons ho (.cons (.some (.ofElements context (.cons hfirst hrest))) (.cons hc .nil))

end Parts

end Build

/-- A run of comments as a style sees it: the comment that is made of it, and how it stands. -/
structure CommentRun.Look where
  comment : Comment
  ownLine : Bool
  blank : Int
  newline : Bool
  deriving DecidableEq

/-- What stands around a token as a style sees it. -/
structure Trivia.Look where
  leading : List CommentRun.Look
  trailing : Option CommentRun.Look
  blank : Int
  broken : Bool
  deriving DecidableEq

namespace BuildContext

def lookOfRun (x : BuildContext) (run : CommentRun) : CommentRun.Look where
  comment := Build.commentOf x run.ids
  ownLine := run.ownLine
  blank := min (run.blank : Int) x.style.blankLines
  newline := run.newline

/-- No more blank lines count than the style keeps, and line breaks only if it keeps them. -/
def look (x : BuildContext) (t : Trivia) : Trivia.Look where
  leading := t.leading.map x.lookOfRun
  trailing := t.trailing.map x.lookOfRun
  blank := min (t.blank : Int) x.style.blankLines
  broken := !x.style.joinWrapped && t.broken

end BuildContext

/-- What stands around the tokens with structure of a stream, and at its end, as a style sees it. -/
def TokenStream.surroundings (s : TokenStream) (style : Style) : List Trivia.Look × Trivia.Look :=
  let around := TriviaIndex.ofStream s style (Regions.ofStream s style)
  let look := (s.buildContext style).look
  (s.structural.map fun e => look (around.get (some e.1)), look (around.get none))

namespace BuildContext

variable {x y : BuildContext} {runs runs' : List CommentRun} {a b : Trivia}

/-- Runs of comments that look the same one by one. -/
abbrev SameRuns (x y : BuildContext) : List CommentRun → List CommentRun → Prop :=
  List.Forall₂ fun run run' => x.lookOfRun run = y.lookOfRun run'

theorem sameRuns_iff :
    x.SameRuns y runs runs' ↔ runs.map x.lookOfRun = runs'.map y.lookOfRun := by
  rw [← List.forall₂_eq_eq_eq, List.forall₂_map_left_iff, List.forall₂_map_right_iff]

theorem SameRuns.takeWhile (h : x.SameRuns y runs runs') (all : Bool) :
    x.SameRuns y (runs.takeWhile fun run => all || (run.ownLine && run.newline))
      (runs'.takeWhile fun run => all || (run.ownLine && run.newline)) := by
  induction h with
  | nil => exact .nil
  | cons hrun _ ih =>
      obtain ⟨-, hown, -, hnewline⟩ := CommentRun.Look.mk.inj hrun
      rw [List.takeWhile_cons, List.takeWhile_cons, hown, hnewline]
      split
      · exact .cons hrun ih
      · exact .nil

theorem look_eq_iff : x.look a = y.look b ↔
    x.SameRuns y a.leading b.leading ∧ a.trailing.map x.lookOfRun = b.trailing.map y.lookOfRun ∧
      min (a.blank : Int) x.style.blankLines = min (b.blank : Int) y.style.blankLines ∧
      (!x.style.joinWrapped && a.broken) = (!y.style.joinWrapped && b.broken) := by
  rw [sameRuns_iff, look, look, Trivia.Look.mk.injEq]

end BuildContext

namespace TokenStream

variable {s : TokenStream} {i i' k k' : Nat} {t t' : Token}

theorem structural_lt (h : s.structural[k]? = some (i, t)) : i < s.tokens.size := by
  have hmem := List.mem_of_getElem? h
  simp only [structural, List.mem_map, List.mem_filter, Prod.mk.injEq] at hmem
  obtain ⟨⟨u, n⟩, ⟨hzip, -⟩, rfl, -⟩ := hmem
  simpa using (List.getElem?_eq_some_iff.mp (List.mem_zipIdx_iff_getElem?.mp hzip)).1

/-- No token with structure comes twice. -/
theorem structural_eq_iff (h : s.structural[k]? = some (i, t))
    (h' : s.structural[k']? = some (i', t')) : i = i' ↔ k = k' := by
  have hnodup : (s.structural.map Prod.fst).Nodup :=
    List.pairwise_map.mpr (s.structural_pairwise.imp fun hlt => Nat.ne_of_lt hlt)
  have hk : k < (s.structural.map Prod.fst).length := by
    rw [List.length_map]
    exact (List.getElem?_eq_some_iff.mp h).1
  rw [← List.getElem?_inj hk hnodup]
  simp only [List.getElem?_map, h, h', Option.map_some, Option.some.injEq]

end TokenStream

section SideBySide

variable [v : SideBySide]

/-- Two texts are built, the left one and the right one. -/
structure BuildContext.Beside (x y : BuildContext) : Prop where
  left : x = v.left.buildContext v.style
  right : y = v.right.buildContext v.style

theorem BuildContext.Beside.style {x y : BuildContext} (h : x.Beside y) : y.style = x.style := by
  rw [h.left, h.right]
  rfl

/-- What is left around two tokens that meet, and at the end, looks the same. -/
structure BuildState.Alike (s t : BuildState) : Prop where
  size : s.trivia.tokens.size = v.left.tokens.size
  size' : t.trivia.tokens.size = v.right.tokens.size
  look : ∀ i j, Option.Rel SideBySide.Meets i j →
    (v.left.buildContext v.style).look (s.trivia.get i) =
      (v.right.buildContext v.style).look (t.trivia.get j)

/-- Two builders that agree where the same is left. -/
abbrev Build.Agree {α β : Type} (rel : α → β → Prop) (p : Build α) (q : Build β) : Prop :=
  CodeLayout.Agree BuildState.Alike rel p q

/-- Two builders of nodes that agree. -/
def NodeBuilder.Agree (build build' : NodeBuilder) : Prop :=
  ∀ n m, n.Kin m → Build.Agree Chunk.OptAlike (build n) (build' m)

namespace SideBySide

variable {i i' j j' : Nat}

theorem Meets.lt_left (h : Meets i j) : i < v.left.tokens.size := by
  obtain ⟨k, t, u, hleft, -⟩ := h
  exact TokenStream.structural_lt hleft

theorem Meets.lt_right (h : Meets i j) : j < v.right.tokens.size := by
  obtain ⟨k, t, u, -, hright⟩ := h
  exact TokenStream.structural_lt hright

/-- A token meets only one, and only one meets it. -/
theorem Meets.eq_iff (h : Meets i j) (h' : Meets i' j') : i = i' ↔ j = j' := by
  obtain ⟨k, t, u, hleft, hright⟩ := h
  obtain ⟨k', t', u', hleft', hright'⟩ := h'
  rw [TokenStream.structural_eq_iff hleft hleft', TokenStream.structural_eq_iff hright hright']

end SideBySide

/-- What is left around two tokens that meet is changed in the same way. -/
theorem BuildState.Alike.modify {s t : BuildState} (h : s.Alike t) {i j : Option Nat}
    (hij : Option.Rel SideBySide.Meets i j) {f g : Trivia → Trivia}
    (hfg : (v.left.buildContext v.style).look (f (s.trivia.get i)) =
      (v.right.buildContext v.style).look (g (t.trivia.get j))) :
    Alike { s with trivia := s.trivia.modify i f } { t with trivia := t.trivia.modify j g } where
  size := by
    cases i with
    | none => exact h.size
    | some i => simpa [TriviaIndex.modify] using h.size
  size' := by
    cases j with
    | none => exact h.size'
    | some j => simpa [TriviaIndex.modify] using h.size'
  look i' j' hij' := by
    cases hij with
    | none =>
        cases hij' with
        | none => exact hfg
        | some hmeets =>
            dsimp only
            rw [TriviaIndex.get_modify_none (h.size ▸ hmeets.lt_left),
              TriviaIndex.get_modify_none (h.size' ▸ hmeets.lt_right)]
            exact h.look _ _ (.some hmeets)
    | @some i j hmeets =>
        cases hij' with
        | none => exact h.look none none .none
        | @some i' j' hmeets' =>
            dsimp only
            by_cases hi : i = i'
            · obtain rfl := hi
              obtain rfl := (hmeets.eq_iff hmeets').mp rfl
              rw [TriviaIndex.get_modify_self (h.size ▸ hmeets.lt_left),
                TriviaIndex.get_modify_self (h.size' ▸ hmeets.lt_right)]
              exact hfg
            · rw [TriviaIndex.get_modify_of_ne hi,
                TriviaIndex.get_modify_of_ne (mt (hmeets.eq_iff hmeets').mpr hi)]
              exact h.look _ _ (.some hmeets')

namespace Build

open Chunk

variable {x y : BuildContext} {i j : Option Nat}

section Primitives

theorem agree_place (ids ids' : List Nat) :
    Agree (fun _ _ => True) (place ids) (place ids') :=
  fun _ _ h => ⟨trivial, h.size, h.size', h.look⟩

/-- What follows a look at what is left around two tokens that meet. -/
theorem agree_triviaAt (h : x.Beside y) (hij : Option.Rel SideBySide.Meets i j) :
    Agree (fun a b => x.look a = y.look b) (triviaAt i) (triviaAt j) := by
  obtain ⟨rfl, rfl⟩ := h
  exact fun _ _ h => ⟨h.look i j hij, h⟩

theorem agree_modifyTrivia (h : x.Beside y) (hij : Option.Rel SideBySide.Meets i j)
    {f g : Trivia → Trivia} (hfg : ∀ a b, x.look a = y.look b → x.look (f a) = y.look (g b)) :
    Agree (fun _ _ => True) (modifyTrivia i f) (modifyTrivia j g) := by
  obtain ⟨rfl, rfl⟩ := h
  exact fun _ _ h => ⟨trivial, h.modify hij (hfg _ _ (h.look i j hij))⟩

/-- Runs of comments that look the same make chunks that differ in places only. -/
theorem agree_comment {run run' : CommentRun} (hrun : x.lookOfRun run = y.lookOfRun run') :
    Agree Chunk.Alike (comment x run) (comment y run') := by
  obtain ⟨hcomment, -, -, hnewline⟩ := CommentRun.Look.mk.inj hrun
  apply (agree_place _ _).bind
  intro _ _ _
  apply CodeLayout.Agree.pure
  -- The line of a comment ends behind it as its form and the run demand.
  let breakAfter (c : Comment) (newline : Bool) : Break :=
    if c.style = .line then .mandatory else if newline then .optional else .never
  change (Chunk.comment { breakAfter := breakAfter (commentOf x run.ids) run.newline, .. }
      (commentOf x run.ids).text (some (commentOf x run.ids))).bare =
    (Chunk.comment { breakAfter := breakAfter (commentOf y run'.ids) run'.newline, .. }
      (commentOf y run'.ids).text (some (commentOf y run'.ids))).bare
  simp only [Chunk.bare, Traits.bare, hcomment, hnewline]

/-- Builders of chunks that are run for one thing after the other. -/
theorem agree_mapM {α β : Type} {arg : α → β → Prop} {p : α → Build Chunk} {q : β → Build Chunk}
    {as : List α} {bs : List β} (hargs : List.Forall₂ arg as bs)
    (hpq : ∀ a b, arg a b → Agree Chunk.Alike (p a) (q b)) :
    Agree Alikes (as.mapM p) (bs.mapM q) := by
  induction hargs with
  | nil => exact .pure .nil
  | cons harg _ ih =>
      rw [List.mapM_cons, List.mapM_cons]
      apply (hpq _ _ harg).bind
      intro c d hcd
      apply ih.bind
      intro cs ds hcs
      exact .pure (.cons hcd hcs)

theorem agree_leadingComments {runs runs' : List CommentRun} (h : x.SameRuns y runs runs') :
    Agree Alikes (leadingComments x runs) (leadingComments y runs') := by
  induction h with
  | nil => exact .pure .nil
  | @cons run run' runs runs' hrun _ ih =>
      obtain ⟨-, hown, -, -⟩ := CommentRun.Look.mk.inj hrun
      rw [leadingComments, leadingComments, hown]
      apply (agree_comment hrun).bind
      intro c d hcd
      apply ih.bind
      intro cs ds hcs
      apply CodeLayout.Agree.pure
      refine .cons ?_ hcs
      split
      · exact hcd.modify fun _ => rfl
      · exact hcd

/-- The end of building tokens that meet: nothing is left around them. -/
theorem agree_gathered (h : x.Beside y) {i j : Nat} (hij : SideBySide.Meets i j)
    {cs ds : List Chunk} (hcs : Alikes cs ds) : Agree Chunk.Alike
      (do
        modifyTrivia (some i) fun t => { t with leading := [], trailing := none }
        match cs with
        | [c] => return c
        | parts => return Chunk.seq parts)
      (do
        modifyTrivia (some j) fun t => { t with leading := [], trailing := none }
        match ds with
        | [d] => return d
        | parts => return Chunk.seq parts) := by
  have hfg : ∀ a b : Trivia, x.look a = y.look b →
      x.look { a with leading := [], trailing := none } =
        y.look { b with leading := [], trailing := none } := by
    intro a b hab
    obtain ⟨-, -, hblank, hbroken⟩ := BuildContext.look_eq_iff.mp hab
    exact BuildContext.look_eq_iff.mpr ⟨.nil, rfl, hblank, hbroken⟩
  apply (agree_modifyTrivia h (.some hij) hfg).bind
  intro _ _ _
  match cs, ds, hcs with
  | [], [], _ => exact .pure (.seq .nil)
  | [c], [d], .cons hcd _ => exact .pure hcd
  | c :: c' :: cs, d :: d' :: ds, hcs => exact .pure (.seq hcs)

/-- Tokens that meet, with the comments around them. -/
theorem agree_token (h : x.Beside y) {i j : Nat} (hij : SideBySide.Meets i j) {t u : Token}
    (htext : u.text = t.text) : Agree Chunk.Alike (token x i t) (token y j u) := by
  apply (agree_triviaAt h (.some hij)).bind
  intro a b hab
  obtain ⟨hleading, htrailing, -, -⟩ := BuildContext.look_eq_iff.mp hab
  apply (agree_leadingComments hleading).bind
  intro cs ds hcs
  have hled : Alikes (cs.head?.toList ++ cs.tail.map Chunk.withSpace)
      (ds.head?.toList ++ ds.tail.map Chunk.withSpace) := by
    cases hcs with
    | nil => exact .nil
    | cons hfirst hrest => exact .cons hfirst (List.rel_map (fun _ _ h => h.withSpace) hrest)
  dsimp only
  generalize cs.head?.toList ++ cs.tail.map Chunk.withSpace = es,
    ds.head?.toList ++ ds.tail.map Chunk.withSpace = fs at hled ⊢
  apply (agree_place _ _).bind
  intro _ _ _
  have hown : Alikes
      (es ++ [.token { start := t.start, stop := t.stop, space := !es.isEmpty } t.text])
      (fs ++ [.token { start := u.start, stop := u.stop, space := !fs.isEmpty } u.text]) := by
    have hempty : fs.isEmpty = es.isEmpty := by cases hled <;> rfl
    rw [hempty, htext]
    exact hled.append (.cons rfl .nil)
  generalize a.trailing = o, b.trailing = p at htrailing ⊢
  match o, p, htrailing with
  | none, none, _ => exact agree_gathered h hij (hown.append .nil)
  | some run, some run', hrun =>
      apply (agree_comment (Option.some.inj hrun)).bind
      intro c d hcd
      exact agree_gathered h hij (hown.append (.cons hcd.withSpace .nil))

/-- The comments that are taken as items in front of tokens that meet, or at the end. -/
theorem agree_detach (h : x.Beside y) (hij : Option.Rel SideBySide.Meets i j) (all : Bool) :
    Agree Alikes (detach x i all) (detach y j all) := by
  apply (agree_triviaAt h hij).bind
  intro a b hab
  obtain ⟨hleading, -, -, -⟩ := BuildContext.look_eq_iff.mp hab
  have htaken := hleading.takeWhile all
  have hlength := htaken.length_eq
  dsimp only
  generalize a.leading.takeWhile (fun run => all || (run.ownLine && run.newline)) = taken,
    b.leading.takeWhile (fun run => all || (run.ownLine && run.newline)) = taken'
    at htaken hlength ⊢
  have hitem : ∀ run run', x.lookOfRun run = y.lookOfRun run' → Agree Chunk.Alike
      (do return (← comment x run).modify fun t =>
        { t with blank := min (run.blank : Int) x.style.blankLines })
      (do return (← comment y run').modify fun t =>
        { t with blank := min (run'.blank : Int) y.style.blankLines }) := by
    intro run run' hrun
    obtain ⟨-, -, hblank, -⟩ := CommentRun.Look.mk.inj hrun
    rw [hblank]
    apply (agree_comment hrun).bind
    intro c d hcd
    exact .pure (hcd.modify fun _ => rfl)
  have hdrop : ∀ a b : Trivia, x.look a = y.look b →
      x.look { a with leading := a.leading.drop taken.length } =
        y.look { b with leading := b.leading.drop taken'.length } := by
    intro a b hab
    obtain ⟨hleading, htrailing, hblank, hbroken⟩ := BuildContext.look_eq_iff.mp hab
    rw [← hlength]
    exact BuildContext.look_eq_iff.mpr
      ⟨List.forall₂_drop taken.length hleading, htrailing, hblank, hbroken⟩
  apply (agree_mapM htaken hitem).bind
  intro cs ds hcs
  apply (agree_modifyTrivia h hij hdrop).bind
  intro _ _ _
  exact .pure hcs

theorem agree_blankBefore (h : x.Beside y) {i j : Nat} (hij : SideBySide.Meets i j) :
    Agree Eq (blankBefore x i) (blankBefore y j) := by
  apply (agree_triviaAt h (.some hij)).bind
  intro a b hab
  obtain ⟨hleading, -, hblank, -⟩ := BuildContext.look_eq_iff.mp hab
  generalize a.leading = runs, b.leading = runs' at hleading ⊢
  cases hleading with
  | nil => exact .pure hblank
  | cons hrun _ => exact .pure (CommentRun.Look.mk.inj hrun).2.2.1

/-- Elements whose first tokens meet are marked in the same way. -/
theorem agree_element (h : x.Beside y) {n m : Node} (hnm : n.Kin m) {c d : Chunk}
    (hcd : c.Alike d) : Agree Chunk.Alike (element x n c) (element y m d) := by
  have hmark : ∀ broken broken' : Bool,
      (!x.style.joinWrapped && broken) = (!y.style.joinWrapped && broken') →
      Agree Chunk.Alike
        (pure (if !x.style.joinWrapped && broken then
          c.modify fun t => { t with breakBefore := true } else c))
        (pure (if !y.style.joinWrapped && broken' then
          d.modify fun t => { t with breakBefore := true } else d)) := by
    intro broken broken' hbroken
    rw [hbroken]
    apply CodeLayout.Agree.pure
    split
    · exact hcd.modify fun _ => rfl
    · exact hcd
  have hfirst := hnm.meet.firstId?
  rw [element, element]
  generalize n.firstId? = i, m.firstId? = j at hfirst ⊢
  cases hfirst with
  | none => exact hmark false false (by simp)
  | some hij =>
      apply (agree_triviaAt h (.some hij)).bind
      intro a b hab
      exact hmark a.broken b.broken (BuildContext.look_eq_iff.mp hab).2.2.2

end Primitives

end Build

end SideBySide

end CodeLayout
