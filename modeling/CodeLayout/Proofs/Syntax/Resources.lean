import CodeLayout.Proofs.Syntax.Expression
import CodeLayout.Syntax.Statement

/-!
# Declarations of variables, and resources

A resource loses its modifiers if it is no declaration. This is the one place where a token is
consumed and belongs to no node, and it is seen from the tree: an annotation or `final` stands
behind a mark of the list, and no declaration does.
-/

namespace CodeLayout

namespace Cursor

/-- The cursor behind the token at a position is found by the index of the token. -/
theorem behind_eq {ls : Array Lexeme} (hls : ls.toList.Pairwise fun a b => a.id < b.id) {i : Nat}
    {l : Lexeme} (h : ls[i]? = some l) : behind ⟨ls, 0⟩ l.id = ⟨ls, i + 1⟩ := by
  have hl : ls.toList[i]? = some l := by simpa using h
  obtain ⟨hi, hget⟩ := List.getElem?_eq_some_iff.mp hl
  have hsplit := List.take_append_drop (i + 1) ls.toList
  have hcount : ls.toList.countP (fun a => a.id ≤ l.id) = i + 1 := by
    rw [← hsplit, List.countP_append, List.countP_eq_length.mpr, List.countP_eq_zero.mpr,
      List.length_take]
    · omega
    · intro a ha
      obtain ⟨j, hj, rfl⟩ := List.mem_iff_getElem.mp ha
      rw [List.length_drop] at hj
      have hlt := List.pairwise_iff_getElem.mp hls i (i + 1 + j) hi (by omega) (by omega)
      rw [hget] at hlt
      simp only [List.getElem_drop, decide_eq_true_eq]
      omega
    · intro a ha
      obtain ⟨j, hj, rfl⟩ := List.mem_iff_getElem.mp ha
      rw [List.length_take] at hj
      simp only [List.getElem_take, decide_eq_true_eq]
      by_cases hji : j = i
      · subst hji
        exact Nat.le_of_eq (congrArg Lexeme.id hget)
      · have hlt := List.pairwise_iff_getElem.mp hls j i (by omega) hi (by omega)
        rw [hget] at hlt
        omega
  simp only [behind, hcount]

theorem startsModifiers_eq_false_of_isDone {c : Cursor} (h : c.isDone = true) :
    c.startsModifiers = false := by
  have hnone : c.get? 0 = none := by
    rw [get?_zero, Array.getElem?_eq_none]
    simpa [isDone] using h
  have hannot : c.isAt 0 "@" = false := by
    simp only [isAt, text, hnone]
    decide
  have hfinal : c.isAt 0 "final" = false := by
    simp only [isAt, text, hnone]
    decide
  simp [startsModifiers, isAnnot, hannot, hfinal]

theorem startsModifiers_eq_false_of_isAt {c : Cursor} (h : c.isAt 0 ")" = true) :
    c.startsModifiers = false := by
  have htext := beq_iff_eq.mp h
  have hannot : c.isAt 0 "@" = false := by
    simp only [isAt, htext]
    decide
  have hfinal : c.isAt 0 "final" = false := by
    simp only [isAt, htext]
    decide
  simp [startsModifiers, isAnnot, hannot, hfinal]

end Cursor

namespace Node

open CodeLayout.Cursor CodeLayout.Parser

/-- Whether modifiers are missing from some children of a list of resources on, with a mark in front
of them. -/
def dropsBehind (c : Cursor) (rest : List Node) : Bool :=
  missesModifiers c rest.head? || dropsModifiers c.lexemes rest.tail

theorem dropsModifiers_mark {c : Cursor} {l : Lexeme} {t : String}
    (hls : c.lexemes.toList.Pairwise fun a b => a.id < b.id) (hl : c.get? 0 = some l)
    (htext : l.token.text = ascii t) (ht : ascii t ≠ ascii ")") (rest : List Node) :
    dropsModifiers c.lexemes (.leaf l.id l.token :: rest) =
      dropsBehind { c with pos := c.pos + 1 } rest := by
  rw [get?_zero] at hl
  have hne : (l.token.text != ascii ")") = true := by simpa [htext] using ht
  have hbehind := behind_eq hls hl
  cases rest with
  | nil => simp [dropsModifiers, dropsBehind, hne, hbehind]
  | cons n rest => simp [dropsModifiers, dropsBehind, hne, hbehind]

/-- The end of a list of resources: a closing parenthesis, or nothing where it is missing. -/
def IsClosing (tail : List Node) : Prop :=
  tail = [] ∨ ∃ id t, tail = [.leaf id t] ∧ t.text = ascii ")"

theorem IsClosing.dropsModifiers_eq {ls : Array Lexeme} {tail : List Node} (h : IsClosing tail) :
    dropsModifiers ls tail = false := by
  rcases h with rfl | ⟨id, t, rfl, ht⟩
  · rfl
  · simp [dropsModifiers, ht]

theorem IsClosing.dropsBehind_eq {c : Cursor} {tail : List Node} (h : IsClosing tail) :
    dropsBehind c tail = c.startsModifiers := by
  rcases h with rfl | ⟨id, t, rfl, ht⟩
  · simp [dropsBehind, dropsModifiers, missesModifiers]
  · simp [dropsBehind, dropsModifiers, missesModifiers, isKind, kind?]

/-- What one resource between two cursors leaves in the tree: all tokens but modifiers that belong
to no declaration. -/
structure IsResource (c c' : Cursor) (n : Option Node) : Prop extends Later c c' where
  solid : ∀ e, n = some e → e.isEmpty = false
  sublist : (leavesList n.toList).Sublist (stretch c.lexemes c.pos c'.pos)
  eq_iff : leavesList n.toList = stretch c.lexemes c.pos c'.pos ↔
    missesModifiers c n = false ∧ anyLossy c.lexemes n.toList = false

/-- What a list of resources leaves in the tree from behind a mark on, whichever way it ends. -/
structure AreResources (c : Cursor) (ns : List (Option Node)) (c' : Cursor) : Prop
    extends Later c c' where
  solid : ∀ e ∈ ns.reduceOption, e.isEmpty = false
  sublist : (leavesList ns.reduceOption).Sublist (stretch c.lexemes c.pos c'.pos)
  eq_iff : ∀ tail, IsClosing tail →
    (leavesList ns.reduceOption = stretch c.lexemes c.pos c'.pos ↔
      dropsBehind c (ns.reduceOption ++ tail) = false ∧
        anyLossy c.lexemes ns.reduceOption = false)

theorem eq_append_iff_of_sublist {α : Type} {l a b : List α} (h : l.Sublist b) :
    l = a ++ b ↔ a = [] ∧ l = b := by
  constructor
  · intro heq
    have hlen := h.length_le
    have ha : a = [] := by
      rw [heq, List.length_append] at hlen
      exact List.eq_nil_of_length_eq_zero (by omega)
    exact ⟨ha, by simpa [ha] using heq⟩
  · rintro ⟨rfl, rfl⟩
    rfl

section

variable {c c₁ c' : Cursor} {n mods : Option Node} {e : Node}

/-- A declaration has all of its tokens. -/
theorem IsResource.of_decl (h : Moves c c' [some e]) (he : e.isKind .varDecl = true) :
    IsResource c c' (some e) where
  toLater := h.toLater
  solid := by
    rintro _ ⟨⟩
    exact h.isEmpty_eq_false
  sublist := h.covers.sublist
  eq_iff := by
    have hmiss : missesModifiers c (some e) = false := by simp [missesModifiers, he]
    rw [hmiss]
    simpa using h.covers.eq_iff

/-- An expression lacks the modifiers in front of it. -/
theorem IsResource.of_expr (hmods : Offers c c₁ mods) (hstarts : mods.isSome = c.startsModifiers)
    (h : Offers c₁ c' n) : IsResource c c' n := by
  have hreads := h.reads
  have hcov := hreads.covers
  have hle := hmods.reads.le
  have hseg := stretch_append c.lexemes hle hreads.le
  have hlist : [n].reduceOption = n.toList := by cases n <;> rfl
  rw [hmods.reads.lexemes, hlist] at hcov
  have hlost : stretch c.lexemes c.pos c₁.pos = [] ↔ missesModifiers c n = false := by
    have hplain : n.any (isKind .varDecl) = false := by
      cases n with
      | none => rfl
      | some e => exact h.2
    rw [missesModifiers, hplain, ← hstarts]
    cases mods with
    | none => simpa using Node.Covers.eq_nil hmods.covers
    | some m => simpa using hmods.moves.stretch_ne_nil
  refine ⟨hmods.reads.toLater.trans hreads.toLater, ?_, ?_, ?_⟩
  · rintro e rfl
    exact h.moves.isEmpty_eq_false
  · rw [hseg]
    exact hcov.sublist.trans (List.sublist_append_right _ _)
  · rw [hseg, eq_append_iff_of_sublist hcov.sublist, hlost, hcov.eq_iff]

theorem AreResources.nil (h : c.startsModifiers = false) : AreResources c [] c where
  toLater := Later.refl c
  solid := by simp
  sublist := by simp [leavesList]
  eq_iff := by
    intro tail htail
    simp [stretch_self, leavesList, anyLossy, htail.dropsBehind_eq, h]

/-- A list ends where a resource or the separator behind it is missing. -/
theorem IsResource.last (h : IsResource c c' n) : AreResources c [n] c' := by
  have hlist : [n].reduceOption = n.toList := by cases n <;> rfl
  refine ⟨h.toLater, ?_, ?_, ?_⟩
  · intro e he
    rw [hlist, Option.mem_toList] at he
    exact h.solid e he
  · rw [hlist]
    exact h.sublist
  · intro tail htail
    rw [hlist, h.eq_iff]
    cases n with
    | none => simp [htail.dropsBehind_eq, missesModifiers]
    | some e => simp [dropsBehind, htail.dropsModifiers_eq]

/-- A resource and the separator behind it come in front of the rest of the list. -/
theorem IsResource.cons {c₂ : Cursor} {ns : List (Option Node)} {mark : Node}
    (hls : c.lexemes.toList.Pairwise fun a b => a.id < b.id) (h : IsResource c c₁ (some e))
    (hmark : Marks c₁ c₂ ";" (some mark)) (hrest : AreResources c₂ ns c') :
    AreResources c ([some e, some mark] ++ ns) c' := by
  obtain ⟨l, hl, htext, rfl, rfl⟩ := hmark
  have hlex := h.lexemes
  have hls₁ : c₁.lexemes.toList.Pairwise fun a b => a.id < b.id := hlex ▸ hls
  have hget : c.lexemes[c₁.pos]? = some l := by rw [← hlex, ← get?_zero, hl]
  have hseg : stretch c.lexemes c.pos c'.pos = stretch c.lexemes c.pos c₁.pos ++
      ((l.id, l.token) :: stretch c.lexemes (c₁.pos + 1) c'.pos) := by
    have hle := hrest.le
    rw [stretch_append c.lexemes h.le (Nat.le_trans (Nat.le_succ _) hle),
      stretch_append c.lexemes (Nat.le_succ c₁.pos) hle, stretch_succ hget]
    rfl
  have hsub := hrest.sublist
  simp only [hlex] at hsub
  have hleaves : leavesList ([some e, some (.leaf l.id l.token)] ++ ns).reduceOption =
      leavesList (some e).toList ++ ((l.id, l.token) :: leavesList ns.reduceOption) := by
    simp [List.reduceOption_cons_of_some, leavesList, leaves]
  have hmark : Later c₁ { c₁ with pos := c₁.pos + 1 } := (moves_leaf hl).toLater
  refine ⟨h.toLater.trans (hmark.trans hrest.toLater), ?_, ?_, ?_⟩
  · intro x hx
    simp only [List.cons_append, List.nil_append, List.reduceOption_cons_of_some,
      List.mem_cons] at hx
    rcases hx with rfl | rfl | hx
    · exact h.solid _ rfl
    · rfl
    · exact hrest.solid x hx
  · rw [hseg, hleaves]
    exact h.sublist.append (hsub.cons_cons _)
  · intro tail htail
    have hrest_iff := hrest.eq_iff tail htail
    simp only [hlex] at hrest_iff
    have hdrops := dropsModifiers_mark hls₁ hl htext (by decide) (ns.reduceOption ++ tail)
    rw [hlex] at hdrops
    have hbehind : dropsBehind c
        (([some e, some (.leaf l.id l.token)] ++ ns).reduceOption ++ tail) =
        (missesModifiers c (some e) ||
          dropsBehind ⟨c.lexemes, c₁.pos + 1⟩ (ns.reduceOption ++ tail)) := by
      rw [← hdrops]
      simp [dropsBehind, List.reduceOption_cons_of_some]
    have hlossy : anyLossy c.lexemes ([some e, some (.leaf l.id l.token)] ++ ns).reduceOption =
        (anyLossy c.lexemes (some e).toList || anyLossy c.lexemes ns.reduceOption) := by
      simp [List.reduceOption_cons_of_some, anyLossy, isLossy]
    rw [hseg, hleaves, append_eq_append_iff_of_sublist h.sublist (hsub.cons_cons _),
      List.cons.injEq, h.eq_iff, hrest_iff, hbehind, hlossy, Bool.or_eq_false_iff,
      Bool.or_eq_false_iff]
    tauto

/-- The closing parenthesis of a list has all tokens that are read for it. -/
theorem isClosing_of_marks {closing : Option Node} (h : Marks c c' ")" closing) :
    IsClosing closing.toList ∧ leavesList closing.toList = stretch c.lexemes c.pos c'.pos := by
  cases closing with
  | none =>
      cases h
      exact ⟨Or.inl rfl, (stretch_self _ _).symm⟩
  | some n =>
      obtain ⟨l, hl, htext, rfl, rfl⟩ := h
      rw [get?_zero] at hl
      exact ⟨Or.inr ⟨l.id, l.token, rfl, htext⟩, (stretch_succ hl).symm⟩

theorem anyLossy_of_isClosing {ls : Array Lexeme} {tail : List Node} (h : IsClosing tail) :
    anyLossy ls tail = false := by
  rcases h with rfl | ⟨id, t, rfl, -⟩ <;> rfl

theorem isEmpty_of_isClosing {tail : List Node} (h : IsClosing tail) :
    ∀ n ∈ tail, n.isEmpty = false := by
  rcases h with rfl | ⟨id, t, rfl, -⟩
  · simp
  · simp [isEmpty]

theorem isLossy_make_resources {ls : Array Lexeme} (ns : List (Option Node)) :
    (Node.make .resources ns).isLossy ls =
      (dropsModifiers ls (Node.make .resources ns).children ||
        anyLossy ls (Node.make .resources ns).children) := by
  simp [Node.make, isLossy, children]

/-- The whole list, from its opening parenthesis on. -/
theorem AreResources.moves {c₂ : Cursor} {ns : List (Option Node)} {opening : Node}
    {closing : Option Node} (hls : c.lexemes.toList.Pairwise fun a b => a.id < b.id)
    (hopening : Marks c c₁ "(" (some opening)) (h : AreResources c₁ ns c₂)
    (hclosing : Marks c₂ c' ")" closing) :
    Moves c c' [some (Node.make .resources ([some opening] ++ ns ++ [closing]))] := by
  have hreads := hclosing.offers.reads
  obtain ⟨hend, hleaves⟩ := isClosing_of_marks hclosing
  obtain ⟨l, hl, htext, rfl, rfl⟩ := hopening
  have hget : c.lexemes[c.pos]? = some l := by rw [← get?_zero, hl]
  have hlex : c₂.lexemes = c.lexemes := h.lexemes
  have hlater : Later c c₂ := (moves_leaf hl).toLater.trans h.toLater
  have hseg : stretch c.lexemes c.pos c'.pos = (l.id, l.token) ::
      (stretch c.lexemes (c.pos + 1) c₂.pos ++ stretch c.lexemes c₂.pos c'.pos) := by
    have hle := h.le
    rw [stretch_append c.lexemes (Nat.le_succ c.pos) (Nat.le_trans hle hreads.le),
      stretch_append c.lexemes hle hreads.le, stretch_succ hget]
    rfl
  have hlist : ([some (Node.leaf l.id l.token)] ++ ns ++ [closing]).reduceOption =
      .leaf l.id l.token :: (ns.reduceOption ++ closing.toList) := by
    cases closing <;> simp [List.reduceOption_append, List.reduceOption_cons_of_some]
  have hchildren : (Node.make .resources ([some (.leaf l.id l.token)] ++ ns ++ [closing])).children
      = .leaf l.id l.token :: (ns.reduceOption ++ closing.toList) := by
    rw [children_make, hlist, List.filter_eq_self.mpr]
    intro e he
    simp only [List.mem_cons, List.mem_append] at he
    rcases he with rfl | he | he
    · rfl
    · simp [h.solid e he]
    · simp [isEmpty_of_isClosing hend e he]
  have hall : (Node.make .resources ([some (.leaf l.id l.token)] ++ ns ++ [closing])).leaves =
      (l.id, l.token) :: (leavesList ns.reduceOption ++ stretch c.lexemes c₂.pos c'.pos) := by
    rw [leaves_make, hlist, leavesList, leavesList_append, hleaves, hlex]
    rfl
  have hlossy : (Node.make .resources ([some (.leaf l.id l.token)] ++ ns ++ [closing])).isLossy
      c.lexemes = (dropsBehind { c with pos := c.pos + 1 } (ns.reduceOption ++ closing.toList) ||
        anyLossy c.lexemes ns.reduceOption) := by
    rw [isLossy_make_resources, hchildren, dropsModifiers_mark hls hl htext (by decide), anyLossy,
      anyLossy_append, anyLossy_of_isClosing hend, isLossy, Bool.false_or, Bool.or_false]
  refine ⟨⟨hlater.trans hreads.toLater, ⟨?_, ?_, ?_⟩⟩, ?_⟩
  · rw [List.reduceOption_singleton, Option.toList_some, leavesList_singleton, hall, hseg]
    exact (h.sublist.append (List.Sublist.refl _)).cons_cons _
  · rw [List.reduceOption_singleton, Option.toList_some, leavesList_singleton, hall, hseg]
    rfl
  · rw [List.reduceOption_singleton, Option.toList_some, leavesList_singleton, anyLossy_singleton,
      hall, hlossy, hseg, Bool.or_eq_false_iff, ← h.eq_iff _ hend]
    simp
  · exact Nat.lt_of_le_of_lt (h.toLater.trans hreads.toLater).left_le (moves_leaf hl).lt

end

end Node

namespace Grammar

open CodeLayout.Cursor CodeLayout.Parser CodeLayout.Node

variable {g : Grammar} {budget : Nat} {s : ParserState} {c : Cursor} {mods t : Option Node}

theorem yields_initialValue (hg : Sound g budget) (hs : Fits budget 0 s.cursor) :
    Yields (initialValue g) s fun ns s' => Reads s.cursor s'.cursor ns := by
  refine (Yields.accept "=").bind fun eq s₁ h₁ => ?_
  cases eq with
  | none => exact Yields.pure h₁
  | some eq =>
      have hs₁ := h₁.moves.fits hs
      refine Yields.isAt (Yields.ite (fun hat => ?_) fun _ => ?_)
      · refine (hg.arrayInit (hs₁.mono (by decide)) (left_pos_of_isAt hat (by decide)) _).bind
          fun value s₂ h₂ => ?_
        exact Yields.pure (h₁.reads.append h₂.offers.reads)
      · refine (hg.expr (hs₁.mono (by decide))).bind fun value s₂ h₂ => ?_
        exact Yields.pure (h₁.reads.append h₂.reads)

theorem yields_declarator (hg : Sound g budget) (hs : Fits budget 0 s.cursor) :
    Yields (declarator g) s fun n s' => Reads s.cursor s'.cursor [n] := by
  refine Yields.next.bind fun name s₁ h₁ => ?_
  refine Yields.dims.bind fun ds s₂ h₂ => ?_
  have hread := h₁.reads.append h₂
  refine (yields_initialValue hg (hread.fits hs)).bind fun value s₃ h₃ => ?_
  exact Yields.node ((hread.append h₃).make (by decide))

theorem yields_varDecl (hg : Sound g budget) (hs : Fits budget 0 s.cursor)
    (h : Moves c s.cursor [mods, t]) (withEnd : Bool) :
    Yields (varDecl g mods t withEnd) s fun n s' => Moves c s'.cursor [n] ∧
      s'.cursor.left ≤ s.cursor.left ∧ n.any (isKind .varDecl) = true := by
  refine (Yields.separated (fun c => c.isName 0) (fun _ => rfl)
    fun s₁ hlater _ => yields_declarator hg (hlater.fits hs)).bind fun ds s₁ h₁ => ?_
  refine Yields.either (fun _ => (Yields.expect ";" "variable declaration").mono
    fun _ _ h => h.reads) (fun _ => yields_none) fun ending s₂ h₂ => ?_
  have hds : Reads s.cursor s₁.cursor [some (Node.make .declarators ds)] :=
    h₁.make (by decide)
  refine Yields.node ⟨((h.append hds).append h₂).make (by decide), (h₁.append h₂).left_le, ?_⟩
  simp [Node.make, isKind, kind?]

theorem left_pos_of_isTyped (h : c.isTyped = true) : 0 < c.left := by
  by_cases hannot : c.isAnnot 0 = true
  · simp only [isAnnot, Bool.and_eq_true] at hannot
    exact left_pos_of_isAt hannot.1 (by decide)
  · obtain ⟨k, hk⟩ := Option.isSome_iff_exists.mp (skipType_isSome_of_isTyped h)
    obtain ⟨hlt, hreach⟩ := skipType_bounds hk
    rw [skipAnnots_eq_self (by simpa using hannot)] at hlt
    simp only [Reaches] at hreach
    simp only [left]
    omega

/-- Behind all modifiers, the type in front of a name is not empty. -/
theorem yields_type_moves (hg : Sound g budget) (hs : Fits budget 0 s.cursor)
    (hmods : Reads c s.cursor [mods]) (hend : s.cursor.startsModifiers = false)
    (htyped : s.cursor.isTyped = true) :
    Yields (type g) s fun t s' => Moves c s'.cursor [mods, t] := by
  have hannot : s.cursor.isAnnot 0 = false := by
    simp only [startsModifiers, Bool.or_eq_false_iff] at hend
    exact hend.1
  have hskip := skipType_isSome_of_isTyped htyped
  refine (yields_type hg hs).mono fun t s' h => ?_
  exact hmods.append_moves (h.1.moves (h.2 hannot hskip))

theorem yields_resource (hg : Sound g budget) (hs : Fits budget 2 s.cursor) :
    Yields (resource g) s fun n s' => IsResource s.cursor s'.cursor n := by
  have hs₀ := hs.mono (Nat.zero_le 2)
  refine (yields_modifiers hg hs₀ false).bind ?_
  rintro mods s₁ ⟨h₁, hend, hstarts⟩
  refine Yields.cursor (Yields.ite (fun htyped => ?_) fun _ => ?_)
  · refine (yields_type_moves hg (h₁.reads.fits hs₀) h₁.reads hend htyped).bind fun t s₂ h₂ => ?_
    refine (yields_varDecl hg (h₂.toReads.fits hs₀) h₂ false).mono ?_
    rintro n s' ⟨hmoves, -, hdecl⟩
    obtain ⟨e, rfl, he⟩ := (Option.any_eq_true _ _).mp hdecl
    exact IsResource.of_decl hmoves he
  · refine (hg.expr (h₁.reads.fits hs)).mono fun n s' h => ?_
    exact IsResource.of_expr h₁ (hstarts rfl) h

theorem yields_resources (hg : Sound g budget) (hs : Fits budget 0 s.cursor)
    (hat : s.cursor.isAt 0 "(" = true) :
    Yields (resources g) s fun n s' => Moves s.cursor s'.cursor [n] := by
  obtain ⟨l, hl⟩ := get?_zero_of_left_pos (left_pos_of_isAt hat (by decide))
  have hopening : Yields next s fun n s' =>
      ∃ o, n = some o ∧ Marks s.cursor s'.cursor "(" (some o) := by
    refine ⟨_, _, next_run hl, _, rfl, l, hl, ?_, rfl, rfl⟩
    simpa [Cursor.isAt, text, hl] using hat
  refine hopening.bind ?_
  rintro _ s₁ ⟨opening, rfl, hmark⟩
  have hs₁ := hmark.offers.moves.fits hs
  refine (Yields.collect_inv (m := fun c => !c.isAt 0 ")" && !c.isDone) (fun _ => rfl)
    AreResources ?_ ?_).bind fun rs s₂ h₂ => ?_
  · intro c _ hm
    refine AreResources.nil ?_
    simp only [Bool.and_eq_false_iff, Bool.not_eq_false'] at hm
    rcases hm with hat | hdone
    · exact startsModifiers_eq_false_of_isAt hat
    · exact startsModifiers_eq_false_of_isDone hdone
  · intro s₂ hlater _
    have hs₂ := hlater.fits hs₁
    refine (yields_resource hg (hs₂.mono (by decide))).bind fun n s₃ h₃ => ?_
    cases n with
    | none =>
        have hlast := h₃.last
        exact Yields.pure ⟨h₃.toLater, hlast.toLater, hlast.solid, hlast.sublist, hlast.eq_iff⟩
    | some e =>
        refine (Yields.accept_marks ";").bind fun sep s₄ h₄ => ?_
        cases sep with
        | none =>
            have hlast := h₃.last
            rw [← h₄] at hlast
            exact Yields.pure ⟨hlast.toLater, hlast.toLater, hlast.solid, hlast.sublist,
              hlast.eq_iff⟩
        | some mark =>
            have hmoves := h₄.offers.moves
            refine Yields.pure ⟨h₃.toLater.trans hmoves.toLater, ?_, fun ns c hrest => ?_⟩
            · exact Nat.lt_of_lt_of_le hmoves.lt h₃.left_le
            · exact h₃.cons hs₂.ordered h₄ hrest
  · refine (Yields.expect_marks ")" "try resources").bind fun closing s₃ h₃ => ?_
    exact Yields.node (AreResources.moves hs.ordered hmark h₂ h₃)

end Grammar

end CodeLayout
