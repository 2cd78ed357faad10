import CodeLayout.Proofs.Syntax.Lookahead
import CodeLayout.Proofs.Syntax.Loops

/-!
# What the rules of a grammar read

A grammar that is tied together a number of times answers for a rule as long as the tokens that are
left do not ask for more nesting than that. `Cursor.Fits` is this budget, and `Grammar.Sound` says
what each rule reads within it. From a sound grammar follows what types, annotations and modifiers
read.
-/

namespace CodeLayout

namespace Cursor

/-- The tokens that are left fit into a budget with some of it to spare, and their indices go up. A
token stands for three levels of nesting, as no more than three rules start at one token. -/
structure Fits (budget spare : Nat) (c : Cursor) : Prop where
  ordered : c.lexemes.toList.Pairwise fun a b => a.id < b.id
  room : 3 * c.left + spare ≤ budget

variable {c c' : Cursor} {budget spare less : Nat} {ns : List (Option Node)}

theorem Fits.mono (h : Fits budget spare c) (hle : less ≤ spare) : Fits budget less c :=
  ⟨h.ordered, by have := h.room; omega⟩

theorem Later.fits (h : Later c c') (hc : Fits budget spare c) : Fits budget spare c' := by
  refine ⟨h.lexemes ▸ hc.ordered, ?_⟩
  have hroom := hc.room
  have hle := h.left_le
  omega

/-- Behind a token there is room for any rule. -/
theorem Moves.fits (h : Moves c c' ns) (hc : Fits budget spare c) : Fits budget 3 c' := by
  refine ⟨h.lexemes ▸ hc.ordered, ?_⟩
  have hroom := hc.room
  have hlt := h.lt
  omega

end Cursor

namespace Rule

open Cursor

/-- How many rules may start at one token behind a rule. -/
def rank : Rule → Nat
  | .arrayInit _ | .block | .typeBody => 0
  | .expr | .ternary | .binary _ | .unary | .member => 1
  | .annotValue | .statement => 2

/-- What a rule reads from one cursor to another. -/
def Reading : Rule → Cursor → Option Node → Cursor → Prop
  | .arrayInit _, c, n, c' => Gives c c' n
  | .block, c, n, c' | .typeBody, c, n, c' => Moves c c' [n]
  | .annotValue, c, n, c' => Reads c c' [n]
  | .statement, c, n, c' => Reads c c' [n] ∧ (0 < c.left → c'.left < c.left)
  | .member, c, n, c' =>
    Reads c c' [n] ∧ (0 < c.left → c.isAt 0 "\x7d" = false → c'.left < c.left)
  | .expr, c, n, c' | .ternary, c, n, c' | .binary _, c, n, c' | .unary, c, n, c' => Offers c c' n

end Rule

namespace Grammar

open CodeLayout.Cursor CodeLayout.Parser

/-- Within a budget every rule meets no fault and reads what it should. The rules that start with a
brace are asked for only at a token. -/
def Sound (g : Grammar) (budget : Nat) : Prop :=
  ∀ r s, (r.rank = 0 → 0 < s.cursor.left) → Fits budget (r.rank + 1) s.cursor →
    Yields (g r) s fun n s' => r.Reading s.cursor n s'.cursor

variable {g : Grammar} {budget : Nat} {s : ParserState}

namespace Sound

theorem expr (hg : Sound g budget) (hs : Fits budget 2 s.cursor) :
    Yields (g .expr) s fun n s' => Offers s.cursor s'.cursor n :=
  hg .expr s nofun hs

theorem ternary (hg : Sound g budget) (hs : Fits budget 2 s.cursor) :
    Yields (g .ternary) s fun n s' => Offers s.cursor s'.cursor n :=
  hg .ternary s nofun hs

theorem binary (hg : Sound g budget) (hs : Fits budget 2 s.cursor) (least : Nat) :
    Yields (g (.binary least)) s fun n s' => Offers s.cursor s'.cursor n :=
  hg (.binary least) s nofun hs

theorem unary (hg : Sound g budget) (hs : Fits budget 2 s.cursor) :
    Yields (g .unary) s fun n s' => Offers s.cursor s'.cursor n :=
  hg .unary s nofun hs

theorem annotValue (hg : Sound g budget) (hs : Fits budget 3 s.cursor) :
    Yields (g .annotValue) s fun n s' => Reads s.cursor s'.cursor [n] :=
  hg .annotValue s nofun hs

theorem arrayInit (hg : Sound g budget) (hs : Fits budget 1 s.cursor) (hpos : 0 < s.cursor.left)
    (e : Element) : Yields (g (.arrayInit e)) s fun n s' => Gives s.cursor s'.cursor n :=
  hg (.arrayInit e) s (fun _ => hpos) hs

theorem block (hg : Sound g budget) (hs : Fits budget 1 s.cursor) (hpos : 0 < s.cursor.left) :
    Yields (g .block) s fun n s' => Moves s.cursor s'.cursor [n] :=
  hg .block s (fun _ => hpos) hs

theorem typeBody (hg : Sound g budget) (hs : Fits budget 1 s.cursor) (hpos : 0 < s.cursor.left) :
    Yields (g .typeBody) s fun n s' => Moves s.cursor s'.cursor [n] :=
  hg .typeBody s (fun _ => hpos) hs

theorem statement (hg : Sound g budget) (hs : Fits budget 3 s.cursor) :
    Yields (g .statement) s fun n s' => Reads s.cursor s'.cursor [n] ∧
      (0 < s.cursor.left → s'.cursor.left < s.cursor.left) :=
  hg .statement s nofun hs

theorem member (hg : Sound g budget) (hs : Fits budget 2 s.cursor) :
    Yields (g .member) s fun n s' => Reads s.cursor s'.cursor [n] ∧
      (0 < s.cursor.left → s.cursor.isAt 0 "\x7d" = false → s'.cursor.left < s.cursor.left) :=
  hg .member s nofun hs

end Sound

theorem yields_annotName : Yields annotName s fun ns s' => Reads s.cursor s'.cursor ns := by
  refine Yields.collect (fun c => c.isWord 0) (fun _ => rfl) ?_
  intro s₁ _ hm
  refine (Yields.next_moves (left_pos_of_isWord hm)).bind fun word s₂ h₂ => ?_
  refine (Yields.accept ".").bind fun dot s₃ h₃ => ?_
  have hmoves := h₂.append h₃.reads
  cases dot with
  | none => exact Yields.pure ⟨h₂.toReads.append h₃, nofun⟩
  | some d => exact Yields.pure ⟨hmoves.toReads, fun _ => hmoves.lt⟩

theorem yields_annotArg (hg : Sound g budget) (hs : Fits budget 3 s.cursor) :
    Yields (annotArg g) s fun n s' => Reads s.cursor s'.cursor [n] := by
  refine Yields.cursor (Yields.ite (fun _ => ?_) fun _ => hg.annotValue hs)
  refine Yields.next.bind fun name s₁ h₁ => ?_
  refine Yields.next.bind fun eq s₂ h₂ => ?_
  have hread := h₁.reads.append h₂.reads
  refine (hg.annotValue (hread.fits hs)).bind fun value s₃ h₃ => ?_
  exact Yields.node ((hread.append h₃).make (by decide))

theorem yields_annotArgs (hg : Sound g budget) (hs : Fits budget 0 s.cursor)
    (hpos : 0 < s.cursor.left) :
    Yields (annotArgs g) s fun n s' => Moves s.cursor s'.cursor [n] := by
  refine (Yields.next_moves hpos).bind fun opening s₁ h₁ => ?_
  have hs₁ := h₁.fits hs
  refine (Yields.separated (fun c => !c.isAt 0 ")" && !c.isDone) (fun _ => rfl)
    fun s₂ hlater _ => yields_annotArg hg (hlater.fits hs₁)).bind fun args s₂ h₂ => ?_
  refine (Yields.expect ")" "annotation").bind fun closing s₃ h₃ => ?_
  exact Yields.node (((h₁.append h₂).append h₃.reads).make (by decide))

theorem yields_annot (hg : Sound g budget) (hs : Fits budget 0 s.cursor)
    (hpos : 0 < s.cursor.left) :
    Yields (annot g) s fun n s' => Moves s.cursor s'.cursor [n] := by
  refine (Yields.next_moves hpos).bind fun sign s₁ h₁ => ?_
  refine yields_annotName.bind fun name s₂ h₂ => ?_
  have hmoves := h₁.append h₂
  refine Yields.isAt (Yields.ite (fun hat => ?_) fun _ => ?_)
  · have hs₂ := (hmoves.fits hs).mono (Nat.zero_le 3)
    refine (yields_annotArgs hg hs₂ (left_pos_of_isAt hat (by decide))).bind fun args s₃ h₃ => ?_
    exact Yields.node ((hmoves.append h₃.toReads).make (by decide))
  · exact Yields.node (hmoves.make (by decide))

theorem yields_annotValue (hg : Sound g budget) (hs : Fits budget 2 s.cursor) :
    Yields (annotValue g) s fun n s' => Reads s.cursor s'.cursor [n] := by
  refine Yields.isAt (Yields.ite (fun hat => ?_) fun _ => ?_)
  · exact (hg.arrayInit (hs.mono (by decide)) (left_pos_of_isAt hat (by decide)) _).mono
      fun _ _ h => h.offers.reads
  · refine Yields.isAt (Yields.ite (fun hat => ?_) fun _ => ?_)
    · exact (yields_annot hg (hs.mono (by decide)) (left_pos_of_isAt hat (by decide))).mono
        fun _ _ h => h.toReads
    · exact (hg.ternary hs).mono fun _ _ h => h.reads

/-- A type is read, and if it does not start with an annotation, some token is. -/
theorem yields_type (hg : Sound g budget) (hs : Fits budget 0 s.cursor) :
    Yields (type g) s fun n s' => Reads s.cursor s'.cursor [n] ∧
      (s.cursor.isAnnot 0 = false → (s.cursor.skipType 0).isSome = true →
        s'.cursor.left < s.cursor.left) := by
  refine Yields.cursor ?_
  cases hskip : s.cursor.skipType 0 with
  | none => exact Yields.unexpected fun _ => Yields.pure ⟨Reads.none _, fun _ => nofun⟩
  | some k =>
      obtain ⟨hk, hreach⟩ := skipType_bounds hskip
      simp only [Reaches] at hreach
      refine (Yields.many (fun c => (c.pos : Int) < s.cursor.pos + k) (fun _ => rfl) ?_).bind ?_
      · intro s₁ hlater hm
        have hpos : 0 < s₁.cursor.left := by
          simp only [decide_eq_true_eq] at hm
          simp only [left, hlater.lexemes]
          omega
        refine Yields.isAt (Yields.ite (fun _ => ?_) fun _ => Yields.next_moves hpos)
        exact yields_annot hg (hlater.fits hs) hpos
      · rintro parts s₁ ⟨h₁, hlt, -⟩
        refine Yields.node ⟨h₁.make (by decide), fun hannot _ => hlt ?_⟩
        rw [skipAnnots_eq_self hannot] at hk
        simp only [decide_eq_true_eq]
        omega

theorem yields_typeParams :
    Yields typeParams s fun n s' => Offers s.cursor s'.cursor n := by
  refine Yields.cursor ?_
  cases hskip : s.cursor.skipTypeArgs 0 with
  | none => exact Yields.pure (Reads.refl _)
  | some k =>
      obtain ⟨hk, hreach⟩ := skipTypeArgs_bounds hskip
      have hpos : 0 < s.cursor.left := by
        simp only [Reaches] at hreach
        simp only [left]
        omega
      refine (Yields.tokens_moves (by omega) hpos).bind fun ns s₁ h₁ => ?_
      exact Yields.node (h₁.gives_make (by decide) (by decide)).offers

theorem yields_typeList (hg : Sound g budget) (hs : Fits budget 0 s.cursor) (place : Bytes) :
    Yields (typeList g place) s fun n s' => Reads s.cursor s'.cursor [n] := by
  refine (Yields.separated (fun _ => true) (fun _ => rfl) fun s₁ hlater _ => ?_).bind
    fun types s₂ h₂ => Yields.node (h₂.make (by decide))
  refine Yields.cursor (Yields.ite (fun _ => ?_) fun _ => ?_)
  · exact Yields.unexpected fun _ => Yields.pure (Reads.none _)
  · exact (yields_type hg (hlater.fits hs)).mono fun _ _ h => h.1

/-- One modifier is read if there is one. Apart from members, annotations and `final` are all there
are. -/
theorem yields_modifier (hg : Sound g budget) (hs : Fits budget 0 s.cursor) (member : Bool) :
    Yields (modifier g member) s fun n s' =>
      (n = none → s.cursor.startsModifiers = false ∧ s'.cursor = s.cursor) ∧
      (n ≠ none → Moves s.cursor s'.cursor [n] ∧
        (member = false → s.cursor.startsModifiers = true)) := by
  refine Yields.cursor (Yields.ite (fun hannot => ?_) fun hannot => ?_)
  · have hat : s.cursor.isAt 0 "@" = true := by
      simp only [isAnnot, Bool.and_eq_true] at hannot
      exact hannot.1
    refine (yields_annot hg hs (left_pos_of_isAt hat (by decide))).mono fun n s' h => ?_
    exact ⟨fun hn => absurd hn h.ne_none, fun _ => ⟨h, fun _ => by simp [startsModifiers, hannot]⟩⟩
  refine Yields.ite (fun hfinal => ?_) fun hfinal => ?_
  · refine (Yields.next_moves (left_pos_of_isAt hfinal (by decide))).mono fun n s' h => ?_
    exact ⟨fun hn => absurd hn h.ne_none, fun _ => ⟨h, fun _ => by simp [startsModifiers, hfinal]⟩⟩
  have hstarts : s.cursor.startsModifiers = false := by
    simp [startsModifiers, hannot, hfinal]
  have hnone : Yields (pure none) s fun n s' =>
      (n = none → s.cursor.startsModifiers = false ∧ s'.cursor = s.cursor) ∧
      (n ≠ none → Moves s.cursor s'.cursor [n] ∧
        (member = false → s.cursor.startsModifiers = true)) :=
    Yields.pure ⟨fun _ => ⟨hstarts, rfl⟩, fun h => absurd rfl h⟩
  refine Yields.ite (fun _ => hnone) fun hmember => ?_
  have hfalse : member = false → s.cursor.startsModifiers = true := by
    intro h
    simp [h] at hmember
  refine Yields.ite (fun hsealed => ?_) fun _ => ?_
  · simp only [Bool.and_eq_true] at hsealed
    have hpos := left_pos_of_isAt hsealed.1.1 (by decide)
    refine (Yields.tokens_moves (by decide) hpos).bind fun ns s₁ h₁ => ?_
    exact Yields.node ⟨nofun, fun _ => ⟨h₁.make (by decide), hfalse⟩⟩
  refine Yields.ite (fun hword => ?_) fun _ => hnone
  simp only [isMemberModifier, Bool.and_eq_true] at hword
  refine (Yields.next_moves (left_pos_of_isWord hword.1.1.1.1)).mono fun n s' h => ?_
  exact ⟨fun hn => absurd hn h.ne_none, fun _ => ⟨h, hfalse⟩⟩

/-- Modifiers are read until none is left. Apart from members, there are some exactly if an
annotation or `final` comes first. -/
theorem yields_modifiers (hg : Sound g budget) (hs : Fits budget 0 s.cursor) (member : Bool) :
    Yields (modifiers g member) s fun n s' =>
      Offers s.cursor s'.cursor n ∧ s'.cursor.startsModifiers = false ∧
        (member = false → n.isSome = s.cursor.startsModifiers) := by
  refine (Yields.collect_inv (fun _ => rfl) (fun c ns c' => Reads c c' ns ∧
    (ns.isEmpty = false → c'.left < c.left) ∧ c'.startsModifiers = false ∧
    (member = false → (!ns.isEmpty) = c.startsModifiers)) (m := fun _ => true) nofun ?_).bind ?_
  · intro s₁ hlater _
    refine (yields_modifier hg (hlater.fits hs) member).bind ?_
    rintro n s₂ ⟨hnone, hsome⟩
    cases n with
    | none =>
        obtain ⟨hstarts, hcursor⟩ := hnone rfl
        refine Yields.pure ⟨hcursor ▸ Later.refl _, ?_⟩
        rw [if_neg nofun, hcursor]
        exact ⟨Reads.refl _, nofun, hstarts, fun _ => hstarts.symm⟩
    | some e =>
        obtain ⟨hmoves, hstarts⟩ := hsome nofun
        refine Yields.pure ⟨hmoves.toLater, ?_⟩
        rw [if_pos rfl]
        refine ⟨hmoves.lt, ?_⟩
        rintro ns c ⟨hrest, -, hend, -⟩
        have hall := hmoves.append hrest
        exact ⟨hall.toReads, fun _ => hall.lt, hend, fun h => (hstarts h).symm⟩
  · rintro parts s₁ ⟨h₁, hlt, hend, hstarts⟩
    refine Yields.ite (fun hempty => ?_) fun hempty => ?_
    · refine Yields.pure ⟨?_, hend, fun h => ?_⟩
      · rw [List.isEmpty_iff.mp hempty] at h₁
        exact h₁
      · simpa [hempty] using hstarts h
    · simp only [Bool.not_eq_true] at hempty
      have hmoves := h₁.moves (hlt hempty)
      refine Yields.node ⟨(hmoves.gives_make (by decide) (by decide)).offers, hend, fun h => ?_⟩
      simpa [hempty] using hstarts h

end Grammar

end CodeLayout
