import CodeLayout.Proofs.Alike.Syntax.Tree
import CodeLayout.Proofs.Syntax.Tree
import CodeLayout.Proofs.Token.Lexer

/-!
# Streams that show the same

What a text looks like to the grammar: its tokens with structure, and where a closing angle bracket
touches the next of them. Of two streams that look the same, the trees are alike.
-/

namespace CodeLayout

namespace TokenStream

/-- The tokens of a stream that carry structure. -/
def visible (s : TokenStream) : List Token :=
  s.tokens.toList.filter fun t => !t.kind.isSkippable

theorem structural_map_snd (s : TokenStream) : s.structural.map Prod.snd = s.visible := by
  have hfst : s.tokens.toList.zipIdx.map Prod.fst = s.tokens.toList := List.zipIdx_map_fst ..
  rw [structural, visible, List.map_map]
  nth_rewrite 2 [← hfst]
  rw [List.filter_map]
  rfl

/-- For each of these tokens but the last, whether it is a closing angle bracket with nothing
between it and the next. -/
def joints (s : TokenStream) : List Bool :=
  (s.visible.zip s.visible.tail).map fun (t, u) => t.text == ascii ">" && t.stop == u.start

/-- The streams show the same tokens, and the same of their closing angle brackets touch the token
behind them. -/
structure Alike (s s' : TokenStream) : Prop where
  signs : s.visible.map Token.sign = s'.visible.map Token.sign
  joints : s.joints = s'.joints

instance (s s' : TokenStream) : Decidable (s.Alike s') :=
  decidable_of_iff (s.visible.map Token.sign = s'.visible.map Token.sign ∧ s.joints = s'.joints)
    ⟨fun h => ⟨h.1, h.2⟩, fun h => ⟨h.signs, h.joints⟩⟩

end TokenStream

namespace Cursor

variable {s s' : TokenStream} {i : Nat} {l m : Lexeme}

theorem structural_eq_map (s : TokenStream) :
    s.structural = (ofStream s).lexemes.toList.map fun l => (l.id, l.token) := by
  simp [ofStream, TokenStream.structural]

theorem lexemes_ofStream (s : TokenStream) :
    (ofStream s).lexemes.toList.map (·.token) = s.visible := by
  rw [← s.structural_map_snd, structural_eq_map, List.map_map]
  rfl

theorem visible_getElem? (h : (ofStream s).lexemes[i]? = some l) :
    s.visible[i]? = some l.token := by
  rw [← lexemes_ofStream, List.getElem?_map, Array.getElem?_toList, h, Option.map_some]

theorem tokens_getElem? (h : (ofStream s).lexemes[i]? = some l) :
    s.tokens.toList[l.id]? = some l.token := by
  have hmem : l ∈ (ofStream s).lexemes.toList := by
    rw [← Array.getElem?_toList] at h
    exact List.mem_of_getElem? h
  simp only [ofStream, List.mem_map, List.mem_filter] at hmem
  obtain ⟨⟨t, j⟩, ⟨hzip, -⟩, rfl⟩ := hmem
  exact List.mem_zipIdx_iff_getElem?.mp hzip

/-- Two neighbours have nothing between them in the stream if they have nothing between them in the
text. -/
theorem id_eq_iff {last : Nat} (hin : Token.InOrder 0 last s.tokens.toList)
    (hchain : s.tokens.toList.IsChain fun a b => a.stop = b.start)
    (hl : (ofStream s).lexemes[i]? = some l) (hm : (ofStream s).lexemes[i + 1]? = some m) :
    m.id = l.id + 1 ↔ l.token.stop = m.token.start := by
  obtain ⟨hlsize, hleq⟩ := List.getElem?_eq_some_iff.mp (tokens_getElem? hl)
  obtain ⟨hmsize, hmeq⟩ := List.getElem?_eq_some_iff.mp (tokens_getElem? hm)
  rw [← hleq, ← hmeq]
  constructor
  · intro hnext
    simp only [hnext]
    exact List.isChain_iff_getElem.mp hchain l.id (hnext ▸ hmsize)
  · intro htouch
    by_contra hnext
    have hlt : l.id < m.id := by
      rw [← Array.getElem?_toList] at hl hm
      obtain ⟨hi, rfl⟩ := List.getElem?_eq_some_iff.mp hl
      obtain ⟨hj, rfl⟩ := List.getElem?_eq_some_iff.mp hm
      exact List.pairwise_iff_getElem.mp (ofStream_ordered s) _ _ hi hj (Nat.lt_succ_self i)
    -- Some token is between the two, and it is not empty.
    have hsize : l.id + 1 < s.tokens.toList.length := by omega
    have hpair := List.pairwise_iff_getElem.mp hin.pairwise
    have hbefore := hpair l.id (l.id + 1) hlsize hsize (Nat.lt_succ_self _)
    have hbehind := hpair (l.id + 1) m.id hsize hmsize (by omega)
    have hinside := (hin.bounds _ (List.getElem_mem hsize)).2.1
    omega

theorem joints_getElem? (hl : (ofStream s).lexemes[i]? = some l)
    (hm : (ofStream s).lexemes[i + 1]? = some m) :
    s.joints[i]? = some (l.token.text == ascii ">" && l.token.stop == m.token.start) := by
  have hpair : (s.visible.zip s.visible.tail)[i]? = some (l.token, m.token) := by
    rw [List.getElem?_zip_eq_some, List.getElem?_tail]
    exact ⟨visible_getElem? hl, visible_getElem? hm⟩
  rw [TokenStream.joints, List.getElem?_map, hpair, Option.map_some]

theorem get?_ofStream (s : TokenStream) (i : Nat) :
    (ofStream s).get? i = (ofStream s).lexemes[i]? := by
  have hpos : ((ofStream s).pos : Int) + i = i := Int.zero_add _
  simp only [get?, hpos, if_neg (Int.not_lt.mpr (Int.natCast_nonneg i)), Int.toNat_natCast]

theorem get?_ofStream_succ (s : TokenStream) (i : Nat) :
    (ofStream s).get? (i + 1 : Int) = (ofStream s).lexemes[i + 1]? :=
  get?_ofStream s (i + 1)

theorem get?_ofStream_neg (s : TokenStream) {k : Int} (hk : k < 0) :
    (ofStream s).get? k = none := by
  have hpos : ((ofStream s).pos : Int) + k = k := Int.zero_add _
  simp only [get?, hpos, if_pos hk]

section Alike

variable {last last' : Nat}

theorem lexemes_sign (h : s.Alike s') (i : Nat) :
    ((ofStream s').lexemes[i]?).map (fun l => l.token.sign) =
      ((ofStream s).lexemes[i]?).map (fun l => l.token.sign) := by
  have hsign := congrArg (fun l => l[i]?) h.signs
  simp only [← lexemes_ofStream, List.map_map, List.getElem?_map, Array.getElem?_toList] at hsign
  exact hsign.symm

theorem lexemes_cases (h : s.Alike s') (i : Nat) :
    ((ofStream s).lexemes[i]? = none ∧ (ofStream s').lexemes[i]? = none) ∨
      ∃ l l', (ofStream s).lexemes[i]? = some l ∧ (ofStream s').lexemes[i]? = some l' ∧
        l'.token.text = l.token.text := by
  have hsign := lexemes_sign h i
  cases hl : (ofStream s).lexemes[i]? with
  | none =>
      rw [hl, Option.map_none, Option.map_eq_none_iff] at hsign
      exact Or.inl ⟨rfl, hsign⟩
  | some l =>
      rw [hl, Option.map_some, Option.map_eq_some_iff] at hsign
      obtain ⟨l', hl', heq⟩ := hsign
      exact Or.inr ⟨l, l', rfl, hl', congrArg Prod.snd heq⟩

theorem touches_alike (h : s.Alike s') (hin : Token.InOrder 0 last s.tokens.toList)
    (hin' : Token.InOrder 0 last' s'.tokens.toList)
    (hchain : s.tokens.toList.IsChain fun a b => a.stop = b.start)
    (hchain' : s'.tokens.toList.IsChain fun a b => a.stop = b.start) {i : Nat}
    (hat : (ofStream s).isAt i ">" = true) :
    (ofStream s').touches i = (ofStream s).touches i := by
  simp only [touches, get?_ofStream, get?_ofStream_succ]
  rcases lexemes_cases h i with ⟨hl, hl'⟩ | ⟨l, l', hl, hl', htext⟩
  · rw [hl, hl']
  rcases lexemes_cases h (i + 1) with ⟨hm, hm'⟩ | ⟨m, m', hm, hm', -⟩
  · rw [hl, hl', hm, hm']
  rw [hl, hl', hm, hm']
  simp only [isAt, text, get?_ofStream, hl] at hat
  have hjoint := h.joints ▸ joints_getElem? hl hm
  rw [joints_getElem? hl' hm', htext, hat, Bool.true_and, Bool.true_and, Option.some.injEq,
    Bool.eq_iff_iff, beq_iff_eq, beq_iff_eq] at hjoint
  change decide (m'.id = l'.id + 1) = decide (m.id = l.id + 1)
  rw [decide_eq_decide, id_eq_iff hin hchain hl hm, id_eq_iff hin' hchain' hl' hm']
  exact hjoint

theorem structural_getElem? (h : (ofStream s).lexemes[i]? = some l) :
    s.structural[i]? = some (l.id, l.token) := by
  rw [structural_eq_map, List.getElem?_map, Array.getElem?_toList, h, Option.map_some]

/-- Streams that show the same tokens are read from cursors that do so. -/
theorem ofStream_alike [v : SideBySide] (h : v.left.Alike v.right)
    (hin : Token.InOrder 0 last v.left.tokens.toList)
    (hin' : Token.InOrder 0 last' v.right.tokens.toList)
    (hchain : v.left.tokens.toList.IsChain fun a b => a.stop = b.start)
    (hchain' : v.right.tokens.toList.IsChain fun a b => a.stop = b.start) :
    (ofStream v.left).Alike (ofStream v.right) := by
  constructor
  · rfl
  · have hlength := congrArg List.length h.signs
    simpa only [← lexemes_ofStream, List.length_map, Array.length_toList] using hlength.symm
  · intro k
    by_cases hneg : k < 0
    · rw [get?_ofStream_neg v.left hneg, get?_ofStream_neg v.right hneg]
    · obtain ⟨i, rfl⟩ := Int.eq_ofNat_of_zero_le (Int.not_lt.mp hneg)
      rw [get?_ofStream, get?_ofStream]
      exact lexemes_sign h i
  · intro k hat
    by_cases hneg : k < 0
    · simp only [isAt, text, get?_ofStream_neg v.left hneg] at hat
      exact absurd hat (by decide)
    · obtain ⟨i, rfl⟩ := Int.eq_ofNat_of_zero_le (Int.not_lt.mp hneg)
      exact touches_alike h hin hin' hchain hchain' hat
  · intro k l m hl hm
    by_cases hneg : k < 0
    · rw [get?_ofStream_neg v.left hneg] at hl
      cases hl
    · obtain ⟨i, rfl⟩ := Int.eq_ofNat_of_zero_le (Int.not_lt.mp hneg)
      rw [get?_ofStream] at hl hm
      exact ⟨i, l.token, m.token, structural_getElem? hl, structural_getElem? hm⟩

end Alike

end Cursor

namespace Node

/-- Streams that are read from alike cursors have trees with alike items. -/
theorem ofStream_alike [SideBySide] {s s' : TokenStream}
    (hs : (Cursor.ofStream s).Alike (Cursor.ofStream s')) {kind : SourceKind} {tree tree' : Node}
    (h : (ofStream s kind).tree = .ok tree) (h' : (ofStream s' kind).tree = .ok tree') :
    ∃ a b a' b' cs ds, tree = .branch .unit a b cs ∧ tree' = .branch .unit a' b' ds ∧
      List.Forall₂ Alike cs ds := by
  obtain ⟨hrun, -⟩ := Grammar.uniform_items
    (Grammar.uniform_within (8 * (Cursor.ofStream s).bound)) kind
    { file := s.file, cursor := Cursor.ofStream s }
    { file := s'.file, cursor := Cursor.ofStream s' }
    ⟨hs, rfl⟩
  simp only [ofStream, hs.bound] at h h'
  obtain ⟨items, items', hitems, rfl, rfl⟩ := hrun.of_map h h'
  exact ⟨_, _, _, _, _, _, rfl, rfl, Alike.kept_alike hitems⟩

end Node

end CodeLayout
