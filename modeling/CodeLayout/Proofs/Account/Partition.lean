import CodeLayout.Proofs.Account.Basic
import CodeLayout.Proofs.Chunk.OfNode
import CodeLayout.Proofs.Syntax.Tree

/-!
# All comments of a stream are around its tokens

Each comment is put in one run around one token, or at the end, and the order of the stream is kept.
So the tokens with structure owe all that is no white space.
-/

namespace CodeLayout

namespace Trivia

variable {s : Source} {e : Entry} {es pending : List Entry} {x : TriviaIndex}

/-- The indices of the entries that are no white space. -/
def kept (es : List Entry) : List Nat :=
  (es.filter fun e => !isSpace e).map (·.1)

/-- The indices of the entries with structure. -/
def structured (es : List Entry) : List Nat :=
  (es.filter fun e => !e.2.kind.isSkippable).map (·.1)

@[simp] theorem kept_nil : kept [] = [] :=
  rfl

@[simp] theorem kept_append (es es' : List Entry) : kept (es ++ es') = kept es ++ kept es' := by
  simp [kept]

theorem kept_cons_space (h : isSpace e = true) : kept (e :: es) = kept es := by
  simp [kept, h]

theorem kept_cons (h : isSpace e = false) : kept (e :: es) = e.1 :: kept es := by
  simp [kept, h]

theorem kept_of_spaces (h : ∀ e ∈ es, isSpace e = true) : kept es = [] := by
  rw [kept, List.filter_eq_nil_iff.mpr fun e he => by simp [h e he], List.map_nil]

theorem isSpace_eq_false (h : e.2.kind.isSkippable = false) : isSpace e = false := by
  rw [isSpace, decide_eq_false_iff_not]
  intro hkind
  rw [hkind] at h
  cases h

/-- Comments that are stacked are the first of what is kept. -/
theorem kept_stackedUnder (last : Entry) (es : List Entry) :
    (stackedUnder s last es).1.map (·.1) ++ kept (stackedUnder s last es).2 = kept es := by
  induction last, es using stackedUnder.induct s with
  | case1 last space comment rest hcond more left heq ih =>
      rw [stackedUnder, if_pos hcond, heq]
      rw [heq] at ih
      simp only [Bool.and_eq_true, Bool.not_eq_true'] at hcond
      rw [kept_cons_space hcond.1.1.1, kept_cons hcond.1.2, ← ih]
      rfl
  | case2 last space comment rest hcond =>
      rw [stackedUnder, if_neg hcond]
      rfl
  | case3 last rest hshort =>
      rw [stackedUnder_of_short hshort]
      rfl

/-- The run that trails a token is the first of what is kept. -/
theorem kept_splitTrailing (atEnd : Bool) (pending : List Entry) :
    (splitTrailing s atEnd pending).1.toList.flatMap CommentRun.ids ++
      kept (splitTrailing s atEnd pending).2 = kept pending := by
  rcases splitTrailing_cases s atEnd pending with heq |
    ⟨front, first, rest, rfl, hspace, hfront, heq⟩
  · rw [heq]
    rfl
  · -- The space in front of the run is not kept.
    have hkept : kept (front ++ first :: rest) = first.1 :: kept rest := by
      rw [kept_append, kept_of_spaces fun e he => (hfront e he).1, List.nil_append,
        kept_cons hspace]
    rw [hkept]
    rcases heq with heq | heq <;> rw [heq]
    · rw [← kept_stackedUnder (s := s) first rest]
      simp
    · simp

namespace Runs

/-- The indices of the comments that are collected. -/
def ids (r : Runs) : List Nat :=
  r.close.reverse.flatMap CommentRun.ids

variable {r : Runs}

theorem ids_start : (r.start e).ids = r.ids ++ [e.1] := by
  simp [ids, start, close]

theorem ids_add : (r.add s e).ids = r.ids ++ kept [e] := by
  cases hspace : isSpace e with
  | true =>
      rw [add, if_pos hspace, kept_cons_space hspace, kept_nil, List.append_nil]
      cases hlast : r.last <;> simp [ids, close, hlast]
  | false =>
      rw [add, if_neg (by simp [hspace]), kept_cons hspace, kept_nil]
      cases hlast : r.last with
      | none => exact ids_start
      | some pair =>
          obtain ⟨run, prev⟩ := pair
          dsimp only
          split_ifs
          · simp [ids, close, hlast]
          · exact ids_start

theorem ids_foldl : (es.foldl (Runs.add s) r).ids = r.ids ++ kept es := by
  induction es generalizing r with
  | nil => simp
  | cons e es ih =>
      rw [List.foldl_cons, ih, ids_add, List.append_assoc, ← kept_append, List.singleton_append]

end Runs

/-- What is between two tokens goes behind the first one or in front of the second one. -/
theorem addGap_eq (prev : Option Entry) (pending : List Entry) (next : Option Entry) :
    ∃ (trailing : Option CommentRun) (leading : List CommentRun) (blank : Nat) (broken : Bool),
      trailing.toList.flatMap CommentRun.ids ++ leading.flatMap CommentRun.ids = kept pending ∧
      (prev = none → trailing = none) ∧
      addGap s x prev pending next =
        ((prev.elim x fun p => x.modify (some p.1) fun t => { t with trailing }).modify
          (next.map (·.1)) fun t => { t with leading, blank, broken }) := by
  cases prev with
  | none =>
      refine ⟨none, _, _, _, ?_, fun _ => rfl, rfl⟩
      exact Runs.ids_foldl
  | some p =>
      refine ⟨_, _, _, _, ?_, nofun, rfl⟩
      rw [← kept_splitTrailing (s := s) next.isNone pending]
      exact congrArg (_ ++ ·) Runs.ids_foldl

/-- Whether no comments are around a token yet. -/
def IsClear (x : TriviaIndex) (e : Entry) : Prop :=
  (x.get (some e.1)).leading = [] ∧ (x.get (some e.1)).trailing = none

variable {i : Nat} {prev next : Option Entry}

/-- What stands around other tokens stays. -/
theorem addGap_frame (hi : i < x.tokens.size) (hprev : ∀ p ∈ prev, p.1 ≠ i)
    (hnext : ∀ e ∈ next, e.1 ≠ i) :
    (addGap s x prev pending next).get (some i) = x.get (some i) := by
  obtain ⟨trailing, leading, blank, broken, -, -, heq⟩ :=
    addGap_eq (s := s) (x := x) prev pending next
  rw [heq]
  cases prev with
  | none =>
      cases next with
      | none => exact TriviaIndex.get_modify_none hi
      | some e => exact TriviaIndex.get_modify_of_ne (hnext e rfl)
  | some p =>
      have hfirst := TriviaIndex.get_modify_of_ne (x := x) (f := fun t => { t with trailing })
        (hprev p rfl)
      cases next with
      | none =>
          refine (TriviaIndex.get_modify_none ?_).trans hfirst
          simpa [TriviaIndex.modify] using hi
      | some e => exact (TriviaIndex.get_modify_of_ne (hnext e rfl)).trans hfirst

theorem size_addGap : (addGap s x prev pending next).tokens.size = x.tokens.size := by
  obtain ⟨_, _, _, _, -, -, heq⟩ := addGap_eq (s := s) (x := x) prev pending next
  rw [heq]
  cases prev <;> cases next <;> simp [TriviaIndex.modify]

/-- The comments between two tokens are around them, in order. -/
theorem around_addGap {e : Entry} (pending : List Entry) (hdistinct : ∀ p ∈ prev, p.1 ≠ e.1)
    (hlt : ∀ p ∈ e :: prev.toList, p.1 < x.tokens.size)
    (hprev : ∀ p ∈ prev, (x.get (some p.1)).trailing = none) (he : IsClear x e) :
    prev.toList.flatMap (fun p => ((addGap s x prev pending (some e)).get (some p.1)).around p.1) ++
        ((addGap s x prev pending (some e)).get (some e.1)).around e.1 =
      prev.toList.flatMap (fun p => (x.get (some p.1)).around p.1) ++ kept pending ++ [e.1] ∧
    ((addGap s x prev pending (some e)).get (some e.1)).trailing = none := by
  obtain ⟨trailing, leading, blank, broken, hkept, hnone, heq⟩ :=
    addGap_eq (s := s) (x := x) prev pending (some e)
  rw [heq, ← hkept]
  have hlte : e.1 < x.tokens.size := hlt e List.mem_cons_self
  cases prev with
  | none =>
      obtain rfl := hnone rfl
      have hget :=
        TriviaIndex.get_modify_self (f := fun t => { t with leading, blank, broken }) hlte
      simp only [Option.elim_none, Option.map_some, hget, he.2, Trivia.around]
      simp
  | some p =>
      have hpe : p.1 ≠ e.1 := hdistinct p rfl
      have hltp : p.1 < x.tokens.size := hlt p (by simp)
      simp only [Option.elim_some, Option.map_some]
      rw [TriviaIndex.get_modify_self (by simpa [TriviaIndex.modify] using hlte),
        TriviaIndex.get_modify_of_ne hpe]
      simp only [Option.toList_some, List.flatMap_singleton]
      rw [TriviaIndex.get_modify_of_ne hpe.symm, TriviaIndex.get_modify_self hltp]
      simp [Trivia.around, he.2, hprev p rfl]

theorem owed_append (is js : List Nat) :
    x.owed (is ++ js) = is.flatMap (fun i => (x.get (some i)).around i) ++ x.owed js := by
  simp [TriviaIndex.owed]

/-- At the end, what is left leads the end of the text. -/
theorem owed_addGap_none (pending : List Entry) (hlt : ∀ p ∈ prev, p.1 < x.tokens.size)
    (hprev : ∀ p ∈ prev, (x.get (some p.1)).trailing = none) :
    (addGap s x prev pending none).owed (prev.toList.map (·.1)) =
      prev.toList.flatMap (fun p => (x.get (some p.1)).around p.1) ++ kept pending := by
  obtain ⟨trailing, leading, blank, broken, hkept, hnone, heq⟩ :=
    addGap_eq (s := s) (x := x) prev pending none
  rw [heq, ← hkept]
  cases prev with
  | none =>
      obtain rfl := hnone rfl
      rfl
  | some p =>
      have hltp : p.1 < x.tokens.size := hlt p rfl
      simp only [Option.elim_some, Option.map_none, Option.toList_some, List.map_singleton,
        List.flatMap_singleton, TriviaIndex.owed]
      rw [TriviaIndex.get_modify_none (by simpa [TriviaIndex.modify] using hltp),
        TriviaIndex.get_modify_self hltp]
      simp [Trivia.around, hprev p rfl, TriviaIndex.modify]

/-- All that is no white space is owed in the end. The induction goes through the tokens from the
one that is at hand on. -/
theorem addGaps_owes (prev : Option Entry) (pending : List Entry)
    (hnodup : ((prev.toList ++ es).map (·.1)).Nodup)
    (hlt : ∀ e ∈ prev.toList ++ es, e.1 < x.tokens.size)
    (hprev : ∀ p ∈ prev, (x.get (some p.1)).trailing = none) (hes : ∀ e ∈ es, IsClear x e) :
    (addGaps s x prev pending es).tokens.size = x.tokens.size ∧
      (∀ i < x.tokens.size, i ∉ (prev.toList ++ es).map (·.1) →
        (addGaps s x prev pending es).get (some i) = x.get (some i)) ∧
      (addGaps s x prev pending es).owed (prev.toList.map (·.1) ++ structured es) =
        prev.toList.flatMap (fun p => (x.get (some p.1)).around p.1) ++
          kept (pending.reverse ++ es) := by
  induction es generalizing x prev pending with
  | nil =>
      rw [addGaps, List.append_nil, structured]
      refine ⟨size_addGap, fun i hi hmem => addGap_frame hi (fun p hp => ?_)
        (by rintro _ ⟨⟩), ?_⟩
      · rintro rfl
        exact hmem (by simp [Option.mem_def.mp hp])
      · have hlast := owed_addGap_none (s := s) pending.reverse
          (fun p hp => hlt p (by simp [Option.mem_def.mp hp])) hprev
        simpa using hlast
  | cons e es ih =>
      obtain ⟨he, hclear⟩ := List.forall_mem_cons.mp hes
      have hsub : (prev.toList ++ es).Sublist (prev.toList ++ e :: es) := by simp
      rw [addGaps]
      split_ifs with hskip
      · obtain ⟨hsize, hframe, howed⟩ := ih prev (e :: pending)
          (hnodup.sublist (hsub.map _)) (fun d hd => hlt d (hsub.subset hd)) hprev hclear
        refine ⟨hsize, fun i hi hmem => hframe i hi fun h => hmem ?_, ?_⟩
        · exact (hsub.map _).subset h
        · simpa [structured, hskip] using howed
      · have hskip' : e.2.kind.isSkippable = false := eq_false_of_ne_true hskip
        -- No token comes twice.
        have hpe : ∀ p ∈ prev, p.1 ≠ e.1 ∧ ∀ d ∈ es, p.1 ≠ d.1 := by
          intro p hp
          obtain rfl := Option.mem_def.mp hp
          have hp' : p.1 ∉ (e :: es).map (·.1) := (List.nodup_cons.mp hnodup).1
          refine ⟨fun h => hp' (by simp [h]), fun d hd h => hp' ?_⟩
          exact List.mem_map.mpr ⟨d, List.mem_cons_of_mem e hd, h.symm⟩
        have hnodup' : ((e :: es).map (·.1)).Nodup :=
          hnodup.sublist ((List.sublist_append_right prev.toList (e :: es)).map _)
        have hed : ∀ d ∈ es, e.1 ≠ d.1 := fun d hd h =>
          (List.nodup_cons.mp hnodup').1 (List.mem_map.mpr ⟨d, hd, h.symm⟩)
        have hlt' : ∀ d ∈ e :: es, d.1 < x.tokens.size := fun d hd =>
          hlt d (List.mem_append_right _ hd)
        have hltp : ∀ p ∈ e :: prev.toList, p.1 < x.tokens.size := List.forall_mem_cons.mpr
          ⟨hlt' e List.mem_cons_self, fun p hp => hlt p (List.mem_append_left _ hp)⟩
        obtain ⟨haround, htrailing⟩ := around_addGap (s := s) pending.reverse
          (fun p hp => (hpe p hp).1) hltp hprev he
        have hframeGap : ∀ d ∈ es, (addGap s x prev pending.reverse (some e)).get (some d.1) =
            x.get (some d.1) := fun d hd =>
          addGap_frame (hlt' d (List.mem_cons_of_mem e hd)) (fun p hp => (hpe p hp).2 d hd)
            fun e' he' => Option.some.inj he' ▸ hed d hd
        obtain ⟨hsize, hframe, howed⟩ := ih (x := addGap s x prev pending.reverse (some e))
          (some e) [] hnodup' (by rw [size_addGap]; exact hlt')
          (fun p hp => Option.some.inj hp ▸ htrailing)
          fun d hd => by rw [IsClear, hframeGap d hd]; exact hclear d hd
        rw [size_addGap] at hsize hframe
        refine ⟨hsize, fun i hi hmem => ?_, ?_⟩
        · have hi' : i ∉ (e :: es).map (·.1) := fun h =>
            hmem ((((List.sublist_append_right prev.toList (e :: es)).map _).subset) h)
          refine (hframe i hi hi').trans (addGap_frame hi (fun p hp => ?_) fun e' he' => ?_)
          · rintro rfl
            exact hmem (by simp [Option.mem_def.mp hp])
          · rintro rfl
            exact hi' (by simp [Option.some.inj he'])
        · have hprevs : ∀ p ∈ prev.toList,
              ((addGaps s (addGap s x prev pending.reverse (some e)) (some e) [] es).get
                (some p.1)).around p.1 =
              ((addGap s x prev pending.reverse (some e)).get (some p.1)).around p.1 := by
            intro p hp
            obtain ⟨hne, hnes⟩ := hpe p (Option.mem_toList.mp hp)
            rw [hframe p.1 (hltp p (List.mem_cons_of_mem e hp))]
            simpa [hne] using fun t hd => hnes (p.1, t) hd rfl
          have hcons : structured (e :: es) = [e.1] ++ structured es := by
            simp [structured, hskip']
          have hlast : kept (e :: es) = [e.1] ++ kept es := kept_cons (isSpace_eq_false hskip')
          rw [hcons, owed_append, List.flatMap_map, List.flatMap_congr hprevs]
          simp only [Option.toList_some, List.map_singleton, List.flatMap_singleton,
            List.reverse_nil, List.nil_append] at howed
          rw [howed, kept_append, hlast, ← List.append_assoc, haround]
          simp

end Trivia

namespace TokenStream

theorem entries_map_fst (s : TokenStream) : s.entries.map (·.1) = List.range s.tokens.size := by
  simp [entries, List.zipIdx_map_snd, Function.comp_def, List.range_eq_range']

theorem entries_map_snd (s : TokenStream) : s.entries.map (·.2) = s.tokens.toList := by
  simp [entries, Function.comp_def]

theorem structural_eq_filter (s : TokenStream) :
    s.structural = s.entries.filter fun e => !e.2.kind.isSkippable := by
  rw [structural, entries, List.filter_map]
  rfl

end TokenStream

/-- Where building starts, the tokens with structure owe all that is no white space. -/
theorem Build.owes_ofStream (s : TokenStream) (style : Style) (regions : Regions) :
    Owes s.significant { trivia := TriviaIndex.ofStream s style regions }
      (s.structural.map (·.1)) := by
  have hstructured : Trivia.structured s.entries = s.structural.map (·.1) := by
    rw [s.structural_eq_filter]
    rfl
  have hkept : Trivia.kept s.entries = s.significant := by
    simp only [Trivia.kept, TokenStream.entries, TokenStream.significant, List.filter_map,
      Function.comp_def, Trivia.isSpace, List.map_map]
    rfl
  have hclear : ∀ e ∈ s.entries, Trivia.IsClear ⟨Array.replicate s.tokens.size {}, {}⟩ e := by
    intro e _
    simp only [Trivia.IsClear, TriviaIndex.get, Array.getD_eq_getD_getElem?,
      Array.getElem?_replicate]
    split <;> exact ⟨rfl, rfl⟩
  have hlt : ∀ e ∈ s.entries, e.1 < s.tokens.size := fun e he =>
    (Array.getElem?_eq_some_iff.mp (TokenStream.getElem?_of_mem_entries he)).1
  obtain ⟨hsize, -, howed⟩ := Trivia.addGaps_owes (s := ⟨s.file, style, regions⟩)
    (x := ⟨Array.replicate s.tokens.size {}, {}⟩) none []
    (by simpa [s.entries_map_fst] using List.nodup_range) (by simpa using hlt)
    (by rintro _ ⟨⟩) hclear
  refine ⟨?_, (List.pairwise_map.mpr s.structural_pairwise).imp Nat.ne_of_lt, fun i hi => ?_⟩
  · rw [hstructured, List.reverse_nil, List.nil_append, hkept] at howed
    exact howed
  · have hsize' : (TriviaIndex.ofStream s style regions).tokens.size = s.tokens.size :=
      hsize.trans Array.size_replicate
    rw [← hstructured] at hi
    obtain ⟨e, he, rfl⟩ := List.mem_map.mp hi
    exact Nat.lt_of_lt_of_eq (hlt e (List.mem_of_mem_filter he)) hsize'.symm

end CodeLayout
