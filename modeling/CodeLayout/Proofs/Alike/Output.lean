import CodeLayout.Output
import CodeLayout.Proofs.Alike.Layout
import CodeLayout.Proofs.Formatter

/-!
# Written text without places

A text in which nothing is left alone is written by its chunks and their placements: a tree and its
bare form are written as the same text. Only the anchors may differ, for they name offsets of the
input.
-/

namespace CodeLayout

theorem Regions.ofStream_eq_empty {s : TokenStream} (hs : ∀ t ∈ s.tokens.toList, t.kind ≠ .comment)
    (style : Style) : Regions.ofStream s style = .empty := by
  have hspans : ∀ (off on : Bytes) (length : Nat) (ts : List Token), (∀ t ∈ ts, t.kind ≠ .comment) →
      Verbatim.spansFrom off on length none ts = [] := by
    intro off on length ts hts
    induction ts with
    | nil => rfl
    | cons t ts ih =>
        rw [List.forall_mem_cons] at hts
        rw [Verbatim.spansFrom, if_neg hts.1]
        exact ih hts.2
  simp only [ofStream]
  split
  · rw [hspans _ _ _ _ hs]
    rfl
  · rfl

theorem Regions.at?_empty (offset : Int64) : Regions.at? .empty offset = none :=
  rfl

namespace Chunk

mutual

theorem walk_bare (c : Chunk) : c.bare.walk = c.walk.map bare := by
  match c with
  | .token t s => rfl
  | .comment t s c => rfl
  | .group t x b cs => simp only [bare, walk, walkList_bare cs, List.map_cons]
  | .block t none none i cs =>
      simp only [bare, walk, walkList_bare cs, List.map_cons, List.map_append, List.map_nil]
  | .block t (some o) none i cs =>
      simp only [bare, walk, walk_bare o, walkList_bare cs, List.map_cons, List.map_append,
        List.map_nil]
  | .block t none (some c) i cs =>
      simp only [bare, walk, walk_bare c, walkList_bare cs, List.map_cons, List.map_append,
        List.map_nil]
  | .block t (some o) (some c) i cs =>
      simp only [bare, walk, walk_bare o, walk_bare c, walkList_bare cs, List.map_cons,
        List.map_append]

theorem walkList_bare (cs : List Chunk) : walkList (bareList cs) = (walkList cs).map bare := by
  match cs with
  | [] => rfl
  | c :: cs => simp only [bareList, walkList, walk_bare c, walkList_bare cs, List.map_append]

end

end Chunk

namespace Writer

/-- Nothing was copied, and the writers differ in their anchors and in what they remember of the
input only. -/
def Same (w v : Writer) : Prop :=
  w.copied = 0 ∧ ∃ anchors last, v = { w with anchors, last }

variable {x : Context} {w v w' : Writer} {t : Traits} {c : Chunk} {input : Bytes}

theorem Same.ite {p : Prop} [Decidable p] {v' : Writer} (h : w.Same v) (h' : w'.Same v') :
    (if p then w else w').Same (if p then v else v') := by
  split
  · exact h
  · exact h'

theorem same_request (h : w.Same v) (p : Placement) :
    (w.request t p).Same (v.request t.bare p) := by
  obtain ⟨hcopied, anchors, last, rfl⟩ := h
  exact .ite ⟨hcopied, anchors, last, rfl⟩
    (.ite ⟨hcopied, anchors, last, rfl⟩ ⟨hcopied, anchors, last, rfl⟩)

theorem same_token (h : w.Same v) (text : Bytes) :
    (w.token x t text).Same (v.token { x with input } t.bare text) := by
  obtain ⟨hcopied, anchors, last, rfl⟩ := h
  apply Same.ite ⟨hcopied, anchors, last, rfl⟩
  by_cases hstart : 0 ≤ t.start
  · simp only [if_pos hstart]
    exact ⟨hcopied, _, _, rfl⟩
  · simp only [if_neg hstart]
    exact ⟨hcopied, _, _, rfl⟩

theorem same_comment (h : w.Same v) (text : Bytes) (contents : Option Comment) (p : Placement) :
    (w.comment x text contents p).Same (v.comment { x with input } text contents p) := by
  obtain ⟨hcopied, anchors, last, rfl⟩ := h
  exact ⟨hcopied, _, _, rfl⟩

/-- Without regions every leaf is written that is in order. -/
theorem same_leaf (hx : x.regions = .empty) (h : w.Same v) {write write' : Writer → Writer}
    (hwrite : ∀ w v : Writer, w.Same v → (write w).Same (write' v))
    (hw : w.leaf x t write = .ok w') :
    ∃ v', v.leaf { x with input } t.bare write' = .ok v' ∧ w'.Same v' := by
  refine ⟨write' v, if_pos (show (-1 : Int) < 0 by decide), ?_⟩
  rw [leaf] at hw
  split at hw
  · obtain rfl := Except.ok.inj hw
    exact hwrite _ _ h
  · rename_i hstart
    split at hw
    · cases hw
    · obtain ⟨hcopied, anchors, last, rfl⟩ := h
      have hbehind : ¬t.start < w.copied := by rwa [hcopied]
      simp only [if_neg hbehind, hx, Regions.at?_empty] at hw
      obtain rfl := Except.ok.inj hw
      exact hwrite _ _ ⟨hcopied, anchors, last, rfl⟩

theorem same_write (input : Bytes) (hx : x.regions = .empty) (h : w.Same v)
    (hw : w.write x c = .ok w') :
    ∃ v', v.write { x with input } c.bare = .ok v' ∧ w'.Same v' := by
  cases c with
  | token t text =>
      exact same_leaf hx (same_request h _) (fun _ _ h => same_token h text) hw
  | comment t text contents =>
      exact same_leaf hx (same_request h _) (fun _ _ h => same_comment h text contents _) hw
  | group t context breakFirst cs =>
      obtain rfl := Except.ok.inj hw
      exact ⟨_, rfl, same_request h _⟩
  | block t o c i cs =>
      obtain rfl := Except.ok.inj hw
      rw [Chunk.bare_block]
      exact ⟨_, rfl, same_request h _⟩

theorem same_foldlM (input : Bytes) (hx : x.regions = .empty) {cs : List Chunk} (h : w.Same v)
    (hw : cs.foldlM (write x) w = .ok w') :
    ∃ v', (cs.map Chunk.bare).foldlM (write { x with input }) v = .ok v' ∧ w'.Same v' := by
  induction cs generalizing w v with
  | nil =>
      obtain rfl := Except.ok.inj hw
      exact ⟨v, rfl, h⟩
  | cons c cs ih =>
      rw [List.foldlM_cons] at hw
      obtain ⟨u, hu, hrest⟩ := exists_of_bind_eq_ok hw
      obtain ⟨u', hu', hsame⟩ := same_write input hx h hu
      obtain ⟨v', hv', hlast⟩ := ih hsame hrest
      refine ⟨v', ?_, hlast⟩
      rw [List.map_cons, List.foldlM_cons, hu']
      exact hv'

theorem finish_text (h : w.Same v) (hlines : input.endsLine = x.input.endsLine) :
    (v.finish { x with input }).text = (w.finish x).text := by
  obtain ⟨-, anchors, last, rfl⟩ := h
  simp only [finish, hlines]
  split
  · rfl
  · rfl

end Writer

namespace Output

variable {l l' : Layout} {file file' : SourceFile} {style : Style} {out out' : Output}

/-- What is written for a tree is written for its bare form too. -/
theorem ofLayout_bare (file' : SourceFile) (hlines : file'.text.endsLine = file.text.endsLine)
    (h : ofLayout l file style .empty = .ok out) :
    ∃ out', ofLayout { l with chunk := l.chunk.bare } file' style .empty = .ok out' ∧
      out'.text = out.text := by
  obtain ⟨w, hfold, rfl⟩ := exists_of_map_eq_ok h
  obtain ⟨v, hbare, hsame⟩ := Writer.same_foldlM file'.text rfl
    ⟨rfl, [⟨0, 0⟩], -1, rfl⟩ hfold
  rw [← Chunk.walk_bare] at hbare
  refine ⟨_, congrArg (Except.map _) hbare, ?_⟩
  exact Writer.finish_text (x := ⟨style, file.text, .empty, l.placements⟩) hsame hlines

/-- Trees that differ in places only and are placed alike are written as the same text. -/
theorem ofLayout_alike (hchunk : l.chunk.Alike l'.chunk) (hplaced : l.placements = l'.placements)
    (hlines : file.text.endsLine = file'.text.endsLine)
    (h : ofLayout l file style .empty = .ok out) (h' : ofLayout l' file' style .empty = .ok out') :
    out.text = out'.text := by
  obtain ⟨bare, hbare, htext⟩ := ofLayout_bare file rfl h
  obtain ⟨bare', hbare', htext'⟩ := ofLayout_bare file hlines h'
  rw [hchunk, hplaced, hbare'] at hbare
  rw [← htext, ← htext', Except.ok.inj hbare]

end Output

end CodeLayout
