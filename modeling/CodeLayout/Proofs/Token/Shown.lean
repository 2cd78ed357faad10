import CodeLayout.Proofs.Alike.Syntax.Lookahead
import CodeLayout.Proofs.Comment.Closing
import CodeLayout.Proofs.Token.Apart

/-!
# Tokens that a text shows

A text shows some tokens and comments if it consists of them with nothing but white space around,
each comment being one in front of what follows it. To put a token in front of such a text, nothing
has to be known about the token but that it is one if it stands alone.

What a text is lexed into are the tokens that it shows, unless one of them is written so close to
what is behind it that something else is read there.
-/

namespace CodeLayout

/-- Whether a token is a comment in front of some text, or a token with structure if it stands
alone. -/
def Token.IsWhole (t : Token) (rest : Bytes) : Prop :=
  (t.kind = .comment ∧ IsComment t.text rest) ∨
    (t.kind.isSkippable = false ∧
      Lexer.firstToken t.text Lexer.rules = (t.kind, t.text.length))

/-- The tokens and comments that a text at an offset shows: each of them is one where it stands, and
nothing but white space is around them. -/
inductive Token.Shown : Nat → Bytes → List Token → Prop
  | blank {offset : Nat} {gap : Bytes} (hgap : ∀ b ∈ gap, Lexer.isSpace b = true) :
      Shown offset gap []
  | next {offset : Nat} {gap rest : Bytes} {t : Token} {ts : List Token}
      (hgap : ∀ b ∈ gap, Lexer.isSpace b = true) (hstart : t.start = offset + gap.length)
      (hwhole : t.IsWhole rest) (hrest : Shown t.stop rest ts) :
      Shown offset (gap ++ (t.text ++ rest)) (t :: ts)

/-- The kinds and texts of the tokens of some kinds that a text at an offset is lexed into. -/
def Lexer.signsFrom (keep : TokenKind → Bool) (offset : Nat) (s : Bytes) :
    List (TokenKind × Bytes) :=
  ((tokensFrom s.length offset s).filter fun t => keep t.kind).map Token.sign

/-- Whether a token of a text is a slash right in front of a slash or a star, so that a comment
starts where it stands. -/
def Token.OpensComment (out : Bytes) (t : Token) : Prop :=
  t.text = [47] ∧ ∃ b ∈ (out.drop t.stop).head?, b = 47 ∨ b = 42

/-- Whether a token of a text may go on with the byte right behind it, and something else is read
where it stands. -/
def Token.Fuses (out : Bytes) (t : Token) : Prop :=
  t.kind ≠ .comment ∧ (∃ b ∈ (out.drop t.stop).head?, Lexer.GoesOn t.text b) ∧
    Lexer.firstToken (out.drop t.start) Lexer.rules ≠ (t.kind, t.text.length)

namespace Lexer

variable {s gap rest text : Bytes} {offset n m : Nat} {kind : TokenKind} {keep : TokenKind → Bool}

/-- Only as many tokens as there are bytes can be read. -/
theorem tokensFrom_eq (hn : s.length ≤ n) (hm : s.length ≤ m) :
    tokensFrom n offset s = tokensFrom m offset s := by
  induction n generalizing m offset s with
  | zero =>
      obtain rfl := List.length_eq_zero_iff.mp (Nat.le_zero.mp hn)
      cases m <;> rfl
  | succ n ih =>
      cases s with
      | nil => cases m <;> rfl
      | cons b rest =>
          obtain ⟨m, rfl⟩ : ∃ k, m = k + 1 := ⟨m - 1, by rw [List.length_cons] at hm; omega⟩
          have hpos := firstToken_pos (b :: rest) rules
          rw [List.length_cons] at hn hm
          simp only [tokensFrom]
          rw [ih]
          · rw [List.length_drop, List.length_cons]
            omega
          · rw [List.length_drop, List.length_cons]
            omega

theorem signsFrom_nil : signsFrom keep offset [] = [] :=
  rfl

/-- The first token of a text, and the others. -/
theorem signsFrom_cons (hs : s ≠ []) (h : firstToken s rules = (kind, n)) :
    signsFrom keep offset s = (if keep kind then [(kind, s.take n)] else []) ++
      signsFrom keep (offset + n) (s.drop n) := by
  obtain ⟨b, more, rfl⟩ := List.exists_cons_of_ne_nil hs
  have hpos := firstToken_pos (b :: more) rules
  rw [h] at hpos
  have hfuel : tokensFrom more.length (offset + n) ((b :: more).drop n) =
      tokensFrom ((b :: more).drop n).length (offset + n) ((b :: more).drop n) := by
    refine tokensFrom_eq ?_ (Nat.le_refl _)
    rw [List.length_drop, List.length_cons]
    omega
  rw [signsFrom, List.length_cons, tokensFrom, h, signsFrom, ← hfuel]
  cases hkind : keep kind <;> simp [hkind, Token.sign]

/-- White space in front of a text is no token of its own. -/
theorem signsFrom_blank (hkeep : keep .space = false) (hgap : ∀ b ∈ gap, isSpace b = true)
    (hrest : ∀ b ∈ rest.head?, isSpace b = false) :
    signsFrom keep offset (gap ++ rest) = signsFrom keep (offset + gap.length) rest := by
  by_cases hne : gap = []
  · rw [hne]
    rfl
  · have hcons : gap ++ rest ≠ [] := List.append_ne_nil_of_left_ne_nil hne rest
    rw [signsFrom_cons hcons (firstToken_space hgap hne hrest), List.drop_left, hkeep]
    rfl

theorem firstToken_ne_space {b : UInt8} (hb : isSpace b = false) :
    (firstToken (b :: rest) rules).1 ≠ .space := by
  intro hkind
  obtain ⟨rule, hmem, hrule, hpos⟩ := firstToken_rule (Prod.ext hkind rfl) (by decide)
  obtain rfl : rule = space := by simpa [rules] using hmem
  rw [space_eq_zero hb] at hrule
  exact hpos hrule.symm

/-- Where a comment stands, it is the first token. -/
theorem firstToken_comment (h : IsComment text rest) :
    firstToken (text ++ rest) rules = (.comment, text.length) := by
  cases h with
  | line hbody hrest =>
      have hfirst := firstToken_line hbody hrest
      rw [List.cons_append, List.cons_append, hfirst, List.length_cons, List.length_cons,
        Nat.add_comm]
  | @closed body _ hbody =>
      have hspace : space (47 :: 42 :: (body ++ rest)) = 0 := space_eq_zero (by decide)
      have hline : lineComment (47 :: 42 :: (body ++ rest)) = 0 := rfl
      have hblock : blockComment (47 :: 42 :: (body ++ rest)) = 2 + body.length := by
        have hthrough := lengthThrough?_append_of_some hbody rest
        rw [commentEnd] at hthrough
        simp only [blockComment, hthrough]
      rw [List.cons_append, List.cons_append, rules, firstToken_of_eq_zero hspace,
        firstToken_of_eq_zero hline, firstToken_of_ne_zero (by omega), hblock, List.length_cons,
        List.length_cons, Nat.add_comm]
  | unclosed hbody =>
      rw [List.append_nil, firstToken_unclosed hbody, List.length_cons, List.length_cons,
        Nat.add_comm]

end Lexer

namespace Token

open Lexer

variable {t : Token} {ts us : List Token} {out rest : Bytes} {offset : Nat}

namespace IsWhole

theorem kind_ne_space (h : t.IsWhole rest) : t.kind ≠ .space := by
  intro hkind
  rcases h with ⟨hcomment, -⟩ | ⟨hstructure, -⟩
  · rw [hkind] at hcomment
    cases hcomment
  · rw [hkind] at hstructure
    cases hstructure

/-- What is no white space starts with none. -/
theorem exists_head (h : t.IsWhole rest) : ∃ b more, t.text = b :: more ∧ isSpace b = false := by
  rcases h with ⟨-, hcomment⟩ | ⟨hkind, hfirst⟩
  · generalize t.text = text at hcomment
    cases hcomment <;> exact ⟨47, _, rfl, by decide⟩
  · have hpos := firstToken_pos t.text rules
    rw [hfirst] at hpos
    obtain ⟨b, more, htext⟩ := List.exists_cons_of_length_pos hpos
    refine ⟨b, more, htext, ?_⟩
    by_contra hspace
    have hrule : space t.text ≠ 0 := by
      rw [htext]
      simpa [space] using hspace
    rw [rules, firstToken_of_ne_zero hrule] at hfirst
    rw [← (Prod.mk.inj hfirst).1] at hkind
    cases hkind

/-- No white space is read where it stands. -/
theorem firstToken_ne_space (h : t.IsWhole rest) :
    (firstToken (t.text ++ rest) rules).1 ≠ .space := by
  obtain ⟨b, more, htext, hb⟩ := h.exists_head
  rw [htext]
  exact Lexer.firstToken_ne_space hb

/-- Only a slash starts a comment where it stands. -/
theorem opens (h : t.IsWhole rest) (hkind : t.kind.isSkippable = false)
    (hread : (firstToken (t.text ++ rest) rules).1 = .comment) :
    t.text = [47] ∧ ∃ b ∈ rest.head?, b = 47 ∨ b = 42 := by
  rcases h with ⟨hcomment, -⟩ | ⟨-, hfirst⟩
  · rw [hcomment] at hkind
    cases hkind
  · exact opens_of_firstToken hkind hfirst (Prod.ext hread rfl)

/-- A comment is read where it stands, and so is a token that cannot go on with what follows it. -/
theorem firstToken_eq (h : t.IsWhole rest)
    (hapart : t.kind ≠ .comment → ∀ b ∈ rest.head?, ¬GoesOn t.text b) :
    firstToken (t.text ++ rest) rules = (t.kind, t.text.length) := by
  rcases h with ⟨hkind, hcomment⟩ | ⟨hkind, hfirst⟩
  · rw [hkind]
    exact firstToken_comment hcomment
  · refine firstToken_append hkind hfirst (hapart ?_)
    intro hcomment
    rw [hcomment] at hkind
    cases hkind

end IsWhole

namespace Shown

theorem le_start (h : Shown offset out ts) : ∀ t ∈ ts, offset ≤ t.start := by
  induction h with
  | blank => simp
  | next _ hstart _ _ ih =>
      refine List.forall_mem_cons.mpr ⟨by omega, fun u hu => ?_⟩
      have hle := ih u hu
      rw [stop] at hle
      omega

/-- What is left of a text at a place behind a token of it. -/
theorem drop_behind {gap : Bytes} {n : Nat} (hstart : t.start = offset + gap.length)
    (hle : t.stop ≤ n) : (gap ++ (t.text ++ rest)).drop (n - offset) = rest.drop (n - t.stop) := by
  have hsum : n - offset = gap.length + (t.text.length + (n - t.stop)) := by
    rw [stop] at hle ⊢
    omega
  rw [hsum, ← List.drop_drop, List.drop_left, ← List.drop_drop, List.drop_left]

/-- A token that is shown stands where it starts. -/
theorem exists_rest (h : Shown offset out ts) : ∀ t ∈ ts, ∃ rest,
    out.drop (t.start - offset) = t.text ++ rest ∧ t.IsWhole rest := by
  induction h with
  | blank => simp
  | @next offset gap rest t ts hgap hstart hwhole hrest ih =>
      refine List.forall_mem_cons.mpr ⟨⟨rest, ?_, hwhole⟩, fun u hu => ?_⟩
      · rw [hstart, Nat.add_sub_cancel_left, List.drop_left]
      · rw [drop_behind hstart (hrest.le_start u hu)]
        exact ih u hu

/-- What a text has where a token that it shows starts. -/
theorem drop_start (h : Shown 0 out ts) (ht : t ∈ ts) :
    out.drop t.start = t.text ++ out.drop t.stop ∧ t.IsWhole (out.drop t.stop) := by
  obtain ⟨rest, hdrop, hwhole⟩ := h.exists_rest t ht
  rw [Nat.sub_zero] at hdrop
  have hbehind : out.drop t.stop = rest := by
    rw [stop, ← List.drop_drop, hdrop, List.drop_left]
  rw [hbehind]
  exact ⟨hdrop, hwhole⟩

/-- White space may be put in front of a text. -/
theorem blank_append {gap : Bytes} (hgap : ∀ b ∈ gap, isSpace b = true)
    (h : Shown (offset + gap.length) out ts) : Shown offset (gap ++ out) ts := by
  cases h with
  | blank hrest => exact .blank (List.forall_mem_append.mpr ⟨hgap, hrest⟩)
  | next hrest hstart hwhole hnext =>
      rw [← List.append_assoc]
      refine .next (List.forall_mem_append.mpr ⟨hgap, hrest⟩) ?_ hwhole hnext
      rw [hstart, List.length_append, Nat.add_assoc]

section Kept

variable {keep : TokenKind → Bool}
  (hkeep : ∀ kind : TokenKind, kind.isSkippable = false → keep kind = true)
include hkeep

/-- A text is lexed into the tokens that it shows if each of them is read where it stands. -/
theorem signsFrom_eq_iff (hspace : keep .space = false) (h : Shown offset out ts)
    (hsame : ∀ t ∈ ts, keep t.kind = true →
      keep (firstToken (out.drop (t.start - offset)) rules).1 = true) :
    signsFrom keep offset out = (ts.filter fun t => keep t.kind).map sign ↔
      ∀ t ∈ ts, keep t.kind = true →
        firstToken (out.drop (t.start - offset)) rules = (t.kind, t.text.length) := by
  induction h with
  | @blank offset gap hgap =>
      have hblank : signsFrom keep offset (gap ++ []) = signsFrom keep (offset + gap.length) [] :=
        signsFrom_blank hspace hgap nofun
      rw [List.append_nil, signsFrom_nil] at hblank
      rw [hblank]
      simp
  | @next offset gap rest t ts hgap hstart hwhole hrest ih =>
      obtain ⟨b, more, htext, hb⟩ := hwhole.exists_head
      have hhead : ∀ c ∈ (t.text ++ rest).head?, isSpace c = false := by
        rw [htext]
        exact fun c hc => Option.some.inj hc ▸ hb
      have hne : t.text ++ rest ≠ [] := by simp [htext]
      have hfirst : (gap ++ (t.text ++ rest)).drop (t.start - offset) = t.text ++ rest := by
        rw [hstart, Nat.add_sub_cancel_left, List.drop_left]
      have hothers : ∀ u ∈ ts, (gap ++ (t.text ++ rest)).drop (u.start - offset) =
          rest.drop (u.start - t.stop) :=
        fun u hu => drop_behind hstart (hrest.le_start u hu)
      obtain ⟨hfirstSame, hrestSame⟩ := List.forall_mem_cons.mp hsame
      rw [hfirst] at hfirstSame
      have hnext := ih fun u hu => hothers u hu ▸ hrestSame u hu
      have htail : (∀ u ∈ ts, keep u.kind = true →
          firstToken ((gap ++ (t.text ++ rest)).drop (u.start - offset)) rules =
            (u.kind, u.text.length)) ↔
          signsFrom keep t.stop rest = (ts.filter fun t => keep t.kind).map sign := by
        rw [hnext]
        exact forall₂_congr fun u hu => by rw [hothers u hu]
      rw [signsFrom_blank hspace hgap hhead, ← hstart, List.forall_mem_cons, hfirst, htail]
      by_cases hread : firstToken (t.text ++ rest) rules = (t.kind, t.text.length)
      · rw [signsFrom_cons hne hread, List.take_left, List.drop_left]
        cases hkind : keep t.kind <;> simp [hkind, hread, sign, stop]
      · have hkind : keep t.kind = true := by
          rcases hwhole with ⟨hcomment, htext⟩ | ⟨hstructure, -⟩
          · exact absurd (hcomment ▸ firstToken_comment htext) hread
          · exact hkeep _ hstructure
        refine iff_of_false (fun heq => hread ?_) fun h => hread (h.1 hkind)
        -- What is read in place of the token has another kind or another length.
        cases hother : firstToken (t.text ++ rest) rules with
        | mk kind n =>
            have hle := firstToken_le isLocal_rules hne
            rw [hother] at hle
            have hkept := hfirstSame hkind
            rw [hother] at hkept
            rw [signsFrom_cons hne hother, if_pos hkept,
              List.filter_cons_of_pos (by exact hkind), List.map_cons] at heq
            obtain ⟨hkind, htext⟩ := Prod.mk.inj (List.cons.inj heq).1
            have hlength := congrArg List.length htext
            rw [List.length_take_of_le hle] at hlength
            exact Prod.ext hkind hlength

/-- Each token of a text is read where it stands exactly if none of them fuses with what is behind
it. -/
theorem forall_read_iff (h : Shown 0 out ts) :
    (∀ t ∈ ts, keep t.kind = true →
        firstToken (out.drop t.start) rules = (t.kind, t.text.length)) ↔
      ∀ t ∈ ts, ¬t.Fuses out := by
  refine forall₂_congr fun t ht => ?_
  obtain ⟨hdrop, hwhole⟩ := h.drop_start ht
  constructor
  · rintro hread ⟨hkind, -, hother⟩
    rcases hwhole with ⟨hcomment, -⟩ | ⟨hstructure, -⟩
    · exact hkind hcomment
    · exact hother (hread (hkeep _ hstructure))
  · intro hapart _
    by_contra hother
    refine hother ?_
    rw [hdrop]
    exact hwhole.firstToken_eq fun hkind b hb hon => hapart ⟨hkind, ⟨b, hb, hon⟩, hother⟩

end Kept

/-- The tokens and comments that a text is lexed into are those that it shows exactly if none of
them fuses with what is behind it. -/
theorem solid_eq_iff (h : Shown 0 out ts) :
    signsFrom (fun kind => kind != .space) 0 out = ts.map sign ↔ ∀ t ∈ ts, ¬t.Fuses out := by
  have hkeep : ∀ kind : TokenKind, kind.isSkippable = false → (kind != .space) = true := by
    intro kind
    cases kind <;> decide
  have hall : (ts.filter fun t => t.kind != .space) = ts :=
    List.filter_eq_self.mpr fun t ht => by simpa using (h.drop_start ht).2.kind_ne_space
  rw [← h.forall_read_iff hkeep, ← hall, h.signsFrom_eq_iff hkeep rfl, hall]
  · simp only [Nat.sub_zero]
  · intro t ht _
    obtain ⟨hdrop, hwhole⟩ := h.drop_start ht
    rw [Nat.sub_zero, hdrop]
    simpa using hwhole.firstToken_ne_space

/-- The tokens with structure that a text is lexed into are those that it shows exactly if none of
its tokens fuses with what is behind it, unless one of them opens a comment. -/
theorem structural_eq_iff (h : Shown 0 out ts) (hopens : ∀ t ∈ ts, ¬t.OpensComment out) :
    signsFrom (fun kind => !kind.isSkippable) 0 out =
        (ts.filter fun t => !t.kind.isSkippable).map sign ↔ ∀ t ∈ ts, ¬t.Fuses out := by
  have hkeep : ∀ kind : TokenKind, kind.isSkippable = false → (!kind.isSkippable) = true :=
    fun _ hkind => by rw [hkind]; rfl
  rw [← h.forall_read_iff hkeep, h.signsFrom_eq_iff hkeep rfl]
  · simp only [Nat.sub_zero]
  · intro t ht hkind
    obtain ⟨hdrop, hwhole⟩ := h.drop_start ht
    have hspace := hwhole.firstToken_ne_space
    have hcomment := fun hread => hopens t ht (hwhole.opens (Bool.not_eq_true' _ ▸ hkind) hread)
    rw [Nat.sub_zero, hdrop]
    cases hread : (firstToken (t.text ++ out.drop t.stop) rules).1 with
    | space => exact absurd hread hspace
    | comment => exact absurd hread hcomment
    | _ => rfl

/-- A token that opens a comment fuses. -/
theorem fuses_of_opensComment (h : Shown 0 out ts) (ht : t ∈ ts) (hopens : t.OpensComment out) :
    t.Fuses out := by
  obtain ⟨htext, b, hb, hcomment⟩ := hopens
  obtain ⟨hdrop, hwhole⟩ := h.drop_start ht
  rcases hwhole with ⟨-, hwhole⟩ | ⟨hkind, -⟩
  · rw [htext] at hwhole
    cases hwhole
  · have hne : t.kind ≠ .comment := by
      intro hcomment
      rw [hcomment] at hkind
      cases hkind
    obtain ⟨more, hbehind⟩ := List.head?_eq_some_iff.mp hb
    have hfirst := firstToken_slash (s := more) hcomment
    refine ⟨hne, ⟨b, hb, ?_⟩, fun hread => hne ?_⟩
    · rw [htext]
      exact goesOn_slash hcomment
    · rw [hdrop, htext, hbehind, List.singleton_append] at hread
      rw [← hfirst, hread]

end Shown

end Token

/-- Whether a text shows tokens with structure of some kinds and texts, wherever it stands. -/
def Bytes.Shows (out : Bytes) (signs : List (TokenKind × Bytes)) : Prop :=
  ∀ offset, ∃ ts, Token.Shown offset out ts ∧
    (ts.filter fun t => !t.kind.isSkippable).map Token.sign = signs

namespace Bytes.Shows

variable {out gap text : Bytes} {signs : List (TokenKind × Bytes)}

theorem blank (hgap : ∀ b ∈ gap, Lexer.isSpace b = true) : Shows gap [] :=
  fun _ => ⟨[], .blank hgap, rfl⟩

theorem blank_append (hgap : ∀ b ∈ gap, Lexer.isSpace b = true) (h : Shows out signs) :
    Shows (gap ++ out) signs := by
  intro offset
  obtain ⟨ts, hshown, hsigns⟩ := h (offset + gap.length)
  exact ⟨ts, hshown.blank_append hgap, hsigns⟩

/-- A token in front of a text. -/
theorem token {t : Token} (hkind : t.kind.isSkippable = false)
    (hfirst : Lexer.firstToken t.text Lexer.rules = (t.kind, t.text.length))
    (h : Shows out signs) : Shows (t.text ++ out) (t.sign :: signs) := by
  intro offset
  obtain ⟨ts, hshown, hsigns⟩ := h (offset + t.text.length)
  have hnext : Token.Shown ({ t with start := offset } : Token).stop out ts := hshown
  refine ⟨{ t with start := offset } :: ts, ?_, ?_⟩
  · exact .next (t := { t with start := offset }) (List.forall_mem_nil _) rfl
      (Or.inr ⟨hkind, hfirst⟩) hnext
  · rw [List.filter_cons_of_pos (by simp [hkind]), List.map_cons, hsigns]
    rfl

/-- A comment in front of a text. -/
theorem comment (hcomment : IsComment text out) (h : Shows out signs) :
    Shows (text ++ out) signs := by
  intro offset
  obtain ⟨ts, hshown, hsigns⟩ := h (offset + text.length)
  have hnext : Token.Shown (⟨.comment, offset, text⟩ : Token).stop out ts := hshown
  refine ⟨⟨.comment, offset, text⟩ :: ts, ?_, ?_⟩
  · exact .next (List.forall_mem_nil _) rfl (Or.inl ⟨rfl, hcomment⟩) hnext
  · rw [List.filter_cons_of_neg (by simp [TokenKind.isSkippable]), hsigns]

end Bytes.Shows

/-- A comment stays one in front of a text that starts like what was behind it. -/
theorem IsComment.of_head {text rest rest' : Bytes} (h : IsComment text rest) (hne : rest ≠ [])
    (hhead : rest'.head? = rest.head?) : IsComment text rest' := by
  cases h with
  | line hbody hrest => exact .line hbody fun b hb => hrest b (hhead ▸ hb)
  | closed hbody => exact .closed hbody
  | unclosed => exact absurd rfl hne

/-- A comment stays one in front of another text, unless it goes on to the end of its line or is not
closed. -/
theorem IsComment.of_cases {text rest rest' : Bytes} (h : IsComment text rest)
    (hline : CommentStyle.ofText text = .line → rest'.StartsLine) (hend : rest = [] → rest' = []) :
    IsComment text rest' := by
  cases h with
  | line hbody => exact .line hbody (hline (CommentStyle.ofText_line _))
  | closed hbody => exact .closed hbody
  | unclosed hbody =>
      rw [hend rfl]
      exact .unclosed hbody

/-- Nothing follows a comment that is not closed. -/
theorem IsComment.eq_nil {text rest : Bytes} (h : IsComment text rest)
    (hline : CommentStyle.ofText text ≠ .line)
    (hclosed : Lexer.isClosed text commentEnd 2 = false) : rest = [] := by
  cases h with
  | line => exact absurd (CommentStyle.ofText_line _) hline
  | closed hbody =>
      rw [(lengthThrough?_eq_length_iff.mp hbody).isClosed_eq] at hclosed
      cases hclosed
  | unclosed => rfl

/-- A token of a text is one with structure that can stand alone, or a comment in front of what
follows it. -/
theorem Token.isWhole {s : Bytes} {t : Token} (h : t ∈ ofText s) (hkind : t.kind ≠ .space) :
    t.IsWhole (s.drop t.stop) := by
  by_cases hcomment : t.kind = .comment
  · exact Or.inl ⟨hcomment, Token.isComment h hcomment⟩
  · refine Or.inr ⟨?_, ?_⟩
    · cases hk : t.kind <;> simp_all [TokenKind.isSkippable]
    · obtain ⟨rest, n, hfirst, htext, -⟩ := exists_rest h
      have hne : rest ≠ [] := by
        rintro rfl
        rw [List.take_nil] at htext
        exact text_ne_nil h htext
      obtain ⟨hlength, htake⟩ := Lexer.firstToken_take hne hfirst
      rw [htext, hlength, htake]

/-- White space has nothing else in it. -/
theorem Token.isSpace_of_kind {s : Bytes} {t : Token} (h : t ∈ ofText s) (hkind : t.kind = .space) :
    ∀ b ∈ t.text, Lexer.isSpace b = true := by
  obtain ⟨rest, n, hfirst, htext, -⟩ := exists_rest h
  rw [hkind] at hfirst
  obtain ⟨rule, hmem, rfl, -⟩ := Lexer.firstToken_rule hfirst (by decide)
  obtain rfl : rule = Lexer.space := by simpa [Lexer.rules] using hmem
  have htake : rest.take (Lexer.space rest) = rest.takeWhile Lexer.isSpace :=
    (List.prefix_iff_eq_take.mp (List.takeWhile_prefix Lexer.isSpace)).symm
  rw [htext, htake]
  exact fun b hb => List.mem_takeWhile_imp hb

section Segment

variable {s : Bytes} {first last : Nat} {ts : List Token}

theorem Token.Tile.length_flatMap (h : Tile first last ts) :
    first + (ts.flatMap Token.text).length = last := by
  induction ts generalizing first with
  | nil => exact h
  | cons t ts ih =>
      obtain ⟨hstart, hrest⟩ := h
      have hlength := ih hrest
      rw [stop] at hlength
      rw [List.flatMap_cons, List.length_append]
      omega

theorem Token.Tile.bounds (h : Tile first last ts) : ∀ t ∈ ts, first ≤ t.start ∧ t.stop ≤ last := by
  have hle : ∀ {first} {ts : List Token}, Tile first last ts → first ≤ last := fun h => by
    have hlength := h.length_flatMap
    omega
  induction ts generalizing first with
  | nil => simp
  | cons t ts ih =>
      obtain ⟨hstart, hrest⟩ := h
      refine List.forall_mem_cons.mpr ⟨⟨by omega, hle hrest⟩, fun u hu => ?_⟩
      have hb := ih hrest u hu
      have hstop : t.start ≤ t.stop := Nat.le_add_right _ _
      omega

theorem Token.Tile.stop_getLast? (h : Tile first last ts) : ∀ t ∈ ts.getLast?, t.stop = last := by
  induction ts generalizing first with
  | nil => simp
  | cons t ts ih =>
      cases ts with
      | nil =>
          rintro u hu
          obtain rfl := Option.some.inj hu
          exact h.2
      | cons u ts =>
          rw [List.getLast?_cons_cons]
          exact ih h.2

/-- Tokens that lie side by side are cut where none of them is. -/
theorem Token.Tile.exists_append (h : Tile first last ts) {n : Nat} (hfirst : first ≤ n)
    (hlast : n ≤ last) (hapart : ∀ t ∈ ts, t.stop ≤ n ∨ n ≤ t.start) :
    ∃ us vs, ts = us ++ vs ∧ Tile first n us ∧ Tile n last vs := by
  induction ts generalizing first with
  | nil =>
      obtain rfl : first = last := h
      exact ⟨[], [], rfl, Nat.le_antisymm hfirst hlast, Nat.le_antisymm hlast hfirst⟩
  | cons t ts ih =>
      obtain ⟨hstart, hrest⟩ := h
      rcases hapart t List.mem_cons_self with hbefore | hbehind
      · obtain ⟨us, vs, rfl, hus, hvs⟩ := ih hrest hbefore
          fun u hu => hapart u (List.mem_cons_of_mem t hu)
        exact ⟨t :: us, vs, rfl, ⟨hstart, hus⟩, hvs⟩
      · obtain rfl : first = n := by omega
        exact ⟨[], t :: ts, rfl, rfl, ⟨hstart, hrest⟩⟩

/-- Some tokens of a text that lie side by side are shown in front of another text, if the last one
of them is a comment there too. -/
theorem Bytes.Shows.segment {rest : Bytes} {signs : List (TokenKind × Bytes)}
    (hts : ∀ t ∈ ts, t ∈ Token.ofText s) (htile : Token.Tile first last ts)
    (hlast : ∀ t ∈ ts.getLast?, t.kind = .comment → IsComment t.text rest)
    (h : Bytes.Shows rest signs) :
    Bytes.Shows (ts.flatMap Token.text ++ rest)
      ((ts.filter fun t => !t.kind.isSkippable).map Token.sign ++ signs) := by
  induction ts generalizing first with
  | nil => exact h
  | cons t ts ih =>
      obtain ⟨ht, hts⟩ := List.forall_mem_cons.mp hts
      obtain ⟨hstart, htile⟩ := htile
      have hnext := ih hts htile fun u hu => hlast u (by
        cases ts with
        | nil => cases hu
        | cons v ts => rwa [List.getLast?_cons_cons])
      rw [List.flatMap_cons, List.append_assoc]
      by_cases hkind : t.kind = .space
      · rw [List.filter_cons_of_neg (by simp [hkind, TokenKind.isSkippable])]
        exact hnext.blank_append (Token.isSpace_of_kind ht hkind)
      · rcases Token.isWhole ht hkind with ⟨hkind, hcomment⟩ | ⟨hkind, hfirst⟩
        · rw [List.filter_cons_of_neg (by simp [hkind, TokenKind.isSkippable])]
          refine hnext.comment ?_
          cases ts with
          | nil => exact hlast t rfl hkind
          | cons u ts =>
              -- What follows the comment starts with the next token, as in its own text.
              obtain ⟨before, after, hsplit, hbefore⟩ :=
                Token.exists_split (hts u List.mem_cons_self)
              have hdrop : s.drop t.stop = u.text ++ after := by
                rw [← htile.1, hsplit, hbefore, List.append_assoc, List.drop_left]
              have hne := Token.text_ne_nil (hts u List.mem_cons_self)
              obtain ⟨b, more, hcons⟩ := List.exists_cons_of_ne_nil hne
              rw [hdrop] at hcomment
              refine hcomment.of_head (List.append_ne_nil_of_left_ne_nil hne after) ?_
              rw [List.flatMap_cons, hcons]
              rfl
        · rw [List.filter_cons_of_pos (by simp [hkind]), List.map_cons, List.cons_append]
          exact hnext.token hkind hfirst

end Segment

/-- A text shows its own tokens. -/
theorem Bytes.shows_self (text : Bytes) : Bytes.Shows text
    (((Token.ofText text).filter fun t => !t.kind.isSkippable).map Token.sign) := by
  have hreads := Pattern.reads_tokensFrom text.length 0 text (Nat.le_refl _)
  have htile := hreads.tile
  have hflat := hreads.flatMap_text
  rw [Nat.zero_add] at htile
  have hnothing : Bytes.Shows [] [] := .blank (List.forall_mem_nil _)
  have hsegment := hnothing.segment (fun _ ht => ht) htile fun t ht hkind => by
    have hcomment := Token.isComment (List.mem_of_getLast? ht) hkind
    rwa [htile.stop_getLast? t ht, List.drop_length] at hcomment
  rw [List.append_nil, List.append_nil, Token.ofText, hflat] at hsegment
  exact hsegment

end CodeLayout
