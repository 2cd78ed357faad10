import CodeLayout.Proofs.Style.Normal
import CodeLayout.Proofs.Text.Decimal
import CodeLayout.Proofs.Text.Printable
import Mathlib.Data.List.Nodup

/-!
# Saved styles

A style that came from options is shown as options again, and these give a style once more. Each
setting shows one field and sets just that field, so the order in which the settings are applied
does not matter. Everything comes back, except that a policy with both bits for the indentation
comes back with the one that is used.
-/

namespace CodeLayout

set_option maxRecDepth 2000

namespace Style

/-- What the settings show of a style. -/
def values (s : Style) : List Bytes :=
  settings.map fun o => o.get s

theorem values_eq (s : Style) : values s =
    [s.indentChar.name, s.separator, intDigits s.tabSize, intDigits s.indentSize,
      intDigits s.continuation, intDigits s.pageWidth, intDigits s.blankLines,
      intDigits s.comments.lineLength, boolText s.joinWrapped, boolText s.wrapOuter,
      boolText s.useTags, boolText s.breakAfterAnnotations, boolText s.comments.lineComments,
      boolText s.comments.blockComments, boolText s.comments.docComments,
      boolText s.comments.header, boolText s.comments.joinLines,
      boolText s.comments.indentRootTags, s.disablingTag, s.enablingTag] :=
  rfl

/-- Whether a setting sets what the setting with a given number shows, and nothing else. -/
def Setting.SetsOnly (o : Setting) (i : Nat) : Prop :=
  ∀ s v t, o.set? s v = some t → values t = (values s).set i (o.get t) ∧ t.policies = s.policies

/-- Whether a setting can set what it shows of a style. -/
def Setting.Reads (o : Setting) (s : Style) : Prop :=
  ∀ t, ∃ u, o.set? t (o.get s) = some u ∧ o.get u = o.get s

section Settings

variable {key : String} {i : Nat} {s : Style}

theorem Setting.set?_bool (get : Style → Bool) (set : Style → Bool → Style) (v : Bytes) :
    (Setting.bool key get set).set? s v = (readBool? v).map (set s) :=
  rfl

theorem Setting.set?_int (get : Style → Int) (set : Style → Int → Style) (v : Bytes) :
    (Setting.int key get set).set? s v = (readInt? v.trim).map (set s) :=
  rfl

theorem Setting.get_bool (get : Style → Bool) (set : Style → Bool → Style) :
    (Setting.bool key get set).get s = boolText (get s) :=
  rfl

theorem Setting.get_int (get : Style → Int) (set : Style → Int → Style) :
    (Setting.int key get set).get s = intDigits (get s) :=
  rfl

theorem Setting.setsOnly_bool {get : Style → Bool} {set : Style → Bool → Style}
    (hvalues : ∀ s b, values (set s b) = (values s).set i (boolText (get (set s b))))
    (hpolicies : ∀ s b, (set s b).policies = s.policies) :
    (Setting.bool key get set).SetsOnly i := by
  intro s v t h
  rw [Setting.set?_bool] at h
  obtain ⟨b, -, rfl⟩ := Option.map_eq_some_iff.mp h
  exact ⟨hvalues s b, hpolicies s b⟩

theorem Setting.setsOnly_int {get : Style → Int} {set : Style → Int → Style}
    (hvalues : ∀ s n, values (set s n) = (values s).set i (intDigits (get (set s n))))
    (hpolicies : ∀ s n, (set s n).policies = s.policies) :
    (Setting.int key get set).SetsOnly i := by
  intro s v t h
  rw [Setting.set?_int] at h
  obtain ⟨n, -, rfl⟩ := Option.map_eq_some_iff.mp h
  exact ⟨hvalues s n, hpolicies s n⟩

theorem Setting.setsOnly_text {get : Style → Bytes} {set : Style → Bytes → Style}
    (hvalues : ∀ s v, values (set s v) = (values s).set i (get (set s v)))
    (hpolicies : ∀ s v, (set s v).policies = s.policies) :
    (Setting.text key get set).SetsOnly i := by
  intro s v t h
  obtain rfl := Option.some.inj h
  exact ⟨hvalues s v, hpolicies s v⟩

theorem setsOnly_indentChar : indentCharSetting.SetsOnly 0 := by
  intro s v t h
  have hset : indentCharSetting.set? s v =
      (readIndentChar? v).map fun c => { s with indentChar := c } := rfl
  rw [hset] at h
  obtain ⟨c, -, rfl⟩ := Option.map_eq_some_iff.mp h
  rw [values_eq s, values_eq]
  exact ⟨rfl, rfl⟩

theorem setsOnly_separator : separatorSetting.SetsOnly 1 := by
  intro s v t h
  have hset : separatorSetting.set? s v =
      (readSeparator? v).map fun sep => { s with separator := sep } := rfl
  rw [hset] at h
  obtain ⟨sep, -, rfl⟩ := Option.map_eq_some_iff.mp h
  rw [values_eq s, values_eq]
  exact ⟨rfl, rfl⟩

/-- No setting sets what another one shows. -/
theorem forall_setsOnly : ∀ e ∈ settings.zipIdx, e.1.SetsOnly e.2 := by
  simp only [settings, List.zipIdx_cons, List.zipIdx_nil, List.forall_mem_cons, Nat.zero_add,
    Nat.reduceAdd]
  refine ⟨setsOnly_indentChar, setsOnly_separator, ?_⟩
  and_intros
  -- Six numbers, ten truth values and two texts.
  iterate 6
    · refine Setting.setsOnly_int (fun s n => ?_) fun _ _ => rfl
      rw [values_eq s, values_eq]
      rfl
  iterate 10
    · refine Setting.setsOnly_bool (fun s b => ?_) fun _ _ => rfl
      rw [values_eq s, values_eq]
      rfl
  iterate 2
    · refine Setting.setsOnly_text (fun s v => ?_) fun _ _ => rfl
      rw [values_eq s, values_eq]
      rfl
  exact fun _ h => absurd h List.not_mem_nil

theorem readBool?_boolText (b : Bool) : readBool? (boolText b) = some b := by
  cases b <;> decide

theorem Setting.reads_bool {get : Style → Bool} {set : Style → Bool → Style}
    (h : ∀ s b, get (set s b) = b) : (Setting.bool key get set).Reads s := by
  intro t
  refine ⟨set t (get s), ?_, congrArg boolText (h t (get s))⟩
  rw [Setting.set?_bool, Setting.get_bool, readBool?_boolText, Option.map_some]

/-- No white space stands around the text of a number. -/
theorem trim_intDigits (n : Int) : (intDigits n).trim = intDigits n := by
  have hbyte : ∀ b ∈ intDigits n, (32 ≤ b ∧ b ≤ 126) ∧ isBlank b.toNat = false := by
    have hall : ∀ m < 256, isDigit (UInt8.ofNat m) = true ∨ UInt8.ofNat m = 45 →
        (32 ≤ UInt8.ofNat m ∧ UInt8.ofNat m ≤ 126) ∧ isBlank (UInt8.ofNat m).toNat = false := by
      decide
    intro b hb
    have hb' := hall b.toNat b.toNat_lt
    rw [UInt8.ofNat_toNat] at hb'
    exact hb' (mem_intDigits hb)
  refine Bytes.trim_eq_self fun r hr => ?_
  rw [Bytes.characters, Bytes.charactersWithin_printable _ (Nat.le_refl _)
    fun b hb => (hbyte b hb).1] at hr
  obtain ⟨b, hb, rfl⟩ := List.mem_map.mp hr
  exact (hbyte b hb).2

theorem Setting.reads_int {get : Style → Int} {set : Style → Int → Style}
    (h : ∀ s n, get (set s n) = n) (hword : isWord (get s) = true) :
    (Setting.int key get set).Reads s := by
  intro t
  refine ⟨set t (get s), ?_, congrArg intDigits (h t (get s))⟩
  rw [Setting.set?_int, Setting.get_int, trim_intDigits, readInt?_intDigits hword, Option.map_some]

theorem Setting.reads_text {get : Style → Bytes} {set : Style → Bytes → Style}
    (h : ∀ s v, get (set s v) = v) : (Setting.text key get set).Reads s := fun t =>
  ⟨set t (get s), rfl, h t (get s)⟩

theorem reads_indentChar (h : s.indentChar ∈ [IndentChar.tab, .space, .mixed]) :
    indentCharSetting.Reads s := by
  intro t
  have hread : readIndentChar? s.indentChar.name = some s.indentChar := by
    simp only [List.mem_cons, List.not_mem_nil, or_false] at h
    rcases h with h | h | h <;> rw [h] <;> decide
  have hget : indentCharSetting.get s = s.indentChar.name := rfl
  have hset : ∀ v, indentCharSetting.set? t v =
      (readIndentChar? v).map fun c => { t with indentChar := c } := fun _ => rfl
  exact ⟨{ t with indentChar := s.indentChar }, by rw [hset, hget, hread, Option.map_some], rfl⟩

theorem reads_separator (h : s.separator ∈ separators) : separatorSetting.Reads s := by
  intro t
  have hread : readSeparator? s.separator = some s.separator := by
    simp only [separators, List.mem_cons, List.not_mem_nil, or_false] at h
    rcases h with h | h | h <;> rw [h] <;> decide
  have hget : separatorSetting.get s = s.separator := rfl
  have hset : ∀ v, separatorSetting.set? t v =
      (readSeparator? v).map fun sep => { t with separator := sep } := fun _ => rfl
  exact ⟨{ t with separator := s.separator }, by rw [hset, hget, hread, Option.map_some], rfl⟩

/-- Every setting can set what it shows of a normal style. -/
theorem IsNormal.reads (h : s.IsNormal) : ∀ o ∈ settings, o.Reads s := by
  have hword : ∀ {lo hi n : Int}, lo ≤ n ∧ n ≤ hi → -wordLimit ≤ lo → hi < wordLimit →
      isWord n = true := by
    intro lo hi n hn hlo hhi
    rw [isWord, Bool.and_eq_true, decide_eq_true_eq, decide_eq_true_eq]
    omega
  have hint : ∀ {key : String} {get : Style → Int} {set : Style → Int → Style} {hi : Int},
      0 ≤ get s ∧ get s ≤ hi → hi < wordLimit → (∀ s n, get (set s n) = n) →
        (Setting.int key get set).Reads s := fun hbounds hhi hset =>
    Setting.reads_int hset (hword hbounds (by decide) hhi)
  simp only [settings, List.forall_mem_cons]
  refine ⟨reads_indentChar h.indentChar, reads_separator h.separator,
    hint h.tabSize (by decide) fun _ _ => rfl, hint h.indentSize (by decide) fun _ _ => rfl,
    hint h.continuation (by decide) fun _ _ => rfl, hint h.pageWidth (by decide) fun _ _ => rfl,
    hint h.blankLines (by decide) fun _ _ => rfl, hint h.lineLength (by decide) fun _ _ => rfl, ?_⟩
  and_intros
  iterate 10
    · exact Setting.reads_bool fun _ _ => rfl
  iterate 2
    · exact Setting.reads_text fun _ _ => rfl
  exact fun _ h => absurd h List.not_mem_nil

end Settings

section Lookup

/-- The keys of the settings are all different, and none is the key of a context. -/
theorem keys_nodup : ((settings.map (·.key)) ++ WrapContext.configurable.map (·.key)).Nodup := by
  decide +kernel

theorem find?_of_nodup {α : Type} {key : α → Bytes} {l : List α} (h : (l.map key).Nodup) {a : α}
    (ha : a ∈ l) : (l.find? fun b => key b == key a) = some a := by
  obtain ⟨i, hi, rfl⟩ := List.mem_iff_getElem.mp ha
  rw [List.find?_eq_some_iff_getElem]
  refine ⟨by simp, i, hi, rfl, fun j hj => ?_⟩
  have hne := List.pairwise_iff_getElem.mp h j i (by simp; omega) (by simpa using hi) hj
  simpa using hne

theorem setting?_key {o : Setting} (h : o ∈ settings) : setting? o.key = some o :=
  find?_of_nodup (List.nodup_append.mp keys_nodup).1 h

theorem eq_of_key_eq {i j : Nat} {o o' : Setting} (h : settings[i]? = some o)
    (h' : settings[j]? = some o') (hkey : o.key = o'.key) : i = j := by
  obtain ⟨hi, rfl⟩ := List.getElem?_eq_some_iff.mp h
  obtain ⟨hj, rfl⟩ := List.getElem?_eq_some_iff.mp h'
  have hnodup := (List.nodup_append.mp keys_nodup).1
  have hi' : i < (settings.map (·.key)).length := by rwa [List.length_map]
  have hj' : j < (settings.map (·.key)).length := by rwa [List.length_map]
  have hsame : (settings.map (·.key))[i] = (settings.map (·.key))[j] := by
    rw [List.getElem_map, List.getElem_map]
    exact hkey
  exact (List.Nodup.getElem_inj_iff hnodup).mp hsame

theorem key_ne_of_mem {o : Setting} {c : WrapContext} (ho : o ∈ settings)
    (hc : c ∈ WrapContext.configurable) : o.key ≠ c.key :=
  (List.nodup_append.mp keys_nodup).2.2 o.key (List.mem_map_of_mem ho) c.key
    (List.mem_map_of_mem hc)

theorem setting?_context {c : WrapContext} (h : c ∈ WrapContext.configurable) :
    setting? c.key = none := by
  rw [setting?, List.find?_eq_none]
  intro o ho hkey
  exact key_ne_of_mem ho h (by simpa using hkey)

theorem ofKey?_key {c : WrapContext} (h : c ∈ WrapContext.configurable) :
    WrapContext.ofKey? c.key = some c :=
  find?_of_nodup (List.nodup_append.mp keys_nodup).2.1 h

theorem mem_configurable_iff (c : WrapContext) :
    c ∈ WrapContext.configurable ↔ c.isConfigurable = true := by
  cases c <;> simp [WrapContext.configurable, WrapContext.isConfigurable]

end Lookup

/-- What applying entries that show a style changes: the settings and the policies under the keys of
these entries are then those of the style. -/
structure Copies (s t u : Style) (keys : List Bytes) : Prop where
  values : ∀ (i : Nat) (o : Setting), settings[i]? = some o →
    (values u)[i]? = if o.key ∈ keys then (Style.values s)[i]? else (Style.values t)[i]?
  policies : ∀ c : WrapContext, u.policies c =
    if c.isConfigurable = true ∧ c.key ∈ keys then (s.policies c).spoken else t.policies c

namespace Copies

variable {s t u v : Style} {keys : List Bytes}

theorem refl (s t : Style) : Copies s t t [] where
  values i o _ := by rw [if_neg List.not_mem_nil]
  policies c := by rw [if_neg fun h => List.not_mem_nil h.2]

/-- The first entry sets a field of the style. -/
theorem cons_setting (h : Copies s u v keys) {o : Setting} {i : Nat} (ho : settings[i]? = some o)
    (hvalues : Style.values u = (Style.values t).set i (o.get s))
    (hpolicies : u.policies = t.policies) :
    Copies s t v (o.key :: keys) where
  values j o' ho' := by
    rw [h.values j o' ho']
    by_cases hmem : o'.key ∈ keys
    · rw [if_pos hmem, if_pos (List.mem_cons_of_mem _ hmem)]
    · rw [if_neg hmem, hvalues]
      by_cases hij : i = j
      · subst hij
        obtain rfl : o = o' := Option.some.inj (ho.symm.trans ho')
        have hlt : i < (Style.values t).length := by
          rw [Style.values, List.length_map]
          exact (List.getElem?_eq_some_iff.mp ho).1
        have hshown : (Style.values s)[i]? = some (o.get s) := by
          rw [Style.values, List.getElem?_map, ho]
          rfl
        rw [if_pos List.mem_cons_self, List.getElem?_set_self hlt, hshown]
      · have hne : o'.key ∉ o.key :: keys := by
          rw [List.mem_cons, not_or]
          exact ⟨fun hkey => hij (eq_of_key_eq ho ho' hkey.symm), hmem⟩
        rw [if_neg hne, List.getElem?_set_ne hij]
  policies c := by
    rw [h.policies c, hpolicies]
    by_cases hc : c.isConfigurable = true
    · have hne : c.key ≠ o.key := fun hkey =>
        key_ne_of_mem (List.mem_of_getElem? ho) ((mem_configurable_iff c).mpr hc) hkey.symm
      simp only [hc, true_and, List.mem_cons, hne, false_or]
    · rw [if_neg fun h => hc h.1, if_neg fun h => hc h.1]

/-- The first entry sets a policy of the style. -/
theorem cons_context (h : Copies s u v keys) {c : WrapContext} (hc : c ∈ WrapContext.configurable)
    (hvalues : Style.values u = Style.values t)
    (hpolicies : u.policies = fun d => if d = c then (s.policies c).spoken else t.policies d) :
    Copies s t v (c.key :: keys) where
  values j o ho := by
    have hne := key_ne_of_mem (List.mem_of_getElem? ho) hc
    rw [h.values j o ho, hvalues]
    simp only [List.mem_cons, hne, false_or]
  policies d := by
    rw [h.policies d]
    by_cases hd : d.isConfigurable = true ∧ d.key ∈ keys
    · rw [if_pos hd, if_pos ⟨hd.1, List.mem_cons_of_mem _ hd.2⟩]
    · rw [if_neg hd]
      simp only [hpolicies]
      by_cases hdc : d = c
      · have hconfigurable := (mem_configurable_iff c).mp hc
        rw [hdc, if_pos rfl, if_pos ⟨hconfigurable, List.mem_cons_self⟩]
      · rw [if_neg hdc, if_neg]
        rintro ⟨hconfigurable, hmem⟩
        rcases List.mem_cons.mp hmem with hkey | hmem
        · have hkeys := ofKey?_key ((mem_configurable_iff d).mpr hconfigurable)
          rw [hkey, ofKey?_key hc] at hkeys
          exact hdc (Option.some.inj hkeys).symm
        · exact hd ⟨hconfigurable, hmem⟩

end Copies

theorem applyOption_setting {s : Style} (h : s.IsNormal) {o : Setting} {i : Nat}
    (ho : settings[i]? = some o) (t : Style) : ∃ u, t.applyOption o.key (o.get s) = (u, []) ∧
      values u = (values t).set i (o.get s) ∧ u.policies = t.policies := by
  have hmem := List.mem_of_getElem? ho
  obtain ⟨u, hset, hget⟩ := h.reads o hmem t
  have hzip : (o, i) ∈ settings.zipIdx := List.mem_zipIdx_iff_getElem?.mpr ho
  obtain ⟨hvalues, hpolicies⟩ := forall_setsOnly _ hzip t _ u hset
  refine ⟨u, ?_, by rw [hvalues, hget], hpolicies⟩
  simp only [applyOption, setting?_key hmem, hset]

theorem applyOption_context {s : Style} (h : s.IsNormal) {c : WrapContext}
    (hc : c ∈ WrapContext.configurable) (t : Style) :
    ∃ u, t.applyOption c.key (s.policy c).render = (u, []) ∧ values u = values t ∧
      u.policies = fun d => if d = c then (s.policies c).spoken else t.policies d := by
  have hconfigurable := (mem_configurable_iff c).mp hc
  have hpolicy : s.policy c = s.policies c := if_pos hconfigurable
  refine ⟨t.withPolicy c (s.policies c).spoken, ?_, ?_, ?_⟩
  · simp only [applyOption, setting?_context hc, ofKey?_key hc, hpolicy,
      Policy.parse_render (h.isValid c)]
  · rw [withPolicy, if_pos hconfigurable]
    rfl
  · rw [withPolicy, if_pos hconfigurable]

/-- Entries that show a normal style are applied without a warning, in any order. -/
theorem applyEach_copies {s : Style} (h : s.IsNormal) (es : OptionMap)
    (hes : ∀ e ∈ es, e ∈ s.toOptions) (t : Style) :
    ∃ u, t.applyEach es = (u, []) ∧ Copies s t u (es.map (·.1)) := by
  induction es generalizing t with
  | nil => exact ⟨t, rfl, .refl s t⟩
  | cons e es ih =>
      obtain ⟨he, hrest⟩ := List.forall_mem_cons.mp hes
      rcases List.mem_append.mp he with hsetting | hcontext
      · obtain ⟨o, ho, rfl⟩ := List.mem_map.mp hsetting
        obtain ⟨i, hi⟩ := List.getElem?_of_mem ho
        obtain ⟨u, hu, hvalues, hpolicies⟩ := applyOption_setting h hi t
        obtain ⟨v, hv, hcopies⟩ := ih hrest u
        refine ⟨v, ?_, hcopies.cons_setting hi hvalues hpolicies⟩
        simp only [applyEach, hu, hv, List.append_nil]
      · obtain ⟨c, hc, rfl⟩ := List.mem_map.mp hcontext
        obtain ⟨u, hu, hvalues, hpolicies⟩ := applyOption_context h hc t
        obtain ⟨v, hv, hcopies⟩ := ih hrest u
        refine ⟨v, ?_, hcopies.cons_context hc hvalues hpolicies⟩
        simp only [applyEach, hu, hv, List.append_nil]

section Injective

theorem boolText_inj {a b : Bool} (h : boolText a = boolText b) : a = b := by
  have hread := congrArg readBool? h
  rw [readBool?_boolText, readBool?_boolText] at hread
  exact Option.some.inj hread

theorem name_inj {c d : IndentChar} (h : c.name = d.name) : c = d := by
  have hhead : ∀ n, (IndentChar.unknown n).name.head? = some 73 := fun _ => rfl
  have hknown : ∀ c ∈ [IndentChar.tab, .space, .mixed], c.name.head? ≠ some 73 := by decide
  have hne : ∀ n, ∀ c ∈ [IndentChar.tab, .space, .mixed], (IndentChar.unknown n).name ≠ c.name := by
    intro n c hc heq
    exact hknown c hc (heq ▸ hhead n)
  cases c with
  | unknown m =>
      cases d with
      | unknown n =>
          have hdigits := List.append_cancel_left (List.append_cancel_right h)
          rw [natDigits_inj hdigits]
      | tab | space | mixed => exact absurd h (hne m _ (by decide))
  | tab | space | mixed =>
      cases d with
      | unknown n => exact absurd h.symm (hne n _ (by decide))
      | tab | space | mixed => first | rfl | exact absurd h (by decide)

/-- What the settings show of a style determines all of it but its policies. -/
theorem eq_of_values_eq {s t : Style} (h : values s = values t) :
    s = { t with policies := s.policies } := by
  rw [values_eq, values_eq] at h
  simp only [List.cons.injEq, and_true] at h
  obtain ⟨hchar, hseparator, htab, hindent, hcontinuation, hwidth, hblank, hlength, hjoin, houter,
    htags, hannotations, hline, hblock, hdoc, hheader, hlines, hroot, hdisabling, henabling⟩ := h
  have hcomments : s.comments = t.comments := by
    rw [CommentRules.mk.injEq]
    exact ⟨boolText_inj hline, boolText_inj hblock, boolText_inj hdoc, boolText_inj hheader,
      boolText_inj hlines, boolText_inj hroot, intDigits_inj hlength⟩
  rw [Style.mk.injEq]
  exact ⟨name_inj hchar, intDigits_inj htab, intDigits_inj hindent, intDigits_inj hcontinuation,
    intDigits_inj hwidth, hseparator, boolText_inj hjoin, boolText_inj houter, boolText_inj htags,
    hdisabling, henabling, intDigits_inj hblank, boolText_inj hannotations, hcomments, rfl⟩

end Injective

theorem sorted_perm (m : OptionMap) : m.sorted.Perm m := by
  have hinsert : ∀ (e : Bytes × Bytes) (m : OptionMap), (m.insertByKey e).Perm (e :: m) := by
    intro e m
    induction m with
    | nil => exact .refl _
    | cons f m ih =>
        rw [OptionMap.insertByKey]
        split_ifs
        · exact .refl _
        · exact (ih.cons f).trans (.swap e f m)
  induction m with
  | nil => exact .refl _
  | cons e m ih => exact (hinsert e _).trans (ih.cons e)

theorem key_mem_toOptions (s : Style) {o : Setting} (h : o ∈ settings) :
    o.key ∈ s.toOptions.map (·.1) :=
  List.mem_map.mpr ⟨(o.key, o.get s), List.mem_append_left _ (List.mem_map.mpr ⟨o, h, rfl⟩), rfl⟩

theorem contextKey_mem_toOptions (s : Style) {c : WrapContext} (h : c ∈ WrapContext.configurable) :
    c.key ∈ s.toOptions.map (·.1) :=
  List.mem_map.mpr ⟨(c.key, (s.policy c).render),
    List.mem_append_right _ (List.mem_map.mpr ⟨c, h, rfl⟩), rfl⟩

theorem apply_eq {s t u : Style} {o : OptionMap} {r r' : Report}
    (h : s.applyEach o.sorted = (t, r)) (h' : t.normalize = (u, r')) :
    s.apply o = (u, r ++ r') := by
  rw [apply, h]
  simp only [h']

/-- The style of the options that show a normal style is that style, with the indentation of each
policy that is used. -/
theorem ofOptions_toOptions {s : Style} (h : s.IsNormal) :
    ofOptions s.toOptions = (s.spoken, s.tagReport) := by
  have hperm := sorted_perm s.toOptions
  obtain ⟨u, hu, hcopies⟩ := applyEach_copies h s.toOptions.sorted (fun e he => hperm.mem_iff.mp he)
    default
  have hmap : (s.toOptions.sorted.map (·.1)).Perm (s.toOptions.map (·.1)) := hperm.map _
  have hkeys : ∀ k, k ∈ s.toOptions.map (·.1) → k ∈ s.toOptions.sorted.map (·.1) := fun _ =>
    hmap.mem_iff.mpr
  have hvalues : values u = values s := by
    refine List.ext_getElem? fun i => ?_
    rcases ho : settings[i]? with _ | o
    · have hnone : ∀ s, (values s)[i]? = none := fun s => by rw [values, List.getElem?_map, ho]; rfl
      rw [hnone, hnone]
    · rw [hcopies.values i o ho, if_pos (hkeys _ (key_mem_toOptions s (List.mem_of_getElem? ho)))]
  have hpolicies : u.policies = fun c => (s.policies c).spoken := by
    funext c
    rw [hcopies.policies c]
    by_cases hc : c.isConfigurable = true
    · have hmem := contextKey_mem_toOptions s ((mem_configurable_iff c).mpr hc)
      rw [if_pos ⟨hc, hkeys _ hmem⟩]
    · have hplain : c.isConfigurable = false := by simpa using hc
      rw [if_neg fun h => hc h.1, h.plain c hplain, hasValidPolicies_default.plain c hplain]
      rfl
  have hresult : u = s.spoken := by
    rw [eq_of_values_eq hvalues, hpolicies]
    rfl
  rw [hresult] at hu
  exact apply_eq hu (normalize_of_isNormal h.spoken)

/-- An option keeps the policies of a style valid. -/
theorem HasValidPolicies.applyOption {s : Style} (h : s.HasValidPolicies) (key value : Bytes) :
    (s.applyOption key value).1.HasValidPolicies := by
  unfold Style.applyOption
  cases ho : setting? key with
  | some o =>
      simp only
      cases hset : o.set? s value with
      | none => exact h
      | some t =>
          obtain ⟨i, hi⟩ := List.getElem?_of_mem (List.mem_of_find?_eq_some ho)
          have hzip : (o, i) ∈ settings.zipIdx := List.mem_zipIdx_iff_getElem?.mpr hi
          have hpolicies := (forall_setsOnly _ hzip s value t hset).2
          exact ⟨fun c => by rw [hpolicies]; exact h.isValid c,
            fun c hc => by rw [hpolicies]; exact h.plain c hc⟩
  | none =>
      simp only
      cases WrapContext.ofKey? key with
      | none => exact h
      | some c =>
          simp only
          cases hparse : Policy.parse value with
          | error e => exact h
          | ok p => exact h.withPolicy c (Policy.isValid_of_parse hparse)

/-- A style of options is normal. -/
theorem isNormal_ofOptions (o : OptionMap) : (ofOptions o).1.IsNormal := by
  have heach : ∀ (es : OptionMap) (t : Style), t.HasValidPolicies →
      (t.applyEach es).1.HasValidPolicies := by
    intro es
    induction es with
    | nil => exact fun t ht => ht
    | cons e es ih => exact fun t ht => ih _ (ht.applyOption e.1 e.2)
  exact isNormal_normalize (heach _ _ hasValidPolicies_default)

/-- The style that came from a map of options is shown as options that give it back, exactly if none
of its policies has both bits for the indentation. The only warning is the one about a tag that is
used and missing. -/
theorem ofOptions_toOptions_eq_iff (o : OptionMap) :
    let s := (ofOptions o).1
    ((ofOptions s.toOptions).1 = s ↔
        ∀ c ∈ WrapContext.configurable, (s.policies c).hasBothIndents = false) ∧
      (ofOptions s.toOptions).2 =
        if s.useTags && s.disablingTag.isEmpty then
          warn (.emptyTag useTagsSetting.key disablingTagSetting.key)
        else [] := by
  have hnormal := isNormal_ofOptions o
  generalize (ofOptions o).1 = s at hnormal
  simp only
  rw [ofOptions_toOptions hnormal]
  refine ⟨⟨fun heq c _ => ?_, fun hnone => ?_⟩, rfl⟩
  · rw [← Policy.spoken_eq_self_iff]
    exact congrFun (congrArg Style.policies heq) c
  · have hpolicies : (fun c => (s.policies c).spoken) = s.policies := by
      funext c
      by_cases hc : c.isConfigurable = true
      · exact (Policy.spoken_eq_self_iff _).mpr (hnone c ((mem_configurable_iff c).mpr hc))
      · rw [hnormal.plain c (by simpa using hc)]
        rfl
    rw [spoken, hpolicies]

/-- An option that is read as a policy sets it for its context. -/
theorem policies_ofOptions_singleton {c : WrapContext} (hc : c ∈ WrapContext.configurable)
    {v : Bytes} {p : Policy} (h : Policy.parse v = .ok p) :
    (ofOptions [(c.key, v)]).1.policies c = p := by
  have hconfigurable := (mem_configurable_iff c).mp hc
  have hset : (default : Style).applyOption c.key v = (withPolicy default c p, []) := by
    simp only [applyOption, setting?_context hc, ofKey?_key hc, h]
  have hpolicy : (withPolicy default c p).policies c = p := by
    rw [withPolicy, if_pos hconfigurable]
    exact if_pos rfl
  have hnormal : (normalPolicy c p).1 = p := by
    rw [normalPolicy, if_pos (Policy.isValid_of_parse h).2]
  calc (ofOptions [(c.key, v)]).1.policies c
      = (((default : Style).applyOption c.key v).1.normalize).1.policies c := rfl
    _ = (normalPolicy c ((withPolicy default c p).policies c)).1 := by rw [hset]; rfl
    _ = p := by rw [hpolicy, hnormal]

/-- A policy given by a number may have both bits for the indentation, and its words lose one. -/
theorem ofOptions_toOptions_drops_bit :
    let s := (ofOptions [(ascii "alignment_for_binary_expression", ascii "22")]).1
    (s.policies .binaryExpression).bits = 22 ∧ (ofOptions s.toOptions).1 ≠ s := by
  have hkey : ascii "alignment_for_binary_expression" = WrapContext.binaryExpression.key := by
    decide
  have hparse : Policy.parse (ascii "22") = .ok ⟨22⟩ := by
    decide
  have hpolicy := policies_ofOptions_singleton
    ((mem_configurable_iff .binaryExpression).mpr rfl) hparse
  rw [hkey]
  have hnormal := isNormal_ofOptions [(WrapContext.binaryExpression.key, ascii "22")]
  generalize (ofOptions [(WrapContext.binaryExpression.key, ascii "22")]).1 = s at hpolicy hnormal
  refine ⟨congrArg (·.bits) hpolicy, fun heq => ?_⟩
  have hspoken : (s.policies .binaryExpression).spoken = s.policies .binaryExpression := by
    rw [ofOptions_toOptions hnormal] at heq
    exact congrFun (congrArg Style.policies heq) .binaryExpression
  rw [hpolicy] at hspoken
  exact absurd hspoken (by decide)

end Style

end CodeLayout
