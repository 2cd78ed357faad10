import CodeLayout.Proofs.Style.Saved

/-!
# Options one by one

Every known key configures one field of a style or the policy of one context. What an option sets
there depends on its own text only, and normalizing looks at one field at a time. So a field of the
style that a map of options gives depends on the options under the key of that field, and on no
others, and normalizing such a style again changes nothing.
-/

namespace CodeLayout

/-- In the order of texts, one that is no greater than a greater one is in front of that. -/
theorem Bytes.before_of_not_before {a b c : Bytes} (hab : a.before b = true)
    (hcb : c.before b = false) : a.before c = true := by
  induction a generalizing b c with
  | nil =>
      cases c with
      | nil =>
          cases b with
          | nil => exact hab
          | cons y b => cases hcb
      | cons z c => rfl
  | cons x a ih =>
      cases b with
      | nil => cases hab
      | cons y b =>
          cases c with
          | nil => cases hcb
          | cons z c =>
              simp only [Bytes.before, Bool.or_eq_true, Bool.and_eq_true, decide_eq_true_eq,
                beq_iff_eq, Bool.or_eq_false_iff, Bool.and_eq_false_iff, decide_eq_false_iff_not,
                beq_eq_false_iff_ne] at hab hcb ⊢
              grind

theorem Bytes.before_asymm {a b : Bytes} (h : a.before b = true) : b.before a = false := by
  induction a generalizing b with
  | nil => cases b <;> rfl
  | cons x a ih =>
      cases b with
      | nil => cases h
      | cons y b =>
          simp only [Bytes.before, Bool.or_eq_true, Bool.and_eq_true, decide_eq_true_eq, beq_iff_eq,
            Bool.or_eq_false_iff, Bool.and_eq_false_iff, decide_eq_false_iff_not,
            beq_eq_false_iff_ne] at h ⊢
          grind

namespace OptionMap

/-- The map without an entry for a key. -/
def without (m : OptionMap) (key : Bytes) : OptionMap :=
  m.filter fun e => e.1 != key

theorem set_eq (m : OptionMap) (key value : Bytes) :
    m.set key value = m.without key ++ [(key, value)] :=
  rfl

/-- Whether no entry has a smaller key than one in front of it. -/
def IsSorted (m : OptionMap) : Prop :=
  m.Pairwise fun e f => f.1.before e.1 = false

theorem mem_insertByKey {e f : Bytes × Bytes} {m : OptionMap} :
    f ∈ m.insertByKey e ↔ f = e ∨ f ∈ m := by
  induction m with
  | nil => simp [insertByKey]
  | cons g m ih =>
      rw [insertByKey]
      split_ifs
      · exact List.mem_cons
      · rw [List.mem_cons, ih, List.mem_cons]
        exact or_left_comm

/-- In front of an entry with a greater key stands an entry in front of all behind that one. -/
theorem IsSorted.before_of_mem {e g : Bytes × Bytes} {m : OptionMap} (h : IsSorted (g :: m))
    (hbefore : e.1.before g.1 = true) : ∀ f ∈ g :: m, e.1.before f.1 = true := by
  obtain ⟨hg, -⟩ := List.pairwise_cons.mp h
  exact List.forall_mem_cons.mpr
    ⟨hbefore, fun f hf => Bytes.before_of_not_before hbefore (hg f hf)⟩

theorem IsSorted.insertByKey {m : OptionMap} (h : m.IsSorted) (e : Bytes × Bytes) :
    (m.insertByKey e).IsSorted := by
  induction m with
  | nil => exact List.pairwise_singleton _ _
  | cons g m ih =>
      obtain ⟨hg, hm⟩ := List.pairwise_cons.mp h
      rw [OptionMap.insertByKey]
      split_ifs with hbefore
      · exact List.pairwise_cons.mpr
          ⟨fun f hf => Bytes.before_asymm (h.before_of_mem hbefore f hf), h⟩
      · refine List.pairwise_cons.mpr ⟨fun f hf => ?_, ih hm⟩
        rcases mem_insertByKey.mp hf with rfl | hf
        · simpa using hbefore
        · exact hg f hf

theorem isSorted_sorted (m : OptionMap) : m.sorted.IsSorted := by
  induction m with
  | nil => exact .nil
  | cons e m ih => exact ih.insertByKey e

theorem insertByKey_of_before {e : Bytes × Bytes} {m : OptionMap}
    (h : ∀ f ∈ m, e.1.before f.1 = true) : m.insertByKey e = e :: m := by
  cases m with
  | nil => rfl
  | cons g m => rw [insertByKey, if_pos (h g List.mem_cons_self)]

theorem IsSorted.filter_insertByKey {m : OptionMap} (h : m.IsSorted) (p : Bytes × Bytes → Bool)
    (e : Bytes × Bytes) :
    (m.insertByKey e).filter p =
      if p e then OptionMap.insertByKey e (m.filter p) else m.filter p := by
  induction m with
  | nil =>
      rw [OptionMap.insertByKey, List.filter_cons]
      rfl
  | cons g m ih =>
      have ih := ih (List.pairwise_cons.mp h).2
      rw [OptionMap.insertByKey]
      split_ifs with hbefore hp hp
      · have hfront := h.before_of_mem hbefore
        rw [List.filter_cons_of_pos hp, insertByKey_of_before]
        exact fun f hf => hfront f (List.mem_of_mem_filter hf)
      · rw [List.filter_cons_of_neg hp]
      · rw [if_pos hp] at ih
        rw [List.filter_cons, List.filter_cons, ih]
        split_ifs
        · rw [OptionMap.insertByKey, if_neg hbefore]
        · rfl
      · rw [if_neg hp] at ih
        rw [List.filter_cons, List.filter_cons, ih]

/-- What is left out of a map may be left out before its entries are put in order. -/
theorem filter_sorted (m : OptionMap) (p : Bytes × Bytes → Bool) :
    m.sorted.filter p = OptionMap.sorted (m.filter p) := by
  induction m with
  | nil => rfl
  | cons e m ih =>
      calc (sorted (e :: m)).filter p
          = if p e then insertByKey e ((sorted m).filter p) else (sorted m).filter p :=
            (isSorted_sorted m).filter_insertByKey p e
        _ = sorted ((e :: m).filter p) := by
            rw [ih, List.filter_cons]
            split_ifs <;> rfl

/-- Behind the entries without a key the new entry is the only one for that key. -/
theorem filter_set_self (m : OptionMap) (key value : Bytes) :
    (m.set key value).filter (fun e => e.1 == key) = [(key, value)] := by
  have hnone : (m.without key).filter (fun e => e.1 == key) = [] :=
    List.filter_eq_nil_iff.mpr fun e he => by simpa using (List.mem_filter.mp he).2
  rw [set_eq, List.filter_append, hnone]
  simp

theorem filter_set_of_ne (m : OptionMap) {key : Bytes} (value : Bytes) {p : Bytes × Bytes → Bool}
    (h : p (key, value) = false) : (m.set key value).filter p = (m.without key).filter p := by
  rw [set_eq, List.filter_append, List.filter_cons_of_neg (by simp [h]), List.filter_nil,
    List.append_nil]

end OptionMap

namespace Style

/-- What a style settles under one key. -/
inductive Field where
  | indentChar
  | separator
  | tabSize
  | indentSize
  | continuation
  | pageWidth
  | blankLines
  | lineLength
  | joinWrapped
  | wrapOuter
  | useTags
  | breakAfterAnnotations
  | lineComments
  | blockComments
  | docComments
  | header
  | joinLines
  | indentRootTags
  | disablingTag
  | enablingTag
  /-- The policy of a context that has one. -/
  | policy (c : WrapContext) (h : c.isConfigurable = true)
  deriving DecidableEq

/-- What a field holds. -/
inductive FieldValue where
  | indentChar (c : IndentChar)
  | number (n : Int)
  | flag (b : Bool)
  | text (t : Bytes)
  | policy (p : Policy)
  deriving DecidableEq

namespace Field

/-- What a style holds in a field. -/
def value (f : Field) (s : Style) : FieldValue :=
  match f with
  | indentChar => .indentChar s.indentChar
  | separator => .text s.separator
  | tabSize => .number s.tabSize
  | indentSize => .number s.indentSize
  | continuation => .number s.continuation
  | pageWidth => .number s.pageWidth
  | blankLines => .number s.blankLines
  | lineLength => .number s.comments.lineLength
  | joinWrapped => .flag s.joinWrapped
  | wrapOuter => .flag s.wrapOuter
  | useTags => .flag s.useTags
  | breakAfterAnnotations => .flag s.breakAfterAnnotations
  | lineComments => .flag s.comments.lineComments
  | blockComments => .flag s.comments.blockComments
  | docComments => .flag s.comments.docComments
  | header => .flag s.comments.header
  | joinLines => .flag s.comments.joinLines
  | indentRootTags => .flag s.comments.indentRootTags
  | disablingTag => .text s.disablingTag
  | enablingTag => .text s.enablingTag
  | policy c _ => .policy (s.policies c)

/-- The key that configures a field. -/
def key : Field → Bytes
  | indentChar => ascii "tabulation.char"
  | separator => ascii "line_separator"
  | tabSize => ascii "tabulation.size"
  | indentSize => ascii "indentation.size"
  | continuation => ascii "continuation_indentation"
  | pageWidth => ascii "page_width"
  | blankLines => ascii "number_of_empty_lines_to_preserve"
  | lineLength => ascii "comment.line_length"
  | joinWrapped => ascii "join_wrapped_lines"
  | wrapOuter => ascii "wrap_outer_expressions_when_nested"
  | useTags => ascii "use_on_off_tags"
  | breakAfterAnnotations => ascii "insert_new_line_after_annotation"
  | lineComments => ascii "comment.format_line_comments"
  | blockComments => ascii "comment.format_block_comments"
  | docComments => ascii "comment.format_javadoc_comments"
  | header => ascii "comment.format_header"
  | joinLines => ascii "comment.join_lines_in_comments"
  | indentRootTags => ascii "comment.indent_root_tags"
  | disablingTag => ascii "disabling_tag"
  | enablingTag => ascii "enabling_tag"
  | policy c _ => c.key

/-- What a text stands for in a field, if it can be read. -/
def read? (f : Field) (v : Bytes) : Option FieldValue :=
  match f with
  | indentChar => (readIndentChar? v).map .indentChar
  | separator => (readSeparator? v).map .text
  | tabSize | indentSize | continuation | pageWidth | blankLines | lineLength =>
    (readInt? v.trim).map .number
  | joinWrapped | wrapOuter | useTags | breakAfterAnnotations | lineComments | blockComments
  | docComments | header | joinLines | indentRootTags => (readBool? v).map .flag
  | disablingTag | enablingTag => some (.text v)
  | policy _ _ => (Policy.parse v).toOption.map .policy

/-- The greatest number in a field. -/
def greatest : Field → Int
  | pageWidth | lineLength => maxWidth
  | blankLines => maxBlank
  | _ => maxIndent

/-- What normalizing makes of the value of a field. -/
def normal (f : Field) : FieldValue → FieldValue
  | .indentChar c => .indentChar (normalIndentChar c).1
  | .number n => .number (clamp f.key 0 f.greatest n).1
  | .flag b => .flag b
  | .text t => .text (if f = separator then (normalSeparator t).1 else t.trim)
  | .policy p => .policy (if p.split?.isSome then p else .ofSplit .compact)

/-- The fields in the order of the settings, and then of the contexts. -/
def all : List Field :=
  [indentChar, separator, tabSize, indentSize, continuation, pageWidth, blankLines, lineLength,
    joinWrapped, wrapOuter, useTags, breakAfterAnnotations, lineComments, blockComments,
    docComments, header, joinLines, indentRootTags, disablingTag, enablingTag] ++
  WrapContext.configurable.attach.map fun c => policy c.1 ((mem_configurable_iff c.1).mp c.2)

theorem mem_all (f : Field) : f ∈ all := by
  cases f with
  | policy c h =>
      refine List.mem_append_right _ (List.mem_map.mpr ?_)
      exact ⟨⟨c, (mem_configurable_iff c).mpr h⟩, List.mem_attach _ _, rfl⟩
  | _ => exact List.mem_append_left _ (by decide)

theorem map_key_all :
    all.map key = settings.map (·.key) ++ WrapContext.configurable.map (·.key) := by
  rfl

/-- No two fields have the same key. -/
theorem key_inj {f g : Field} (h : f.key = g.key) : f = g := by
  have hnodup : (all.map key).Nodup := map_key_all ▸ keys_nodup
  exact List.inj_on_of_nodup_map hnodup (mem_all f) (mem_all g) h

theorem mem_keys_iff {k : Bytes} : k ∈ keys ↔ ∃ f : Field, f.key = k := by
  have hperm : keys.Perm (all.map key) := by
    have hmap : bare.toOptions.map (·.1) = all.map key := by
      rw [map_key_all, toOptions, List.map_append, List.map_map, List.map_map]
      rfl
    rw [keys, ← hmap]
    exact (sorted_perm bare.toOptions).map _
  rw [hperm.mem_iff, List.mem_map]
  exact ⟨fun ⟨f, _, hf⟩ => ⟨f, hf⟩, fun ⟨f, hf⟩ => ⟨f, mem_all f, hf⟩⟩

/-- Whether a style is another one with a text in one field, as far as the text can be read. -/
def Sets (f : Field) (v : Bytes) (s t : Style) : Prop :=
  f.value t = (f.read? v).getD (f.value s) ∧ ∀ g ≠ f, g.value t = g.value s

section Sets

variable {f g : Field} {s t : Style} {k v : Bytes}

theorem Sets.value_eq (h : f.Sets v s t) (g : Field) :
    g.value t = if f.key = g.key then (g.read? v).getD (g.value s) else g.value s := by
  by_cases hfg : g = f
  · rw [hfg, if_pos rfl, h.1]
  · rw [if_neg fun hkey => hfg (key_inj hkey.symm), h.2 g hfg]

/-- A text is put into a field as what it is read as. -/
theorem sets_of_map {α : Type} {read : Bytes → Option α} {wrap : α → FieldValue}
    {set : Style → α → Style} {set? : Style → Bytes → Option Style}
    (hset : ∀ s v, set? s v = (read v).map (set s)) (hread : ∀ v, f.read? v = (read v).map wrap)
    (hown : ∀ s a, f.value (set s a) = wrap a)
    (hother : ∀ s a g, g ≠ f → g.value (set s a) = g.value s) (s : Style) (v : Bytes) :
    f.Sets v s ((set? s v).getD s) := by
  unfold Sets
  rw [hread, hset]
  cases read v with
  | none => exact ⟨rfl, fun _ _ => rfl⟩
  | some a => exact ⟨hown s a, hother s a⟩

theorem sets_indentChar : ∀ s v, indentChar.Sets v s ((indentCharSetting.set? s v).getD s) := by
  have hset : ∀ s v, indentCharSetting.set? s v =
      (readIndentChar? v).map fun c => { s with indentChar := c } := fun _ _ => rfl
  have hread : ∀ v, indentChar.read? v = (readIndentChar? v).map .indentChar := fun _ => rfl
  refine sets_of_map hset hread (fun _ _ => rfl) fun _ _ g hg => ?_
  cases g <;> first | rfl | exact absurd rfl hg

theorem sets_separator : ∀ s v, separator.Sets v s ((separatorSetting.set? s v).getD s) := by
  have hset : ∀ s v, separatorSetting.set? s v =
      (readSeparator? v).map fun sep => { s with separator := sep } := fun _ _ => rfl
  have hread : ∀ v, separator.read? v = (readSeparator? v).map .text := fun _ => rfl
  refine sets_of_map hset hread (fun _ _ => rfl) fun _ _ g hg => ?_
  cases g <;> first | rfl | exact absurd rfl hg

theorem sets_int {key : String} {get : Style → Int} {set : Style → Int → Style}
    (hread : ∀ v, f.read? v = (readInt? v.trim).map .number)
    (hown : ∀ s n, f.value (set s n) = .number n)
    (hother : ∀ s n g, g ≠ f → g.value (set s n) = g.value s) :
    ∀ s v, f.Sets v s (((Setting.int key get set).set? s v).getD s) :=
  sets_of_map (fun _ => Setting.set?_int get set) hread hown hother

theorem sets_bool {key : String} {get : Style → Bool} {set : Style → Bool → Style}
    (hread : ∀ v, f.read? v = (readBool? v).map .flag)
    (hown : ∀ s b, f.value (set s b) = .flag b)
    (hother : ∀ s b g, g ≠ f → g.value (set s b) = g.value s) :
    ∀ s v, f.Sets v s (((Setting.bool key get set).set? s v).getD s) :=
  sets_of_map (fun _ => Setting.set?_bool get set) hread hown hother

theorem sets_text {key : String} {get : Style → Bytes} {set : Style → Bytes → Style}
    (hread : ∀ v, f.read? v = some (.text v)) (hown : ∀ s t, f.value (set s t) = .text t)
    (hother : ∀ s t g, g ≠ f → g.value (set s t) = g.value s) :
    ∀ s v, f.Sets v s (((Setting.text key get set).set? s v).getD s) := by
  have hset : ∀ s v, (Setting.text key get set).set? s v = (some v).map (set s) := fun _ _ => rfl
  exact sets_of_map hset hread hown hother

/-- Every setting sets one field, and has the key of that field. -/
theorem exists_sets : ∀ o ∈ settings, ∃ f : Field, f.key = o.key ∧
    ∀ s v, f.Sets v s ((o.set? s v).getD s) := by
  simp only [settings, List.forall_mem_cons]
  refine ⟨⟨_, rfl, sets_indentChar⟩, ⟨_, rfl, sets_separator⟩, ⟨tabSize, rfl, ?_⟩,
    ⟨indentSize, rfl, ?_⟩, ⟨continuation, rfl, ?_⟩, ⟨pageWidth, rfl, ?_⟩, ⟨blankLines, rfl, ?_⟩,
    ⟨lineLength, rfl, ?_⟩, ⟨joinWrapped, rfl, ?_⟩, ⟨wrapOuter, rfl, ?_⟩, ⟨useTags, rfl, ?_⟩,
    ⟨breakAfterAnnotations, rfl, ?_⟩, ⟨lineComments, rfl, ?_⟩, ⟨blockComments, rfl, ?_⟩,
    ⟨docComments, rfl, ?_⟩, ⟨header, rfl, ?_⟩, ⟨joinLines, rfl, ?_⟩, ⟨indentRootTags, rfl, ?_⟩,
    ⟨disablingTag, rfl, ?_⟩, ⟨enablingTag, rfl, ?_⟩, fun _ h => absurd h List.not_mem_nil⟩
  -- Six numbers, ten truth values and two texts.
  iterate 6
    · refine sets_int (fun _ => rfl) (fun _ _ => rfl) fun _ _ g hg => ?_
      cases g <;> first | rfl | exact absurd rfl hg
  iterate 10
    · refine sets_bool (fun _ => rfl) (fun _ _ => rfl) fun _ _ g hg => ?_
      cases g <;> first | rfl | exact absurd rfl hg
  iterate 2
    · refine sets_text (fun _ => rfl) (fun _ _ => rfl) fun _ _ g hg => ?_
      cases g <;> first | rfl | exact absurd rfl hg

theorem sets_policy {c : WrapContext} (h : c.isConfigurable = true) : ∀ s v,
    (policy c h).Sets v s (((Policy.parse v).toOption.map (s.withPolicy c)).getD s) := by
  have hset : ∀ (s : Style) (v : Bytes), (Policy.parse v).toOption.map (s.withPolicy c) =
      (Policy.parse v).toOption.map fun p => s.withPolicy c p := fun _ _ => rfl
  have hread : ∀ v, (policy c h).read? v = (Policy.parse v).toOption.map .policy := fun _ => rfl
  refine sets_of_map hset hread (fun s p => ?_) fun s p g hg => ?_
  · simp [value, withPolicy, h]
  · cases g with
    | policy d hd =>
        have hne : d ≠ c := fun hdc => hg (by subst hdc; rfl)
        simp [value, withPolicy, h, hne]
    | _ =>
        rw [withPolicy, if_pos h]
        rfl

/-- A known option sets the field with its key. -/
theorem sets_applyOption (f : Field) (s : Style) (v : Bytes) :
    f.Sets v s (s.applyOption f.key v).1 := by
  unfold Style.applyOption
  cases ho : setting? f.key with
  | some o =>
      obtain ⟨g, hkey, hsets⟩ := exists_sets o (List.mem_of_find?_eq_some ho)
      have hof : o.key = f.key := by simpa using List.find?_some ho
      obtain rfl : g = f := key_inj (hkey.trans hof)
      have hset := hsets s v
      simp only
      cases hv : o.set? s v <;> rw [hv] at hset <;> exact hset
  | none =>
      cases hc : WrapContext.ofKey? f.key with
      | some c =>
          have hconfigurable := (mem_configurable_iff c).mp (List.mem_of_find?_eq_some hc)
          have hcf : c.key = f.key := by simpa using List.find?_some hc
          obtain rfl : policy c hconfigurable = f := key_inj hcf
          have hset := sets_policy hconfigurable s v
          simp only
          cases hv : Policy.parse v <;> rw [hv] at hset <;> exact hset
      | none =>
          -- Every field has the key of a setting or of a context.
          have hmem : f.key ∈ all.map key := List.mem_map_of_mem (mem_all f)
          rw [map_key_all, List.mem_append, List.mem_map, List.mem_map] at hmem
          rcases hmem with ⟨o, hmem, hkey⟩ | ⟨c, hmem, hkey⟩
          · rw [← hkey, setting?_key hmem] at ho
            cases ho
          · rw [← hkey, ofKey?_key hmem] at hc
            cases hc

end Sets

end Field

theorem applyOption_of_not_mem_keys {key : Bytes} (h : key ∉ keys) (s : Style) (value : Bytes) :
    (s.applyOption key value).1 = s := by
  unfold applyOption
  have hnone : ∀ f : Field, f.key ≠ key := fun f hf => h (Field.mem_keys_iff.mpr ⟨f, hf⟩)
  cases ho : setting? key with
  | some o =>
      obtain ⟨f, hkey, -⟩ := Field.exists_sets o (List.mem_of_find?_eq_some ho)
      have hof : o.key = key := by simpa using List.find?_some ho
      exact absurd (hkey.trans hof) (hnone f)
  | none =>
      cases hc : WrapContext.ofKey? key with
      | some c =>
          have hconfigurable := (mem_configurable_iff c).mp (List.mem_of_find?_eq_some hc)
          have hcf : c.key = key := by simpa using List.find?_some hc
          exact absurd hcf (hnone (.policy c hconfigurable))
      | none => rfl

namespace Field

variable (f : Field) (s : Style)

/-- An option changes the field with its key, and no other. -/
theorem value_applyOption (k v : Bytes) : f.value (s.applyOption k v).1 =
    if k = f.key then (f.read? v).getD (f.value s) else f.value s := by
  by_cases hk : k ∈ keys
  · obtain ⟨g, rfl⟩ := mem_keys_iff.mp hk
    exact (sets_applyOption g s v).value_eq f
  · rw [applyOption_of_not_mem_keys hk, if_neg]
    exact fun hkey => hk (mem_keys_iff.mpr ⟨f, hkey.symm⟩)

/-- The value of a field after the texts of the options under its key. -/
def valueAfter (es : OptionMap) : FieldValue :=
  es.foldl (fun w e => (f.read? e.2).getD w) (f.value s)

/-- Of the options that are applied, a field depends on those under its key. -/
theorem value_applyEach (es : OptionMap) : f.value (s.applyEach es).1 =
    f.valueAfter s (es.filter fun e => e.1 == f.key) := by
  induction es generalizing s with
  | nil => rfl
  | cons e es ih =>
      obtain ⟨k, v⟩ := e
      calc f.value (s.applyEach ((k, v) :: es)).1
          = f.value ((s.applyOption k v).1.applyEach es).1 := rfl
        _ = f.valueAfter (s.applyOption k v).1 (es.filter fun e => e.1 == f.key) := ih _
        _ = f.valueAfter s (((k, v) :: es).filter fun e => e.1 == f.key) := by
            rw [valueAfter, value_applyOption, List.filter_cons, valueAfter]
            by_cases hk : k = f.key <;> simp [hk]

/-- Normalizing looks at one field at a time. -/
theorem value_normalize : f.value s.normalize.1 = f.normal (f.value s) := by
  cases f with
  | pageWidth =>
      refine congrArg FieldValue.number ?_
      change (clamp _ 0 maxWidth (max s.pageWidth 0)).1 = (clamp _ 0 maxWidth s.pageWidth).1
      unfold clamp maxWidth
      split_ifs <;> simp only <;> omega
  | policy c h =>
      refine congrArg FieldValue.policy ?_
      change (normalPolicy c (s.policies c)).1 = _
      unfold normalPolicy
      split_ifs <;> rfl
  | _ => rfl

theorem normal_normal (w : FieldValue) : f.normal (f.normal w) = f.normal w := by
  cases w with
  | indentChar c => cases c <;> rfl
  | number n =>
      have hgreatest : 0 ≤ f.greatest := by
        unfold greatest
        split <;> decide
      have hclamp := clamp_eq f.key (clamp_bounds f.key hgreatest n)
      exact congrArg (fun r => FieldValue.number r.1) hclamp
  | flag b => rfl
  | text t =>
      refine congrArg FieldValue.text ?_
      split_ifs
      · rw [normalSeparator_eq (normalSeparator_mem t)]
      · exact Bytes.trim_trim t
  | policy p =>
      refine congrArg FieldValue.policy ?_
      split_ifs <;> rfl

/-- A field of the style that a map of options gives depends on the options under its key. -/
theorem value_apply (o : OptionMap) : f.value (s.apply o).1 =
    f.normal (f.valueAfter s (OptionMap.sorted (o.filter fun e => e.1 == f.key))) := by
  calc f.value (s.apply o).1 = f.value (s.applyEach o.sorted).1.normalize.1 := rfl
    _ = _ := by rw [value_normalize, value_applyEach, OptionMap.filter_sorted]

/-- Two texts for a field that do not stand for the same. -/
theorem exists_texts : ∃ v v' w w', f.read? v = some w ∧ f.read? v' = some w' ∧
    f.normal w ≠ f.normal w' := by
  cases f with
  | indentChar => exact ⟨ascii "tab", ascii "space", _, _, rfl, rfl, by decide⟩
  | separator => exact ⟨ascii "lf", ascii "cr", _, _, rfl, rfl, by decide⟩
  | tabSize | indentSize | continuation | pageWidth | blankLines | lineLength =>
      exact ⟨ascii "1", ascii "2", .number 1, .number 2, by decide, by decide, by decide⟩
  | joinWrapped | wrapOuter | useTags | breakAfterAnnotations | lineComments | blockComments
  | docComments | header | joinLines | indentRootTags =>
      exact ⟨ascii "true", ascii "false", .flag true, .flag false, by decide, by decide, by decide⟩
  | disablingTag | enablingTag => exact ⟨ascii "a", ascii "b", _, _, rfl, rfl, by decide⟩
  | policy c h =>
      have hread : ∀ v, (policy c h).read? v = (Policy.parse v).toOption.map .policy := fun _ => rfl
      refine ⟨ascii "0", ascii "16", .policy ⟨0⟩, .policy ⟨16⟩, ?_, ?_, ?_⟩
      · rw [hread]
        decide
      · rw [hread]
        decide
      · simp only [normal]
        decide

end Field

/-- What the fields of a style hold determines all of it but the policies that have no key. -/
theorem eq_of_value_eq {s t : Style} (h : ∀ f : Field, f.value s = f.value t) :
    s = { t with policies := s.policies } := by
  have hcomments : s.comments = t.comments := by
    rw [CommentRules.mk.injEq]
    exact ⟨FieldValue.flag.inj (h .lineComments), FieldValue.flag.inj (h .blockComments),
      FieldValue.flag.inj (h .docComments), FieldValue.flag.inj (h .header),
      FieldValue.flag.inj (h .joinLines), FieldValue.flag.inj (h .indentRootTags),
      FieldValue.number.inj (h .lineLength)⟩
  rw [Style.mk.injEq]
  exact ⟨FieldValue.indentChar.inj (h .indentChar), FieldValue.number.inj (h .tabSize),
    FieldValue.number.inj (h .indentSize), FieldValue.number.inj (h .continuation),
    FieldValue.number.inj (h .pageWidth), FieldValue.text.inj (h .separator),
    FieldValue.flag.inj (h .joinWrapped), FieldValue.flag.inj (h .wrapOuter),
    FieldValue.flag.inj (h .useTags), FieldValue.text.inj (h .disablingTag),
    FieldValue.text.inj (h .enablingTag), FieldValue.number.inj (h .blankLines),
    FieldValue.flag.inj (h .breakAfterAnnotations), hcomments, rfl⟩

/-- Two styles agree exactly if they hold the same in every field. -/
theorem agrees_iff (s t : Style) : s.agrees t = true ↔ ∀ f : Field, f.value s = f.value t := by
  constructor
  · intro h f
    simp only [agrees, Bool.and_eq_true, decide_eq_true_eq, List.all_eq_true] at h
    obtain ⟨hplain, hpolicies⟩ := h
    cases f with
    | policy c h =>
        exact congrArg FieldValue.policy (hpolicies c ((mem_configurable_iff c).mpr h))
    | _ => simp only [Field.value, hplain]
  · intro h
    have hpolicies : ∀ c ∈ WrapContext.configurable, s.policies c = t.policies c := fun c hc =>
      FieldValue.policy.inj (h (.policy c ((mem_configurable_iff c).mp hc)))
    rw [eq_of_value_eq h]
    simpa [agrees] using hpolicies

/-- Nothing is left to normalize in a style that was normalized, whatever its policies were. -/
theorem normalize_normalize (s : Style) : s.normalize.1.normalize.1 = s.normalize.1 := by
  have hfields : ∀ f : Field, f.value s.normalize.1.normalize.1 = f.value s.normalize.1 := by
    intro f
    rw [f.value_normalize, f.value_normalize, f.normal_normal]
  have hpolicies : s.normalize.1.normalize.1.policies = s.normalize.1.policies := by
    funext c
    change (normalPolicy c (normalPolicy c (s.policies c)).1).1 = (normalPolicy c (s.policies c)).1
    unfold normalPolicy
    split_ifs <;> rfl
  rw [eq_of_value_eq hfields, hpolicies]

/-- Options under a key that is not known are passed over. -/
theorem applyEach_without {key : Bytes} (h : key ∉ keys) (s : Style) (es : OptionMap) :
    (s.applyEach (es.without key)).1 = (s.applyEach es).1 := by
  induction es generalizing s with
  | nil => rfl
  | cons e es ih =>
      obtain ⟨k, v⟩ := e
      have hcons : (s.applyEach ((k, v) :: es)).1 = ((s.applyOption k v).1.applyEach es).1 := rfl
      rw [hcons, ← ih, OptionMap.without, List.filter_cons]
      by_cases hk : k = key
      · rw [hk, applyOption_of_not_mem_keys h]
        simp [OptionMap.without]
      · simp [hk, applyEach, OptionMap.without]

/-- Options are independent of each other. The fields are all that two styles can differ in, and
under every key that is known stands one of them. An option changes no other field than the one with
its key, and nothing at all if its key is not known; and there is a text by which it changes that
field. Nothing is left to normalize behind the options. -/
theorem apply_set_frame (s : Style) (o : OptionMap) (key : Bytes) :
    (∀ t, s.agrees t = true ↔ ∀ f : Field, f.value s = f.value t) ∧
      (key ∈ keys ↔ ∃! f : Field, f.key = key) ∧
      (∀ value, ∀ f : Field, f.key ≠ key →
        f.value (s.apply (o.set key value)).1 = f.value (s.apply (o.without key)).1) ∧
      (∀ f : Field, f.key = key → ∃ value,
        f.value (s.apply (o.set key value)).1 ≠ f.value (s.apply (o.without key)).1) ∧
      (key ∉ keys → ∀ value, (s.apply (o.set key value)).1 = (s.apply (o.without key)).1) ∧
      (s.apply o).1.normalize.1 = (s.apply o).1 := by
  refine ⟨agrees_iff s, ?_, fun value f hf => ?_, fun f hf => ?_, fun hkey value => ?_,
    normalize_normalize _⟩
  · rw [Field.mem_keys_iff]
    exact ⟨fun ⟨f, hf⟩ => ⟨f, hf, fun g hg => Field.key_inj (hg.trans hf.symm)⟩, fun h => h.exists⟩
  · have hother : (fun e : Bytes × Bytes => e.1 == f.key) (key, value) = false := by
      simpa using hf.symm
    rw [Field.value_apply, Field.value_apply, OptionMap.filter_set_of_ne o value hother]
  · obtain ⟨v, v', w, w', hv, hv', hne⟩ := f.exists_texts
    have hset : ∀ {v w}, f.read? v = some w →
        f.value (s.apply (o.set key v)).1 = f.normal w := fun {v w} hread => by
      rw [Field.value_apply, hf, OptionMap.filter_set_self]
      simp [OptionMap.sorted, OptionMap.insertByKey, Field.valueAfter, hread]
    by_cases hsame : f.normal w = f.value (s.apply (o.without key)).1
    · exact ⟨v', fun h => hne (by rw [hsame, ← h, hset hv'])⟩
    · exact ⟨v, fun h => hsame (by rw [← h, hset hv])⟩
  · have happly : ∀ o : OptionMap, (s.apply o).1 = (s.apply (o.without key)).1 := fun o => by
      change (s.applyEach o.sorted).1.normalize.1 =
        (s.applyEach (o.without key).sorted).1.normalize.1
      rw [← applyEach_without hkey, OptionMap.without, OptionMap.filter_sorted]
      rfl
    rw [happly, happly (o.without key), OptionMap.without, OptionMap.filter_set_of_ne _ _ (by simp)]
    rfl

end Style

end CodeLayout
