import CodeLayout.Data.Yaml.Resolve
import Mathlib.Data.List.Perm.Basic

/-!
# Tables in any order

The entries of a table come in no order, so the options that nested tables stand for should not
depend on the order in which the entries of each table are visited. A key with dots may spell the
same option as a key in a nested table. Where the two have different texts, the one that is visited
last counts, and each of them is the last one in some order. So the options do not depend on the
order exactly if no key is given two texts.
-/

namespace CodeLayout

namespace OptionMap

variable {m es es' : OptionMap}

/-- Whether no key has two texts. -/
def IsUnambiguous (m : OptionMap) : Prop :=
  ∀ key v v', (key, v) ∈ m → (key, v') ∈ m → v = v'

theorem lookup_set (m : OptionMap) (k v key : Bytes) :
    (m.set k v).lookup key = if key = k then some v else m.lookup key := by
  have hfilter : (m.filter fun e => e.1 != k).lookup key =
      if key = k then none else m.lookup key := by
    induction m with
    | nil => simp
    | cons e m ih =>
        obtain ⟨a, b⟩ := e
        grind
  rw [set, List.lookup_append, hfilter, List.lookup_cons]
  by_cases hkey : key = k
  · simp [hkey]
  · rw [beq_false_of_ne hkey]
    simp [hkey]

/-- Of the entries that are put into a map one after the other, the last one for a key counts. -/
theorem lookup_foldl_set (es m : OptionMap) (key : Bytes) :
    (es.foldl (fun m (k, v) => m.set k v) m).lookup key = (es.reverse ++ m).lookup key := by
  induction es generalizing m with
  | nil => rfl
  | cons e es ih =>
      obtain ⟨k, v⟩ := e
      rw [List.foldl_cons, ih, List.reverse_cons, List.append_assoc, List.singleton_append,
        List.lookup_append, List.lookup_append, List.lookup_cons, lookup_set]
      by_cases hkey : key = k
      · simp [hkey]
      · rw [beq_false_of_ne hkey]
        simp [hkey]

theorem IsUnambiguous.lookup_eq_some_iff (h : m.IsUnambiguous) {key v : Bytes} :
    m.lookup key = some v ↔ (key, v) ∈ m := by
  constructor
  · intro hlookup
    obtain ⟨l, r, rfl, -⟩ := List.lookup_eq_some_iff.mp hlookup
    simp
  · intro hmem
    obtain ⟨w, hw⟩ : ∃ w, m.lookup key = some w := by
      rw [← Option.isSome_iff_exists, Option.isSome_iff_ne_none, ne_eq, List.lookup_eq_none_iff]
      exact fun hnone => by simpa using hnone _ hmem
    obtain ⟨l, r, rfl, -⟩ := List.lookup_eq_some_iff.mp hw
    rw [hw, h key w v (by simp) hmem]

/-- Where no key has two texts, the order of the entries does not matter. -/
theorem IsUnambiguous.lookup_perm (h : es.IsUnambiguous) (hperm : es.Perm es') (key : Bytes) :
    es.lookup key = es'.lookup key := by
  have h' : es'.IsUnambiguous := fun key v v' hv hv' =>
    h key v v' (hperm.mem_iff.mpr hv) (hperm.mem_iff.mpr hv')
  refine Option.ext fun v => ?_
  rw [h.lookup_eq_some_iff, h'.lookup_eq_some_iff, hperm.mem_iff]

end OptionMap

namespace Value

/-- The entries of a table in another order, and so the entries of the tables in it: each entry
stays as it is or, if it is a table, has its own entries in another order, and all of them are put
in any order. -/
inductive Reordered : List (Bytes × Value) → List (Bytes × Value) → Prop
  | nil : Reordered [] []
  | value {key : Bytes} {v : Value} {rest rest' entries : List (Bytes × Value)}
      (hrest : Reordered rest rest') (hentries : entries.Perm ((key, v) :: rest')) :
      Reordered ((key, v) :: rest) entries
  | table {key : Bytes} {inner inner' rest rest' entries : List (Bytes × Value)}
      (hinner : Reordered inner inner') (hrest : Reordered rest rest')
      (hentries : entries.Perm ((key, .table inner') :: rest')) :
      Reordered ((key, .table inner) :: rest) entries

variable {outer : Bytes} {entries entries' : List (Bytes × Value)}

theorem Reordered.refl (entries : List (Bytes × Value)) : Reordered entries entries := by
  induction entries with
  | nil => exact .nil
  | cons e entries ih => exact .value ih (.refl _)

theorem flattenTable_eq (outer : Bytes) (entries : List (Bytes × Value)) :
    flattenTable outer entries = entries.flatMap fun e => flatten (joinKey outer e.1) e.2 := by
  induction entries with
  | nil => rfl
  | cons e entries ih => rw [flattenTable, ih, List.flatMap_cons]

theorem flattenTable_append (outer : Bytes) (entries entries' : List (Bytes × Value)) :
    flattenTable outer (entries ++ entries') =
      flattenTable outer entries ++ flattenTable outer entries' := by
  simp only [flattenTable_eq, List.flatMap_append]

theorem flattenTable_perm (outer : Bytes) (h : entries.Perm entries') :
    (flattenTable outer entries).Perm (flattenTable outer entries') := by
  rw [flattenTable_eq, flattenTable_eq]
  exact h.flatMap_right _

/-- In another order a table stands for the same entries in another order. -/
theorem Reordered.flattenTable_perm (h : Reordered entries entries') (outer : Bytes) :
    (flattenTable outer entries).Perm (flattenTable outer entries') := by
  induction h generalizing outer with
  | nil => exact .refl _
  | value hrest hentries ih =>
      exact ((ih outer).append_left _).trans (Value.flattenTable_perm outer hentries.symm)
  | table hinner hrest hentries ihinner ihrest =>
      exact ((ihinner _).append (ihrest outer)).trans
        (Value.flattenTable_perm outer hentries.symm)

/-- A value that is no table stands for one entry. -/
theorem flatten_cases (key : Bytes) (v : Value) :
    (∃ inner, v = .table inner) ∨ ∃ text, flatten key v = [(key, text)] := by
  cases v with
  | table inner => exact Or.inl ⟨inner, rfl⟩
  | _ => exact Or.inr ⟨_, rfl⟩

/-- Every entry that a table stands for is the last one in some order. -/
theorem exists_reordered_last : ∀ (entries : List (Bytes × Value)) (outer : Bytes)
    (e : Bytes × Bytes), e ∈ flattenTable outer entries →
    ∃ entries', Reordered entries entries' ∧ (flattenTable outer entries').getLast? = some e
  | [], _, _, he => absurd he List.not_mem_nil
  | (key, v) :: rest, outer, e, he => by
      rw [flattenTable, List.mem_append] at he
      rcases he with hfirst | hrest
      · -- The first entry is visited last, and within a table so is the entry that counts.
        rcases flatten_cases (joinKey outer key) v with ⟨inner, rfl⟩ | ⟨text, htext⟩
        · obtain ⟨inner', hinner, hlast⟩ :=
            exists_reordered_last inner (joinKey outer key) e hfirst
          refine ⟨rest ++ [(key, .table inner')], .table hinner (.refl rest)
            List.perm_append_comm, ?_⟩
          simp [flattenTable_append, flattenTable, flatten, hlast]
        · rw [htext, List.mem_singleton] at hfirst
          refine ⟨rest ++ [(key, v)], .value (.refl rest) List.perm_append_comm, ?_⟩
          simp [flattenTable_append, flattenTable, htext, hfirst]
      · obtain ⟨rest', hreordered, hlast⟩ := exists_reordered_last rest outer e hrest
        refine ⟨(key, v) :: rest', .value hreordered (.refl _), ?_⟩
        simp [flattenTable, hlast]

theorem lookup_toOptions (entries : List (Bytes × Value)) (key : Bytes) :
    (toOptions entries).lookup key = (flattenTable [] entries).reverse.lookup key := by
  rw [toOptions, OptionMap.lookup_foldl_set, List.append_nil]

/-- The entry that is visited last is in the map. -/
theorem lookup_toOptions_of_last {e : Bytes × Bytes}
    (h : (flattenTable [] entries).getLast? = some e) :
    (toOptions entries).lookup e.1 = some e.2 := by
  obtain ⟨front, hfront⟩ := List.getLast?_eq_some_iff.mp h
  rw [lookup_toOptions, hfront, List.reverse_append, List.reverse_singleton, List.singleton_append,
    List.lookup_cons, beq_self_eq_true]

/-- The options that a table stands for do not depend on the order in which its entries and those
of the tables in it are visited, exactly if no two of the entries that the table stands for give
one key different texts. -/
theorem lookup_toOptions_eq_iff (entries : List (Bytes × Value)) :
    (∀ one other, Reordered entries one → Reordered entries other →
        ∀ key, (toOptions one).lookup key = (toOptions other).lookup key) ↔
      (flattenTable [] entries).IsUnambiguous := by
  constructor
  · intro hsame key v v' hv hv'
    obtain ⟨one, hone, hlast⟩ := exists_reordered_last entries [] (key, v) hv
    obtain ⟨other, hother, hlast'⟩ := exists_reordered_last entries [] (key, v') hv'
    have hlookup := hsame one other hone hother key
    rw [lookup_toOptions_of_last hlast, lookup_toOptions_of_last hlast'] at hlookup
    exact Option.some.inj hlookup
  · intro hunambiguous one other hone hother key
    have hlookup : ∀ {es}, Reordered entries es →
        (toOptions es).lookup key = (flattenTable [] entries).lookup key := by
      intro es hes
      have hperm := (hes.flattenTable_perm []).trans (List.reverse_perm _).symm
      rw [lookup_toOptions, hunambiguous.lookup_perm hperm]
    rw [hlookup hone, hlookup hother]

/-- Tables in tables and keys with dots that spell one option: it is 2 if the keys with dots are
visited last, and 1 if the tables are. -/
theorem lookup_toOptions_depends_on_order : ∃ entries one other,
    Yaml.table (ascii "a:\n a:\n  a:\n   a:\n    a:\n     a: 1\n    a.a: 2\n   a.a.a: 2\n" ++
      ascii "  a.a.a.a: 2\n a.a.a.a.a: 2\na.a.a.a.a.a: 2\n") = some entries ∧
    Reordered entries one ∧ Reordered entries other ∧
    (toOptions one).lookup (ascii "a.a.a.a.a.a") = some (ascii "2") ∧
    (toOptions other).lookup (ascii "a.a.a.a.a.a") = some (ascii "1") := by
  have hflat : (Yaml.table
      (ascii "a:\n a:\n  a:\n   a:\n    a:\n     a: 1\n    a.a: 2\n   a.a.a: 2\n" ++
        ascii "  a.a.a.a: 2\n a.a.a.a.a: 2\na.a.a.a.a.a: 2\n")).map (flattenTable []) =
      some ((ascii "a.a.a.a.a.a", ascii "1") ::
        List.replicate 5 (ascii "a.a.a.a.a.a", ascii "2")) := by
    decide +kernel
  obtain ⟨entries, htable, hentries⟩ := Option.map_eq_some_iff.mp hflat
  have hlast : ∀ v, (ascii "a.a.a.a.a.a", v) ∈ flattenTable [] entries → ∃ other,
      Reordered entries other ∧ (toOptions other).lookup (ascii "a.a.a.a.a.a") = some v := by
    intro v hv
    obtain ⟨other, hother, hlast⟩ := exists_reordered_last entries [] _ hv
    exact ⟨other, hother, lookup_toOptions_of_last hlast⟩
  obtain ⟨one, hone, htwo⟩ := hlast (ascii "2") (by simp [hentries])
  obtain ⟨other, hother, hfirst⟩ := hlast (ascii "1") (by simp [hentries])
  exact ⟨entries, one, other, htable, hone, hother, htwo, hfirst⟩

end Value

end CodeLayout
