import Mathlib.Data.Finmap
import Mathlib.Data.Finset.Sort

/-!
# Tables

A *table* is a finite map from keys to rows: a hash map, or a database table
with its primary key. It is Mathlib's `Finmap`, equal up to the order of its
entries, with the two updates programs make of it: `Finmap.insert`, and
`Finmap.modify` for a write through a reference to a row that may be missing.

* `lookup_insert_ite`, `lookup_modify`: what an update does to every row;
* `keys_insert`, `keys_modify`: what it does to the keys;
* `Finset.inOrder`: keys in their order;
* `Finmap.collect`: the table of a list of entries, a later one replacing an
  earlier one under the same key;
* `Finmap.Enumerates`: a list has the entries of a table, each of them once;
* `Finmap.Extends`: every row of one table is a row of the other.
-/

/-- A finite map from the keys `κ` to the rows `ν`. -/
abbrev Table (κ ν : Type*) := Finmap fun _ : κ => ν

/-- The keys, in their order. -/
def Finset.inOrder {κ : Type*} [LinearOrder κ] (s : Finset κ) : List κ := s.sort (· ≤ ·)

theorem Finset.mem_inOrder {κ : Type*} [LinearOrder κ] {s : Finset κ} {k : κ} :
    k ∈ s.inOrder ↔ k ∈ s := Finset.mem_sort _

theorem Finset.inOrder_eq_singleton {κ : Type*} [LinearOrder κ] {s : Finset κ} {k : κ} :
    s.inOrder = [k] ↔ s = {k} := by
  constructor
  · intro h
    ext x
    rw [← Finset.mem_inOrder, h, List.mem_singleton, Finset.mem_singleton]
  · rintro rfl
    exact Finset.sort_singleton _ k

namespace Finmap

variable {κ ν : Type*} [DecidableEq κ] (t : Table κ ν) (k k' : κ)

theorem lookup_insert_ite (v : ν) :
    (t.insert k v).lookup k' = if k' = k then some v else t.lookup k' := by
  split_ifs with h
  · rw [h, lookup_insert]
  · exact lookup_insert_of_ne t h

theorem keys_insert (v : ν) : (t.insert k v).keys = Insert.insert k t.keys := by
  ext a
  simp only [mem_keys, mem_insert, Finset.mem_insert]

/-- The row under `k` is replaced by its image under `f`, if there is one. -/
def modify (f : ν → ν) : Table κ ν :=
  match t.lookup k with
  | some v => t.insert k (f v)
  | none => t

theorem lookup_modify (f : ν → ν) :
    (t.modify k f).lookup k' = if k' = k then (t.lookup k).map f else t.lookup k' := by
  rw [modify]
  cases hk : t.lookup k with
  | some v => simp only [lookup_insert_ite, Option.map_some]
  | none =>
    split_ifs with h
    · rw [h, hk, Option.map_none]
    · rfl

theorem keys_modify (f : ν → ν) : (t.modify k f).keys = t.keys := by
  ext a
  rw [mem_keys, mem_keys, ← lookup_isSome, ← lookup_isSome, lookup_modify]
  split_ifs with h
  · rw [h, Option.isSome_map]
  · rfl

/-- The entries of the list are inserted in order. -/
def collect (l : List (κ × ν)) : Table κ ν := l.foldl (fun t x => t.insert x.1 x.2) ∅

theorem lookup_foldl_insert {l : List (κ × ν)} (hn : (l.map Prod.fst).Nodup) {t : Table κ ν}
    {k : κ} {v : ν} : (l.foldl (fun t x => t.insert x.1 x.2) t).lookup k = some v ↔
      (k, v) ∈ l ∨ k ∉ l.map Prod.fst ∧ t.lookup k = some v := by
  induction l generalizing t with
  | nil => simp
  | cons x l ih =>
    obtain ⟨hx, hn⟩ := List.nodup_cons.1 hn
    rw [List.foldl_cons, ih hn, lookup_insert_ite]
    obtain ⟨a, b⟩ := x
    have hmem : ∀ {c}, (a, c) ∉ l := fun hc => hx (List.mem_map.2 ⟨_, hc, rfl⟩)
    by_cases hk : k = a
    · subst hk
      simp_all [eq_comm]
    · simp [hk]

/-- Under distinct keys, the rows of a table are the entries it collects. -/
theorem lookup_collect {l : List (κ × ν)} (hn : (l.map Prod.fst).Nodup) {k : κ} {v : ν} :
    (collect l).lookup k = some v ↔ (k, v) ∈ l := by
  rw [collect, lookup_foldl_insert hn, lookup_empty]
  simp

theorem keys_foldl_insert (l : List (κ × ν)) (t : Table κ ν) :
    (l.foldl (fun t x => t.insert x.1 x.2) t).keys = t.keys ∪ (l.map Prod.fst).toFinset := by
  induction l generalizing t with
  | nil => simp
  | cons x l ih =>
    rw [List.foldl_cons, ih, keys_insert, List.map_cons, List.toFinset_cons, Finset.insert_union,
      Finset.union_insert]

/-- The list has the entries of the table, each of them once, in some order. -/
def Enumerates (l : List (κ × ν)) (t : Table κ ν) : Prop := (l.map Prod.fst).Nodup ∧ collect l = t

instance [DecidableEq ν] (l : List (κ × ν)) (t : Table κ ν) : Decidable (Enumerates l t) :=
  inferInstanceAs (Decidable (_ ∧ _))

theorem Enumerates.keys {l : List (κ × ν)} {t : Table κ ν} (h : Enumerates l t) :
    t.keys = (l.map Prod.fst).toFinset := by
  rw [← h.2, collect, keys_foldl_insert, keys_empty, Finset.empty_union]

theorem Enumerates.lookup {l : List (κ × ν)} {t : Table κ ν} (h : Enumerates l t) {k : κ} {v : ν} :
    t.lookup k = some v ↔ (k, v) ∈ l := by
  rw [← h.2, lookup_collect h.1]

/-- A table is enumerated in any order of its keys. -/
theorem exists_enumerates {t : Table κ ν} {l : List κ} (hn : l.Nodup) (hl : l.toFinset = t.keys) :
    ∃ entries, Enumerates entries t ∧ entries.map Prod.fst = l := by
  have hkeys : (l.filterMap fun k => (t.lookup k).map fun v => (k, v)).map Prod.fst = l := by
    calc _ = l.filterMap some := by
          rw [List.map_filterMap]
          refine List.filterMap_congr fun k hk => ?_
          have hkt : k ∈ t := mem_keys.1 (hl ▸ List.mem_toFinset.2 hk)
          obtain ⟨v, hv⟩ := mem_iff.1 hkt
          rw [hv, Option.map_some, Option.map_some]
      _ = l := List.filterMap_some
  have hnodup := hkeys.symm ▸ hn
  refine ⟨_, ⟨hnodup, ext_lookup fun k => Option.ext fun v => ?_⟩, hkeys⟩
  rw [lookup_collect hnodup, List.mem_filterMap]
  constructor
  · rintro ⟨k', -, hv⟩
    obtain ⟨v', hv', heq⟩ := Option.map_eq_some_iff.1 hv
    obtain ⟨rfl, rfl⟩ := Prod.mk.inj heq
    exact hv'
  · intro hv
    have hk : k ∈ l := by
      rw [← List.mem_toFinset, hl, mem_keys]
      exact mem_of_lookup_eq_some hv
    exact ⟨k, hk, by rw [hv, Option.map_some]⟩

/-- The table with these keys, whose rows are given by a function. -/
theorem exists_table (s : Finset κ) (f : κ → ν) :
    ∃ t : Table κ ν, t.keys = s ∧ ∀ k ∈ s, t.lookup k = some (f k) := by
  have hkeys : (s.toList.map fun k => (k, f k)).map Prod.fst = s.toList := by
    rw [List.map_map]
    exact List.map_id _
  refine ⟨collect (s.toList.map fun k => (k, f k)), ?_, fun k hk => ?_⟩
  · rw [collect, keys_foldl_insert, keys_empty, Finset.empty_union, hkeys, Finset.toList_toFinset]
  · rw [lookup_collect (hkeys.symm ▸ s.nodup_toList)]
    exact List.mem_map.2 ⟨k, Finset.mem_toList.2 hk, rfl⟩

/-- Every row of `t` is a row of `t'`. -/
def Extends (t' t : Table κ ν) : Prop := ∀ k v, t.lookup k = some v → t'.lookup k = some v

variable {t k}

theorem Extends.refl (t : Table κ ν) : t.Extends t := fun _ _ h => h

theorem Extends.trans {t₁ t₂ t₃ : Table κ ν} (h : t₃.Extends t₂) (h' : t₂.Extends t₁) :
    t₃.Extends t₁ := fun k v hk => h k v (h' k v hk)

/-- A row under a new key leaves every other row. -/
theorem Extends.insert {v : ν} (hk : k ∉ t) : (t.insert k v).Extends t := fun k' v' h => by
  rw [lookup_insert_ite, if_neg, h]
  rintro rfl
  exact hk (mem_of_lookup_eq_some h)

end Finmap
