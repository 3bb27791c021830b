import N3ur0n.Lib.Table

/-!
# Memos

The values of a function are kept in a table, each under a key of its input, and only
those whose key is missing are computed (`missing`, `fill`).

* `Recalls.fill`: the table holds values of the inputs seen so far;
* `lookup_fill`: it gives the value of every input, when inputs with the same key have the
  same value.
-/

namespace Memo

variable {α κ β : Type*} [DecidableEq κ] {key : α → κ} {f : α → β} {t : Table κ β}
  {seen xs : List α} {x : α}

/-- The inputs whose value is to be computed. -/
def missing (key : α → κ) (t : Table κ β) (xs : List α) : List α :=
  xs.filter fun x => (t.lookup (key x)).isNone

/-- The values computed are kept, the later one under the same key. -/
def fill (key : α → κ) (t : Table κ β) (entries : List (α × β)) : Table κ β :=
  entries.foldl (fun t e => t.insert (key e.1) e.2) t

/-- Every value kept is that of an input seen, under its key. -/
def Recalls (key : α → κ) (f : α → β) (seen : List α) (t : Table κ β) : Prop :=
  ∀ k v, t.lookup k = some v → ∃ x ∈ seen, key x = k ∧ f x = v

theorem Recalls.empty : Recalls key f seen ∅ := by
  intro k v h
  rw [Finmap.lookup_empty] at h
  exact absurd h (Option.some_ne_none v).symm

theorem Recalls.mono {seen' : List α} (h : Recalls key f seen t) (hsub : seen ⊆ seen') :
    Recalls key f seen' t := fun k v hk =>
  let ⟨x, hx, hkv⟩ := h k v hk
  ⟨x, hsub hx, hkv⟩

theorem Recalls.insert (h : Recalls key f seen t) (hx : x ∈ seen) :
    Recalls key f seen (t.insert (key x) (f x)) := by
  intro k v hk
  rw [Finmap.lookup_insert_ite] at hk
  split_ifs at hk with hkey
  · exact ⟨x, hx, hkey.symm, Option.some_inj.1 hk⟩
  · exact h k v hk

theorem Recalls.fill (h : Recalls key f seen t) (hxs : xs ⊆ seen) :
    Recalls key f seen (fill key t (xs.zip (xs.map f))) := by
  induction xs generalizing t with
  | nil => exact h
  | cons x xs ih =>
    rw [List.cons_subset] at hxs
    exact ih (h.insert hxs.1) hxs.2

/-- A key stays in the table. -/
theorem isSome_lookup_fill {k : κ} : ((fill key t (xs.zip (xs.map f))).lookup k).isSome ↔
    (t.lookup k).isSome ∨ k ∈ xs.map key := by
  induction xs generalizing t with
  | nil => simp [fill]
  | cons x xs ih =>
    rw [List.map_cons, List.zip_cons_cons, Memo.fill, List.foldl_cons, ← Memo.fill, ih,
      List.map_cons, List.mem_cons, Finmap.lookup_insert_ite]
    split_ifs with hk
    · simp [hk]
    · simp [hk]

/-- No key is missing after the missing inputs were computed. -/
theorem isSome_lookup_missing (hx : x ∈ xs) :
    ((fill key t ((missing key t xs).zip ((missing key t xs).map f))).lookup (key x)).isSome := by
  rw [isSome_lookup_fill]
  by_cases h : (t.lookup (key x)).isNone
  · exact .inr (List.mem_map_of_mem (List.mem_filter.2 ⟨hx, h⟩))
  · exact .inl (by simpa [Option.isSome_iff_ne_none] using h)

/-- Every input finds its own value, when none with the same key has another one. -/
theorem lookup_fill (h : Recalls key f seen t) (hxs : xs ⊆ seen) (hx : x ∈ xs)
    (hkeys : ∀ y ∈ seen, key y = key x → f y = f x) :
    (fill key t ((missing key t xs).zip ((missing key t xs).map f))).lookup (key x) =
      some (f x) := by
  have hmissing : missing key t xs ⊆ seen := fun y hy => hxs (List.mem_of_mem_filter hy)
  obtain ⟨v, hv⟩ := Option.isSome_iff_exists.1 (isSome_lookup_missing (f := f) (t := t) hx)
  obtain ⟨y, hy, hkey, hval⟩ := h.fill hmissing _ _ hv
  rw [hv, ← hval, hkeys y hy hkey]

end Memo
