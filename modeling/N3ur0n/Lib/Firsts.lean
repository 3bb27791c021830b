import Mathlib.Data.Finset.Insert
import Mathlib.Data.Finset.Lattice.Lemmas

/-!
# First mentions

Items come in a list, each under a key; those under a key that is known, or that
an earlier item had, are passed over. The others are the *first mentions* of
their keys (`firsts`).

* `firsts_concat`: whether one more item is a first mention;
* `firsts_sublist`: the first mentions stand in the order of the list;
* `exists_first`: every key that was not known has its first mention.
-/

namespace Firsts

variable {α κ : Type*} [DecidableEq κ] (key : α → κ)

/-- The items that are the first under their keys, when some are known. -/
def firsts (known : Finset κ) : List α → List α
  | [] => []
  | x :: xs => if key x ∈ known then firsts known xs else x :: firsts (insert (key x) known) xs

/-- The keys that are known after a list of items. -/
def after (known : Finset κ) (xs : List α) : Finset κ :=
  xs.foldl (fun known x => insert (key x) known) known

variable {key} {known : Finset κ} {x : α} {xs : List α} {k : κ}

theorem after_concat : after key known (xs ++ [x]) = insert (key x) (after key known xs) := by
  rw [after, List.foldl_append]
  rfl

/-- One more item is a first mention, unless its key is known by then. -/
theorem firsts_concat : firsts key known (xs ++ [x]) =
    firsts key known xs ++ if key x ∈ after key known xs then [] else [x] := by
  induction xs generalizing known with
  | nil =>
    rw [List.nil_append, firsts, firsts, firsts, after, List.foldl_nil, List.nil_append]
    rfl
  | cons y ys ih =>
    rw [List.cons_append, firsts, firsts]
    split
    · next hy =>
      rw [ih, after, after, List.foldl_cons, Finset.insert_eq_of_mem hy]
    · rw [ih, after, after, List.foldl_cons, List.cons_append]

theorem firsts_sublist : (firsts key known xs).Sublist xs := by
  induction xs generalizing known with
  | nil => exact List.Sublist.slnil
  | cons x xs ih =>
    rw [firsts]
    split
    · exact ih.cons x
    · exact ih.cons_cons x

/-- A key that an item has, and was not known before, has a first mention. -/
theorem exists_first (hx : x ∈ xs) (hkey : key x ∉ known) :
    ∃ y ∈ firsts key known xs, key y = key x := by
  induction xs generalizing known with
  | nil => exact absurd hx List.not_mem_nil
  | cons y ys ih =>
    rw [firsts]
    by_cases hy : key y = key x
    · rw [if_neg (hy ▸ hkey)]
      exact ⟨y, List.mem_cons_self, hy⟩
    · have hys : x ∈ ys := (List.mem_cons.1 hx).resolve_left fun h => hy (h ▸ rfl)
      split
      · exact ih hys hkey
      · have hinsert : key x ∉ insert (key y) known := by
          rw [Finset.mem_insert, not_or]
          exact ⟨fun h => hy h.symm, hkey⟩
        obtain ⟨z, hz, hzx⟩ := ih hys hinsert
        exact ⟨z, List.mem_cons_of_mem _ hz, hzx⟩

end Firsts
