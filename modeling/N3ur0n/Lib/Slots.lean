import Mathlib.Data.List.Induction
import Mathlib.Data.List.Nodup
import Mathlib.Data.List.Perm.Basic

/-!
# Slots

The items of a list are produced in any order, each with its place in the list:
they are a permutation of `numbered`.

* `mem_numbered`, `numbered_append`: the items with their places;
* `perm_numbered`: what it takes to fill a list;
* `flatMap_numbered`: when every item takes two consecutive slots, the slots
  filled are those of the list of the halves.
-/

namespace Slots

variable {α β : Type*}

/-- The items of a list, with their places. -/
def numbered (xs : List α) : List (ℕ × α) := xs.zipIdx.map Prod.swap

/-- The places are moved by `n`. -/
def shift (n : ℕ) (w : List (ℕ × α)) : List (ℕ × α) := w.map fun y => (y.1 + n, y.2)

theorem mem_numbered {xs : List α} {i : ℕ} {x : α} : (i, x) ∈ numbered xs ↔ xs[i]? = some x := by
  rw [← List.mk_mem_zipIdx_iff_getElem?, numbered, List.mem_map]
  constructor
  · rintro ⟨⟨y, j⟩, hy, heq⟩
    obtain ⟨rfl, rfl⟩ := Prod.mk.inj heq
    exact hy
  · exact fun h => ⟨(x, i), h, rfl⟩

theorem map_fst_numbered (xs : List α) : (numbered xs).map Prod.fst = List.range xs.length := by
  rw [numbered, List.map_map, List.range_eq_range']
  exact List.zipIdx_map_snd 0 xs

theorem map_fst_shift (n : ℕ) (w : List (ℕ × α)) :
    (shift n w).map Prod.fst = (w.map Prod.fst).map (· + n) := by
  rw [shift, List.map_map, List.map_map]
  rfl

theorem numbered_append (xs ys : List α) :
    numbered (xs ++ ys) = numbered xs ++ shift xs.length (numbered ys) := by
  have hshift : (ys.zipIdx xs.length).map Prod.swap = shift xs.length (numbered ys) := by
    rw [List.zipIdx_eq_map_add, shift, numbered, List.map_map, List.map_map]
    exact List.map_congr_left fun y _ => by simp [Nat.add_comm]
  rw [numbered, List.zipIdx_append, List.map_append, Nat.zero_add, hshift]
  rfl

/-- Items with distinct places fill a list when they are those of the list. -/
theorem perm_numbered {w : List (ℕ × α)} {xs : List α} (hn : (w.map Prod.fst).Nodup)
    (h : ∀ i x, (i, x) ∈ w ↔ xs[i]? = some x) : w.Perm (numbered xs) := by
  refine (List.perm_ext_iff_of_nodup hn.of_map ?_).2 fun y => (h y.1 y.2).trans mem_numbered.symm
  refine List.Nodup.of_map Prod.fst ?_
  rw [map_fst_numbered]
  exact List.nodup_range

/-- Every item takes two slots, from `b` on. -/
theorem flatMap_numbered (f g : α → β) (b : ℕ) (xs : List α) :
    (numbered xs).flatMap (fun y => [(f y.2, b + 2 * y.1), (g y.2, b + 2 * y.1 + 1)]) =
      (xs.flatMap fun x => [f x, g x]).zipIdx b := by
  induction xs using List.reverseRecOn with
  | nil => rfl
  | append_singleton xs x ih =>
    have hlen : (xs.flatMap fun x => [f x, g x]).length = 2 * xs.length := by
      simp [List.length_flatMap, Nat.mul_comm]
    rw [numbered_append, List.flatMap_append, ih, List.flatMap_append, List.zipIdx_append, hlen]
    simp [numbered, shift]

end Slots
