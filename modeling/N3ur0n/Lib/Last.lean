import Mathlib.Data.List.Induction

/-!
# Last writes

A cell is written by some operations, and left alone by others: what it holds is the
*last* value written (`last`).

* `last_concat`: one more operation writes the cell, or leaves it;
* `last_same`: two cells which are always written together hold values that were written
  together.
-/

namespace Last

variable {α β γ : Type*} {f : α → Option β} {g : α → Option γ} {x : α} {xs : List α}

/-- The last value written, where `f` is what an operation writes. -/
def last (f : α → Option β) (xs : List α) : Option β := (xs.filterMap f).getLast?

theorem last_concat : last f (xs ++ [x]) = (f x).or (last f xs) := by
  rw [last, last, List.filterMap_append]
  cases hx : f x with
  | none => simp [hx]
  | some b => simp [hx]

/-- Two cells that are always written together. -/
theorem last_same (h : ∀ x ∈ xs, (f x).isSome = (g x).isSome) :
    (last f xs = none ∧ last g xs = none) ∨
      ∃ x ∈ xs, last f xs = f x ∧ last g xs = g x := by
  induction xs using List.reverseRecOn with
  | nil => exact .inl ⟨rfl, rfl⟩
  | append_singleton xs x ih =>
    have hx := h x (List.mem_append_right _ (List.mem_singleton_self x))
    rw [last_concat, last_concat]
    cases hf : f x with
    | none =>
      have hg : g x = none := by simpa [hf] using hx.symm
      rw [hg, Option.none_or, Option.none_or]
      exact (ih fun y hy => h y (List.mem_append_left _ hy)).imp_right fun ⟨y, hy, hfy, hgy⟩ =>
        ⟨y, List.mem_append_left _ hy, hfy, hgy⟩
    | some b =>
      obtain ⟨c, hg⟩ := Option.isSome_iff_exists.1 (hx.symm.trans (by rw [hf, Option.isSome_some]))
      exact .inr ⟨x, List.mem_append_right _ (List.mem_singleton_self x), by simp [hf, hg]⟩

end Last
