import Mathlib.Algebra.GroupWithZero.Divisibility
import Mathlib.Algebra.Order.Group.Unbundled.Int
import Mathlib.Algebra.Ring.Divisibility.Basic
import Mathlib.Algebra.Ring.Int.Defs
import Mathlib.Data.List.Chain
import Mathlib.Data.List.Nodup
import Mathlib.Data.List.Perm.Basic

/-!
# Grids

A *grid* cuts a range of integers at the steps `start, start + width, …` before its end
(`steps`), and rows are shared out to the steps by a key (`group`).

* `mem_steps`: the steps are the numbers of the range that are whole widths from the start;
* `flatten_group_perm`: the groups of distinct keys hold every row which has one of the
  keys once.
-/

namespace Grid

section steps

variable {until_ width start x : ℤ}

/-- The steps from `start` before the end. -/
def steps (until_ width : ℤ) (hwidth : 0 < width) (start : ℤ) : List ℤ :=
  if start < until_ then start :: steps until_ width hwidth (start + width) else []
termination_by (until_ - start).toNat

variable {hwidth : 0 < width}

theorem steps_of_lt (h : start < until_) :
    steps until_ width hwidth start = start :: steps until_ width hwidth (start + width) := by
  rw [steps, if_pos h]

theorem steps_of_ge (h : ¬ start < until_) : steps until_ width hwidth start = [] := by
  rw [steps, if_neg h]

theorem mem_steps : x ∈ steps until_ width hwidth start ↔
    start ≤ x ∧ x < until_ ∧ width ∣ x - start := by
  induction start using steps.induct until_ width hwidth with
  | case1 start hlt ih =>
    rw [steps_of_lt hlt, List.mem_cons, ih]
    have hshift : width ∣ x - (start + width) ↔ width ∣ x - start := by
      rw [← sub_sub, dvd_sub_self_right]
    rw [hshift]
    constructor
    · rintro (rfl | ⟨hle, hx, hdvd⟩)
      · exact ⟨le_rfl, hlt, by rw [sub_self]; exact dvd_zero width⟩
      · exact ⟨by omega, hx, hdvd⟩
    · rintro ⟨hle, hx, hdvd⟩
      rcases hle.eq_or_lt with rfl | hgt
      · exact .inl rfl
      · have := Int.le_of_dvd (sub_pos.2 hgt) hdvd
        exact .inr ⟨by omega, hx, hdvd⟩
  | case2 start hge =>
    rw [steps_of_ge hge]
    exact iff_of_false List.not_mem_nil fun ⟨hle, hx, _⟩ => hge (hle.trans_lt hx)

/-- The steps leave no gap. -/
theorem isChain_steps :
    (steps until_ width hwidth start).IsChain fun x y => y = x + width := by
  induction start using steps.induct until_ width hwidth with
  | case1 start hlt ih =>
    rw [steps_of_lt hlt]
    by_cases hnext : start + width < until_
    · rw [steps_of_lt hnext] at ih ⊢
      exact .cons_cons rfl ih
    · rw [steps_of_ge hnext]
      exact .singleton start
  | case2 start hge =>
    rw [steps_of_ge hge]
    exact .nil

theorem nodup_steps : (steps until_ width hwidth start).Nodup := by
  induction start using steps.induct until_ width hwidth with
  | case1 start hlt ih =>
    rw [steps_of_lt hlt, List.nodup_cons]
    exact ⟨fun hmem => by have := (mem_steps.1 hmem).1; omega, ih⟩
  | case2 start hge =>
    rw [steps_of_ge hge]
    exact List.nodup_nil

end steps

variable {α κ : Type*} [DecidableEq κ] {key : α → κ} {rows : List α} {ks : List κ}

/-- The rows of a key. -/
def group (key : α → κ) (rows : List α) (k : κ) : List α := rows.filter (key · = k)

theorem group_eq_nil {k : κ} (h : k ∉ rows.map key) : group key rows k = [] :=
  List.filter_eq_nil_iff.2 fun x hx => by
    rw [decide_eq_true_iff]
    rintro rfl
    exact h (List.mem_map_of_mem hx)

theorem flatten_group_perm (h : ks.Nodup) :
    (ks.map (group key rows)).flatten.Perm (rows.filter (key · ∈ ks)) := by
  induction ks with
  | nil => simp
  | cons k ks ih =>
    rw [List.nodup_cons] at h
    rw [List.map_cons, List.flatten_cons]
    -- The rows of the first key, then those of the others.
    have hfirst : group key rows k = (rows.filter (key · ∈ k :: ks)).filter (key · = k) := by
      rw [List.filter_filter, group]
      exact List.filter_congr fun x _ => by simp +contextual
    have hrest : rows.filter (key · ∈ ks) =
        (rows.filter (key · ∈ k :: ks)).filter fun x => !decide (key x = k) := by
      rw [List.filter_filter]
      refine List.filter_congr fun x _ => ?_
      by_cases hk : key x = k
      · simp [hk, h.1]
      · simp [hk]
    rw [hfirst]
    refine ((ih h.2).append_left _).trans ?_
    rw [hrest]
    exact List.filter_append_perm _ _

end Grid
