import Mathlib.Data.List.Sort
import Mathlib.Order.Basic

/-!
# Entries in the order of their keys

The entries of a map that keeps its keys in order: one for each key, the last
that was inserted, and in the order that `key` gives them.

* `Sorted.sort`: the entries that are left of some, inserted one by one;
* `Sorted.sort_of_perm`: entries that are in order are what is left of them, in
  whatever order they are inserted.
-/

namespace Sorted

variable {κ α β : Type} [LinearOrder κ] (key : α → κ)

/-- An entry is put in its place, where it replaces one with its key. -/
def insert (x : α × β) : List (α × β) → List (α × β)
  | [] => [x]
  | y :: l =>
    if key x.1 < key y.1 then x :: y :: l
    else if key x.1 = key y.1 then x :: l
    else y :: insert x l

/-- The items are inserted one after the other. -/
def sort (l : List (α × β)) : List (α × β) := l.foldl (fun acc x => insert key x acc) []

/-- Each key is less than the next. -/
def InOrder (l : List (α × β)) : Prop := l.Pairwise fun x y => key x.1 < key y.1

variable {key} {x y : α × β} {l l' : List (α × β)}

/-- Nothing is there after an insertion that was not there, or inserted. -/
theorem mem_insert (h : y ∈ insert key x l) : y = x ∨ y ∈ l := by
  induction l with
  | nil => exact .inl (List.mem_singleton.1 h)
  | cons z l ih =>
    rw [insert] at h
    split at h
    · exact List.mem_cons.1 h
    · split at h
      · exact (List.mem_cons.1 h).imp_right (List.mem_cons_of_mem _)
      · rcases List.mem_cons.1 h with rfl | h
        · exact .inr List.mem_cons_self
        · exact (ih h).imp_right (List.mem_cons_of_mem _)

/-- An insertion keeps the order. -/
theorem InOrder.insert (h : InOrder key l) : InOrder key (insert key x l) := by
  induction l with
  | nil => exact List.pairwise_singleton _ _
  | cons y l ih =>
    obtain ⟨hy, hl⟩ := List.pairwise_cons.1 h
    rw [Sorted.insert]
    split
    · next hlt =>
      refine List.pairwise_cons.2 ⟨fun z hz => ?_, h⟩
      rcases List.mem_cons.1 hz with rfl | hz
      · exact hlt
      · exact hlt.trans (hy z hz)
    · next hnlt =>
      split
      · next heq => exact List.pairwise_cons.2 ⟨fun z hz => heq ▸ hy z hz, hl⟩
      · next hne =>
        refine List.pairwise_cons.2 ⟨fun z hz => ?_, ih hl⟩
        rcases mem_insert hz with rfl | hz
        · exact lt_of_le_of_ne (le_of_not_gt hnlt) (Ne.symm hne)
        · exact hy z hz

theorem mem_sort (h : y ∈ sort key l) : y ∈ l := by
  have hfoldl : ∀ l acc : List (α × β),
      y ∈ l.foldl (fun acc x => insert key x acc) acc → y ∈ l ∨ y ∈ acc := by
    intro l
    induction l with
    | nil => exact fun acc h => .inr h
    | cons x l ih =>
      intro acc h
      rcases ih _ h with h | h
      · exact .inl (List.mem_cons_of_mem _ h)
      · exact (mem_insert h).imp_left fun he => List.mem_cons.2 (.inl he)
  exact (hfoldl l [] h).resolve_right List.not_mem_nil

theorem foldl_inOrder (hl : InOrder key l) :
    InOrder key (l'.foldl (fun acc x => insert key x acc) l) := by
  induction l' generalizing l with
  | nil => exact hl
  | cons x l' ih => exact ih hl.insert

/-- What is sorted is in order. -/
theorem inOrder_sort : InOrder key (sort key l) := foldl_inOrder List.Pairwise.nil

/-- The keys of some entries. -/
def keys (key : α → κ) (l : List (α × β)) : List κ := l.map fun x => key x.1

/-- An insertion under a new key adds an item, and drops none. -/
theorem insert_perm (h : key x.1 ∉ keys key l) : (insert key x l).Perm (x :: l) := by
  induction l with
  | nil => exact List.Perm.refl _
  | cons y l ih =>
    rw [keys, List.map_cons, List.mem_cons, not_or] at h
    rw [insert]
    split
    · exact List.Perm.refl _
    · rw [if_neg h.1]
      exact ((ih h.2).cons y).trans (List.Perm.swap x y l)

theorem foldl_perm (h : (keys key (l' ++ l)).Nodup) :
    (l'.foldl (fun acc x => insert key x acc) l).Perm (l' ++ l) := by
  induction l' generalizing l with
  | nil => exact List.Perm.refl _
  | cons x l' ih =>
    have hmiddle : (l' ++ x :: l).Perm (x :: l' ++ l) := List.perm_middle
    have hx : key x.1 ∉ keys key l := by
      rw [List.cons_append, keys, List.map_cons, List.nodup_cons] at h
      intro hmem
      exact h.1 (by rw [List.map_append]; exact List.mem_append_right _ hmem)
    have hperm : (l' ++ insert key x l).Perm (x :: l' ++ l) :=
      ((insert_perm hx).append_left l').trans hmiddle
    have hnodup : (keys key (l' ++ insert key x l)).Nodup := (hperm.map _).nodup_iff.2 h
    exact (ih hnodup).trans hperm

/-- To sort items with distinct keys is to arrange them. -/
theorem sort_perm (h : (keys key l).Nodup) : (sort key l).Perm l := by
  have hperm : (sort key l).Perm (l ++ []) := foldl_perm (by rwa [List.append_nil])
  rwa [List.append_nil] at hperm

/-- The keys in order are distinct. -/
theorem InOrder.nodup (h : InOrder key l) : (keys key l).Nodup :=
  List.pairwise_map.2 (h.imp ne_of_lt)

/-- Entries in order are determined by what they are. -/
theorem InOrder.eq_of_perm (h : InOrder key l) (h' : InOrder key l') (hp : l.Perm l') : l = l' :=
  hp.eq_of_pairwise (fun _ _ _ _ hlt hgt => absurd hlt (lt_asymm hgt)) h h'

/-- Items in order are what any arrangement of them is sorted to. -/
theorem sort_of_perm (h : InOrder key l) (hp : l'.Perm l) : sort key l' = l := by
  have hnodup : (keys key l').Nodup := (hp.map _).nodup_iff.2 h.nodup
  exact inOrder_sort.eq_of_perm h ((sort_perm hnodup).trans hp)

/-- The order in which entries with distinct keys are inserted does not matter. -/
theorem sort_congr (h : (keys key l).Nodup) (hp : l.Perm l') : sort key l = sort key l' := by
  have hnodup : (keys key l').Nodup := (hp.map _).nodup_iff.1 h
  exact inOrder_sort.eq_of_perm inOrder_sort
    ((sort_perm h).trans (hp.trans (sort_perm hnodup).symm))

end Sorted
