import Mathlib.Data.List.Nodup

/-!
# Rows under a key

The rows of a database table, as a list, with a column that has distinct
values, `key`: what the statements of the database do to them.

* `nodup_insert`: a row is inserted under a new key;
* `nodup_update`: rows are rewritten, their keys apart;
* `nodup_delete`: rows are deleted;
* `find?_key`: the row under a key is found by it; `find?_update`,
  `find?_insert`, `find?_delete` find it after each of these;
* `find?_key_iff`: when rows are found by a key that several of them may have.
-/

namespace Rows

variable {α κ : Type*} {key : α → κ} {l : List α}

/-- A row under a new key keeps the keys distinct. -/
theorem nodup_insert (hn : (l.map key).Nodup) {a : α} (ha : key a ∉ l.map key) :
    ((l ++ [a]).map key).Nodup := by
  rw [List.map_append, List.map_singleton]
  exact (List.perm_append_singleton _ _).nodup_iff.2 (List.nodup_cons.2 ⟨ha, hn⟩)

/-- So does an update that leaves the keys. -/
theorem nodup_update (hn : (l.map key).Nodup) {f : α → α} (hf : ∀ a, key (f a) = key a) :
    ((l.map f).map key).Nodup := by
  rwa [List.map_map, show key ∘ f = key from funext hf]

/-- So does a deletion. -/
theorem nodup_delete (hn : (l.map key).Nodup) (c : α → Bool) : ((l.filter c).map key).Nodup :=
  (List.filter_sublist.map key).nodup hn

/-- Rows under the same key are the same. -/
theorem eq_of_key_eq (hn : (l.map key).Nodup) {a b : α} (ha : a ∈ l) (hb : b ∈ l)
    (hk : key a = key b) : a = b := List.inj_on_of_nodup_map hn ha hb hk

variable (key) in
/-- With distinct keys the row found is the one with the key. -/
theorem find?_key [DecidableEq κ] (hn : (l.map key).Nodup) {k : κ} {a : α} :
    (l.find? fun b => key b = k) = some a ↔ a ∈ l ∧ key a = k := by
  have hfound {b : α} (hb : (l.find? fun b => key b = k) = some b) : b ∈ l ∧ key b = k :=
    ⟨List.mem_of_find?_eq_some hb, by simpa using List.find?_some hb⟩
  refine ⟨hfound, fun ⟨ha, hk⟩ => ?_⟩
  cases hf : l.find? fun b => key b = k with
  | none => exact absurd (decide_eq_true hk) (List.find?_eq_none.1 hf a ha)
  | some b => rw [eq_of_key_eq hn (hfound hf).1 ha ((hfound hf).2.trans hk.symm)]

/-- There is no row under a key that is not found. -/
theorem find?_key_eq_none [DecidableEq κ] {k : κ} :
    (l.find? fun b => key b = k) = none ↔ k ∉ l.map key := by
  simp

/-- Rows are found by a key that need not be theirs alone, up to what is read of
    them, exactly if this is the same for all rows of the key. -/
theorem find?_key_iff [DecidableEq κ] {β : Type*} (val : α → β) :
    (∀ a ∈ l, ∃ b, (l.find? fun c => key c = key a) = some b ∧ val b = val a) ↔
      ∀ a ∈ l, ∀ b ∈ l, key a = key b → val a = val b := by
  constructor
  · intro h a ha b hb hk
    obtain ⟨c, hc, hca⟩ := h a ha
    obtain ⟨c', hc', hcb⟩ := h b hb
    rw [hk, hc'] at hc
    rw [← hca, ← hcb, Option.some.inj hc]
  · intro h a ha
    obtain ⟨b, hb⟩ : ∃ b, (l.find? fun c => key c = key a) = some b :=
      Option.isSome_iff_exists.1 (List.find?_isSome.2 ⟨a, ha, decide_eq_true rfl⟩)
    have hk : key b = key a := by simpa using List.find?_some hb
    exact ⟨b, hb, h b (List.mem_of_find?_eq_some hb) a ha hk⟩

variable (key) in
/-- The row found after an update is the one that was there, updated. -/
theorem find?_update [DecidableEq κ] {f : α → α} (hf : ∀ a, key (f a) = key a) {k : κ} :
    ((l.map f).find? fun b => key b = k) = (l.find? fun b => key b = k).map f := by
  rw [List.find?_map]
  congr
  funext a
  rw [Function.comp_apply, hf]

variable (key) in
/-- The row found after an insertion is the new one, or one that was there. -/
theorem find?_insert [DecidableEq κ] {a : α} (ha : key a ∉ l.map key) {k : κ} :
    ((l ++ [a]).find? fun b => key b = k) =
      if k = key a then some a else l.find? fun b => key b = k := by
  rw [List.find?_append]
  by_cases hk : k = key a
  · rw [if_pos hk, find?_key_eq_none.2 (hk ▸ ha), List.find?_singleton, if_pos (by simp [hk])]
    rfl
  · rw [if_neg hk, List.find?_singleton, if_neg (by simpa [eq_comm] using hk), Option.or_none]

variable (key) in
/-- The row found after a deletion is the one that was there, if it is kept. -/
theorem find?_delete [DecidableEq κ] (hn : (l.map key).Nodup) {c : α → Bool} {k : κ} :
    ((l.filter c).find? fun b => key b = k) = (l.find? fun b => key b = k).filter c := by
  refine Option.ext fun a => ?_
  rw [find?_key key (nodup_delete hn c), List.mem_filter, Option.filter_eq_some_iff,
    find?_key key hn]
  exact and_right_comm

/-- There is one row at most if all of them are under the same key. -/
theorem length_le_one_iff (hn : (l.map key).Nodup) :
    l.length ≤ 1 ↔ ∀ a ∈ l, ∀ b ∈ l, key a = key b := by
  match l, hn with
  | [], _ => simp
  | [a], _ => simp
  | a :: b :: l, hn =>
    have hne : key a ≠ key b := fun hk =>
      (List.nodup_cons.1 hn).1 (hk ▸ List.mem_map_of_mem List.mem_cons_self)
    refine iff_of_false (by simp) fun h => hne ?_
    exact h a List.mem_cons_self b (List.mem_cons_of_mem a List.mem_cons_self)

end Rows
