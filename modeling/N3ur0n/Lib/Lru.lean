import Mathlib.Data.List.Basic

/-!
# Caches

A cache keeps a limited number of entries, those used most recently (`Lru`): it
is a list of entries, the last used first, where what is looked up or put goes
to the front, and what does not fit any more falls off the end.

* `lookup_get`: a lookup changes the order only;
* `lookup_put`, `lookup_pop`: what is there after an update was there before, or
  was put there.
-/

/-- A cache of values `ν` under keys `κ`, the last used first. -/
structure Lru (κ ν : Type*) where
  capacity : ℕ
  entries : List (κ × ν)

namespace Lru

variable {κ ν : Type*} [DecidableEq κ]

def new (capacity : ℕ) : Lru κ ν := ⟨capacity, []⟩

variable (t : Lru κ ν) (k : κ)

/-- The value under a key, which is not used for that. -/
def lookup : Option ν := (t.entries.find? (·.1 = k)).map Prod.snd

/-- The entries under other keys. -/
def others : List (κ × ν) := t.entries.filter (·.1 ≠ k)

/-- The value under a key is used. -/
def get : Option ν × Lru κ ν :=
  match t.lookup k with
  | none => (none, t)
  | some v => (some v, { t with entries := (k, v) :: t.others k })

def put (v : ν) : Lru κ ν := { t with entries := ((k, v) :: t.others k).take t.capacity }

def pop : Lru κ ν := { t with entries := t.others k }

variable {t k} {k' : κ} {v w : ν}

theorem find?_others : (t.others k).find? (·.1 = k') =
    if k' = k then none else t.entries.find? (·.1 = k') := by
  rw [others, List.find?_filter]
  split_ifs with h
  · subst h
    exact List.find?_eq_none.2 fun x _ => by simp
  · refine congrArg (t.entries.find? ·) (funext fun x => ?_)
    by_cases hx : x.1 = k'
    · simp [hx, h]
    · simp [hx]

theorem get_fst : (t.get k).1 = t.lookup k := by
  rw [get]
  split
  · rename_i h
    exact h.symm
  · rename_i h
    exact h.symm

theorem lookup_get : (t.get k).2.lookup k' = t.lookup k' := by
  rw [get]
  split
  · rfl
  · rename_i v hv
    by_cases h : k = k'
    · subst h
      rw [hv, lookup, List.find?_cons_of_pos (by simp), Option.map_some]
    · rw [lookup, List.find?_cons_of_neg (by simpa using h), find?_others,
        if_neg fun he => h he.symm, lookup]

theorem lookup_pop : (t.pop k).lookup k' = if k' = k then none else t.lookup k' := by
  rw [lookup, pop, find?_others]
  split_ifs
  · rfl
  · rfl

/-- Others may fall off the end. -/
theorem lookup_put (h : (t.put k v).lookup k' = some w) :
    k' = k ∧ w = v ∨ k' ≠ k ∧ t.lookup k' = some w := by
  obtain ⟨x, hx, rfl⟩ := Option.map_eq_some_iff.1 h
  -- What is found among the first entries is found among all of them.
  have hall : ((k, v) :: t.others k).find? (·.1 = k') = some x :=
    (List.take_prefix _ _).find?_eq_some hx
  by_cases hk : k = k'
  · subst hk
    rw [List.find?_cons_of_pos (by simp)] at hall
    exact .inl ⟨rfl, (Option.some.inj hall) ▸ rfl⟩
  · have hne : k' ≠ k := fun he => hk he.symm
    rw [List.find?_cons_of_neg (by simpa using hk), find?_others, if_neg hne] at hall
    exact .inr ⟨hne, by rw [lookup, hall, Option.map_some]⟩

end Lru
