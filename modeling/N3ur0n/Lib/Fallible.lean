import Mathlib.Data.List.Basic

/-!
# Fallible computations

Checks run one after the other, each of which may fail: a computation succeeds
when all its checks do.

* `reject`: the check that a condition does not hold;
* `bind_eq_ok`, `check_eq_ok`, `forM_eq_ok`, `reject_eq_ok`, `mapError_eq_ok`,
  `elim_eq_ok`, `map_eq_ok`, `toOption_eq_some`: when a computation succeeds;
* `toOption_bind`, `toOption_map`, `toOption_mapM`: its result, errors left aside.
-/

namespace Except

variable {ε α β : Type}

/-- Fails with `e` when `c` holds. -/
def reject (c : Prop) [Decidable c] (e : ε) : Except ε Unit := if c then .error e else .ok ()

/-- A check passes exactly if its condition does not hold. -/
theorem reject_eq_ok {c : Prop} [Decidable c] {e : ε} : reject c e = .ok () ↔ ¬c := by
  by_cases h : c
  · simp [reject, h]
  · simp [reject, h]

/-- A sequence returns exactly if both of its parts do. -/
theorem bind_eq_ok {x : Except ε α} {f : α → Except ε β} {b : β} :
    x.bind f = .ok b ↔ ∃ a, x = .ok a ∧ f a = .ok b := by
  rcases x with e | a
  · simp [Except.bind]
  · simp [Except.bind]

/-- After a check, the rest runs if the check succeeds. -/
theorem check_eq_ok {x : Except ε Unit} {f : Unit → Except ε β} {b : β} :
    x.bind f = .ok b ↔ x = .ok () ∧ f () = .ok b :=
  bind_eq_ok.trans ⟨fun ⟨(), h⟩ => h, fun h => ⟨(), h⟩⟩

theorem mapError_eq_ok {ε' : Type} {x : Except ε α} {f : ε → ε'} {a : α} :
    x.mapError f = .ok a ↔ x = .ok a := by
  rcases x with e | b
  · simp [Except.mapError]
  · simp [Except.mapError]

/-- A value that has to be there. -/
theorem elim_eq_ok {o : Option α} {e : ε} {a : α} :
    o.elim (.error e) Except.ok = Except.ok a ↔ o = some a := by
  cases o with
  | none => simp
  | some b => simp

theorem map_eq_ok {x : Except ε α} {f : α → β} {b : β} :
    x.map f = .ok b ↔ ∃ a, x = .ok a ∧ f a = b := by
  rcases x with e | a
  · simp [Except.map]
  · simp [Except.map]

theorem toOption_eq_some {x : Except ε α} {a : α} : x.toOption = some a ↔ x = .ok a := by
  rcases x with e | b
  · simp [Except.toOption]
  · simp [Except.toOption]

/-- To forget the error of a sequence is to forget that of its parts. -/
theorem toOption_bind {x : Except ε α} {f : α → Except ε β} :
    (x.bind f).toOption = x.toOption.bind fun a => (f a).toOption := by
  rcases x with e | a
  · rfl
  · rfl

theorem toOption_map {x : Except ε α} {f : α → β} : (x.map f).toOption = x.toOption.map f := by
  rcases x with e | a
  · rfl
  · rfl

theorem toOption_elim {o : Option α} {e : ε} : (o.elim (.error e) Except.ok).toOption = o := by
  rcases o with - | a
  · rfl
  · rfl

/-- The values of a list are there if all its items succeed. -/
theorem toOption_mapM {f : α → Except ε β} {l : List α} :
    (l.mapM f).toOption = l.mapM fun a => (f a).toOption := by
  induction l with
  | nil => rfl
  | cons a l ih =>
    rw [List.mapM_cons, List.mapM_cons, ← ih]
    rcases f a with e | b
    · rfl
    · rcases l.mapM f with e | bs
      · rfl
      · rfl

/-- A loop passes exactly if every one of its turns does. -/
theorem forM_eq_ok {f : α → Except ε Unit} {l : List α} :
    forM l f = .ok () ↔ ∀ a ∈ l, f a = .ok () := by
  induction l with
  | nil => exact ⟨fun _ a ha => absurd ha List.not_mem_nil, fun _ => rfl⟩
  | cons a l ih => rw [List.forall_mem_cons, ← ih, List.forM_cons]; exact check_eq_ok

end Except
