import Mathlib.Data.Nat.Notation
import Mathlib.Logic.Relation

/-!
# Loops

A loop is given by its body: from the state, a turn goes `next` to another state
or is `done` with a result, if nothing in it panics. A loop is run for a number
of turns (`run`).

* `run_eq_ok`: with an invariant, and a measure which every turn decreases, a
  loop neither panics nor goes on forever, and computes the value which its
  turns keep;
* `reached_invariant`: the invariant holds in every state reached.
-/

namespace Loop

variable {σ ρ : Type*}

/-- How a turn of a loop ends. -/
inductive Turn (σ ρ : Type*)
  | next (s : σ)
  | done (r : ρ)

/-- How a loop may fail: by a panic, or as it does not end in time. -/
inductive Fault
  | panic
  | late
  deriving DecidableEq

/-- The loop, for at most `n` turns. -/
def run (turn : σ → Option (Turn σ ρ)) : ℕ → σ → Except Fault ρ
  | 0, _ => .error .late
  | n + 1, s =>
    match turn s with
    | none => .error .panic
    | some (.done r) => .ok r
    | some (.next s') => run turn n s'

/-- A turn leads from the state to the other one. -/
def Goes (turn : σ → Option (Turn σ ρ)) (s s' : σ) : Prop := turn s = some (.next s')

/-- The loop goes through the state. -/
def Reached (turn : σ → Option (Turn σ ρ)) : σ → σ → Prop := Relation.ReflTransGen (Goes turn)

/-- The turns keep the invariant and the value to be computed, and decrease the
    measure, until the value is the result. -/
def Computes (turn : σ → Option (Turn σ ρ)) (I : σ → Prop) (measure : σ → ℕ) (value : σ → ρ) :
    Prop :=
  ∀ s, I s → turn s = some (.done (value s)) ∨
    ∃ s', turn s = some (.next s') ∧ I s' ∧ measure s' < measure s ∧ value s' = value s

variable {turn : σ → Option (Turn σ ρ)} {I : σ → Prop} {measure : σ → ℕ} {value : σ → ρ}

theorem run_eq_ok (h : Computes turn I measure value) {s : σ} (hs : I s) {n : ℕ}
    (hn : measure s < n) : run turn n s = .ok (value s) := by
  induction n generalizing s with
  | zero => exact absurd hn (Nat.not_lt_zero _)
  | succ n ih =>
    rcases h s hs with hd | ⟨s', hs', hI, hlt, hv⟩
    · rw [run, hd]
    · simp only [run, hs']
      rw [ih hI (Nat.lt_of_lt_of_le hlt (Nat.le_of_lt_succ hn)), hv]

theorem reached_invariant (h : Computes turn I measure value) {s s' : σ} (hs : I s)
    (hr : Reached turn s s') : I s' := by
  induction hr with
  | refl => exact hs
  | tail _ hstep ih =>
    rcases h _ ih with hd | ⟨t, ht, hI, -⟩
    · exact absurd (hstep.symm.trans hd) (by simp)
    · have he := hstep.symm.trans ht
      rw [Option.some.injEq, Turn.next.injEq] at he
      exact he ▸ hI

end Loop
