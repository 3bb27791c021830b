import N3ur0n.Lib.Run
import N3ur0n.Lib.Table

/-!
# Threads

A server handles requests concurrently: to each of them belongs a *thread* that
goes through its steps one at a time, while the steps of the others, and of the
environment, come in between. A `Program` says what the steps are: a step reads
and writes the state that all threads share, and what it does not learn from
there (an answer from outside, a random draw) it is told by an event. A `Pool`
is the shared state with the threads at work, and its actions are the steps in
the order they come (`Program.poolStep`).

* `Pool.Holds`: an assertion on the shared state, and one on every thread;
* `Pool.Holds.step`: what is to be shown for a step of the pool to keep both.
  The thread that moves establishes its own assertion, and its step must leave
  those of the others true (rely–guarantee);
* `Program.lastAt`: the pool in which a thread was last at some place, as told by the
  actions of a run;
* `Program.thread_run`: what is to be shown of a thread, of its own steps and those
  of others, for it to hold wherever the thread stands;
* `Program.alone`: a thread that runs to its end with nothing in between.
-/

/-- What is done to serve the requests `Q`: `S` is the state the threads share,
    `L` is where a thread stands and what it remembers, `E` are the events, `R`
    the responses, and `V` is what happens around the threads. -/
structure Program (S Q L E R V : Type*) where
  /-- Where the thread of a request starts. -/
  enter : Q → L
  /-- The next step of a thread; undefined as long as it has to wait. -/
  step : S → ℕ → L → E → Option (S × (L ⊕ R))
  /-- The thread is given up where it stands; undefined where it cannot be. -/
  abort : S → ℕ → L → Option S
  /-- What changes the shared state on its own. -/
  env : S → V → Option S

/-- The shared state, and the threads at work. -/
structure Pool (S L : Type*) where
  shared : S
  threads : Table ℕ L

/-- A request comes in, a thread takes a step or is given up, or something
    happens around them. -/
inductive Pool.Action (Q E V : Type*) where
  | enter (k : ℕ) (q : Q)
  | act (k : ℕ) (e : E)
  | abort (k : ℕ)
  | env (v : V)

/-- The action is one of the thread. -/
def Pool.Action.isOf {Q E V : Type*} (k : ℕ) : Pool.Action Q E V → Bool
  | .enter k' _ | .act k' _ | .abort k' => k = k'
  | .env _ => false

variable {S Q L E R V : Type*}

namespace Pool

/-- No thread is at work. -/
def idle (s : S) : Pool S L := ⟨s, ∅⟩

/-- Where a step leads its thread: on, or away with its response. -/
def settle (t : Pool S L) (k : ℕ) (s : S) : L ⊕ R → Pool S L
  | .inl l => ⟨s, t.threads.insert k l⟩
  | .inr _ => ⟨s, t.threads.erase k⟩

@[simp] theorem settle_shared (t : Pool S L) (k : ℕ) (s : S) (o : L ⊕ R) :
    (t.settle k s o).shared = s := by
  cases o <;> rfl

/-- The other threads stay where they are. -/
theorem settle_lookup_ne (t : Pool S L) {k k' : ℕ} (s : S) (o : L ⊕ R) (hk : k' ≠ k) :
    (t.settle k s o).threads.lookup k' = t.threads.lookup k' := by
  cases o with
  | inl l => exact Finmap.lookup_insert_of_ne _ hk
  | inr r => exact Finmap.lookup_erase_ne hk

theorem settle_lookup {t : Pool S L} {k : ℕ} {s : S} {o : L ⊕ R} {l : L} :
    (t.settle k s o).threads.lookup k = some l ↔ o = .inl l := by
  cases o with
  | inl l' => simp [settle]
  | inr r => simp [settle]

/-- Some thread stands there. -/
def At (t : Pool S L) (l : L) : Prop := ∃ k, t.threads.lookup k = some l

/-- It still does after a step of another one. -/
theorem At.settle {t : Pool S L} {k : ℕ} {l l' : L} {s : S} {o : L ⊕ R} (h : t.At l)
    (hl : t.threads.lookup k = some l') (hne : l' ≠ l) : (t.settle k s o).At l := by
  obtain ⟨k', hk'⟩ := h
  have hk : k' ≠ k := by
    rintro rfl
    exact hne (Option.some.inj (hl.symm.trans hk'))
  exact ⟨k', (settle_lookup_ne t s o hk).trans hk'⟩

/-- It does when a request comes in. -/
theorem At.enter {t : Pool S L} {k : ℕ} {l l' : L} (h : t.At l) (hk : k ∉ t.threads) :
    Pool.At ⟨t.shared, t.threads.insert k l'⟩ l := by
  obtain ⟨k', hk'⟩ := h
  have hne : k' ≠ k := by
    rintro rfl
    exact hk (Finmap.lookup_isSome.1 (Option.isSome_of_eq_some hk'))
  exact ⟨k', (Finmap.lookup_insert_of_ne _ hne).trans hk'⟩

theorem at_settle {t : Pool S L} {k : ℕ} {s : S} {l : L} : (t.settle k s (.inl l : L ⊕ R)).At l :=
  ⟨k, settle_lookup.2 rfl⟩

theorem not_at_idle {t : Pool S L} (h : t.threads = ∅) (l : L) : ¬t.At l := by
  rintro ⟨k, hk⟩
  rw [h, Finmap.lookup_empty] at hk
  cases hk

end Pool

namespace Program

variable (p : Program S Q L E R V)

/-- The steps of a pool. -/
def poolStep (t : Pool S L) : Pool.Action Q E V → Option (Pool S L)
  | .enter k q => if k ∈ t.threads then none else some ⟨t.shared, t.threads.insert k (p.enter q)⟩
  | .act k e => (t.threads.lookup k).bind fun l =>
    (p.step t.shared k l e).map fun (s, o) => t.settle k s o
  | .abort k => (t.threads.lookup k).bind fun l =>
    (p.abort t.shared k l).map fun s => ⟨s, t.threads.erase k⟩
  | .env v => (p.env t.shared v).map fun s => ⟨s, t.threads⟩

variable {p} {t t' : Pool S L}

theorem enter_eq_some {k : ℕ} {q : Q} : p.poolStep t (.enter k q) = some t' ↔
    k ∉ t.threads ∧ t' = ⟨t.shared, t.threads.insert k (p.enter q)⟩ := by
  simp [poolStep, eq_comm]

theorem act_eq_some {k : ℕ} {e : E} : p.poolStep t (.act k e) = some t' ↔
    ∃ l s o, t.threads.lookup k = some l ∧ p.step t.shared k l e = some (s, o) ∧
      t' = t.settle k s o := by
  simp only [poolStep, Option.bind_eq_some_iff, Option.map_eq_some_iff, Prod.exists,
    @eq_comm _ _ t']
  exact exists_congr fun l => by simp only [← exists_and_left]

theorem abort_eq_some {k : ℕ} : p.poolStep t (.abort k) = some t' ↔
    ∃ l s, t.threads.lookup k = some l ∧ p.abort t.shared k l = some s ∧
      t' = ⟨s, t.threads.erase k⟩ := by
  simp only [poolStep, Option.bind_eq_some_iff, Option.map_eq_some_iff, @eq_comm _ _ t']
  exact exists_congr fun l => by simp only [← exists_and_left]

theorem env_eq_some {v : V} : p.poolStep t (.env v) = some t' ↔
    ∃ s, p.env t.shared v = some s ∧ t' = ⟨s, t.threads⟩ := by
  simp [poolStep, eq_comm]

/-- An assertion on the shared state is kept by a step of the pool if the steps
    of the threads and of the environment keep it. -/
theorem shared_step {I : S → Prop} {a : Pool.Action Q E V} (h : I t.shared)
    (hstep : p.poolStep t a = some t')
    (hact : ∀ k e l s o, a = .act k e → t.threads.lookup k = some l →
      p.step t.shared k l e = some (s, o) → I s)
    (habort : ∀ k l s, a = .abort k → t.threads.lookup k = some l →
      p.abort t.shared k l = some s → I s)
    (henv : ∀ v s, a = .env v → p.env t.shared v = some s → I s) : I t'.shared := by
  cases a with
  | enter k q =>
    obtain ⟨-, rfl⟩ := enter_eq_some.1 hstep
    exact h
  | act k e =>
    obtain ⟨l, s, o, hl, hs, rfl⟩ := act_eq_some.1 hstep
    rw [Pool.settle_shared]
    exact hact k e l s o rfl hl hs
  | abort k =>
    obtain ⟨l, s, hl, hs, rfl⟩ := abort_eq_some.1 hstep
    exact habort k l s rfl hl hs
  | env v =>
    obtain ⟨s, hs, rfl⟩ := env_eq_some.1 hstep
    exact henv v s rfl hs

/-- After a step of the pool, a thread stands where it did, and has not moved, or
    comes in, or has taken the step. -/
theorem lookup_step {a : Pool.Action Q E V} {k : ℕ} {l : L} (hstep : p.poolStep t a = some t')
    (hl : t'.threads.lookup k = some l) :
    (t.threads.lookup k = some l ∧ a.isOf k = false) ∨ (∃ q, a = .enter k q ∧ p.enter q = l) ∨
      ∃ e l' s, a = .act k e ∧ t.threads.lookup k = some l' ∧
        p.step t.shared k l' e = some (s, .inl l) := by
  cases a with
  | enter k' q =>
    obtain ⟨-, rfl⟩ := enter_eq_some.1 hstep
    rw [Finmap.lookup_insert_ite] at hl
    split_ifs at hl with hk
    · exact .inr (.inl ⟨q, by rw [hk], Option.some.inj hl⟩)
    · exact .inl ⟨hl, decide_eq_false hk⟩
  | act k' e =>
    obtain ⟨l', s, o, hl', hs, rfl⟩ := act_eq_some.1 hstep
    by_cases hk : k = k'
    · subst hk
      obtain rfl := Pool.settle_lookup.1 hl
      exact .inr (.inr ⟨e, l', s, rfl, hl', hs⟩)
    · exact .inl ⟨(Pool.settle_lookup_ne t s o hk).symm.trans hl, decide_eq_false hk⟩
  | abort k' =>
    obtain ⟨l', s, -, -, rfl⟩ := abort_eq_some.1 hstep
    have hk : k ≠ k' := by
      rintro rfl
      exact absurd ((Finmap.lookup_erase k _).symm.trans hl) (Option.some_ne_none l).symm
    exact .inl ⟨(Finmap.lookup_erase_ne hk).symm.trans hl, decide_eq_false hk⟩
  | env v =>
    obtain ⟨s, -, rfl⟩ := env_eq_some.1 hstep
    exact .inl ⟨hl, rfl⟩

variable (p) in
/-- The pool in which a thread took the last of its steps from a place that `c` holds
    of, if it has taken any. -/
def lastAt (k : ℕ) (c : L → Bool) (t : Pool S L) :
    List (Pool.Action Q E V) → Option (Pool S L)
  | [] => none
  | a :: as =>
    ((p.poolStep t a).bind fun t' => lastAt k c t' as).or
      (if a.isOf k ∧ (t.threads.lookup k).any c then some t else none)

section LastAt

variable {k : ℕ} {c : L → Bool} {as : List (Pool.Action Q E V)} {a : Pool.Action Q E V}

theorem lastAt_snoc (h : Run.run p.poolStep t as = some t') :
    p.lastAt k c t (as ++ [a]) =
      if a.isOf k ∧ (t'.threads.lookup k).any c then some t' else p.lastAt k c t as := by
  induction as generalizing t with
  | nil =>
    obtain rfl := Option.some.inj h
    rcases hstep : p.poolStep t a with - | u
    · simp [lastAt, hstep]
    · simp [lastAt, hstep]
  | cons b as ih =>
    obtain ⟨u, hu, h⟩ := Option.bind_eq_some_iff.1 h
    rw [List.cons_append, lastAt, lastAt, hu, Option.bind_some, Option.bind_some, ih h]
    by_cases ha : a.isOf k ∧ (t'.threads.lookup k).any c
    · rw [if_pos ha, if_pos ha, Option.some_or]
    · rw [if_neg ha, if_neg ha]

/-- Others do not change where the thread was. -/
theorem lastAt_other (h : Run.run p.poolStep t as = some t') (ha : a.isOf k = false) :
    p.lastAt k c t (as ++ [a]) = p.lastAt k c t as := by
  rw [lastAt_snoc h, if_neg fun hof => Bool.false_ne_true (ha.symm.trans hof.1)]

/-- The thread takes a step from where it stands. -/
theorem lastAt_act {e : E} {l : L} (h : Run.run p.poolStep t as = some t')
    (hl : t'.threads.lookup k = some l) :
    p.lastAt k c t (as ++ [.act k e]) = if c l then some t' else p.lastAt k c t as := by
  rw [lastAt_snoc h, hl]
  simp [Pool.Action.isOf]

/-- What is to be shown of the steps of a thread, and of those of others, for an
    assertion about where it stands, and the run so far. -/
theorem thread_run {K : List (Pool.Action Q E V) → L → Prop} {s : S} {l : L}
    (henter : ∀ past q, K (past ++ [.enter k q]) (p.enter q))
    (hact : ∀ past u e l s' l', Run.run p.poolStep (Pool.idle s) past = some u →
      u.threads.lookup k = some l → K past l → p.step u.shared k l e = some (s', .inl l') →
      K (past ++ [.act k e]) l')
    (hother : ∀ past u a l, Run.run p.poolStep (Pool.idle s) past = some u → a.isOf k = false →
      K past l → K (past ++ [a]) l)
    (h : Run.run p.poolStep (Pool.idle s) as = some t) (hl : t.threads.lookup k = some l) :
    K as l := by
  induction as using List.reverseRecOn generalizing t l with
  | nil =>
    obtain rfl := Option.some.inj h
    exact absurd ((Finmap.lookup_empty k).symm.trans hl) (Option.some_ne_none l).symm
  | append_singleton as a ih =>
    obtain ⟨u, hu, hstep⟩ := Run.run_snoc.1 h
    rcases lookup_step hstep hl with ⟨hl', hof⟩ | ⟨q, rfl, rfl⟩ | ⟨e, l', s', rfl, hl', hs⟩
    · exact hother as u a l hu hof (ih hu hl')
    · exact henter as q
    · exact hact as u e l' s' l hu hl' (ih hu hl') hs

end LastAt

/-- What a thread does when it is the only one to move, and what it answers in
    the end: its first step takes the first event, and so on. -/
def alone (p : Program S Q L E R V) (k : ℕ) : S → L → List E → Option (S × R)
  | _, _, [] => none
  | s, l, e :: es =>
    match p.step s k l e with
    | some (s', .inl l') => p.alone k s' l' es
    | some (s', .inr r) => if es.isEmpty then some (s', r) else none
    | none => none

end Program

namespace Pool

/-- `I` holds of the shared state, and `J` of every thread. -/
def Holds (I : S → Prop) (J : S → ℕ → L → Prop) (t : Pool S L) : Prop :=
  I t.shared ∧ ∀ k l, t.threads.lookup k = some l → J t.shared k l

variable {I : S → Prop} {J : S → ℕ → L → Prop} {p : Program S Q L E R V} {t t' : Pool S L}

theorem holds_idle {s : S} (h : I s) : Holds I J (idle s) :=
  ⟨h, fun k l hl => absurd ((Finmap.lookup_empty k).symm.trans hl) (Option.some_ne_none l).symm⟩

/-- What is to be shown for a step of the pool to keep the assertions. -/
theorem Holds.step {a : Action Q E V} (h : Holds I J t) (hstep : p.poolStep t a = some t')
    (henter : ∀ k q, a = .enter k q → J t.shared k (p.enter q))
    (hact : ∀ k e l s o, a = .act k e → t.threads.lookup k = some l →
      p.step t.shared k l e = some (s, o) → I s ∧ (∀ l', o = .inl l' → J s k l') ∧
        ∀ k' l', k' ≠ k → t.threads.lookup k' = some l' → J s k' l')
    (habort : ∀ k l s, a = .abort k → t.threads.lookup k = some l →
      p.abort t.shared k l = some s → I s ∧
        ∀ k' l', k' ≠ k → t.threads.lookup k' = some l' → J s k' l')
    (henv : ∀ v s, a = .env v → p.env t.shared v = some s → I s ∧
      ∀ k l, t.threads.lookup k = some l → J s k l) : Holds I J t' := by
  cases a with
  | enter k q =>
    obtain ⟨-, rfl⟩ := Program.enter_eq_some.1 hstep
    refine ⟨h.1, fun k' l hl => ?_⟩
    rw [Finmap.lookup_insert_ite] at hl
    split_ifs at hl with hk
    · obtain rfl := Option.some.inj hl
      exact hk ▸ henter k q rfl
    · exact h.2 k' l hl
  | act k e =>
    obtain ⟨l, s, o, hl, hs, rfl⟩ := Program.act_eq_some.1 hstep
    obtain ⟨hI, hJ, hothers⟩ := hact k e l s o rfl hl hs
    rw [Holds, settle_shared]
    refine ⟨hI, fun k' l' hl' => ?_⟩
    by_cases hk : k' = k
    · subst hk
      exact hJ l' (settle_lookup.1 hl')
    · exact hothers k' l' hk ((settle_lookup_ne t s o hk).symm.trans hl')
  | abort k =>
    obtain ⟨l, s, hl, hs, rfl⟩ := Program.abort_eq_some.1 hstep
    obtain ⟨hI, hothers⟩ := habort k l s rfl hl hs
    refine ⟨hI, fun k' l' hl' => ?_⟩
    have hk : k' ≠ k := by
      rintro rfl
      exact absurd ((Finmap.lookup_erase k' _).symm.trans hl') (Option.some_ne_none l').symm
    exact hothers k' l' hk ((Finmap.lookup_erase_ne hk).symm.trans hl')
  | env v =>
    obtain ⟨s, hs, rfl⟩ := Program.env_eq_some.1 hstep
    exact henv v s rfl hs

end Pool
