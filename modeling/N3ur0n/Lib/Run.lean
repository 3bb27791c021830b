import Mathlib.Data.List.Induction

/-!
# Runs

A program that reacts to actions, in an order it does not choose, is a partial
function from its states and the actions to its states; it is undefined when
the action is not possible in the state. A *run* is a list of actions, all of
them possible in turn (`run`).

* `run_append`: a run goes on from where another one stopped;
* `run_induction`: what holds at the start, and stays true when a run takes one
  more action, holds after every run;
* `Along`: every action of a run is taken in a state where some condition holds, and
  `AlongPast`, a condition that is told the actions before;
* `count`: how many actions of a run are taken when some condition holds;
* `Always`: some property holds in every state a run goes through;
* `always_iff_along`: what a step keeps exactly under a condition, a run always
  has exactly when the condition holds all along;
* `Occurs`: some action of a run is taken in a state where some condition holds.
-/

namespace Run

variable {S A : Type*} (step : S → A → Option S)

/-- The state after a list of actions, if all of them are possible. -/
def run : S → List A → Option S
  | s, [] => some s
  | s, a :: as => (step s a).bind fun s' => run s' as

variable {step}

theorem run_append {s : S} {as bs : List A} :
    run step s (as ++ bs) = (run step s as).bind fun s' => run step s' bs := by
  induction as generalizing s with
  | nil => rfl
  | cons a as ih =>
    rw [List.cons_append, run, run, Option.bind_assoc]
    exact congrArg _ (funext fun s' => ih)

theorem run_snoc {s s' : S} {as : List A} {a : A} :
    run step s (as ++ [a]) = some s' ↔ ∃ t, run step s as = some t ∧ step t a = some s' := by
  simp [run_append, run, Option.bind_eq_some_iff]

/-- Induction along a run, from its start: `P` is told the actions so far. -/
theorem run_induction {s : S} {P : List A → S → Prop} (h0 : P [] s)
    (hstep : ∀ as t a t', P as t → step t a = some t' → P (as ++ [a]) t') {as : List A} {s' : S}
    (h : run step s as = some s') : P as s' := by
  induction as using List.reverseRecOn generalizing s' with
  | nil =>
    rw [run, Option.some.injEq] at h
    exact h ▸ h0
  | append_singleton as a ih =>
    obtain ⟨t, ht, hstep'⟩ := run_snoc.1 h
    exact hstep as t a s' (ih ht) hstep'

/-- An invariant of the steps is an invariant of the runs. -/
theorem run_invariant {I : S → Prop} (hI : ∀ s a s', I s → step s a = some s' → I s') {s s' : S}
    {as : List A} (hs : I s) (h : run step s as = some s') : I s' :=
  run_induction (P := fun _ => I) hs (fun _ t a t' => hI t a t') h

variable (step) in
/-- Every action is taken in a state where `Q` holds of it. -/
def Along (Q : S → A → Prop) : S → List A → Prop
  | _, [] => True
  | s, a :: as => Q s a ∧ ∀ s', step s a = some s' → Along Q s' as

/-- Whether a condition holds along a run, by taking it. -/
instance decidableAlong {Q : S → A → Prop} [∀ s a, Decidable (Q s a)] :
    (s : S) → (as : List A) → Decidable (Along step Q s as)
  | _, [] => isTrue trivial
  | s, a :: as =>
    match h : step s a with
    | none => decidable_of_iff (Q s a) (by simp [Along, h])
    | some s' =>
      have := decidableAlong (Q := Q) s' as
      decidable_of_iff (Q s a ∧ Along step Q s' as) (by simp [Along, h])

/-- One more action, after a run. -/
theorem along_snoc {Q : S → A → Prop} {s t : S} {as : List A} {a : A}
    (h : run step s as = some t) : Along step Q s (as ++ [a]) ↔ Along step Q s as ∧ Q t a := by
  induction as generalizing s with
  | nil =>
    obtain rfl := Option.some.inj h
    simp [Along]
  | cons b as ih =>
    obtain ⟨s', hs', h⟩ := Option.bind_eq_some_iff.1 h
    have huniq (P : S → Prop) : (∀ t, step s b = some t → P t) ↔ P s' :=
      ⟨fun h => h s' hs', fun h t ht => Option.some.inj (hs'.symm.trans ht) ▸ h⟩
    rw [List.cons_append, Along, Along, huniq, huniq, ih h, and_assoc]

/-- A property that a step keeps exactly when a condition holds is kept along a
    run exactly when the condition holds all along. The step may rely on an
    invariant `I`. -/
theorem iff_along {I P : S → Prop} {Q : S → A → Prop} {s s' : S} {as : List A} (hs : I s)
    (hP : P s) (hI : ∀ t a t', I t → step t a = some t' → I t')
    (hstep : ∀ t a t', I t → step t a = some t' → (P t' ↔ P t ∧ Q t a))
    (h : run step s as = some s') : P s' ↔ Along step Q s as := by
  induction as using List.reverseRecOn generalizing s' with
  | nil =>
    obtain rfl := Option.some.inj h
    exact iff_of_true hP trivial
  | append_singleton as a ih =>
    obtain ⟨t, ht, hta⟩ := run_snoc.1 h
    rw [hstep t a s' (run_invariant hI hs ht) hta, ih ht, along_snoc ht]

/-- What holds at the start, and is kept by the actions taken when `Q` holds,
    holds after a run along which `Q` holds. -/
theorem along_invariant {I : S → Prop} {Q : S → A → Prop}
    (hI : ∀ s a s', I s → Q s a → step s a = some s' → I s') {s s' : S} {as : List A} (hs : I s)
    (hQ : Along step Q s as) (h : run step s as = some s') : I s' := by
  induction as generalizing s with
  | nil => exact Option.some.inj h ▸ hs
  | cons a as ih =>
    obtain ⟨t, ht, h⟩ := Option.bind_eq_some_iff.1 h
    exact ih (hI s a t hs hQ.1 ht) (hQ.2 t ht) h

/-- A condition that holds along a run holds along every beginning of it. -/
theorem along_start {Q : S → A → Prop} {s : S} {as bs : List A} (hp : bs <+: as)
    (hQ : Along step Q s as) : Along step Q s bs := by
  obtain ⟨cs, rfl⟩ := hp
  induction bs generalizing s with
  | nil => exact trivial
  | cons b bs ih => exact ⟨hQ.1, fun t ht => ih (hQ.2 t ht)⟩

/-- A condition may be weakened, where the actions are taken. -/
theorem Along.imp {Q Q' : S → A → Prop} {s : S} {as : List A} (hQ : Along step Q s as)
    (himp : ∀ t, ∀ a ∈ as, Q t a → Q' t a) : Along step Q' s as := by
  induction as generalizing s with
  | nil => exact trivial
  | cons a as ih =>
    obtain ⟨ha, himp⟩ := List.forall_mem_cons.1 fun a ha t => himp t a ha
    exact ⟨ha s hQ.1, fun t ht => ih (hQ.2 t ht) fun t a ha => himp a ha t⟩

/-- A condition may be replaced by what an invariant makes of it. -/
theorem Along.imp_of_invariant {I : S → Prop} {Q Q' : S → A → Prop} {s : S} {as : List A}
    (hQ : Along step Q s as) (hs : I s) (hI : ∀ t a t', I t → Q t a → step t a = some t' → I t')
    (himp : ∀ t a, I t → Q t a → Q' t a) : Along step Q' s as := by
  induction as generalizing s with
  | nil => exact trivial
  | cons a as ih =>
    exact ⟨himp s a hs hQ.1, fun t ht => ih (hQ.2 t ht) (hI s a t hs hQ.1 ht)⟩

/-- Two conditions hold along a run if both of them do. -/
theorem along_and {Q Q' : S → A → Prop} {s : S} {as : List A} :
    Along step (fun t a => Q t a ∧ Q' t a) s as ↔ Along step Q s as ∧ Along step Q' s as := by
  refine ⟨fun h => ⟨h.imp fun _ _ _ => And.left, h.imp fun _ _ _ => And.right⟩, fun h => ?_⟩
  induction as generalizing s with
  | nil => exact trivial
  | cons a as ih =>
    obtain ⟨⟨hQ, has⟩, hQ', has'⟩ := h
    exact ⟨⟨hQ, hQ'⟩, fun t ht => ih ⟨has t ht, has' t ht⟩⟩

variable (step) in
/-- Every action is taken in a state where `Q` holds of it, after the actions before. -/
def AlongPast (Q : List A → S → A → Prop) : List A → S → List A → Prop
  | _, _, [] => True
  | past, s, a :: as =>
    Q past s a ∧ ∀ s', step s a = some s' → AlongPast Q (past ++ [a]) s' as

instance decidableAlongPast {Q : List A → S → A → Prop} [∀ past s a, Decidable (Q past s a)] :
    (past : List A) → (s : S) → (as : List A) → Decidable (AlongPast step Q past s as)
  | _, _, [] => isTrue trivial
  | past, s, a :: as =>
    match h : step s a with
    | none => decidable_of_iff (Q past s a) (by simp [AlongPast, h])
    | some s' =>
      have := decidableAlongPast (Q := Q) (past ++ [a]) s' as
      decidable_of_iff (Q past s a ∧ AlongPast step Q (past ++ [a]) s' as)
        (by simp [AlongPast, h])

/-- What a condition says of the past may be known of the states that are reached. -/
theorem alongPast_iff_along {Q : List A → S → A → Prop} {Q' : S → A → Prop} {s₀ s : S}
    {past as : List A} (hQ : ∀ past t a, run step s₀ past = some t → (Q past t a ↔ Q' t a))
    (h : run step s₀ past = some s) : AlongPast step Q past s as ↔ Along step Q' s as := by
  induction as generalizing past s with
  | nil => exact Iff.rfl
  | cons a as ih =>
    rw [AlongPast, Along, hQ past s a h]
    exact and_congr_right fun _ => forall₂_congr fun s' hs' => ih (run_snoc.2 ⟨s, h, hs'⟩)

/-- What holds along a run holds at any action of it. -/
theorem Along.split {Q : S → A → Prop} {s t : S} {bs cs : List A} {a : A}
    (hQ : Along step Q s (bs ++ a :: cs)) (h : run step s bs = some t) : Q t a :=
  ((along_snoc h).1 (along_start ⟨cs, by rw [List.append_assoc, List.singleton_append]⟩ hQ)).2

variable (step) in
/-- Some action is taken in a state where `E` holds of it. -/
def Occurs (E : S → A → Prop) (s : S) (as : List A) : Prop :=
  ∃ bs a cs t, as = bs ++ a :: cs ∧ run step s bs = some t ∧ E t a

theorem not_occurs_nil {E : S → A → Prop} {s : S} : ¬Occurs step E s [] := by
  rintro ⟨bs, a, cs, t, h, -⟩
  exact List.append_ne_nil_of_right_ne_nil bs (List.cons_ne_nil a cs) h.symm

/-- What holds of no action of a run has not occurred. -/
theorem not_occurs_of_along {E : S → A → Prop} {s : S} {as : List A}
    (h : Along step (fun t a => ¬E t a) s as) : ¬Occurs step E s as := by
  rintro ⟨bs, a, cs, t, rfl, ht, he⟩
  exact h.split ht he

/-- What has occurred has occurred when a run goes on. -/
theorem Occurs.append {E : S → A → Prop} {s : S} {as : List A} (h : Occurs step E s as)
    (bs : List A) : Occurs step E s (as ++ bs) := by
  obtain ⟨ds, a, cs, t, rfl, ht, he⟩ := h
  exact ⟨ds, a, cs ++ bs, t, by rw [List.append_assoc, List.cons_append], ht, he⟩

/-- What has occurred since has occurred. -/
theorem Occurs.since {E : S → A → Prop} {s s' : S} {as bs : List A}
    (h : Occurs step E s' bs) (hs : run step s as = some s') : Occurs step E s (as ++ bs) := by
  obtain ⟨ds, a, cs, t, rfl, ht, he⟩ := h
  refine ⟨as ++ ds, a, cs, t, by rw [List.append_assoc], ?_, he⟩
  rw [run_append, hs, Option.bind_some, ht]

/-- One more action, after a run. -/
theorem occurs_snoc {E : S → A → Prop} {s t : S} {as : List A} {a : A}
    (h : run step s as = some t) :
    Occurs step E s (as ++ [a]) ↔ Occurs step E s as ∨ E t a := by
  constructor
  · rintro ⟨bs, b, cs, u, hsplit, hu, he⟩
    rcases List.eq_nil_or_concat cs with rfl | ⟨cs, c, rfl⟩
    · obtain ⟨rfl, hb⟩ := List.append_inj' hsplit rfl
      obtain rfl := List.head_eq_of_cons_eq hb
      exact .inr (Option.some.inj (h.symm.trans hu) ▸ he)
    · rw [List.concat_eq_append, ← List.cons_append, ← List.append_assoc] at hsplit
      exact .inl ⟨bs, b, cs, u, (List.append_inj' hsplit rfl).1, hu, he⟩
  · rintro (h' | he)
    · exact h'.append [a]
    · exact ⟨as, a, [], t, rfl, h, he⟩

variable (step) in
/-- How many actions are taken when `c` holds. -/
def count (c : S → A → Bool) : S → List A → ℕ
  | _, [] => 0
  | s, a :: as => (c s a).toNat + ((step s a).map fun s' => count c s' as).getD 0

/-- One more action, after a run. -/
theorem count_snoc {c : S → A → Bool} {s t : S} {as : List A} {a : A}
    (h : run step s as = some t) :
    count step c s (as ++ [a]) = count step c s as + (c t a).toNat := by
  induction as generalizing s with
  | nil =>
    obtain rfl := Option.some.inj h
    cases hs : step s a with
    | none => simp [count, hs]
    | some s' => simp [count, hs]
  | cons b as ih =>
    obtain ⟨s', hs', h⟩ := Option.bind_eq_some_iff.1 h
    rw [List.cons_append, count, count, hs', Option.map_some, Option.map_some, Option.getD_some,
      Option.getD_some, ih h, Nat.add_assoc]

variable (step) in
/-- `P` holds in every state that the run goes through, its start included. -/
def Always (P : S → Prop) (s : S) (as : List A) : Prop :=
  ∀ bs t, bs <+: as → run step s bs = some t → P t

/-- What holds at the start, and is kept by the actions taken when `Q` holds, is
    true throughout a run along which `Q` holds. -/
theorem always_of_along {I : S → Prop} {Q : S → A → Prop}
    (hI : ∀ s a s', I s → Q s a → step s a = some s' → I s') {s : S} {as : List A} (hs : I s)
    (hQ : Along step Q s as) : Always step I s as := fun _ _ hp h =>
  along_invariant hI hs (along_start hp hQ) h

/-- What is true throughout a run, if it is stronger, makes `P` true throughout. -/
theorem Always.imp {P P' : S → Prop} {s : S} {as : List A} (hP : Always step P s as)
    (himp : ∀ t, P t → P' t) : Always step P' s as := fun bs t hp h => himp t (hP bs t hp h)

/-- One more action, after a run. -/
theorem always_snoc {P : S → Prop} {s t t' : S} {as : List A} {a : A}
    (h : run step s as = some t) (ht : step t a = some t') :
    Always step P s (as ++ [a]) ↔ Always step P s as ∧ P t' := by
  have hlast : run step s (as ++ [a]) = some t' := run_snoc.2 ⟨t, h, ht⟩
  constructor
  · intro hP
    exact ⟨fun bs u hp hu => hP bs u (hp.trans (List.prefix_append as [a])) hu,
      hP _ t' (List.prefix_refl _) hlast⟩
  · rintro ⟨hP, hP'⟩ bs u hp hu
    rcases List.prefix_concat_iff.1 hp with rfl | hp
    · exact Option.some.inj (hlast.symm.trans hu) ▸ hP'
    · exact hP bs u hp hu

/-- A property that a step keeps exactly when a condition holds is true
    throughout a run exactly when the condition holds all along. The invariant
    `I` is one of the runs in which the property stays true. -/
theorem always_iff_along {I P : S → Prop} {Q : S → A → Prop} {s s' : S} {as : List A} (hs : I s)
    (hP : P s) (hI : ∀ t a t', I t → P t → Q t a → step t a = some t' → I t')
    (hstep : ∀ t a t', I t → P t → step t a = some t' → (P t' ↔ Q t a))
    (h : run step s as = some s') : Always step P s as ↔ Along step Q s as := by
  suffices hkey : (Always step P s as ↔ Along step Q s as) ∧ (Always step P s as → I s') from hkey.1
  induction as using List.reverseRecOn generalizing s' with
  | nil =>
    obtain rfl := Option.some.inj h
    refine ⟨iff_of_true (fun bs t hp ht => ?_) trivial, fun _ => hs⟩
    obtain rfl := List.prefix_nil.1 hp
    exact Option.some.inj ht ▸ hP
  | append_singleton as a ih =>
    obtain ⟨t, ht, hta⟩ := run_snoc.1 h
    obtain ⟨hiff, hinv⟩ := ih ht
    rw [always_snoc ht hta, along_snoc ht, ← hiff]
    -- As long as the property held, so did the invariant, and the step decides.
    have hat (hA : Always step P s as) : P t := hA as t (List.prefix_refl _) ht
    refine ⟨and_congr_right fun hA => hstep t a s' (hinv hA) (hat hA) hta, fun ⟨hA, hP'⟩ => ?_⟩
    exact hI t a s' (hinv hA) (hat hA) ((hstep t a s' (hinv hA) (hat hA) hta).1 hP') hta

end Run
