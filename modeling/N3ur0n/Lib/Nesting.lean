import Mathlib.Data.List.Basic

/-!
# Nesting

A scanner of texts with strings between quotes, where a backslash escapes, and with braces
outside of them (`move`). A text *crosses* when it leaves the scanner outside strings, at
the depth where it was (`Crosses`).

* `crosses_append`, `crosses_braces`: texts that cross are made of such texts;
* `Crosses.suffix_of_braces`: what follows the first brace of a text between braces does
  not cross, up to its last brace.
-/

namespace Nesting

/-- Where the scanner is: outside strings, in a string, or after a backslash there. -/
inductive Place
  | outside
  | inside
  | escaped
  deriving DecidableEq

/-- The characters of a scanner. -/
structure Marks where
  quote : Char
  quote_ne : quote ≠ '\\' ∧ quote ≠ '{' ∧ quote ≠ '}'

variable (M : Marks)

/-- The place, and the number of open braces, after one more character. Outside strings,
    the scanner refuses backslashes, and a brace that closes nothing. -/
def move : Place × ℕ → Char → Option (Place × ℕ)
  | (.escaped, d), _ => some (.inside, d)
  | (.inside, d), c =>
    some (if c = '\\' then .escaped else if c = M.quote then .outside else .inside, d)
  | (.outside, d), c =>
    if c = M.quote then some (.inside, d)
    else if c = '{' then some (.outside, d + 1)
    else if c = '}' then if d = 0 then none else some (.outside, d - 1)
    else if c = '\\' then none
    else some (.outside, d)

/-- The scanner over a text. -/
def sweep (st : Place × ℕ) (cs : List Char) : Option (Place × ℕ) := cs.foldlM (move M) st

/-- From one place to another one, at any depth. -/
def Leads (p q : Place) (t : List Char) : Prop := ∀ d, sweep M (p, d) t = some (q, d)

/-- A text that leaves the scanner where it was, outside strings. -/
def Crosses (t : List Char) : Prop := Leads M .outside .outside t

variable {M} {st st' : Place × ℕ} {p q r p' q' : Place} {d e d' e' : ℕ} {c : Char}
  {t u v w body : List Char}

theorem sweep_cons : sweep M st (c :: t) = (move M st c).bind fun st => sweep M st t := rfl

theorem sweep_append : sweep M st (u ++ t) = (sweep M st u).bind fun st => sweep M st t := by
  rw [sweep, List.foldlM_append]
  rfl

theorem leads_nil : Leads M p p [] := fun _ => rfl

theorem Leads.append (hu : Leads M p q u) (ht : Leads M q r t) : Leads M p r (u ++ t) := fun d => by
  rw [sweep_append, hu d, Option.bind_some, ht d]

theorem Leads.cons (hc : ∀ d, move M (p, d) c = some (q, d)) (ht : Leads M q r t) :
    Leads M p r (c :: t) := fun d => by
  rw [sweep_cons, hc d, Option.bind_some, ht d]

/-- A character that the scanner does not mark. -/
def Plain (M : Marks) (c : Char) : Prop := c ≠ M.quote ∧ c ≠ '{' ∧ c ≠ '}' ∧ c ≠ '\\'

instance : Decidable (Plain M c) :=
  inferInstanceAs (Decidable (c ≠ M.quote ∧ c ≠ '{' ∧ c ≠ '}' ∧ c ≠ '\\'))

theorem crosses_plain (h : ∀ c ∈ t, Plain M c) : Crosses M t := by
  induction t with
  | nil => exact leads_nil
  | cons c t ih =>
    obtain ⟨⟨hquote, hopen, hclose, hslash⟩, ht⟩ := List.forall_mem_cons.1 h
    exact (ih ht).cons fun d => by simp [move, hquote, hopen, hclose, hslash]

theorem crosses_quote (h : Leads M .inside .outside t) : Crosses M (M.quote :: t) :=
  h.cons fun _ => if_pos rfl

theorem move_open : move M (.outside, d) '{' = some (.outside, d + 1) := by
  rw [move, if_neg M.quote_ne.2.1.symm, if_pos rfl]

theorem move_close : move M (.outside, d + 1) '}' = some (.outside, d) := by
  rw [move, if_neg M.quote_ne.2.2.symm, if_neg (by decide), if_pos rfl, if_neg (Nat.succ_ne_zero d)]
  rfl

theorem crosses_braces (h : Crosses M t) : Crosses M ('{' :: t ++ ['}']) := fun d => by
  rw [List.cons_append, sweep_cons, move_open, Option.bind_some, sweep_append, h, Option.bind_some,
    sweep_cons, move_close]
  rfl

/-! ## Deeper -/

theorem move_succ (h : move M (p, d) c = some (q, e)) : move M (p, d + 1) c = some (q, e + 1) := by
  rcases p with _ | _ | _
  · simp only [move] at h ⊢
    split_ifs at h ⊢
    all_goals simp_all
    omega
  · simp only [move, Option.some.injEq, Prod.mk.injEq] at h ⊢
    exact ⟨h.1, by rw [h.2]⟩
  · simp only [move, Option.some.injEq, Prod.mk.injEq] at h ⊢
    exact ⟨h.1, by rw [h.2]⟩

/-- A text is scanned in the same way one brace deeper. -/
theorem sweep_succ (h : sweep M (p, d) t = some (q, e)) :
    sweep M (p, d + 1) t = some (q, e + 1) := by
  induction t generalizing p d with
  | nil =>
    obtain ⟨rfl, rfl⟩ : p = q ∧ d = e := by simpa [sweep] using h
    rfl
  | cons c t ih =>
    obtain ⟨⟨p₁, d₁⟩, hc, ht⟩ := Option.bind_eq_some_iff.1 h
    rw [sweep_cons, move_succ hc, Option.bind_some, ih ht]

/-! ## Opposite sides of the quotes -/

/-- One scanner is in a string where the other is not. -/
def Opposed (p q : Place) : Prop :=
  p = .outside ∧ q = .inside ∨ p = .inside ∧ q = .outside

theorem Opposed.symm (h : Opposed p q) : Opposed q p := h.elim (.inr ∘ And.symm) (.inl ∘ And.symm)

/-- What is read outside strings. -/
theorem move_outside (h : move M (.outside, d) c = some (q, e)) :
    c ≠ '\\' ∧ q = if c = M.quote then .inside else .outside := by
  by_cases hq : c = M.quote
  · rw [move, if_pos hq, Option.some.injEq, Prod.mk.injEq] at h
    exact ⟨hq ▸ M.quote_ne.1, by rw [if_pos hq, h.1]⟩
  · rw [if_neg hq]
    simp only [move, hq, if_false] at h
    split_ifs at h <;> simp_all

theorem move_opposed (hp : Opposed p p') (h : move M (p, d) c = some (q, e))
    (h' : move M (p', d') c = some (q', e')) : Opposed q q' := by
  wlog hout : p = .outside generalizing p p' d e q d' e' q'
  · rcases hp with hp | hp
    · exact absurd hp.1 hout
    · exact (this (.inl hp.symm) h' h hp.2).symm
  · obtain rfl := hout
    obtain rfl : p' = .inside := hp.elim And.right fun h => absurd h.1 (by decide)
    obtain ⟨hslash, hq⟩ := move_outside h
    simp only [move, hslash, if_false, Option.some.injEq, Prod.mk.injEq] at h'
    rw [hq, ← h'.1]
    by_cases hc : c = M.quote
    · exact .inr ⟨if_pos hc, if_pos hc⟩
    · exact .inl ⟨if_neg hc, if_neg hc⟩

/-- Scanners on opposite sides of the quotes stay so. -/
theorem sweep_opposed (hp : Opposed p p') (h : sweep M (p, d) t = some (q, e))
    (h' : sweep M (p', d') t = some (q', e')) : Opposed q q' := by
  induction t generalizing p d p' d' with
  | nil =>
    obtain ⟨rfl, -⟩ : p = q ∧ d = e := by simpa [sweep] using h
    obtain ⟨rfl, -⟩ : p' = q' ∧ d' = e' := by simpa [sweep] using h'
    exact hp
  | cons c t ih =>
    obtain ⟨⟨p₁, d₁⟩, hc, ht⟩ := Option.bind_eq_some_iff.1 h
    obtain ⟨⟨p₂, d₂⟩, hc', ht'⟩ := Option.bind_eq_some_iff.1 h'
    exact ih (move_opposed hp hc hc') ht ht'

theorem not_opposed_self : ¬ Opposed p p := by
  rintro (⟨rfl, h⟩ | ⟨rfl, h⟩)
  · exact Place.noConfusion h
  · exact Place.noConfusion h

/-- A text that crosses closes no string, and no brace. -/
theorem Crosses.not_closes (h : Crosses M t) (hne : t ≠ []) :
    sweep M (p, d + 1) t ≠ some (.outside, 0) := by
  intro hp
  rcases p with _ | _ | _
  · exact absurd ((h (d + 1)).symm.trans hp) (by simp)
  · exact not_opposed_self (sweep_opposed (.inl ⟨rfl, rfl⟩) (h 0) hp)
  · -- The first character is escaped: if it is a quote then it opens a string on its own,
    -- at the same depth, and otherwise it leaves the scanners on opposite sides.
    obtain ⟨c, t, rfl⟩ := List.exists_cons_of_ne_nil hne
    obtain ⟨⟨q, e⟩, hc, ht⟩ := Option.bind_eq_some_iff.1 (h (d + 1))
    have hp' : sweep M (.inside, d + 1) t = some (.outside, 0) := hp
    by_cases hquote : c = M.quote
    · rw [move, if_pos hquote] at hc
      rw [← Option.some.inj hc] at ht
      exact absurd (ht.symm.trans hp') (by simp)
    · obtain ⟨-, hq⟩ := move_outside hc
      rw [if_neg hquote] at hq
      exact not_opposed_self (sweep_opposed (.inl ⟨hq, rfl⟩) ht hp')

/-- What follows the first brace of a text between braces crosses only behind its last
    brace. -/
theorem Crosses.suffix_of_braces (hbody : Crosses M body) (hw : Crosses M w) (hne : v ≠ [])
    (h : body ++ '}' :: w = u ++ v) (hv : Crosses M v) : v <:+ w := by
  rcases List.append_eq_append_iff.1 h with ⟨u', rfl, hu'⟩ | ⟨v', rfl, hv'⟩
  · -- The last brace is in front of the rest, or is its first character.
    rcases u' with _ | ⟨c, u'⟩
    · rw [List.nil_append] at hu'
      subst hu'
      exact absurd (hv 0) (by simp [sweep_cons, move, M.quote_ne.2.2.symm])
    · rw [List.cons_append, List.cons.injEq] at hu'
      exact ⟨u', hu'.2.symm⟩
  · -- The scanner is below the first brace when it comes to the rest.
    obtain ⟨⟨p, d⟩, hu, -⟩ := Option.bind_eq_some_iff.1 (sweep_append.symm.trans (hbody 0))
    have hwhole : sweep M (.outside, 1) (u ++ v) = some (.outside, 0) := by
      rw [hv', ← List.append_assoc, sweep_append, hbody 1, Option.bind_some, sweep_cons, move_close,
        Option.bind_some, hw 0]
    rw [sweep_append, sweep_succ hu, Option.bind_some] at hwhole
    exact absurd hwhole (hv.not_closes hne)

end Nesting
