import N3ur0n.Lib.Cut

/-!
# Scanning braces

Template languages put names between braces, with or without a dollar before
them: `${inner}` or `{inner}`, up to the first closing brace. A scanner reads a
text from left to right; `f` tells which braces it takes as tokens
(`braceToken`), the others are characters.

* `cut_closed`, `tokensAt_closed`: a scanner starts anew after every closing
  brace, whatever it takes;
* `braceToken_open`: in a text without closing braces, followed by one, all the
  tokens end there; so a scanner takes at most one of them.
-/

namespace Cut

variable {α : Type*}

/-- The braces that a text opens, with or without a dollar. -/
def opening : List Char → Option (Bool × List Char)
  | '$' :: '{' :: cs => some (true, cs)
  | '{' :: cs => some (false, cs)
  | _ => none

/-- The braces at the head of a text, up to the first closing one, if they are
    taken. -/
def braceToken (f : Bool → List Char → Option α) (s : List Char) : Option (α × ℕ) :=
  (opening s).bind fun o => (upTo '}' o.2).bind fun inner =>
    (f o.1 inner).map fun a => (a, inner.length + if o.1 then 2 else 1)

variable {s t : List Char} {f : Bool → List Char → Option α}

theorem opening_eq_none (hd : ∀ cs, s ≠ '$' :: '{' :: cs) (hb : ∀ cs, s ≠ '{' :: cs) :
    opening s = none := by
  rw [opening]
  · exact hd
  · exact hb

theorem opening_eq_some {dollar : Bool} {cs : List Char} :
    opening s = some (dollar, cs) ↔ s = (if dollar then ['$'] else []) ++ '{' :: cs := by
  unfold opening
  split
  · rcases dollar <;> simp
  · rcases dollar <;> simp
  · rename_i h₁ h₂
    rcases dollar
    · simpa using h₂ cs
    · simpa using h₁ cs

/-- What is after a closing brace does not change what is opened before it. -/
theorem opening_append (s t : List Char) :
    opening (s ++ '}' :: t) = (opening s).map fun o => (o.1, o.2 ++ '}' :: t) := by
  rcases s with _ | ⟨c, _ | ⟨d, s⟩⟩
  · rfl
  · by_cases hc : c = '{'
    · subst hc
      rfl
    · have h₁ : opening [c] = none := by simp [opening, hc]
      have h₂ : opening (c :: '}' :: t) = none := by simp [opening, hc]
      rw [List.singleton_append, h₁, h₂]
      rfl
  · by_cases hd : c = '$' ∧ d = '{'
    · obtain ⟨rfl, rfl⟩ := hd
      rfl
    · by_cases hc : c = '{'
      · subst hc
        rfl
      · have hno (r : List Char) : opening (c :: d :: r) = none :=
          opening_eq_none
            (fun cs h => hd ⟨(List.cons.inj h).1, (List.cons.inj (List.cons.inj h).2).1⟩)
            fun cs h => hc (List.cons.inj h).1
        rw [hno]
        exact hno _

/-- What follows the closing brace does not matter. -/
theorem upTo_append {cs : List Char} (h : '}' ∈ cs) (t : List Char) :
    upTo '}' (cs ++ t) = upTo '}' cs := by
  obtain ⟨inner, hin⟩ := Option.ne_none_iff_exists'.1 (mt upTo_eq_none.1 (not_not.2 h))
  obtain ⟨post, rfl, hno⟩ := upTo_eq_some.1 hin
  rw [hin, upTo_eq_some]
  exact ⟨post ++ t, by simp, hno⟩

/-- Nor does it to the token. -/
theorem braceToken_append (h : '}' ∈ s) (t : List Char) :
    braceToken f (s ++ t) = braceToken f s := by
  obtain ⟨u, v, rfl⟩ := List.append_of_mem h
  rw [braceToken, braceToken, List.append_assoc, List.cons_append, opening_append, opening_append]
  cases opening u with
  | none => rfl
  | some o =>
    have hcs : '}' ∈ o.2 ++ '}' :: v := List.mem_append_right _ List.mem_cons_self
    simp only [Option.map_some, Option.bind_some]
    rw [← upTo_append hcs t, List.append_assoc, List.cons_append]

/-- A token ends before the text does: its brace is still to come. -/
theorem braceToken_lt {a : α} {n : ℕ} (h : braceToken f s = some (a, n)) : n < s.length := by
  simp only [braceToken, Option.bind_eq_some_iff, Option.map_eq_some_iff, Prod.mk.injEq] at h
  obtain ⟨⟨dollar, cs⟩, ho, inner, hin, b, -, -, rfl⟩ := h
  obtain ⟨post, rfl, -⟩ := upTo_eq_some.1 hin
  rw [opening_eq_some] at ho
  rcases dollar <;> simp [ho]

/-- Before the first closing brace, braces run up to it. -/
theorem braceToken_open (hs : '}' ∉ s) (t : List Char) :
    braceToken f (s ++ '}' :: t) = (opening s).bind fun o =>
      (f o.1 o.2).map fun a => (a, o.2.length + if o.1 then 2 else 1) := by
  rw [braceToken, opening_append]
  cases ho : opening s with
  | none => rfl
  | some o =>
    obtain ⟨dollar, cs⟩ := o
    have hcs : '}' ∉ cs := by
      rw [opening_eq_some.1 ho] at hs
      exact fun h => hs (List.mem_append_right _ (List.mem_cons_of_mem _ h))
    have hup : upTo '}' (cs ++ '}' :: t) = some cs := upTo_eq_some.2 ⟨t, rfl, hcs⟩
    simp only [Option.map_some, Option.bind_some, hup]

/-! ## Up to a closing brace -/

section

variable {c : Char} {a : α} {o : Bool × List Char} {k : ℕ}

/-- The braces taken are jumped over, up to the closing brace. -/
theorem opening_length (ho : opening s = some o) :
    s.length = o.2.length + if o.1 then 2 else 1 := by
  obtain ⟨dollar, cs⟩ := o
  rw [opening_eq_some.1 ho]
  rcases dollar <;> simp

/-- An opening whose content is taken is a token up to the next brace. -/
theorem braceToken_taken (hs : '}' ∉ s) (ho : opening s = some o) (ha : f o.1 o.2 = some a) :
    braceToken f (s ++ '}' :: t) = some (a, s.length) := by
  rw [braceToken_open hs, ho, Option.bind_some, ha, Option.map_some, opening_length ho]

/-- A text whose content is not taken is no token. -/
theorem braceToken_left (hs : '}' ∉ s) (ho : ∀ o, opening s = some o → f o.1 o.2 = none) :
    braceToken f (s ++ '}' :: t) = none := by
  rw [braceToken_open hs]
  cases h : opening s with
  | none => rfl
  | some o => rw [Option.bind_some, ho o h, Option.map_none]

/-- A token is cut off with its brace. -/
theorem cut_taken (hs : '}' ∉ s) (ho : opening s = some o) (ha : f o.1 o.2 = some a) :
    cut (braceToken f) 0 (s ++ '}' :: t) = .inr a :: cut (braceToken f) 0 t := by
  have ht := braceToken_taken (t := t) hs ho ha
  rcases s with _ | ⟨c, s⟩
  · exact absurd ho (by simp [opening])
  · have hdrop : (s ++ '}' :: t).drop (s.length + 1) = t := by
      rw [← List.drop_drop, List.drop_left]
      rfl
    rw [List.cons_append] at ht ⊢
    simp only [cut, ht]
    rw [cut_eq_drop, List.length_cons, hdrop]

/-- What is no token is cut character by character. -/
theorem cut_left (hs : '}' ∉ c :: s) (ho : ∀ o, opening (c :: s) = some o → f o.1 o.2 = none) :
    cut (braceToken f) 0 (c :: s ++ '}' :: t) =
      .inl c :: cut (braceToken f) 0 (s ++ '}' :: t) := by
  have ht := braceToken_left (t := t) hs ho
  rw [List.cons_append] at ht ⊢
  simp only [cut, ht]

/-- A closing brace that nothing opened is left. -/
theorem cut_close : cut (braceToken f) 0 ('}' :: t) = .inl '}' :: cut (braceToken f) 0 t := by
  have ht : braceToken f ('}' :: t) = none := rfl
  simp only [cut, ht]

/-- A token is listed under its place. -/
theorem tokensAt_taken (hs : '}' ∉ s) (ho : opening s = some o) (ha : f o.1 o.2 = some a) :
    tokensAt (braceToken f) k 0 (s ++ '}' :: t) =
      (k, a) :: tokensAt (braceToken f) (k + s.length + 1) 0 t := by
  have ht := braceToken_taken (t := t) hs ho ha
  rcases s with _ | ⟨c, s⟩
  · exact absurd ho (by simp [opening])
  · have hdrop : (s ++ '}' :: t).drop (s.length + 1) = t := by
      rw [← List.drop_drop, List.drop_left]
      rfl
    rw [List.cons_append] at ht ⊢
    simp only [tokensAt, ht]
    rw [tokensAt_eq_drop, List.length_cons, hdrop, Nat.add_right_comm k 1, ← Nat.add_assoc]

/-- What is no token moves the place on. -/
theorem tokensAt_left (hs : '}' ∉ c :: s)
    (ho : ∀ o, opening (c :: s) = some o → f o.1 o.2 = none) :
    tokensAt (braceToken f) k 0 (c :: s ++ '}' :: t) =
      tokensAt (braceToken f) (k + 1) 0 (s ++ '}' :: t) := by
  have ht := braceToken_left (t := t) hs ho
  rw [List.cons_append] at ht ⊢
  simp only [tokensAt, ht]

end

/-! ## Closed texts -/

/-- A text is closed if it is empty, or ends with a closing brace. -/
def Closed (s : List Char) : Prop := ∀ x, x <:+ s → x ≠ [] → '}' ∈ x

theorem closed_nil : Closed [] := fun _ hx hne => absurd (List.suffix_nil.1 hx) hne

theorem closed_concat (s : List Char) : Closed (s ++ ['}']) := by
  rintro x ⟨y, hy⟩ hne
  have hlast := congrArg List.getLast? hy
  rw [List.getLast?_append_of_ne_nil _ hne, List.getLast?_concat] at hlast
  exact List.mem_of_getLast? hlast

theorem Closed.of_mem_visited {x : List Char} {n : ℕ} (hs : Closed s)
    (hx : x ∈ visited (braceToken f) n s) : '}' ∈ x :=
  (suffix_of_mem_visited hx).elim (hs x)

/-- A text that ends with a brace is cut apart from what follows it. -/
theorem cut_closed (hs : Closed s) :
    cut (braceToken f) 0 (s ++ t) = cut (braceToken f) 0 s ++ cut (braceToken f) 0 t :=
  cut_append (fun _ hx => ⟨braceToken_append (hs.of_mem_visited hx) t, fun _ _ => braceToken_lt⟩)
    (Nat.zero_le _)

/-- Its tokens are listed apart from those that follow. -/
theorem tokensAt_closed (hs : Closed s) {k : ℕ} :
    tokensAt (braceToken f) k 0 (s ++ t) =
      tokensAt (braceToken f) k 0 s ++ tokensAt (braceToken f) (k + s.length) 0 t :=
  tokensAt_append
    (fun _ hx => ⟨braceToken_append (hs.of_mem_visited hx) t, fun _ _ => braceToken_lt⟩)
    (Nat.zero_le _)

/-- Every text is closed, up to the part after its last closing brace. -/
theorem exists_closed (s : List Char) :
    ∃ u, Closed u ∧ s = u ++ s.rtakeWhile (· ≠ '}') := by
  refine ⟨s.rdropWhile (· ≠ '}'), ?_, List.rdropWhile_append_rtakeWhile.symm⟩
  rcases List.eq_nil_or_concat (s.rdropWhile (· ≠ '}')) with h | ⟨u, c, h⟩
  · rw [h]
    exact closed_nil
  · have hne : s.rdropWhile (· ≠ '}') ≠ [] := by rw [h]; simp
    have hc := List.rdropWhile_last_not (· ≠ '}') s hne
    simp only [h, List.concat_eq_append, List.getLast_concat] at hc
    have hc' : c = '}' := by simpa using hc
    rw [h, hc', List.concat_eq_append]
    exact closed_concat u

end Cut
