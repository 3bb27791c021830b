import N3ur0n.JsonText

/-!
# JSON text, scanned

A scanner of JSON text which knows strings, with their escapes, and counts the
braces outside of them.

* `passes_render`: the compact text of a value leaves the scanner where it was;
* `eq_of_append_render`: behind two colons, a value can be told from any text in
  front of it, not even quotes in that text can hide where it begins.
-/

namespace N3ur0n

namespace Json

/-- Where the scanner is: outside strings, maybe after a colon, in a string, or
    after a backslash in a string. -/
inductive Mode
  | outside (colon : Bool)
  | inside
  | escaped

/-- The mode, and the number of open braces, after one more character. Outside
    strings, the scanner refuses backslashes, a second colon in a row and a brace
    which closes nothing. -/
def advance : Mode × ℕ → Char → Option (Mode × ℕ)
  | (.escaped, d), _ => some (.inside, d)
  | (.inside, d), c =>
    some (if c = '\\' then .escaped else if c = quote then .outside false else .inside, d)
  | (.outside colon, d), c =>
    if c = quote then some (.inside, d)
    else if c = '{' then some (.outside false, d + 1)
    else if c = '}' then if d = 0 then none else some (.outside false, d - 1)
    else if c = ':' then if colon then none else some (.outside true, d)
    else if c = '\\' then none
    else some (.outside false, d)

/-- The scanner over a text, without control characters. -/
def scan (st : Mode × ℕ) (cs : List Char) : Option (Mode × ℕ) :=
  cs.foldlM (fun st c => if c.toNat < 32 then none else advance st c) st

/-- A text that leaves the scanner where it was, outside strings. -/
def Passes (t : List Char) : Prop :=
  ∀ b d, scan (.outside b, d) t = some (.outside false, d)

variable {st : Mode × ℕ} {d k : ℕ} {b : Bool} {c : Char} {cs u t : List Char}

theorem scan_cons (hc : 32 ≤ c.toNat) :
    scan st (c :: cs) = (advance st c).bind fun st => scan st cs := by
  rw [scan, List.foldlM_cons, if_neg (Nat.not_lt.2 hc)]
  rfl

theorem scan_cons_eq_some {st' : Mode × ℕ} : scan st (c :: cs) = some st' ↔
    32 ≤ c.toNat ∧ ∃ st₁, advance st c = some st₁ ∧ scan st₁ cs = some st' := by
  rw [← Option.bind_eq_some_iff]
  by_cases hc : c.toNat < 32
  · rw [scan, List.foldlM_cons, if_pos hc]
    simp [Nat.not_le.2 hc]
  · rw [scan_cons (Nat.not_lt.1 hc), and_iff_right (Nat.not_lt.1 hc)]

/-- There is no control character in a text that is scanned. -/
theorem le_of_scan {st' : Mode × ℕ} (h : scan st cs = some st') : ∀ c ∈ cs, 32 ≤ c.toNat := by
  induction cs generalizing st with
  | nil => exact fun c hc => absurd hc List.not_mem_nil
  | cons c cs ih =>
    obtain ⟨hc, st₁, -, hcs⟩ := scan_cons_eq_some.1 h
    exact List.forall_mem_cons.2 ⟨hc, ih hcs⟩

/-- Two texts are scanned one after the other. -/
theorem scan_append : scan st (u ++ t) = (scan st u).bind fun st => scan st t := by
  rw [scan, List.foldlM_append]
  rfl

/-- Two texts that pass do so together. -/
theorem Passes.append (hu : Passes u) (ht : Passes t) : Passes (u ++ t) := fun b d => by
  rw [scan_append, hu b d, Option.bind_some, ht false d]

/-- The characters which only matter in strings. -/
def Unmarked (c : Char) : Prop :=
  32 ≤ c.toNat ∧ c ≠ quote ∧ c ≠ '{' ∧ c ≠ '}' ∧ c ≠ ':' ∧ c ≠ '\\'

instance : Decidable (Unmarked c) :=
  inferInstanceAs (Decidable (32 ≤ c.toNat ∧ _))

theorem unmarked_of_isNumberChar (hc : isNumberChar c) : Unmarked c := by
  refine ⟨?_, isNumberChar_ne hc (by decide), isNumberChar_ne hc (by decide),
    isNumberChar_ne hc (by decide), isNumberChar_ne hc (by decide), isNumberChar_ne hc (by decide)⟩
  rcases of_decide_eq_true hc with hdigit | rfl | rfl | rfl | rfl | rfl
  · have h48 : 48 ≤ c.toNat := by
      simp only [Char.isDigit, Bool.and_eq_true, decide_eq_true_eq] at hdigit
      exact hdigit.1
    omega
  all_goals decide

theorem passes_singleton (hc : Unmarked c) : Passes [c] := fun b d => by
  obtain ⟨h0, h1, h2, h3, h4, h5⟩ := hc
  rw [scan_cons h0]
  simp only [advance, h1, h2, h3, h4, h5, if_false]
  rfl

/-- A text without marks passes. -/
theorem passes_unmarked (ht : ∀ c ∈ t, Unmarked c) (hne : t ≠ []) : Passes t := by
  induction t with
  | nil => exact absurd rfl hne
  | cons c t ih =>
    have hc := passes_singleton (ht c List.mem_cons_self)
    by_cases htail : t = []
    · rwa [htail]
    · exact hc.append (ih (fun c hc => ht c (List.mem_cons_of_mem _ hc)) htail)

/-- Behind a name and its colon, the text of a value is the text of a field. -/
theorem Passes.colon (hu : Passes u) (ht : Passes t) : Passes (u ++ ':' :: t) := fun b d => by
  rw [scan_append, hu b d, Option.bind_some, scan_cons (by decide)]
  exact ht true d

/-- Items that pass do so as a list. -/
theorem passes_commaJoin {α : Type} {xs : List α} {txt : α → List Char} (hne : xs ≠ [])
    (h : ∀ x ∈ xs, Passes (txt x)) : Passes (commaJoin (xs.map txt)) := by
  have hcomma : Passes [','] := passes_singleton (by decide)
  induction xs with
  | nil => exact absurd rfl hne
  | cons x xs ih =>
    have hx := h x List.mem_cons_self
    rcases xs with _ | ⟨y, ys⟩
    · rwa [List.map_singleton, commaJoin_singleton]
    · rw [List.map_cons, List.map_cons, commaJoin_cons_cons]
      exact hx.append (hcomma.append (ih (List.cons_ne_nil y ys) fun x hx =>
        h x (List.mem_cons_of_mem _ hx)))

/-! ## Strings -/

/-- A plain character stays inside the string. -/
theorem scan_inside (hq : c ≠ quote) (hb : c ≠ '\\') (hc : 32 ≤ c.toNat) :
    scan (.inside, d) [c] = some (.inside, d) := by
  rw [scan_cons hc]
  simp only [advance, hq, hb, if_false]
  rfl

theorem scan_hexDigit (h : k < 16) :
    scan (.inside, d) [Value.hexDigit k] = some (.inside, d) := by
  have hdigit : ∀ k < 16, Value.hexDigit k ≠ quote ∧ Value.hexDigit k ≠ '\\' ∧
      32 ≤ (Value.hexDigit k).toNat := by decide
  exact scan_inside (hdigit k h).1 (hdigit k h).2.1 (hdigit k h).2.2

theorem le_of_unescape {e : Char} (h : Toml.unescape e = some c) : 32 ≤ e.toNat := by
  unfold Toml.unescape at h
  split at h
  · omega
  · omega
  · omega
  · omega
  · omega
  · omega
  · omega
  · exact absurd h (by simp)

/-- So does an escaped one. -/
theorem scan_escape (c : Char) : scan (.inside, d) (Value.escape c) = some (.inside, d) := by
  rcases escape_cases c with ⟨h, hq, hb, hc⟩ | ⟨e, h, he, -⟩ | ⟨hlt, h⟩
  · rw [h, scan_inside hq hb hc]
  · rw [h, scan_cons (by decide)]
    exact scan_cons (le_of_unescape he)
  · have happ : Value.escape c = ['\\', 'u', '0', '0'] ++
      ([Value.hexDigit (c.toNat / 16)] ++ [Value.hexDigit (c.toNat % 16)]) := h
    have hfront : scan (.inside, d) ['\\', 'u', '0', '0'] = some (.inside, d) := rfl
    rw [happ, scan_append, hfront, Option.bind_some, scan_append, scan_hexDigit (by omega),
      Option.bind_some, scan_hexDigit (by omega)]

/-- So does a whole string, escaped. -/
theorem scan_escaped (s : List Char) :
    scan (.inside, d) (s.flatMap Value.escape) = some (.inside, d) := by
  induction s with
  | nil => rfl
  | cons c s ih => rw [List.flatMap_cons, scan_append, scan_escape, Option.bind_some, ih]

/-- A quoted string passes. -/
theorem passes_quote (s : String) : Passes (Value.quote s) := fun b d => by
  have hopen : advance (.outside b, d) quote = some (.inside, d) := rfl
  change scan (.outside b, d) (quote :: (s.toList.flatMap Value.escape ++ [quote])) = _
  rw [scan_cons (by decide), hopen, Option.bind_some, scan_append, scan_escaped]
  rfl

/-! ## Values -/

/-- What passes does so between brackets. -/
theorem Passes.brackets (h : Passes t ∨ t = []) : Passes ('[' :: t ++ [']']) := by
  have hopen : Passes ['['] := passes_singleton (by decide)
  have hclose : Passes [']'] := passes_singleton (by decide)
  rcases h with ht | rfl
  · exact hopen.append (ht.append hclose)
  · exact hopen.append hclose

/-- And between braces. -/
theorem Passes.braces (h : Passes t ∨ t = []) : Passes ('{' :: t ++ ['}']) := fun b d => by
  have hopen : advance (.outside b, d) '{' = some (.outside false, d + 1) := rfl
  have hclose : scan (.outside false, d + 1) ['}'] = some (.outside false, d) := rfl
  rw [List.cons_append, scan_cons (by decide), hopen, Option.bind_some]
  rcases h with ht | rfl
  · rw [scan_append, ht, Option.bind_some, hclose]
  · exact hclose

end Json

namespace Value

open Json

variable {num : List Char → Option Number}

mutual

/-- The compact text of a value leaves the scanner where it was. -/
theorem passes_render : ∀ {v : Value}, (∀ n ∈ v.numbers, ReadsNumber num n) → Passes v.render
  | .null, _ => fun _ _ => rfl
  | .bool true, _ => fun _ _ => rfl
  | .bool false, _ => fun _ _ => rfl
  | .number n, h => by
    obtain ⟨⟨hne, hchars⟩, -⟩ := h n List.mem_cons_self
    exact passes_unmarked (fun c hc => unmarked_of_isNumberChar (hchars c hc)) hne
  | .string s, _ => passes_quote s
  | .array [], _ => Passes.brackets (.inr rfl)
  | .object [], _ => Passes.braces (.inr rfl)
  | .array (_ :: _), h => by
    refine Passes.brackets (.inl ?_)
    rw [renderList_eq]
    exact passes_commaJoin (List.cons_ne_nil _ _) (passes_renderList h)
  | .object (_ :: _), h => by
    refine Passes.braces (.inl ?_)
    rw [renderFields_eq]
    exact passes_commaJoin (List.cons_ne_nil _ _) (passes_renderFields h)

theorem passes_renderList : ∀ {xs : List Value}, (∀ n ∈ numbersList xs, ReadsNumber num n) →
    ∀ x ∈ xs, Passes x.render
  | [], _ => fun _ hx => absurd hx List.not_mem_nil
  | _ :: _, h => List.forall_mem_cons.2 ⟨
    passes_render fun n hn => h n (List.mem_append_left _ hn),
    passes_renderList fun n hn => h n (List.mem_append_right _ hn)⟩

theorem passes_renderFields : ∀ {fs : List (String × Value)},
    (∀ n ∈ numbersFields fs, ReadsNumber num n) → ∀ f ∈ fs, Passes (renderField f)
  | [], _ => fun _ hf => absurd hf List.not_mem_nil
  | (k, _) :: _, h => List.forall_mem_cons.2 ⟨
    (passes_quote k).colon (passes_render fun n hn => h n (List.mem_append_left _ hn)),
    passes_renderFields fun n hn => h n (List.mem_append_right _ hn)⟩

end

end Value

namespace Json

variable {m m' n n' : Mode} {d d' e e' : ℕ} {b : Bool} {c : Char} {cs u u' t t' : List Char}

/-! ## What is behind two colons -/

/-- One scanner is in a string where the other is not. -/
def Opposed (m m' : Mode) : Prop :=
  (∃ b, m = .outside b) ∧ m' = .inside ∨ m = .inside ∧ ∃ b, m' = .outside b

/-- The two scans may be exchanged. -/
theorem Opposed.symm (h : Opposed m m') : Opposed m' m :=
  h.elim (fun h => .inr ⟨h.2, h.1⟩) fun h => .inl ⟨h.2, h.1⟩

/-- What is read outside strings. -/
theorem advance_outside (h : advance (.outside b, d) c = some (n, d')) :
    c ≠ '\\' ∧ if c = quote then n = .inside else ∃ b, n = .outside b := by
  have hslash : ('\\' : Char) ≠ quote := by decide
  by_cases hq : c = quote
  · subst hq
    obtain ⟨rfl, rfl⟩ : Mode.inside = n ∧ d = d' := by simpa [advance] using h
    exact ⟨hslash.symm, rfl⟩
  · rw [if_neg hq]
    simp only [advance, hq, if_false] at h
    split_ifs at h <;> simp_all

/-- Scans on opposite sides of a quote stay so. -/
theorem advance_opposed (hm : Opposed m m') (h : advance (m, d) c = some (n, d'))
    (h' : advance (m', e) c = some (n', e')) : Opposed n n' := by
  wlog hout : ∃ b, m = .outside b generalizing m m' d e n n' d' e'
  · rcases hm with hm | hm
    · exact absurd hm.1 hout
    · exact (this (.inl ⟨hm.2, hm.1⟩) h' h hm.2).symm
  · obtain ⟨b, rfl⟩ := hout
    obtain rfl : m' = .inside := by
      rcases hm with hm | hm
      · exact hm.2
      · exact absurd hm.1 (by simp)
    obtain ⟨hslash, hn⟩ := advance_outside h
    simp only [advance, hslash, if_false, Option.some.injEq, Prod.mk.injEq] at h'
    by_cases hq : c = quote
    · rw [if_pos hq] at hn h'
      exact .inr ⟨hn, false, h'.1.symm⟩
    · rw [if_neg hq] at hn h'
      exact .inl ⟨hn, h'.1.symm⟩

/-- Scanners on opposite sides of the quotes stay so. -/
theorem scan_opposed (hm : Opposed m m') (h : scan (m, d) cs = some (n, d'))
    (h' : scan (m', e) cs = some (n', e')) : Opposed n n' := by
  induction cs generalizing m m' d e with
  | nil =>
    obtain ⟨rfl, -⟩ : m = n ∧ d = d' := by simpa [scan] using h
    obtain ⟨rfl, -⟩ : m' = n' ∧ e = e' := by simpa [scan] using h'
    exact hm
  | cons c cs ih =>
    obtain ⟨-, ⟨m₁, d₁⟩, hc, hcs⟩ := scan_cons_eq_some.1 h
    obtain ⟨-, ⟨m₂, d₂⟩, hc', hcs'⟩ := scan_cons_eq_some.1 h'
    exact ih (advance_opposed hm hc hc') hcs hcs'

/-- A text that passes has no other behind two colons. -/
theorem Passes.not_behind (ht : Passes t) (ht' : Passes t') : t ≠ u ++ ':' :: ':' :: t' := by
  rintro rfl
  have h := ht false 0
  rw [scan_append, Option.bind_eq_some_iff] at h
  obtain ⟨⟨m, d⟩, -, h⟩ := h
  have hstring (h : scan (.inside, d) t' = some (.outside false, 0)) : False := by
    rcases scan_opposed (.inl ⟨⟨false, rfl⟩, rfl⟩) (ht' false 0) h with h | h
    · exact absurd h.2 (by simp)
    · exact absurd h.1 (by simp)
  rcases m with b | - | -
  · -- Outside strings, the second colon is refused.
    have hrefused : scan (.outside b, d) (':' :: ':' :: t') = none := by
      rcases b with - | -
      · rfl
      · rfl
    rw [hrefused] at h
    exact absurd h (by simp)
  · exact hstring h
  · exact hstring h

/-- The first separator of two texts that pass is the one between them. -/
theorem Passes.nil_of_append (ht : Passes t) (ht' : Passes t')
    (h : ':' :: ':' :: t = u ++ ':' :: ':' :: t') : u = [] := by
  rcases u with _ | ⟨c, _ | ⟨c', u⟩⟩
  · rfl
  · -- The text would begin with a colon.
    obtain ⟨-, rfl⟩ : ':' = c ∧ t = ':' :: t' := by simpa using h
    have hrefused : scan (.outside true, 0) (':' :: t') = none := rfl
    exact absurd ((ht true 0).symm.trans hrefused) (by simp)
  · obtain ⟨-, -, h⟩ : ':' = c ∧ ':' = c' ∧ t = u ++ ':' :: ':' :: t' := by simpa using h
    exact absurd h (ht.not_behind ht')

/-- So they are split there in one way only. -/
theorem Passes.eq_of_append (ht : Passes t) (ht' : Passes t')
    (h : u ++ ':' :: ':' :: t = u' ++ ':' :: ':' :: t') : u = u' ∧ t = t' := by
  rcases List.append_eq_append_iff.1 h with ⟨w, rfl, hw⟩ | ⟨w, rfl, hw⟩
  · obtain rfl := ht.nil_of_append ht' hw
    simpa using hw
  · obtain rfl := ht'.nil_of_append ht hw
    simpa using hw.symm

end Json

namespace Value

open Json

variable {num : List Char → Option Number} {v w : Value} {u u' : List Char}

/-- A value is read back from its text, if its depth is no limit. -/
theorem eq_of_render_eq (hv : ∀ n ∈ v.numbers, ReadsNumber num n)
    (hw : ∀ n ∈ w.numbers, ReadsNumber num n) (h : v.render = w.render) : v = w := by
  have hread : readText num (max v.depth w.depth) v.render = _ := readText_render hv
  rw [h, readText_render hw, within, within, if_pos (Nat.le_max_right _ _),
    if_pos (Nat.le_max_left _ _)] at hread
  exact (Option.some.inj hread).symm

/-- Behind two colons, a value can be told from what is in front of it. -/
theorem eq_of_append_render (hv : ∀ n ∈ v.numbers, ReadsNumber num n)
    (hw : ∀ n ∈ w.numbers, ReadsNumber num n)
    (h : u ++ ':' :: ':' :: v.render = u' ++ ':' :: ':' :: w.render) : u = u' ∧ v = w := by
  obtain ⟨hu, hrender⟩ := (passes_render hv).eq_of_append (passes_render hw) h
  exact ⟨hu, eq_of_render_eq hv hw hrender⟩

end Value

end N3ur0n
