import Mathlib.Algebra.Group.Int.Defs
import Mathlib.Data.Int.Notation
import Mathlib.Data.List.Basic
import N3ur0n.Lib.Text

/-!
# TOML values

The values of TOML 1.0 without its dates, and a reader of them. It reads a part
of the language: it tells the texts of it that are not TOML (`invalid`) from
those that it leaves out (`unsupported`), such as comments, dates, literal
strings, dotted keys or numbers that are not in their usual form.

A float is the text of it. A *reader* takes the text of a value off the front of
the input.

* `readBasic`, `readMultiline`: the strings, after their opening quotes;
* `readValue`: the values on one line, with arrays and inline tables.
-/

inductive Toml
  | string (s : String)
  | integer (i : ℤ)
  | float (text : String)
  | boolean (b : Bool)
  | array (xs : List Toml)
  | table (fields : List (String × Toml))

namespace Toml

inductive Failure
  | invalid
  | unsupported
  deriving DecidableEq

/-- What is read, and the rest of the input. -/
abbrev Reader (α : Type) := List Char → Except Failure (α × List Char)

/-! ## Characters -/

/-- A quote, by its code. -/
def quote : Char := Char.ofNat 34

def isSpace (c : Char) : Bool := c = ' ' ∨ c = '\t'

/-- The characters that no string has as they are, line feeds apart. -/
def isControl (c : Char) : Bool := c.toNat < 32 ∧ c ≠ '\t' ∨ c.toNat = 127

def isBareKeyChar (c : Char) : Bool := c.isAlphanum ∨ c = '_' ∨ c = '-'

/-- The characters of a number, a date or a boolean. -/
def isTokenChar (c : Char) : Bool := isBareKeyChar c ∨ c = '+' ∨ c = '.'

def skipSpaces (cs : List Char) : List Char := cs.dropWhile isSpace

/-! ## Strings -/

/-- The character that stands for another one after a backslash, if it does. -/
def unescape (c : Char) : Option Char :=
  match c.toNat with
  | 98 => some (Char.ofNat 8)
  | 116 => some '\t'
  | 110 => some '\n'
  | 102 => some (Char.ofNat 12)
  | 114 => some '\r'
  | 34 => some quote
  | 92 => some '\\'
  | _ => none

/-- What is read first, in front of what is read next. -/
def consResult {α : Type} (x : α) (r : Except Failure (List α × List Char)) :
    Except Failure (List α × List Char) :=
  r.map fun r => (x :: r.1, r.2)

/-- A basic string, after its opening quote. -/
def readBasic : Reader (List Char)
  | [] => .error .invalid
  | c :: cs =>
    if c = quote then .ok ([], cs)
    else if c = '\\' then
      match cs with
      | [] => .error .invalid
      | e :: cs => (unescape e).elim (.error .unsupported) fun c => consResult c (readBasic cs)
    else if isControl c then .error .invalid
    else consResult c (readBasic cs)

/-- A multi-line basic string, after its opening quotes and the line feed that
    may follow these. -/
def readMultiline : Reader (List Char)
  | [] => .error .invalid
  | c :: cs =>
    if c = quote then
      match cs with
      | c₁ :: c₂ :: rest =>
        if c₁ = quote ∧ c₂ = quote then
          -- Up to two more quotes would belong to the string.
          if rest.head? = some quote then .error .unsupported else .ok ([], rest)
        else consResult c (readMultiline cs)
      | _ => .error .invalid
    else if c = '\\' then
      match cs with
      | [] => .error .invalid
      | e :: cs => (unescape e).elim (.error .unsupported) fun c => consResult c (readMultiline cs)
    else if c = '\r' then .error .unsupported
    else if isControl c ∧ c ≠ '\n' then .error .invalid
    else consResult c (readMultiline cs)

/-- A string, after its first quote. -/
def readString (cs : List Char) : Except Failure (List Char × List Char) :=
  match cs with
  | c₁ :: c₂ :: c₃ :: rest =>
    if c₁ = quote ∧ c₂ = quote then
      readMultiline (if c₃ = '\n' then rest else c₃ :: rest)
    else readBasic cs
  | _ => readBasic cs

/-! ## Numbers and booleans -/

/-- The integer in decimal, without a sign for those that are not negative. -/
def readInt (t : List Char) : Option ℤ :=
  let i : ℤ :=
    if t.head? = some '-' then -Nat.ofDigitChars 10 t.tail 0 else Nat.ofDigitChars 10 t 0
  if (toString i).toList = t then some i else none

/-- The integers of 64 bits, which every parser takes. -/
def inRange (i : ℤ) : Bool := -2 ^ 63 ≤ i ∧ i < 2 ^ 63

/-- An exponent: its mark, a sign or none, and digits. -/
def isExponent : List Char → Bool
  | e :: s :: ds =>
    (e = 'e' ∨ e = 'E') ∧
      if s = '+' ∨ s = '-' then ds ≠ [] ∧ ds.all Char.isDigit else (s :: ds).all Char.isDigit
  | _ => false

/-- A point and digits, and an exponent or none. -/
def isFraction : List Char → Bool
  | '.' :: cs =>
    let digits := cs.takeWhile Char.isDigit
    let rest := cs.dropWhile Char.isDigit
    digits ≠ [] ∧ (rest = [] ∨ isExponent rest)
  | _ => false

/-- A decimal number with a fraction, an exponent or both. -/
def isFloat (t : List Char) : Bool :=
  let cs := if t.head? = some '-' then t.tail else t
  let whole := cs.takeWhile Char.isDigit
  let rest := cs.dropWhile Char.isDigit
  t.all isTokenChar ∧ whole ≠ [] ∧ (whole.head? = some '0' → whole = ['0']) ∧
    (isFraction rest ∨ isExponent rest)

/-- A number or a boolean. -/
def readToken (t : List Char) : Except Failure Toml :=
  if t = "true".toList then .ok (.boolean true)
  else if t = "false".toList then .ok (.boolean false)
  else if isFloat t then .ok (.float (String.ofList t))
  else
    match readInt t with
    | some i => if inRange i then .ok (.integer i) else .error .unsupported
    | none => .error .unsupported

/-! ## Values -/

/-- A key: a basic string, or a bare one. -/
def readKey (cs : List Char) : Except Failure (String × List Char) :=
  if cs.head? = some quote then (readBasic cs.tail).map (Prod.map String.ofList id)
  else
    let k := cs.takeWhile isBareKeyChar
    if k = [] then .error .unsupported else .ok (String.ofList k, cs.dropWhile isBareKeyChar)

variable {α : Type}

/-- A key and its value. -/
def readEntry (value : Reader Toml) (cs : List Char) :
    Except Failure ((String × Toml) × List Char) := do
  let (k, cs) ← readKey cs
  match skipSpaces cs with
  | '=' :: cs => (value (skipSpaces cs)).map fun r => ((k, r.1), r.2)
  | _ => .error .unsupported

/-- Items separated by commas, at least one, up to the closing character. -/
def readItems (close : Char) (item : Reader α) : ℕ → Reader (List α)
  | 0, _ => .error .unsupported
  | n + 1, cs => do
    let (x, cs) ← item cs
    match skipSpaces cs with
    | c :: cs =>
      if c = ',' then consResult x (readItems close item n (skipSpaces cs))
      else if c = close then .ok ([x], cs)
      else .error .unsupported
    | [] => .error .unsupported

/-- Items separated by commas, after the opening character. -/
def readGroup (close : Char) (item : Reader α) (n : ℕ) (cs : List Char) :
    Except Failure (List α × List Char) :=
  match skipSpaces cs with
  | c :: cs => if c = close then .ok ([], cs) else readItems close item n (c :: cs)
  | [] => .error .unsupported

/-- The result of a reading, which is none if the text is invalid. -/
def outcome (r : Option α) (rest : List Char) : Except Failure (α × List Char) :=
  r.elim (.error .invalid) fun a => .ok (a, rest)

/-- The keys of a table are distinct. -/
def tableOf (fields : List (String × Toml)) : Option Toml :=
  if (fields.map Prod.fst).Nodup then some (.table fields) else none

/-- A value. The first argument bounds how deep the values are nested, and how
    many items each has: the length of the input is enough. -/
def readValue : ℕ → Reader Toml
  | 0, _ => .error .unsupported
  | n + 1, cs =>
    match cs with
    | [] => .error .unsupported
    | c :: rest =>
      if c = quote then (readString rest).map fun r => (.string (String.ofList r.1), r.2)
      else if c = '[' then (readGroup ']' (readValue n) n rest).map fun r => (.array r.1, r.2)
      else if c = '{' then do
        let (fields, rest) ← readGroup '}' (readEntry (readValue n)) n rest
        outcome (tableOf fields) rest
      else (readToken (cs.takeWhile isTokenChar)).map fun t => (t, cs.dropWhile isTokenChar)

/-! ## What a text is read as -/

/-- The text is read as `r`, if what comes after it starts as `ends` says. -/
def Reads (read : Reader α) (ends : List Char → Prop) (text : List Char) (r : Option α) : Prop :=
  ∀ rest, ends rest → read (text ++ rest) = outcome r rest

/-- A value ends here. -/
def ValueEnds (rest : List Char) : Prop :=
  ∀ c ∈ rest.head?, isTokenChar c = false ∧ c ≠ quote

/-- A key ends here. -/
def KeyEnds (rest : List Char) : Prop := ∀ c ∈ rest.head?, isBareKeyChar c = false

/-- The text starts with a character that is no space and closes nothing. -/
def Starts (text : List Char) : Prop :=
  ∃ c ∈ text.head?, isSpace c = false ∧ c ≠ ']' ∧ c ≠ '}' ∧ c ≠ '\n' ∧ c ≠ '#'

def ReadsValue (text : List Char) (r : Option Toml) : Prop :=
  Starts text ∧ ∀ n, text.length ≤ n → Reads (readValue n) ValueEnds text r

def ReadsEntry (text : List Char) (r : Option (String × Toml)) : Prop :=
  (Starts text ∧ text.head? ≠ some '[') ∧
    ∀ n, text.length ≤ n → Reads (readEntry (readValue n)) ValueEnds text r

def ReadsKey (text : List Char) (r : Option String) : Prop :=
  (Starts text ∧ text.head? ≠ some '[') ∧ Reads readKey KeyEnds text r

variable {β : Type} {r : Option α} {rest text : List Char}

@[simp] theorem outcome_none : outcome (none : Option α) rest = .error .invalid := rfl

@[simp] theorem outcome_some {a : α} : outcome (some a) rest = .ok (a, rest) := rfl

theorem outcome_map {f : α → β} :
    (outcome r rest).map (fun x => (f x.1, x.2)) = outcome (r.map f) rest := by
  cases r with
  | none => rfl
  | some a => rfl

theorem skipSpaces_of_starts (h : Starts text) (rest : List Char) :
    skipSpaces (text ++ rest) = text ++ rest := by
  obtain ⟨c, hc, hs, -⟩ := h
  obtain ⟨cs, rfl⟩ := List.head?_eq_some_iff.1 hc
  rw [skipSpaces, List.cons_append, List.dropWhile_cons_of_neg (by rw [hs]; exact Bool.false_ne_true)]

/-! ### Strings -/

/-- A character is written as it is, if it may be, or with a backslash. -/
def Escaped (c : Char) (t : List Char) : Prop :=
  t = [c] ∧ c ≠ quote ∧ c ≠ '\\' ∨ ∃ e, t = ['\\', e] ∧ unescape e = some c

/-- The characters that are not escaped, and should be. -/
def Exposed (escape : Char → List Char) (c : Char) : Prop := isControl c ∧ escape c = [c]

instance (escape : Char → List Char) : DecidablePred (Exposed escape) :=
  fun _ => inferInstanceAs (Decidable (_ ∧ _))

theorem readBasic_quote {cs : List Char} : readBasic (quote :: cs) = .ok ([], cs) := by
  rw [readBasic.eq_def]
  exact if_pos rfl

theorem readBasic_backslash {e : Char} {cs : List Char} : readBasic ('\\' :: e :: cs) =
    (unescape e).elim (.error .unsupported) fun c => consResult c (readBasic cs) := by
  rw [readBasic.eq_def]
  exact (if_neg (by decide)).trans (if_pos rfl)

theorem readBasic_plain {c : Char} {cs : List Char} (hq : c ≠ quote) (hb : c ≠ '\\') :
    readBasic (c :: cs) =
      if isControl c then .error .invalid else consResult c (readBasic cs) := by
  rw [readBasic.eq_def]
  exact (if_neg hq).trans (if_neg hb)

/-- A string is read as itself, unless one of its characters is exposed. -/
theorem readBasic_flatMap {escape : Char → List Char} {s : List Char}
    (h : ∀ c ∈ s, Escaped c (escape c)) :
    readBasic (s.flatMap escape ++ quote :: rest) =
      outcome (if ∃ c ∈ s, Exposed escape c then none else some s) rest := by
  induction s with
  | nil => simp [readBasic_quote]
  | cons c s ih =>
    obtain ⟨hc, hs⟩ := List.forall_mem_cons.1 h
    have hcons : consResult c (outcome (if ∃ c ∈ s, Exposed escape c then none else some s) rest) =
        outcome (if ∃ c ∈ s, Exposed escape c then none else some (c :: s)) rest := by
      split
      · rfl
      · rfl
    rw [List.flatMap_cons, List.append_assoc]
    simp only [List.exists_mem_cons_iff]
    rcases hc with ⟨ht, hq, hb⟩ | ⟨e, ht, he⟩
    · rw [ht, List.singleton_append, readBasic_plain hq hb]
      by_cases hcontrol : isControl c
      · rw [if_pos hcontrol, if_pos (Or.inl ⟨hcontrol, ht⟩), outcome_none]
      · have hexposed : ¬Exposed escape c := fun hx => hcontrol hx.1
        rw [if_neg hcontrol, ih hs, hcons]
        simp only [hexposed, false_or]
    · have hexposed : ¬Exposed escape c := by
        rintro ⟨-, hx⟩
        rw [ht] at hx
        exact List.cons_ne_nil _ _ (List.cons.inj hx).2
      rw [ht, List.cons_append, List.singleton_append, readBasic_backslash]
      simp only [he, Option.elim_some, ih hs, hcons, hexposed, false_or]

/-- The text of a string, between its quotes. -/
def quoted (escape : Char → List Char) (s : String) : List Char :=
  quote :: s.toList.flatMap escape ++ [quote]

/-- What the text of a string is read as. -/
def unlessExposed (escape : Char → List Char) (s : String) : Option String :=
  if ∃ c ∈ s.toList, Exposed escape c then none else some s

theorem quoted_append {escape : Char → List Char} {s : String} :
    quoted escape s ++ rest = quote :: (s.toList.flatMap escape ++ quote :: rest) := by
  rw [quoted, List.append_assoc, List.cons_append, List.singleton_append]

theorem ofList_unlessExposed {escape : Char → List Char} {s : String} :
    (if ∃ c ∈ s.toList, Exposed escape c then none else some s.toList).map String.ofList =
      unlessExposed escape s := by
  rw [unlessExposed]
  split
  · rfl
  · rw [Option.map_some, String.ofList_toList]

/-- The text of a string is not that of a longer one. -/
theorem readString_quoted {escape : Char → List Char} {s : List Char}
    (h : ∀ c ∈ s, Escaped c (escape c)) (hrest : ValueEnds rest) :
    readString (s.flatMap escape ++ quote :: rest) =
      readBasic (s.flatMap escape ++ quote :: rest) := by
  have hne : ∀ c₁ c₂ c₃ cs, s.flatMap escape ++ quote :: rest = c₁ :: c₂ :: c₃ :: cs →
      ¬(c₁ = quote ∧ c₂ = quote) := by
    rintro c₁ c₂ c₃ cs hcs ⟨rfl, rfl⟩
    rcases s with _ | ⟨c, s⟩
    · obtain ⟨-, rfl⟩ := List.cons.inj hcs
      exact (hrest quote rfl).2 rfl
    · rw [List.flatMap_cons] at hcs
      rcases h c List.mem_cons_self with ⟨ht, hq, -⟩ | ⟨e, ht, -⟩
      · rw [ht] at hcs
        exact hq (List.cons.inj hcs).1
      · rw [ht] at hcs
        exact absurd (List.cons.inj hcs).1 (by decide)
  rw [readString.eq_def]
  split
  · next hcs => exact if_neg (hne _ _ _ _ hcs)
  · rfl

theorem starts_quote : Starts (quote :: text) := ⟨quote, rfl, by decide⟩

theorem readMultiline_backslash {e : Char} {cs : List Char} : readMultiline ('\\' :: e :: cs) =
    (unescape e).elim (.error .unsupported) fun c => consResult c (readMultiline cs) := by
  rw [readMultiline.eq_def]
  exact (if_neg (by decide)).trans (if_pos rfl)

/-- A character of its own, on any line. -/
theorem readMultiline_plain {c : Char} {cs : List Char} (hq : c ≠ quote) (hb : c ≠ '\\')
    (hr : c ≠ '\r') : readMultiline (c :: cs) =
      if isControl c ∧ c ≠ '\n' then .error .invalid else consResult c (readMultiline cs) := by
  rw [readMultiline.eq_def]
  exact (if_neg hq).trans ((if_neg hb).trans (if_neg hr))

/-- A quote belongs to the text, unless two more follow. -/
theorem readMultiline_quote {cs : List Char} (hlength : 2 ≤ cs.length)
    (h : ¬[quote, quote] <+: cs) :
    readMultiline (quote :: cs) = consResult quote (readMultiline cs) := by
  rcases cs with _ | ⟨c₁, _ | ⟨c₂, cs⟩⟩
  · exact absurd hlength (by decide)
  · exact absurd hlength (by simp)
  · have hne : ¬(c₁ = quote ∧ c₂ = quote) := by
      rintro ⟨rfl, rfl⟩
      exact h ⟨cs, rfl⟩
    rw [readMultiline.eq_def]
    exact (if_pos rfl).trans (if_neg hne)

/-- The closing quotes. -/
theorem readMultiline_close (h : rest.head? ≠ some quote) :
    readMultiline (quote :: quote :: quote :: rest) = .ok ([], rest) := by
  rw [readMultiline.eq_def]
  exact (if_pos rfl).trans ((if_pos ⟨rfl, rfl⟩).trans (if_neg h))

/-- A string between triple quotes, with a line feed after the first of them. -/
theorem readsValue_triple {t : List Char} {r : Option (List Char)}
    (h : ∀ rest, rest.head? ≠ some quote →
      readMultiline (t ++ quote :: quote :: quote :: rest) = outcome r rest) :
    ReadsValue (quote :: quote :: quote :: '\n' :: (t ++ [quote, quote, quote]))
      (r.map fun s => .string (String.ofList s)) := by
  refine ⟨starts_quote, fun n hn rest hrest => ?_⟩
  rcases n with _ | n
  · exact absurd hn (Nat.not_succ_le_zero _)
  have hquote : rest.head? ≠ some quote := fun hhead => (hrest quote hhead).2 rfl
  have htext : quote :: quote :: quote :: '\n' :: (t ++ [quote, quote, quote]) ++ rest =
      quote :: quote :: quote :: '\n' :: (t ++ quote :: quote :: quote :: rest) := by
    simp only [List.cons_append, List.append_assoc, List.nil_append]
  have hstring : readString (quote :: quote :: '\n' :: (t ++ quote :: quote :: quote :: rest)) =
      outcome r rest := by
    rw [readString]
    exact (if_pos ⟨rfl, rfl⟩).trans (h rest hquote)
  rw [htext, readValue]
  simp only [if_true]
  rw [hstring, ← outcome_map]

theorem readsValue_quoted {escape : Char → List Char} {s : String}
    (h : ∀ c ∈ s.toList, Escaped c (escape c)) :
    ReadsValue (quoted escape s) ((unlessExposed escape s).map string) := by
  refine ⟨starts_quote, fun n hn rest hrest => ?_⟩
  rcases n with _ | n
  · exact absurd hn (Nat.not_succ_le_zero _)
  · rw [quoted_append, readValue]
    simp only [if_true]
    rw [readString_quoted h hrest, readBasic_flatMap h, ← ofList_unlessExposed, Option.map_map,
      ← outcome_map]
    rfl

/-! ### Numbers and booleans -/

theorem starts_of_isTokenChar {c : Char} (hc : isTokenChar c) : Starts (c :: text) := by
  refine ⟨c, rfl, ?_⟩
  refine ⟨?_, ?_, ?_, ?_, ?_⟩
  · by_contra hs
    rw [Bool.not_eq_false, isSpace, decide_eq_true_iff] at hs
    rcases hs with rfl | rfl
    · exact absurd hc (by decide)
    · exact absurd hc (by decide)
  all_goals
    rintro rfl
    exact absurd hc (by decide)

theorem toNat_of_isTokenChar {c : Char} (hc : isTokenChar c) : 43 ≤ c.toNat ∧ c.toNat ≤ 122 := by
  rw [isTokenChar, decide_eq_true_iff, isBareKeyChar, decide_eq_true_iff] at hc
  rcases hc with (hc | rfl | rfl) | rfl | rfl
  · have := Text.toNat_of_isAlphanum hc
    omega
  all_goals decide

/-- The characters of tokens are no control characters. -/
theorem isControl_of_isTokenChar {c : Char} (hc : isTokenChar c) : isControl c = false := by
  have hbounds := toNat_of_isTokenChar hc
  rw [isControl, decide_eq_false_iff_not]
  omega

theorem isTokenChar_of_isBareKeyChar {c : Char} (hc : isBareKeyChar c) : isTokenChar c := by
  rw [isTokenChar, decide_eq_true_iff]
  exact Or.inl hc

/-- A token is read as such. -/
theorem readsValue_token {t : List Char} {v : Toml} (ht : ∀ c ∈ t, isTokenChar c) (hne : t ≠ [])
    (hv : readToken t = .ok v) : ReadsValue t (some v) := by
  obtain ⟨c, cs, rfl⟩ := List.exists_cons_of_ne_nil hne
  have hc := ht c List.mem_cons_self
  refine ⟨starts_of_isTokenChar hc, fun n hn rest hrest => ?_⟩
  have hother : c ≠ quote ∧ c ≠ '[' ∧ c ≠ '{' := by
    refine ⟨?_, ?_, ?_⟩
    all_goals
      rintro rfl
      exact absurd hc (by decide)
  obtain ⟨htake, hdrop⟩ := Text.takeWhile_append_ends ht fun c hc => (hrest c hc).1
  rcases n with _ | n
  · exact absurd hn (Nat.not_succ_le_zero _)
  · rw [List.cons_append] at htake hdrop ⊢
    rw [readValue]
    simp only [if_neg hother.1, if_neg hother.2.1, if_neg hother.2.2, htake, hdrop, hv]
    rfl

theorem readsValue_boolean (b : Bool) :
    ReadsValue (if b then "true" else "false").toList (some (.boolean b)) := by
  cases b with
  | true => exact readsValue_token (by decide) (by decide) (if_pos rfl)
  | false => exact readsValue_token (by decide) (by decide) ((if_neg (by decide)).trans (if_pos rfl))

theorem readsValue_float {s : String} (h : isFloat s.toList) :
    ReadsValue s.toList (some (.float s)) := by
  have hwhole : ∀ t : List Char, isFloat t → ∀ c ∈ t, isTokenChar c := by
    intro t ht
    rw [isFloat, decide_eq_true_iff] at ht
    exact List.all_eq_true.1 ht.1
  refine readsValue_token (hwhole _ h) ?_ ?_
  · intro hnil
    rw [hnil] at h
    exact absurd h (by decide)
  · have hbool : s.toList ≠ "true".toList ∧ s.toList ≠ "false".toList := by
      refine ⟨fun hs => ?_, fun hs => ?_⟩
      all_goals
        rw [hs] at h
        exact absurd h (by decide)
    rw [readToken, if_neg hbool.1, if_neg hbool.2, if_pos h, String.ofList_toList]

/-- The digits of an integer, after its sign if it has one. -/
theorem toList_toString_int (i : ℤ) :
    (∃ n : ℕ, i = n ∧ (toString i).toList = Nat.toDigits 10 n) ∨
      ∃ n : ℕ, i = -n ∧ (toString i).toList = '-' :: Nat.toDigits 10 n := by
  rcases i with n | n
  · exact Or.inl ⟨n, rfl, Nat.toList_repr⟩
  · refine Or.inr ⟨n + 1, by omega, ?_⟩
    have htext : toString (Int.negSucc n) = "-" ++ Nat.repr (n + 1) := rfl
    rw [htext, String.toList_append, Nat.toList_repr]
    rfl

theorem isDigit_toDigits {n : ℕ} {c : Char} (hc : c ∈ Nat.toDigits 10 n) : c.isDigit :=
  Nat.isDigit_of_mem_toDigits (by decide) (by decide) hc

theorem isTokenChar_of_isDigit {c : Char} (hc : c.isDigit) : isTokenChar c := by
  simp [isTokenChar, isBareKeyChar, Char.isAlphanum, hc]

theorem head_ne_minus {ds : List Char} (hds : ∀ c ∈ ds, c.isDigit) : ds.head? ≠ some '-' :=
  fun h => absurd (hds _ (List.mem_of_mem_head? h)) (by decide)

/-- Digits alone, after a sign or not, are no float. -/
theorem isFloat_digits {ds : List Char} (hds : ∀ c ∈ ds, c.isDigit) :
    isFloat ds = false ∧ isFloat ('-' :: ds) = false := by
  have hdrop : ds.dropWhile Char.isDigit = [] := by
    rw [← List.append_nil ds, List.dropWhile_append_of_pos hds, List.dropWhile_nil]
  have hhead := head_ne_minus hds
  have hrest : isFraction [] = false ∧ isExponent [] = false := ⟨rfl, rfl⟩
  simp [isFloat, hhead, hdrop, hrest]

theorem readInt_toString (i : ℤ) : readInt (toString i).toList = some i := by
  rcases toList_toString_int i with ⟨n, hi, ht⟩ | ⟨n, hi, ht⟩
  · have hhead : (Nat.toDigits 10 n).head? ≠ some '-' :=
      head_ne_minus fun c hc => isDigit_toDigits hc
    rw [ht, readInt, if_neg hhead, Nat.ofDigitChars_ten_toDigits, ← hi]
    exact if_pos ht
  · rw [ht, readInt, List.head?_cons, if_pos rfl, List.tail_cons, Nat.ofDigitChars_ten_toDigits,
      ← hi]
    exact if_pos ht

/-- The decimal text of an integer is read as it. -/
theorem readsValue_integer {i : ℤ} (h : inRange i) :
    ReadsValue (toString i).toList (some (.integer i)) := by
  have htoken : ∀ c ∈ (toString i).toList, isTokenChar c := by
    intro c hc
    rcases toList_toString_int i with ⟨n, -, ht⟩ | ⟨n, -, ht⟩
    · exact isTokenChar_of_isDigit (isDigit_toDigits (ht ▸ hc))
    · rcases List.mem_cons.1 (ht ▸ hc) with rfl | hc
      · decide
      · exact isTokenChar_of_isDigit (isDigit_toDigits hc)
  have hfloat : isFloat (toString i).toList = false := by
    rcases toList_toString_int i with ⟨n, -, ht⟩ | ⟨n, -, ht⟩
    · exact ht ▸ (isFloat_digits fun c hc => isDigit_toDigits hc).1
    · exact ht ▸ (isFloat_digits fun c hc => isDigit_toDigits hc).2
  have hread := readInt_toString i
  refine readsValue_token htoken ?_ ?_
  · intro hnil
    rw [hnil] at hread
    exact Option.some_ne_none i (hread.symm.trans (by decide))
  · have hbool : (toString i).toList ≠ "true".toList ∧ (toString i).toList ≠ "false".toList := by
      refine ⟨fun hs => ?_, fun hs => ?_⟩
      all_goals
        rw [hs] at hread
        exact Option.some_ne_none i (hread.symm.trans (by decide))
    rw [readToken, if_neg hbool.1, if_neg hbool.2, if_neg (by rw [hfloat]; exact Bool.false_ne_true),
      hread]
    exact if_pos h

/-- So is that of a natural number. -/
theorem readsValue_natural {n : ℕ} (h : inRange n) :
    ReadsValue (Nat.repr n).toList (some (.integer n)) := by
  have htext : toString (n : ℤ) = Nat.repr n := rfl
  rw [← htext]
  exact readsValue_integer h

/-! ### Keys and entries -/

theorem starts_bare {k : List Char} (hk : ∀ c ∈ k, isBareKeyChar c) (hne : k ≠ [])
    (rest : List Char) :
    Starts (k ++ rest) ∧ (k ++ rest).head? ≠ some '[' ∧ (k ++ rest).head? ≠ some quote := by
  obtain ⟨c, cs, rfl⟩ := List.exists_cons_of_ne_nil hne
  have hc := hk c List.mem_cons_self
  refine ⟨starts_of_isTokenChar (isTokenChar_of_isBareKeyChar hc), ?_, ?_⟩
  all_goals
    intro h
    rw [List.cons_append, List.head?_cons] at h
    rw [Option.some.inj h] at hc
    exact absurd hc (by decide)

theorem readsKey_bare {k : String} (hk : ∀ c ∈ k.toList, isBareKeyChar c) (hne : k ≠ "") :
    ReadsKey k.toList (some k) := by
  have hne' : k.toList ≠ [] := fun h => hne (String.toList_inj.1 h)
  obtain ⟨hstarts, hbracket, -⟩ := starts_bare hk hne' []
  rw [List.append_nil] at hstarts hbracket
  refine ⟨⟨hstarts, hbracket⟩, fun rest hrest => ?_⟩
  obtain ⟨-, -, hquote⟩ := starts_bare hk hne' rest
  obtain ⟨htake, hdrop⟩ := Text.takeWhile_append_ends hk hrest
  rw [readKey, if_neg hquote]
  simp only [htake, hdrop, if_neg hne', String.ofList_toList]
  rfl

theorem readsKey_quoted {escape : Char → List Char} {k : String}
    (h : ∀ c ∈ k.toList, Escaped c (escape c)) :
    ReadsKey (quoted escape k) (unlessExposed escape k) := by
  have hbracket : (quoted escape k).head? ≠ some '[' :=
    fun h => absurd (Option.some.inj h) (by decide)
  refine ⟨⟨starts_quote, hbracket⟩, fun rest _ => ?_⟩
  rw [quoted_append, readKey, List.head?_cons, if_pos rfl, List.tail_cons, readBasic_flatMap h,
    ← ofList_unlessExposed, ← outcome_map]
  rfl

/-- What an entry is read as, from what its key and its value are. -/
def entryOf (k : Option String) (v : Option Toml) : Option (String × Toml) :=
  k.bind fun k => v.map (k, ·)

/-- An entry is read if its key and its value are. -/
theorem entryOf_ite {p q : Prop} [Decidable p] [Decidable q] {k : String} {v : Toml} :
    entryOf (if p then some k else none) (if q then some v else none) =
      if p ∧ q then some (k, v) else none := by
  by_cases hp : p
  · by_cases hq : q
    · rw [if_pos hp, if_pos hq, if_pos ⟨hp, hq⟩]
      rfl
    · rw [if_pos hp, if_neg hq, if_neg fun h => hq h.2]
      rfl
  · rw [if_neg hp, if_neg fun h : p ∧ q => hp h.1]
    rfl

/-- Spaces around the equals sign are skipped. -/
theorem readsEntry {k v spaces spaces' : List Char} {key : Option String} {r : Option Toml}
    (hk : ReadsKey k key) (hs : ∀ c ∈ spaces, isSpace c) (hs' : ∀ c ∈ spaces', isSpace c)
    (hv : ReadsValue v r) : ReadsEntry (k ++ (spaces ++ '=' :: (spaces' ++ v))) (entryOf key r) := by
  obtain ⟨⟨hstarts, hbracket⟩, hk⟩ := hk
  have hfirst : (k ++ (spaces ++ '=' :: (spaces' ++ v))).head? = k.head? := by
    obtain ⟨c, hc, -⟩ := hstarts
    rw [List.head?_append, hc]
    rfl
  refine ⟨⟨?_, hfirst ▸ hbracket⟩, fun n hn rest hrest => ?_⟩
  · obtain ⟨c, hc, h⟩ := hstarts
    exact ⟨c, hfirst ▸ hc, h⟩
  -- the key ends at the first space, or at the sign
  have hends : KeyEnds (spaces ++ '=' :: (spaces' ++ (v ++ rest))) := by
    intro d hd
    rcases spaces with _ | ⟨c, spaces⟩
    · rw [List.nil_append, List.head?_cons, Option.mem_some_iff] at hd
      exact hd ▸ rfl
    · rw [List.cons_append, List.head?_cons, Option.mem_some_iff] at hd
      have hc := hs c List.mem_cons_self
      rw [isSpace, decide_eq_true_iff, hd] at hc
      rcases hc with rfl | rfl
      · rfl
      · rfl
  have hskip : skipSpaces (spaces ++ '=' :: (spaces' ++ (v ++ rest))) =
      '=' :: (spaces' ++ (v ++ rest)) := by
    rw [skipSpaces, List.dropWhile_append_of_pos hs]
    rfl
  have hskip' : skipSpaces (spaces' ++ (v ++ rest)) = v ++ rest := by
    rw [skipSpaces, List.dropWhile_append_of_pos hs']
    exact skipSpaces_of_starts hv.1 _
  have htext : k ++ (spaces ++ '=' :: (spaces' ++ v)) ++ rest =
      k ++ (spaces ++ '=' :: (spaces' ++ (v ++ rest))) := by
    simp only [List.append_assoc, List.cons_append]
  have hlength : v.length ≤ n := by
    simp only [List.length_append, List.length_cons] at hn
    omega
  rw [htext, readEntry, hk _ hends]
  rcases key with _ | key
  · rfl
  · simp only [outcome_some, bind, Except.bind, hskip, hskip', hv.2 n hlength rest hrest]
    rcases r with _ | r
    · rfl
    · rfl

/-! ### Items -/

/-- Items that are separated by commas. -/
def commaJoin (items : List (List Char)) : List Char := [',', ' '].intercalate items

theorem commaJoin_cons_cons {x y : List Char} {xs : List (List Char)} :
    commaJoin (x :: y :: xs) = x ++ ',' :: ' ' :: commaJoin (y :: xs) := by
  rw [commaJoin, commaJoin, List.intercalate_cons_cons, List.append_assoc]
  rfl

theorem commaJoin_singleton {x : List Char} : commaJoin [x] = x := List.intercalate_singleton

theorem valueEnds_spaces {spaces : List Char} {c : Char} (hs : ∀ c ∈ spaces, isSpace c)
    (hc : c = ']' ∨ c = '}') (rest : List Char) : ValueEnds (spaces ++ c :: rest) := by
  intro d hd
  rcases spaces with _ | ⟨s, spaces⟩
  · rw [List.nil_append, List.head?_cons, Option.mem_some_iff] at hd
    rcases hc with rfl | rfl
    · exact hd ▸ by decide
    · exact hd ▸ by decide
  · rw [List.cons_append, List.head?_cons, Option.mem_some_iff] at hd
    have hspace := hs s List.mem_cons_self
    rw [isSpace, decide_eq_true_iff, hd] at hspace
    rcases hspace with rfl | rfl
    · decide
    · decide

theorem readItems_error {close : Char} {item : Reader α} {n : ℕ} {cs : List Char} {e : Failure}
    (h : item cs = .error e) : readItems close item (n + 1) cs = .error e := by
  rw [readItems, h]
  rfl

theorem readItems_ok {close c : Char} {item : Reader α} {n : ℕ} {x : α} {cs cs' : List Char}
    (h : item cs = .ok (x, rest)) (hrest : skipSpaces rest = c :: cs') :
    readItems close item (n + 1) cs =
      if c = ',' then consResult x (readItems close item n (skipSpaces cs'))
      else if c = close then .ok ([x], cs') else .error .unsupported := by
  rw [readItems, h]
  simp only [bind, Except.bind, hrest]

theorem commaJoin_starts {xs : List (List Char)} (h : ∀ x ∈ xs, Starts x) (hne : xs ≠ []) :
    Starts (commaJoin xs) := by
  rcases xs with _ | ⟨x, _ | ⟨y, ys⟩⟩
  · exact absurd rfl hne
  · rw [commaJoin_singleton]
    exact h x List.mem_cons_self
  · obtain ⟨c, hc, hstart⟩ := h x List.mem_cons_self
    refine ⟨c, ?_, hstart⟩
    rw [commaJoin_cons_cons, List.head?_append, hc]
    rfl

/-- Items are read one by one, up to the first that is invalid. -/
theorem readItems_commaJoin {close : Char} {item : Reader α} {xs : List β} {txt : β → List Char}
    {out : β → Option α} {spaces : List Char} {n : ℕ} (hclose : close = ']' ∨ close = '}')
    (hs : ∀ c ∈ spaces, isSpace c) (hstarts : ∀ x ∈ xs, Starts (txt x))
    (hitem : ∀ x ∈ xs, Reads item ValueEnds (txt x) (out x)) (hne : xs ≠ []) (hn : xs.length ≤ n)
    (rest : List Char) :
    readItems close item n (commaJoin (xs.map txt) ++ (spaces ++ close :: rest)) =
      outcome (xs.mapM out) rest := by
  induction xs generalizing n with
  | nil => exact absurd rfl hne
  | cons x xs ih =>
    obtain ⟨hx, hxs⟩ := List.forall_mem_cons.1 hitem
    rcases n with _ | n
    · exact absurd hn (Nat.not_succ_le_zero _)
    rcases xs with _ | ⟨y, ys⟩
    · have hread := hx _ (valueEnds_spaces hs hclose rest)
      have hskip : skipSpaces (spaces ++ close :: rest) = close :: rest := by
        rw [skipSpaces, List.dropWhile_append_of_pos hs]
        rcases hclose with rfl | rfl
        · rfl
        · rfl
      have hcomma : close ≠ ',' := by
        rcases hclose with rfl | rfl
        · decide
        · decide
      rw [List.map_singleton, commaJoin_singleton, List.mapM_cons, List.mapM_nil]
      rcases hr : out x with _ | r
      · exact readItems_error (hread.trans (by rw [hr, outcome_none]))
      · rw [readItems_ok (hread.trans (by rw [hr, outcome_some])) hskip, if_neg hcomma, if_pos rfl]
        rfl
    · -- A comma, and the rest of the items.
      have hstarts' : ∀ t ∈ (y :: ys).map txt, Starts t := by
        intro t ht
        obtain ⟨z, hz, rfl⟩ := List.mem_map.1 ht
        exact hstarts z (List.mem_cons_of_mem _ hz)
      have hends : ValueEnds (',' :: ' ' :: (commaJoin ((y :: ys).map txt) ++
          (spaces ++ close :: rest))) := by
        intro c hc
        rw [List.head?_cons, Option.mem_some_iff] at hc
        rw [← hc]
        decide
      have hskip : skipSpaces (' ' :: (commaJoin ((y :: ys).map txt) ++
          (spaces ++ close :: rest))) =
            commaJoin ((y :: ys).map txt) ++ (spaces ++ close :: rest) :=
        skipSpaces_of_starts (commaJoin_starts hstarts' (List.cons_ne_nil _ _)) _
      have hread := hx _ hends
      have ih' := ih (fun x hx => hstarts x (List.mem_cons_of_mem _ hx)) hxs
        (List.cons_ne_nil _ _) (Nat.le_of_succ_le_succ hn)
      rw [List.map_cons, List.map_cons, commaJoin_cons_cons, ← List.map_cons, List.append_assoc,
        List.cons_append, List.cons_append, List.mapM_cons]
      rcases hr : out x with _ | r
      · exact readItems_error (hread.trans (by rw [hr, outcome_none]))
      · rw [readItems_ok (hread.trans (by rw [hr, outcome_some])) rfl, if_pos rfl, hskip, ih']
        rcases (y :: ys).mapM out with _ | rs
        · rfl
        · rfl

/-- Items that may each be invalid. -/
theorem mapM_ite {p : β → Prop} [DecidablePred p] {f : β → α} {xs : List β} :
    (xs.mapM fun x => if p x then some (f x) else none) =
      if ∀ x ∈ xs, p x then some (xs.map f) else none := by
  induction xs with
  | nil => rfl
  | cons x xs ih =>
    rw [List.mapM_cons, ih]
    simp only [List.forall_mem_cons]
    by_cases hx : p x
    · by_cases hxs : ∀ x ∈ xs, p x
      · rw [if_pos hx, if_pos hxs, if_pos ⟨hx, hxs⟩]
        rfl
      · rw [if_pos hx, if_neg hxs, if_neg fun h => hxs h.2]
        rfl
    · have hnot : ¬(p x ∧ ∀ x ∈ xs, p x) := fun h => hx h.1
      rw [if_neg hx, if_neg hnot]
      rfl

/-- A list of items between brackets or braces. -/
theorem readGroup_commaJoin {close : Char} {item : Reader α} {xs : List β} {txt : β → List Char}
    {out : β → Option α} {n : ℕ} (hclose : close = ']' ∨ close = '}') {spaces : List Char}
    (hs : ∀ c ∈ spaces, isSpace c) (hstarts : ∀ x ∈ xs, Starts (txt x))
    (hitem : ∀ x ∈ xs, Reads item ValueEnds (txt x) (out x)) (hn : xs.length ≤ n)
    (rest : List Char) :
    readGroup close item n (spaces ++ commaJoin (xs.map txt) ++ (spaces ++ close :: rest)) =
      outcome (xs.mapM out) rest := by
  have hclosed : isSpace close = false := by
    rcases hclose with rfl | rfl
    · rfl
    · rfl
  by_cases hne : xs = []
  · subst hne
    have hskip : skipSpaces (spaces ++ commaJoin [] ++ (spaces ++ close :: rest)) =
        close :: rest := by
      have hnil : commaJoin [] = [] := rfl
      rw [skipSpaces, hnil, List.append_nil, List.dropWhile_append_of_pos hs,
        List.dropWhile_append_of_pos hs, List.dropWhile_cons_of_neg]
      rw [hclosed]
      exact Bool.false_ne_true
    rw [readGroup, List.map_nil, hskip]
    exact if_pos rfl
  · have hstart : Starts (commaJoin (xs.map txt)) := by
      refine commaJoin_starts (fun t ht => ?_) (by rwa [ne_eq, List.map_eq_nil_iff])
      obtain ⟨x, hx, rfl⟩ := List.mem_map.1 ht
      exact hstarts x hx
    have hskip : skipSpaces (spaces ++ commaJoin (xs.map txt) ++ (spaces ++ close :: rest)) =
        commaJoin (xs.map txt) ++ (spaces ++ close :: rest) := by
      rw [List.append_assoc, skipSpaces, List.dropWhile_append_of_pos hs]
      exact skipSpaces_of_starts hstart _
    -- an item does not begin as the list ends
    obtain ⟨c, hc, -, hbracket, hbrace, -⟩ := hstart
    obtain ⟨cs, hcs⟩ := List.head?_eq_some_iff.1 hc
    have hother : c ≠ close := by
      rcases hclose with rfl | rfl
      · exact hbracket
      · exact hbrace
    have hread := readItems_commaJoin hclose hs hstarts hitem hne hn rest
    rw [readGroup, hskip]
    rw [hcs, List.cons_append] at hread ⊢
    exact (if_neg hother).trans hread

/-! ### Arrays and inline tables -/

/-- An item is no longer than the list, which has no more items than characters. -/
theorem length_commaJoin {xs : List (List Char)} (h : ∀ x ∈ xs, Starts x) :
    xs.length ≤ (commaJoin xs).length ∧ ∀ x ∈ xs, x.length ≤ (commaJoin xs).length := by
  induction xs with
  | nil => exact ⟨Nat.le_refl _, fun _ hx => absurd hx List.not_mem_nil⟩
  | cons x xs ih =>
    obtain ⟨⟨c, hc, -⟩, hxs⟩ := List.forall_mem_cons.1 h
    obtain ⟨cs, rfl⟩ := List.head?_eq_some_iff.1 hc
    obtain ⟨hle, hmem⟩ := ih hxs
    rcases xs with _ | ⟨y, ys⟩
    · rw [commaJoin_singleton]
      exact ⟨by simp, fun x hx => (List.mem_singleton.1 hx) ▸ Nat.le_refl _⟩
    · rw [commaJoin_cons_cons]
      simp only [List.length_append, List.length_cons] at hle hmem ⊢
      refine ⟨by omega, fun x hx => ?_⟩
      rcases List.mem_cons.1 hx with rfl | hx
      · simp only [List.length_cons]
        omega
      · have := hmem x hx
        omega

theorem starts_map {xs : List β} {txt : β → List Char} (h : ∀ x ∈ xs, Starts (txt x)) :
    ∀ t ∈ xs.map txt, Starts t := by
  intro t ht
  obtain ⟨x, hx, rfl⟩ := List.mem_map.1 ht
  exact h x hx

theorem readValue_bracket {n : ℕ} : readValue (n + 1) ('[' :: rest) =
    (readGroup ']' (readValue n) n rest).map fun r => (.array r.1, r.2) := by
  rw [readValue]
  exact (if_neg (by decide)).trans (if_pos rfl)

theorem readValue_brace {n : ℕ} : readValue (n + 1) ('{' :: rest) =
    (readGroup '}' (readEntry (readValue n)) n rest).bind fun r => outcome (tableOf r.1) r.2 := by
  rw [readValue]
  exact (if_neg (by decide)).trans ((if_neg (by decide)).trans (if_pos rfl))

theorem readsValue_array {xs : List β} {txt : β → List Char} {out : β → Option Toml}
    (h : ∀ x ∈ xs, ReadsValue (txt x) (out x)) :
    ReadsValue ('[' :: commaJoin (xs.map txt) ++ [']']) ((xs.mapM out).map array) := by
  refine ⟨⟨'[', rfl, by decide⟩, fun n hn rest hrest => ?_⟩
  obtain ⟨hcount, hitems⟩ := length_commaJoin (starts_map fun x hx => (h x hx).1)
  rw [List.length_map] at hcount
  simp only [List.length_append, List.length_cons] at hn
  rcases n with _ | n
  · omega
  have hread : readGroup ']' (readValue n) n ([] ++ commaJoin (xs.map txt) ++ ([] ++ ']' :: rest)) =
      outcome (xs.mapM out) rest := by
    refine readGroup_commaJoin (Or.inl rfl) (fun c hc => absurd hc List.not_mem_nil)
      (fun x hx => (h x hx).1) (fun x hx => (h x hx).2 n ?_) (by omega) rest
    have := hitems _ (List.mem_map_of_mem hx)
    omega
  have htext : '[' :: commaJoin (xs.map txt) ++ [']'] ++ rest =
      '[' :: ([] ++ commaJoin (xs.map txt) ++ ([] ++ ']' :: rest)) := by
    simp only [List.cons_append, List.append_assoc, List.nil_append]
  rw [htext, readValue_bracket, hread, outcome_map]

theorem readsValue_table {xs : List β} {txt : β → List Char} {out : β → Option (String × Toml)}
    (h : ∀ x ∈ xs, ReadsEntry (txt x) (out x)) :
    ReadsValue ('{' :: ' ' :: commaJoin (xs.map txt) ++ [' ', '}'])
      ((xs.mapM out).bind tableOf) := by
  refine ⟨⟨'{', rfl, by decide⟩, fun n hn rest hrest => ?_⟩
  obtain ⟨hcount, hitems⟩ := length_commaJoin (starts_map fun x hx => (h x hx).1.1)
  rw [List.length_map] at hcount
  simp only [List.length_append, List.length_cons] at hn
  rcases n with _ | n
  · omega
  have hread : readGroup '}' (readEntry (readValue n)) n
      ([' '] ++ commaJoin (xs.map txt) ++ ([' '] ++ '}' :: rest)) =
        outcome (xs.mapM out) rest := by
    refine readGroup_commaJoin (Or.inr rfl) ?_ (fun x hx => (h x hx).1.1)
      (fun x hx => (h x hx).2 n ?_) (by omega) rest
    · intro c hc
      rw [List.mem_singleton.1 hc]
      decide
    · have := hitems _ (List.mem_map_of_mem hx)
      omega
  have htext : '{' :: ' ' :: commaJoin (xs.map txt) ++ [' ', '}'] ++ rest =
      '{' :: ([' '] ++ commaJoin (xs.map txt) ++ ([' '] ++ '}' :: rest)) := by
    simp only [List.cons_append, List.append_assoc, List.nil_append]
  rw [htext, readValue_brace, hread]
  rcases xs.mapM out with _ | fields
  · rfl
  · rfl

end Toml
