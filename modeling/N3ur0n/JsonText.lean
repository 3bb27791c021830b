import N3ur0n.Json
import N3ur0n.Lib.Toml.Values

/-!
# JSON texts

The reader of `serde_json`, on characters: the values of a text, an object with
its entries as they stand, in their order and with those of equal keys. How a
number is read is a parameter, as it depends on the doubles (`numberOf` is
how `serde_json` reads one). Values are nested up to a limit.

* `Reads`: what a text is read as, whatever comes after it;
* `readText_render`: the compact text of a value is read as the value, exactly
  if it is not nested deeper than the limit;
* `readText_depth`: whatever the text, no value is nested deeper.
-/

namespace N3ur0n
namespace Json

variable {α β : Type}

/-- What is read, and the rest of the input. -/
abbrev Reader (α : Type) := List Char → Option (α × List Char)

/-! ## Characters -/

/-- A quote, by its code. -/
def quote : Char := Char.ofNat 34

/-- The blanks of JSON. -/
def isSpace (c : Char) : Bool := c = ' ' ∨ c = '\t' ∨ c = '\n' ∨ c = '\r'

/-- The characters of a number. -/
def isNumberChar (c : Char) : Bool :=
  c.isDigit ∨ c = '-' ∨ c = '+' ∨ c = '.' ∨ c = 'e' ∨ c = 'E'

def skipSpaces (cs : List Char) : List Char := cs.dropWhile isSpace

/-! ## Strings -/

def hexValue (c : Char) : Option ℕ :=
  if c.isDigit then some (c.toNat - 48)
  else if 97 ≤ c.toNat ∧ c.toNat ≤ 102 then some (c.toNat - 87)
  else if 65 ≤ c.toNat ∧ c.toNat ≤ 70 then some (c.toNat - 55)
  else none

/-- The UTF-16 code unit of four digits. -/
def readUnit : Reader ℕ
  | a :: b :: c :: d :: cs => do
    let n := (← hexValue a) * 4096 + (← hexValue b) * 256 + (← hexValue c) * 16 + (← hexValue d)
    return (n, cs)
  | _ => none

/-- The code units that lead a surrogate pair. -/
def isLeading (n : ℕ) : Bool := 0xD800 ≤ n ∧ n < 0xDC00

/-- The code units that trail a surrogate pair. -/
def isTrailing (n : ℕ) : Bool := 0xDC00 ≤ n ∧ n < 0xE000

/-- The character of a code unit, or of the two of a surrogate pair. A lone
    surrogate is an error. -/
def readUnicode (cs : List Char) : Option (Char × List Char) := do
  let (n, cs) ← readUnit cs
  if isLeading n then
    match cs with
    | '\\' :: 'u' :: cs =>
      let (m, cs) ← readUnit cs
      if isTrailing m then
        some (Char.ofNat (0x10000 + (n - 0xD800) * 1024 + (m - 0xDC00)), cs)
      else none
    | _ => none
  else if isTrailing n then none
  else some (Char.ofNat n, cs)

/-- What follows a backslash. -/
def readEscape : Reader Char
  | [] => none
  | e :: cs =>
    if e = 'u' then readUnicode cs
    else if e = '/' then some (e, cs)
    else (Toml.unescape e).map (·, cs)

/-- What is read first, in front of what is read next. -/
def consResult (x : α) (r : Option (List α × List Char)) : Option (List α × List Char) :=
  r.map fun r => (x :: r.1, r.2)

/-- The characters of a string, after its opening quote. The first argument
    bounds how many there are: the length of the input is enough. -/
def readChars : ℕ → Reader (List Char)
  | 0, _ => none
  | _ + 1, [] => none
  | n + 1, c :: cs =>
    if c = quote then some ([], cs)
    else if c = '\\' then (readEscape cs).bind fun r => consResult r.1 (readChars n r.2)
    else if c.toNat < 32 then none
    else consResult c (readChars n cs)

def readString (n : ℕ) (cs : List Char) : Option (String × List Char) :=
  (readChars n cs).map fun r => (String.ofList r.1, r.2)

/-! ## Numbers -/

/-- The integers that `serde_json` keeps as such: those of `i64` and `u64`. -/
def inRange (i : ℤ) : Bool := -2 ^ 63 ≤ i ∧ i < 2 ^ 64

/-- A number: an integer, or the double that is `nearest`, by its text, unless
    the number is too large for one. A negative zero is a double. -/
def numberOf (nearest : String → Option String) (t : List Char) : Option Number :=
  match Toml.readInt t with
  | some i => if inRange i then some (.int i) else (nearest (String.ofList t)).map .float
  | none =>
    if t = ['-', '0'] ∨ Toml.isFloat t then (nearest (String.ofList t)).map .float else none

/-! ## Values -/

/-- Items separated by commas, at least one, up to the closing character. -/
def readItems (close : Char) (item : Reader α) : ℕ → Reader (List α)
  | 0, _ => none
  | n + 1, cs => do
    let (x, cs) ← item cs
    match skipSpaces cs with
    | c :: cs =>
      if c = ',' then consResult x (readItems close item n cs)
      else if c = close then some ([x], cs)
      else none
    | [] => none

/-- Items separated by commas, after the opening character. -/
def readGroup (close : Char) (item : Reader α) (n : ℕ) (cs : List Char) :
    Option (List α × List Char) :=
  match skipSpaces cs with
  | c :: cs => if c = close then some ([], cs) else readItems close item n (c :: cs)
  | [] => none

/-- A key, a colon and a value. -/
def readField (value : Reader Value) (n : ℕ) (cs : List Char) :
    Option ((String × Value) × List Char) :=
  match skipSpaces cs with
  | c :: cs =>
    if c = quote then do
      let (k, cs) ← readString n cs
      match skipSpaces cs with
      | c :: cs => if c = ':' then (value cs).map fun r => ((k, r.1), r.2) else none
      | [] => none
    else none
  | [] => none

/-- A literal or a number. -/
def readScalar (num : List Char → Option Number) : Reader Value
  | 'n' :: 'u' :: 'l' :: 'l' :: cs => some (.null, cs)
  | 't' :: 'r' :: 'u' :: 'e' :: cs => some (.bool true, cs)
  | 'f' :: 'a' :: 'l' :: 's' :: 'e' :: cs => some (.bool false, cs)
  | cs => (num (cs.takeWhile isNumberChar)).map fun n => (.number n, cs.dropWhile isNumberChar)

/-- A value, of arrays and objects that are nested up to `depth`. The first
    number bounds the lengths of its parts: the length of the input is enough. -/
def readValue (num : List Char → Option Number) : ℕ → ℕ → Reader Value
  | 0, _, _ => none
  | n + 1, depth, cs =>
    match skipSpaces cs with
    | [] => none
    | c :: cs =>
      if c = quote then (readString n cs).map fun r => (.string r.1, r.2)
      else if c = '[' then
        if depth = 0 then none
        else (readGroup ']' (readValue num n (depth - 1)) n cs).map fun r => (.array r.1, r.2)
      else if c = '{' then
        if depth = 0 then none
        else (readGroup '}' (readField (readValue num n (depth - 1)) n) n cs).map
          fun r => (.object r.1, r.2)
      else readScalar num (c :: cs)

/-- The value of a whole text. -/
def readText (num : List Char → Option Number) (depth : ℕ) (text : List Char) : Option Value :=
  (readValue num (text.length + 1) depth text).bind fun r =>
    if skipSpaces r.2 = [] then some r.1 else none

/-- The nesting that `serde_json` reads: it has 128 levels, and stops at the last. -/
def recursionLimit : ℕ := 127

/-! ## What a text is read as -/

/-- No number goes on here. -/
def ValueEnds (rest : List Char) : Prop := ∀ c ∈ rest.head?, isNumberChar c = false

/-- The text is read as `r`, if no number goes on after it, up to the spaces
    that follow. -/
def Reads (read : Reader α) (text : List Char) (r : Option α) : Prop :=
  ∀ rest, ValueEnds rest →
    (read (text ++ rest)).map (Prod.map id skipSpaces) = r.map (·, skipSpaces rest)

def IsSpaces (w : List Char) : Prop := ∀ c ∈ w, isSpace c

/-- The text has a first character, which closes nothing. -/
def Starts (text : List Char) : Prop := ∃ c ∈ (skipSpaces text).head?, c ≠ ']' ∧ c ≠ '}'

/-- A value that is read as `r`, if it may be nested up to `depth`. -/
def ReadsValue (num : List Char → Option Number) (depth : ℕ) (text : List Char)
    (r : Option Value) : Prop :=
  Starts text ∧ ∀ n, text.length ≤ n → Reads (readValue num n depth) text r

def ReadsField (num : List Char → Option Number) (depth : ℕ) (text : List Char)
    (r : Option (String × Value)) : Prop :=
  Starts text ∧ ∀ n, text.length ≤ n → Reads (readField (readValue num n depth) n) text r

variable {num : List Char → Option Number} {rest w w' t cs : List Char} {close c : Char}
  {n depth : ℕ}

/-- Spaces in front are skipped. -/
theorem skipSpaces_append (h : IsSpaces w) : skipSpaces (w ++ cs) = skipSpaces cs :=
  List.dropWhile_append_of_pos h

theorem skipSpaces_cons (h : isSpace c = false) : skipSpaces (c :: cs) = c :: cs :=
  List.dropWhile_cons_of_neg (by rw [h]; exact Bool.false_ne_true)

theorem skipSpaces_skipSpaces : skipSpaces (skipSpaces cs) = skipSpaces cs := by
  rcases h : skipSpaces cs with _ | ⟨c, cs'⟩
  · rfl
  · have hc := List.head?_dropWhile_not isSpace cs
    rw [← skipSpaces, h] at hc
    exact skipSpaces_cons (by simpa using hc)

/-- The reading goes on at the first character of the text. -/
theorem Starts.skipSpaces_append (h : Starts t) (rest : List Char) :
    skipSpaces (t ++ rest) = skipSpaces t ++ rest := by
  obtain ⟨c, hc, -⟩ := h
  rw [skipSpaces, List.dropWhile_append]
  split
  · next h =>
    rw [skipSpaces, List.isEmpty_iff.1 h] at hc
    cases hc
  · rfl

theorem Starts.append_right (h : Starts t) (w : List Char) : Starts (t ++ w) := by
  obtain ⟨c, hc, hclose⟩ := h
  refine ⟨c, ?_, hclose⟩
  rw [Starts.skipSpaces_append ⟨c, hc, hclose⟩, List.head?_append, hc]
  rfl

/-- What follows spaces still starts a value. -/
theorem Starts.append_left (h : Starts t) (hw : IsSpaces w) : Starts (w ++ t) := by
  rw [Starts, Json.skipSpaces_append hw]
  exact h

theorem valueEnds_spaces (hw : IsSpaces w) (h : ValueEnds rest) : ValueEnds (w ++ rest) := by
  rcases w with _ | ⟨c, w⟩
  · exact h
  · intro d hd
    obtain rfl := Option.some.inj hd
    have hc := hw c List.mem_cons_self
    rw [isSpace, decide_eq_true_iff] at hc
    rcases hc with rfl | rfl | rfl | rfl
    all_goals rfl

theorem Reads.append_right {read : Reader α} {r : Option α} (h : Reads read t r)
    (hw : IsSpaces w) : Reads read (t ++ w) r := by
  intro rest hrest
  rw [List.append_assoc, h (w ++ rest) (valueEnds_spaces hw hrest), skipSpaces_append hw]

/-- A value is read behind spaces as without them. -/
theorem readValue_append (hw : IsSpaces w) :
    readValue num n depth (w ++ cs) = readValue num n depth cs := by
  rcases n with _ | n
  · rfl
  · rw [readValue, readValue, skipSpaces_append hw]

theorem readField_append {value : Reader Value} (hw : IsSpaces w) :
    readField value n (w ++ cs) = readField value n cs := by
  rw [readField, readField, skipSpaces_append hw]

/-- Spaces around a value do not matter. -/
theorem ReadsValue.spaces {r : Option Value} (h : ReadsValue num depth t r) (hw : IsSpaces w)
    (hw' : IsSpaces w') : ReadsValue num depth (w ++ (t ++ w')) r := by
  refine ⟨(h.1.append_right w').append_left hw, fun n hn rest hrest => ?_⟩
  rw [List.length_append, List.length_append] at hn
  rw [List.append_assoc, readValue_append hw]
  exact (h.2 n (by omega)).append_right hw' rest hrest

/-- So is a field, with spaces around it. -/
theorem ReadsField.spaces {r : Option (String × Value)} (h : ReadsField num depth t r)
    (hw : IsSpaces w) (hw' : IsSpaces w') : ReadsField num depth (w ++ (t ++ w')) r := by
  refine ⟨(h.1.append_right w').append_left hw, fun n hn rest hrest => ?_⟩
  rw [List.length_append, List.length_append] at hn
  rw [List.append_assoc, readField_append hw]
  exact (h.2 n (by omega)).append_right hw' rest hrest

/-! ### Strings -/

/-- An escape of one letter is read as in TOML. -/
theorem readEscape_of_unescape {e : Char} (he : e ≠ 'u') (he' : e ≠ '/')
    (h : Toml.unescape e = some c) : readEscape (e :: cs) = some (c, cs) := by
  rw [readEscape.eq_def]
  simp only [if_neg he, if_neg he', h, Option.map_some]

/-- The two hexadecimal digits of a control character. -/
theorem hexValue_hexDigit {k : ℕ} (h : k < 16) : hexValue (Value.hexDigit k) = some k := by
  revert h k
  decide

/-- A control character is read from its four digits. -/
theorem readEscape_control (h : c.toNat < 32) :
    readEscape ('u' :: '0' :: '0' :: Value.hexDigit (c.toNat / 16) ::
      Value.hexDigit (c.toNat % 16) :: cs) = some (c, cs) := by
  have hunit : readUnit ('0' :: '0' :: Value.hexDigit (c.toNat / 16) ::
      Value.hexDigit (c.toNat % 16) :: cs) = some (c.toNat, cs) := by
    have hhigh : hexValue (Value.hexDigit (c.toNat / 16)) = some (c.toNat / 16) :=
      hexValue_hexDigit (by omega)
    have hlow : hexValue (Value.hexDigit (c.toNat % 16)) = some (c.toNat % 16) :=
      hexValue_hexDigit (by omega)
    have hzero : hexValue '0' = some 0 := by decide
    rw [readUnit, hhigh, hlow, hzero]
    simp only [Option.bind_eq_bind, Option.bind_some, Option.pure_def]
    congr 2
    omega
  have hplain : isLeading c.toNat = false ∧ isTrailing c.toNat = false := by
    constructor
    · exact decide_eq_false (by omega)
    · exact decide_eq_false (by omega)
  rw [readEscape.eq_def]
  simp only [if_true]
  rw [readUnicode, hunit]
  simp only [Option.bind_eq_bind, Option.bind_some, hplain.1, hplain.2, Bool.false_eq_true, if_false]
  rw [Char.ofNat_toNat]

/-- A character is written as it is, with a backslash, or by its code. -/
theorem escape_cases (c : Char) :
    (Value.escape c = [c] ∧ c ≠ quote ∧ c ≠ '\\' ∧ 32 ≤ c.toNat) ∨
      (∃ e, Value.escape c = ['\\', e] ∧ Toml.unescape e = some c ∧ e ≠ 'u' ∧ e ≠ '/') ∨
      c.toNat < 32 ∧ Value.escape c = ['\\', 'u', '0', '0', Value.hexDigit (c.toNat / 16),
        Value.hexDigit (c.toNat % 16)] := by
  have hcode : ∀ {k : ℕ}, c.toNat = k → c = Char.ofNat k := fun h => h ▸ (Char.ofNat_toNat c).symm
  unfold Value.escape
  split
  · next h => exact .inr (.inl ⟨c, rfl, hcode h ▸ by decide⟩)
  · next h => exact .inr (.inl ⟨c, rfl, hcode h ▸ by decide⟩)
  · next h => exact .inr (.inl ⟨'b', rfl, hcode h ▸ by decide⟩)
  · next h => exact .inr (.inl ⟨'t', rfl, hcode h ▸ by decide⟩)
  · next h => exact .inr (.inl ⟨'n', rfl, hcode h ▸ by decide⟩)
  · next h => exact .inr (.inl ⟨'f', rfl, hcode h ▸ by decide⟩)
  · next h => exact .inr (.inl ⟨'r', rfl, hcode h ▸ by decide⟩)
  · next h₁ h₂ _ _ _ _ _ =>
    by_cases hlt : c.toNat < 32
    · exact .inr (.inr ⟨hlt, if_pos hlt⟩)
    · refine .inl ⟨if_neg hlt, ?_, ?_, Nat.le_of_not_lt hlt⟩
      · rintro rfl
        exact h₁ rfl
      · rintro rfl
        exact h₂ rfl

/-- A string ends at a quote. -/
theorem readChars_quote : readChars (n + 1) (quote :: cs) = some ([], cs) := by
  rw [readChars.eq_def]
  exact if_pos rfl

theorem readChars_backslash :
    readChars (n + 1) ('\\' :: cs) =
      (readEscape cs).bind fun r => consResult r.1 (readChars n r.2) := by
  rw [readChars.eq_def]
  exact (if_neg (by decide)).trans (if_pos rfl)

/-- A plain character is itself. -/
theorem readChars_plain (hq : c ≠ quote) (hb : c ≠ '\\') (hc : 32 ≤ c.toNat) :
    readChars (n + 1) (c :: cs) = consResult c (readChars n cs) := by
  rw [readChars.eq_def]
  exact (if_neg hq).trans ((if_neg hb).trans (if_neg (Nat.not_lt.2 hc)))

/-- A character that is written is read. -/
theorem readChars_escape :
    readChars (n + 1) (Value.escape c ++ cs) = consResult c (readChars n cs) := by
  rcases escape_cases c with ⟨h, hq, hb, hc⟩ | ⟨e, h, he, hu, hs⟩ | ⟨hc, h⟩
  · rw [h, List.singleton_append, readChars_plain hq hb hc]
  · rw [h, List.cons_append, List.singleton_append, readChars_backslash,
      readEscape_of_unescape hu hs he]
    rfl
  · rw [h]
    simp only [List.cons_append, List.nil_append]
    rw [readChars_backslash, readEscape_control hc]
    rfl

/-- A string that was escaped is read back. -/
theorem readChars_escaped {s : List Char} (hn : s.length < n) :
    readChars n (s.flatMap Value.escape ++ quote :: rest) = some (s, rest) := by
  induction s generalizing n with
  | nil =>
    obtain ⟨n, rfl⟩ := Nat.exists_eq_succ_of_ne_zero (Nat.ne_of_gt hn)
    exact readChars_quote
  | cons c s ih =>
    rcases n with _ | n
    · exact absurd hn (Nat.not_lt_zero _)
    · rw [List.flatMap_cons, List.append_assoc, readChars_escape,
        ih (Nat.lt_of_succ_lt_succ hn)]
      rfl

/-! ### Items -/

/-- A text that is read as `r`, without the spaces after it. -/
theorem Reads.cases {read : Reader α} {r : Option α} (h : Reads read t r) (hrest : ValueEnds rest) :
    r = none ∧ read (t ++ rest) = none ∨
      ∃ a cs, r = some a ∧ read (t ++ rest) = some (a, cs) ∧ skipSpaces cs = skipSpaces rest := by
  have hread := h rest hrest
  rcases r with _ | a
  · rw [Option.map_none, Option.map_eq_none_iff] at hread
    exact .inl ⟨rfl, hread⟩
  · rw [Option.map_some, Option.map_eq_some_iff] at hread
    obtain ⟨⟨a', cs⟩, hread, he⟩ := hread
    obtain ⟨rfl, hcs⟩ := Prod.mk.inj he
    exact .inr ⟨a', cs, rfl, hread, hcs⟩

/-- The characters that close a list of items. -/
def Closes (c : Char) : Prop := c = ']' ∨ c = '}'

/-- What closes a list neither is a space nor belongs to an item. -/
theorem Closes.spec (h : Closes c) : isSpace c = false ∧ isNumberChar c = false ∧ c ≠ ',' := by
  rcases h with rfl | rfl
  · decide
  · decide

/-- An item before the bracket is the last one. -/
theorem readItems_last {item : Reader α} {r : Option α} (hclose : Closes close)
    (h : Reads item t r) : readItems close item (n + 1) (t ++ close :: rest) =
      r.map fun x => ([x], rest) := by
  obtain ⟨hspace, hnumber, hcomma⟩ := hclose.spec
  have hends : ValueEnds (close :: rest) := fun c hc => Option.some.inj hc ▸ hnumber
  rw [readItems]
  rcases h.cases hends with ⟨rfl, hread⟩ | ⟨x, cs, rfl, hread, hcs⟩
  · rw [hread]
    rfl
  · rw [skipSpaces_cons hspace] at hcs
    rw [hread]
    simp only [Option.bind_eq_bind, Option.bind_some, hcs, if_neg hcomma, if_true, Option.map_some]

/-- Behind a comma there is another item. -/
theorem readItems_more {item : Reader α} {r : Option α} (h : Reads item t r) :
    readItems close item (n + 1) (t ++ ',' :: cs) =
      r.bind fun x => consResult x (readItems close item n cs) := by
  have hends : ValueEnds (',' :: cs) := fun c hc => Option.some.inj hc ▸ rfl
  rw [readItems]
  rcases h.cases hends with ⟨rfl, hread⟩ | ⟨x, cs', rfl, hread, hcs⟩
  · rw [hread]
    rfl
  · rw [skipSpaces_cons rfl] at hcs
    rw [hread]
    simp only [Option.bind_eq_bind, Option.bind_some, hcs, if_true]

/-- Items that are separated by commas. -/
def commaJoin (items : List (List Char)) : List Char := [','].intercalate items

theorem commaJoin_singleton : commaJoin [t] = t := List.intercalate_singleton

theorem commaJoin_cons_cons {u : List Char} {ts : List (List Char)} :
    commaJoin (t :: u :: ts) = t ++ ',' :: commaJoin (u :: ts) := by
  rw [commaJoin, commaJoin, List.intercalate_cons_cons, List.append_assoc]
  rfl

variable {xs : List β} {txt : β → List Char} {out : β → Option α} {item : Reader α}

/-- Items that are joined by commas are read one by one. -/
theorem readItems_commaJoin (hclose : Closes close) (hne : xs ≠ [])
    (hitem : ∀ x ∈ xs, Reads item (txt x) (out x)) (hn : xs.length ≤ n) :
    readItems close item n (commaJoin (xs.map txt) ++ close :: rest) =
      (xs.mapM out).map (·, rest) := by
  induction xs generalizing n with
  | nil => exact absurd rfl hne
  | cons x xs ih =>
    obtain ⟨hx, hxs⟩ := List.forall_mem_cons.1 hitem
    rcases n with _ | n
    · exact absurd hn (Nat.not_succ_le_zero _)
    rcases xs with _ | ⟨y, ys⟩
    · rw [List.map_singleton, commaJoin_singleton, readItems_last hclose hx, List.mapM_cons,
        List.mapM_nil]
      rcases out x with _ | a
      · rfl
      · rfl
    · have ih' := ih (List.cons_ne_nil _ _) hxs (Nat.le_of_succ_le_succ hn)
      rw [List.map_cons, List.map_cons, commaJoin_cons_cons, ← List.map_cons, List.append_assoc,
        List.cons_append, readItems_more hx, ih', List.mapM_cons (a := x)]
      rcases out x with _ | a
      · rfl
      · rcases (y :: ys).mapM out with _ | as
        · rfl
        · rfl

theorem commaJoin_starts {ts : List (List Char)} (h : ∀ t ∈ ts, Starts t) (hne : ts ≠ []) :
    Starts (commaJoin ts) := by
  rcases ts with _ | ⟨t, _ | ⟨u, ts⟩⟩
  · exact absurd rfl hne
  · rw [commaJoin_singleton]
    exact h t List.mem_cons_self
  · rw [commaJoin_cons_cons]
    exact (h t List.mem_cons_self).append_right _

/-- A list of items between brackets or braces. -/
theorem readGroup_commaJoin (hclose : Closes close) (hne : xs ≠ [])
    (hskip : ∀ cs, item (skipSpaces cs) = item cs) (hstarts : ∀ x ∈ xs, Starts (txt x))
    (hitem : ∀ x ∈ xs, Reads item (txt x) (out x)) (hn : xs.length ≤ n) :
    readGroup close item n (commaJoin (xs.map txt) ++ close :: rest) =
      (xs.mapM out).map (·, rest) := by
  have hstart : Starts (commaJoin (xs.map txt)) := by
    refine commaJoin_starts (fun t ht => ?_) (by rwa [ne_eq, List.map_eq_nil_iff])
    obtain ⟨x, hx, rfl⟩ := List.mem_map.1 ht
    exact hstarts x hx
  have hitems : ∀ m cs, readItems close item m (skipSpaces cs) = readItems close item m cs := by
    intro m cs
    rcases m with _ | m
    · rfl
    · rw [readItems, readItems, hskip]
  rw [← readItems_commaJoin hclose hne hitem hn, ← hitems, readGroup]
  obtain ⟨c, hc, hbracket, hbrace⟩ := hstart.append_right (close :: rest)
  obtain ⟨cs, hcs⟩ := List.head?_eq_some_iff.1 hc
  have hother : c ≠ close := by
    rcases hclose with rfl | rfl
    · exact hbracket
    · exact hbrace
  rw [hcs]
  exact if_neg hother

/-- A list may be empty. -/
theorem readGroup_nil (hclose : Closes close) (hw : IsSpaces w) :
    readGroup close item n (w ++ close :: rest) = some ([], rest) := by
  rw [readGroup, skipSpaces_append hw, skipSpaces_cons hclose.spec.1]
  exact if_pos rfl

/-- An item is no longer than the list, which has no more items than characters. -/
theorem length_commaJoin {ts : List (List Char)} (h : ∀ t ∈ ts, Starts t) :
    ts.length ≤ (commaJoin ts).length ∧ ∀ t ∈ ts, t.length ≤ (commaJoin ts).length := by
  induction ts with
  | nil => exact ⟨Nat.le_refl _, fun _ hx => absurd hx List.not_mem_nil⟩
  | cons t ts ih =>
    obtain ⟨ht, hts⟩ := List.forall_mem_cons.1 h
    have hpos : t ≠ [] := by
      rintro rfl
      obtain ⟨c, hc, -⟩ := ht
      cases hc
    have hlength := List.length_pos_iff.2 hpos
    obtain ⟨hle, hmem⟩ := ih hts
    rcases ts with _ | ⟨u, ts⟩
    · rw [commaJoin_singleton]
      exact ⟨hlength, fun x hx => (List.mem_singleton.1 hx) ▸ Nat.le_refl _⟩
    · rw [commaJoin_cons_cons]
      simp only [List.length_append, List.length_cons] at hle hmem ⊢
      refine ⟨by omega, fun x hx => ?_⟩
      rcases List.mem_cons.1 hx with rfl | hx
      · omega
      · have := hmem x hx
        omega

/-! ### Values -/

/-- A string that is read as `r`, after its opening quote. -/
def ReadsString (body : List Char) (r : Option String) : Prop :=
  ∀ n, body.length ≤ n → ∀ rest, readString n (body ++ rest) = r.map (·, rest)

/-- What an entry is read as, from what its key and its value are. -/
def fieldOf (k : Option String) (v : Option Value) : Option (String × Value) :=
  k.bind fun k => v.map (k, ·)

variable {body : List Char} {k : Option String} {r : Option Value}

/-- An escaped string is no shorter than the string. -/
theorem length_le_escaped (s : List Char) : s.length ≤ (s.flatMap Value.escape).length := by
  induction s with
  | nil => exact Nat.le_refl _
  | cons c s ih =>
    have hpos : 0 < (Value.escape c).length := by
      rcases escape_cases c with ⟨h, -⟩ | ⟨e, h, -⟩ | ⟨-, h⟩
      all_goals
        rw [h]
        exact Nat.succ_pos _
    rw [List.flatMap_cons, List.length_append, List.length_cons]
    omega

/-- A quoted string is read back. -/
theorem readsString_escaped (s : String) :
    ReadsString (s.toList.flatMap Value.escape ++ [quote]) (some s) := by
  intro n hn rest
  have hle := length_le_escaped s.toList
  rw [List.length_append, List.length_singleton] at hn
  rw [readString, List.append_assoc, List.singleton_append, readChars_escaped (by omega),
    Option.map_some, Option.map_some, String.ofList_toList]

theorem starts_cons (hs : isSpace c = false) (hc : c ≠ ']' ∧ c ≠ '}') : Starts (c :: cs) :=
  ⟨c, by rw [skipSpaces_cons hs]; rfl, hc⟩

/-- A string is a value. -/
theorem readsValue_string (h : ReadsString body k) :
    ReadsValue num depth (quote :: body) (k.map .string) := by
  refine ⟨starts_cons rfl (by decide), fun n hn rest _ => ?_⟩
  rcases n with _ | n
  · exact absurd hn (Nat.not_succ_le_zero _)
  rw [List.cons_append, readValue, skipSpaces_cons rfl]
  simp only [if_true]
  rw [h n (Nat.le_of_succ_le_succ hn)]
  rcases k with _ | k
  · rfl
  · rfl

/-- The text of a literal is read as the literal. -/
theorem readsValue_literal {v : Value} (hs : isSpace c = false) (hc : c ≠ ']' ∧ c ≠ '}')
    (hne : c ≠ quote ∧ c ≠ '[' ∧ c ≠ '{')
    (h : ∀ rest, readScalar num (c :: cs ++ rest) = some (v, rest)) :
    ReadsValue num depth (c :: cs) (some v) := by
  refine ⟨starts_cons hs hc, fun n hn rest _ => ?_⟩
  rcases n with _ | n
  · exact absurd hn (Nat.not_succ_le_zero _)
  rw [List.cons_append, readValue, skipSpaces_cons hs]
  simp only [if_neg hne.1, if_neg hne.2.1, if_neg hne.2.2]
  rw [← List.cons_append, h]
  rfl

/-- So is `null`. -/
theorem readsValue_null : ReadsValue num depth "null".toList (some .null) :=
  readsValue_literal rfl (by decide) (by decide) fun _ => rfl

/-- So are the two truth values. -/
theorem readsValue_bool (b : Bool) :
    ReadsValue num depth (if b then "true" else "false").toList (some (.bool b)) := by
  cases b with
  | true => exact readsValue_literal rfl (by decide) (by decide) fun _ => rfl
  | false => exact readsValue_literal rfl (by decide) (by decide) fun _ => rfl

theorem isNumberChar_ne {d : Char} (hc : isNumberChar c) (hd : isNumberChar d = false) : c ≠ d := by
  rintro rfl
  exact Bool.false_ne_true (hd.symm.trans hc)

/-- A number goes as far as its characters do. -/
theorem readScalar_number (hc : isNumberChar c) :
    readScalar num (c :: cs) = (num ((c :: cs).takeWhile isNumberChar)).map
      fun m => (.number m, (c :: cs).dropWhile isNumberChar) := by
  rw [readScalar.eq_def]
  split
  · next h => exact absurd (List.cons.inj h).1 (isNumberChar_ne hc rfl)
  · next h => exact absurd (List.cons.inj h).1 (isNumberChar_ne hc rfl)
  · next h => exact absurd (List.cons.inj h).1 (isNumberChar_ne hc rfl)
  · rfl

/-- A number is a value. -/
theorem readsValue_number (hne : t ≠ []) (ht : ∀ c ∈ t, isNumberChar c) :
    ReadsValue num depth t ((num t).map .number) := by
  obtain ⟨c, cs, rfl⟩ := List.exists_cons_of_ne_nil hne
  have hc := ht c List.mem_cons_self
  have hspace : isSpace c = false := by
    rw [isSpace, decide_eq_false_iff_not]
    rintro (h | h | h | h)
    all_goals exact isNumberChar_ne hc rfl h
  refine ⟨starts_cons hspace ⟨isNumberChar_ne hc rfl, isNumberChar_ne hc rfl⟩,
    fun n hn rest hrest => ?_⟩
  rcases n with _ | n
  · exact absurd hn (Nat.not_succ_le_zero _)
  obtain ⟨htake, hdrop⟩ := Text.takeWhile_append_ends ht hrest
  rw [List.cons_append] at htake hdrop
  rw [List.cons_append, readValue, skipSpaces_cons hspace]
  simp only [if_neg (isNumberChar_ne hc (show isNumberChar quote = false from rfl)),
    if_neg (isNumberChar_ne hc (show isNumberChar '[' = false from rfl)),
    if_neg (isNumberChar_ne hc (show isNumberChar '{' = false from rfl))]
  rw [readScalar_number hc, htake, hdrop]
  rcases num (c :: cs) with _ | m
  · rfl
  · rfl

/-- An entry of an object. -/
theorem readsField (hk : ReadsString body k) (hw : IsSpaces w) (hv : ReadsValue num depth t r) :
    ReadsField num depth (quote :: (body ++ (w ++ ':' :: t))) (fieldOf k r) := by
  refine ⟨starts_cons rfl (by decide), fun n hn rest hrest => ?_⟩
  simp only [List.length_cons, List.length_append] at hn
  have htext : quote :: (body ++ (w ++ ':' :: t)) ++ rest =
      quote :: (body ++ (w ++ ':' :: (t ++ rest))) := by
    simp only [List.cons_append, List.append_assoc]
  rw [htext, readField, skipSpaces_cons rfl]
  simp only [if_true]
  rw [hk n (by omega)]
  rcases k with _ | k
  · rfl
  simp only [Option.map_some, Option.bind_eq_bind, Option.bind_some, skipSpaces_append hw,
    skipSpaces_cons (show isSpace ':' = false from rfl), if_true]
  rcases (hv.2 n (by omega)).cases hrest with ⟨rfl, hread⟩ | ⟨v, cs, rfl, hread, hcs⟩
  · rw [hread]
    rfl
  · rw [hread, Option.map_some, Option.map_some, Prod.map, hcs]
    rfl

theorem skipSpaces_readValue : readValue num n depth (skipSpaces cs) = readValue num n depth cs := by
  rcases n with _ | n
  · rfl
  · rw [readValue, readValue, skipSpaces_skipSpaces]

theorem skipSpaces_readField {value : Reader Value} :
    readField value n (skipSpaces cs) = readField value n cs := by
  rw [readField, readField, skipSpaces_skipSpaces]

theorem readValue_bracket : readValue num (n + 1) (depth + 1) ('[' :: cs) =
    (readGroup ']' (readValue num n depth) n cs).map fun r => (.array r.1, r.2) := by
  rw [readValue, skipSpaces_cons rfl]
  exact (if_neg (by decide)).trans ((if_pos rfl).trans (if_neg (Nat.succ_ne_zero _)))

theorem readValue_brace : readValue num (n + 1) (depth + 1) ('{' :: cs) =
    (readGroup '}' (readField (readValue num n depth) n) n cs).map fun r => (.object r.1, r.2) := by
  rw [readValue, skipSpaces_cons rfl]
  exact (if_neg (by decide)).trans
    ((if_neg (by decide)).trans ((if_pos rfl).trans (if_neg (Nat.succ_ne_zero _))))

theorem starts_map {γ : Type} {xs : List γ} {txt : γ → List Char} (h : ∀ x ∈ xs, Starts (txt x)) :
    ∀ t ∈ xs.map txt, Starts t := by
  intro t ht
  obtain ⟨x, hx, rfl⟩ := List.mem_map.1 ht
  exact h x hx

variable {ys : List β} {val : β → Option Value} {field : β → Option (String × Value)}

theorem readsValue_array (hne : ys ≠ []) (h : ∀ y ∈ ys, ReadsValue num depth (txt y) (val y)) :
    ReadsValue num (depth + 1) ('[' :: commaJoin (ys.map txt) ++ [']'])
      ((ys.mapM val).map .array) := by
  refine ⟨starts_cons rfl (by decide), fun n hn rest _ => ?_⟩
  obtain ⟨hcount, hitems⟩ := length_commaJoin (starts_map fun y hy => (h y hy).1)
  rw [List.length_map] at hcount
  simp only [List.length_append, List.length_cons] at hn
  rcases n with _ | n
  · omega
  have hread : readGroup ']' (readValue num n depth) n (commaJoin (ys.map txt) ++ ']' :: rest) =
      (ys.mapM val).map (·, rest) := by
    refine readGroup_commaJoin (Or.inl rfl) hne (fun _ => skipSpaces_readValue)
      (fun y hy => (h y hy).1) (fun y hy => (h y hy).2 n ?_) (by omega)
    have := hitems _ (List.mem_map_of_mem hy)
    omega
  rw [List.append_assoc, List.singleton_append, List.cons_append, readValue_bracket, hread]
  rcases ys.mapM val with _ | vs
  · rfl
  · rfl

theorem readsValue_object (hne : ys ≠ []) (h : ∀ y ∈ ys, ReadsField num depth (txt y) (field y)) :
    ReadsValue num (depth + 1) ('{' :: commaJoin (ys.map txt) ++ ['}'])
      ((ys.mapM field).map .object) := by
  refine ⟨starts_cons rfl (by decide), fun n hn rest _ => ?_⟩
  obtain ⟨hcount, hitems⟩ := length_commaJoin (starts_map fun y hy => (h y hy).1)
  rw [List.length_map] at hcount
  simp only [List.length_append, List.length_cons] at hn
  rcases n with _ | n
  · omega
  have hread : readGroup '}' (readField (readValue num n depth) n) n
      (commaJoin (ys.map txt) ++ '}' :: rest) = (ys.mapM field).map (·, rest) := by
    refine readGroup_commaJoin (Or.inr rfl) hne (fun _ => skipSpaces_readField)
      (fun y hy => (h y hy).1) (fun y hy => (h y hy).2 n ?_) (by omega)
    have := hitems _ (List.mem_map_of_mem hy)
    omega
  rw [List.append_assoc, List.singleton_append, List.cons_append, readValue_brace, hread]
  rcases ys.mapM field with _ | vs
  · rfl
  · rfl

theorem readsValue_array_nil (hw : IsSpaces w) :
    ReadsValue num (depth + 1) ('[' :: (w ++ [']'])) (some (.array [])) := by
  refine ⟨starts_cons rfl (by decide), fun n hn rest _ => ?_⟩
  rcases n with _ | n
  · exact absurd hn (Nat.not_succ_le_zero _)
  rw [List.cons_append, List.append_assoc, List.singleton_append, readValue_bracket,
    readGroup_nil (Or.inl rfl) hw]
  rfl

theorem readsValue_object_nil (hw : IsSpaces w) :
    ReadsValue num (depth + 1) ('{' :: (w ++ ['}'])) (some (.object [])) := by
  refine ⟨starts_cons rfl (by decide), fun n hn rest _ => ?_⟩
  rcases n with _ | n
  · exact absurd hn (Nat.not_succ_le_zero _)
  rw [List.cons_append, List.append_assoc, List.singleton_append, readValue_brace,
    readGroup_nil (Or.inr rfl) hw]
  rfl

/-- No array or object is read beyond the limit. -/
theorem readsValue_zero (hc : c = '[' ∨ c = '{') : ReadsValue num 0 (c :: cs) none := by
  have hspec : isSpace c = false ∧ (c ≠ ']' ∧ c ≠ '}') ∧ c ≠ quote := by
    rcases hc with rfl | rfl
    · decide
    · decide
  refine ⟨starts_cons hspec.1 hspec.2.1, fun n hn rest _ => ?_⟩
  rcases n with _ | n
  · exact absurd hn (Nat.not_succ_le_zero _)
  rw [List.cons_append, readValue, skipSpaces_cons hspec.1]
  simp only [if_neg hspec.2.2, if_true]
  rcases hc with rfl | rfl
  · rfl
  · rfl

/-- What a whole text is read as. -/
theorem bind_of_reads {read : Reader α} {r : Option α} (h : Reads read t r) :
    ((read t).bind fun r => if skipSpaces r.2 = [] then some r.1 else none) = r := by
  have hread := h [] fun c hc => nomatch hc
  rw [List.append_nil] at hread
  rcases r with _ | v
  · rw [Option.map_none, Option.map_eq_none_iff] at hread
    rw [hread]
    rfl
  · rw [Option.map_some, Option.map_eq_some_iff] at hread
    obtain ⟨⟨v', cs⟩, hread, he⟩ := hread
    obtain ⟨rfl, hcs⟩ := Prod.mk.inj he
    rw [hread]
    exact if_pos hcs

theorem readText_of_reads {text : List Char} (h : ReadsValue num depth text r) :
    readText num depth text = r :=
  bind_of_reads (h.2 (text.length + 1) (Nat.le_succ _))

end Json

/-! ## Writing and reading -/

namespace Value

open Json

mutual

/-- The numbers of a value, in order. -/
def numbers : Value → List Number
  | .number n => [n]
  | .array xs => numbersList xs
  | .object fs => numbersFields fs
  | _ => []

def numbersList : List Value → List Number
  | [] => []
  | x :: xs => numbers x ++ numbersList xs

def numbersFields : List (String × Value) → List Number
  | [] => []
  | (_, x) :: fs => numbers x ++ numbersFields fs

end

mutual

/-- How many arrays and objects are nested in a value. -/
def depth : Value → ℕ
  | .array xs => depthList xs + 1
  | .object fs => depthFields fs + 1
  | _ => 0

def depthList : List Value → ℕ
  | [] => 0
  | x :: xs => max (depth x) (depthList xs)

def depthFields : List (String × Value) → ℕ
  | [] => 0
  | (_, x) :: fs => max (depth x) (depthFields fs)

end

/-- A number that is read back, where it is written. -/
def ReadsNumber (num : List Char → Option Number) (n : Number) : Prop :=
  (Number.render n ≠ [] ∧ ∀ c ∈ Number.render n, isNumberChar c) ∧ num (Number.render n) = some n

theorem renderList_eq {xs : List Value} : renderList xs = commaJoin (xs.map render) := by
  induction xs with
  | nil => rfl
  | cons x xs ih =>
    rcases xs with _ | ⟨y, ys⟩
    · rw [List.map_singleton, commaJoin_singleton]
      rfl
    · rw [renderList, ih, List.map_cons, List.map_cons, List.map_cons, commaJoin_cons_cons]
      exact List.cons_ne_nil y ys

/-- The text of an entry. -/
def renderField (x : String × Value) : List Char := quote x.1 ++ ':' :: render x.2

theorem renderFields_eq {fs : List (String × Value)} :
    renderFields fs = commaJoin (fs.map renderField) := by
  induction fs with
  | nil => rfl
  | cons x fs ih =>
    obtain ⟨k, v⟩ := x
    rcases fs with _ | ⟨y, ys⟩
    · rw [List.map_singleton, commaJoin_singleton]
      rfl
    · rw [renderFields, ih, List.map_cons, List.map_cons, List.map_cons, commaJoin_cons_cons]
      · rfl
      · exact List.cons_ne_nil y ys

/-- The value, unless it is nested deeper than the limit. -/
def within (limit : ℕ) (v : Value) : Option Value := if v.depth ≤ limit then some v else none

/-- The entry, unless its value is nested deeper than the limit. -/
def fieldWithin (limit : ℕ) (x : String × Value) : Option (String × Value) :=
  if x.2.depth ≤ limit then some x else none

/-- A list is as deep as its deepest item. -/
theorem depthList_le {xs : List Value} {limit : ℕ} :
    depthList xs ≤ limit ↔ ∀ x ∈ xs, x.depth ≤ limit := by
  induction xs with
  | nil => simp [depthList]
  | cons x xs ih => rw [depthList, Nat.max_le, ih, List.forall_mem_cons]

/-- So are fields. -/
theorem depthFields_le {fs : List (String × Value)} {limit : ℕ} :
    depthFields fs ≤ limit ↔ ∀ x ∈ fs, x.2.depth ≤ limit := by
  induction fs with
  | nil => simp [depthFields]
  | cons x fs ih => rw [depthFields, Nat.max_le, ih, List.forall_mem_cons]

theorem mapM_within {xs : List Value} {limit : ℕ} :
    (xs.mapM (within limit)).map array = within (limit + 1) (array xs) := by
  have hmap : xs.mapM (within limit) =
      if ∀ x ∈ xs, x.depth ≤ limit then some (xs.map id) else none := Toml.mapM_ite
  rw [hmap, List.map_id, within, depth]
  simp only [Nat.add_le_add_iff_right, depthList_le]
  split
  · rfl
  · rfl

theorem mapM_fieldWithin {fs : List (String × Value)} {limit : ℕ} :
    (fs.mapM (fieldWithin limit)).map object = within (limit + 1) (object fs) := by
  have hmap : fs.mapM (fieldWithin limit) =
      if ∀ x ∈ fs, x.2.depth ≤ limit then some (fs.map id) else none := Toml.mapM_ite
  rw [hmap, List.map_id, within, depth]
  simp only [Nat.add_le_add_iff_right, depthFields_le]
  split
  · rfl
  · rfl

variable {num : List Char → Option Number}

theorem readsField_render {limit : ℕ} {k : String} {v : Value}
    (h : ReadsValue num limit (render v) (within limit v)) :
    ReadsField num limit (renderField (k, v)) (fieldWithin limit (k, v)) := by
  have hfield := readsField (readsString_escaped k) (fun c hc => absurd hc List.not_mem_nil) h
  have hresult : fieldOf (some k) (within limit v) = fieldWithin limit (k, v) := by
    rw [fieldOf, Option.bind_some, within, fieldWithin]
    split
    · rfl
    · rfl
  rw [List.nil_append, hresult] at hfield
  exact hfield

mutual

/-- A value is read where it is written, if its numbers are, exactly if it is not
    nested deeper than the limit. -/
theorem readsValue_render : ∀ {v : Value} {limit : ℕ}, (∀ n ∈ v.numbers, ReadsNumber num n) →
    ReadsValue num limit (render v) (within limit v)
  | .null, _, _ => readsValue_null
  | .bool b, _, _ => readsValue_bool b
  | .number n, limit, hn => by
    obtain ⟨⟨hne, hchars⟩, hread⟩ := hn n (List.mem_singleton_self n)
    have h : ReadsValue num limit _ _ := readsValue_number hne hchars
    rw [hread] at h
    exact h
  | .string s, _, _ => readsValue_string (readsString_escaped s)
  | .array _, 0, _ => readsValue_zero (.inl rfl)
  | .object _, 0, _ => readsValue_zero (.inr rfl)
  | .array [], _ + 1, _ => readsValue_array_nil (w := []) fun c hc => absurd hc List.not_mem_nil
  | .object [], _ + 1, _ => readsValue_object_nil (w := []) fun c hc => absurd hc List.not_mem_nil
  | .array (x :: xs), limit + 1, hn => by
    have hitems : ∀ y ∈ x :: xs, ReadsValue num limit (render y) (within limit y) :=
      readsList_render hn
    have h := readsValue_array (List.cons_ne_nil x xs) hitems
    rw [mapM_within, ← renderList_eq] at h
    exact h
  | .object (x :: fs), limit + 1, hn => by
    have hitems : ∀ y ∈ x :: fs, ReadsField num limit (renderField y) (fieldWithin limit y) :=
      readsFields_render hn
    have h := readsValue_object (List.cons_ne_nil x fs) hitems
    rw [mapM_fieldWithin, ← renderFields_eq] at h
    exact h

theorem readsList_render : ∀ {xs : List Value} {limit : ℕ},
    (∀ n ∈ numbersList xs, ReadsNumber num n) →
      ∀ x ∈ xs, ReadsValue num limit (render x) (within limit x)
  | [], _, _ => fun _ hx => absurd hx List.not_mem_nil
  | x :: xs, limit, hn => by
    obtain ⟨hx, hxs⟩ := List.forall_mem_append.1 hn
    exact List.forall_mem_cons.2 ⟨readsValue_render hx, readsList_render hxs⟩

theorem readsFields_render : ∀ {fs : List (String × Value)} {limit : ℕ},
    (∀ n ∈ numbersFields fs, ReadsNumber num n) →
      ∀ x ∈ fs, ReadsField num limit (renderField x) (fieldWithin limit x)
  | [], _, _ => fun _ hx => absurd hx List.not_mem_nil
  | (k, v) :: fs, limit, hn => by
    obtain ⟨hv, hfs⟩ := List.forall_mem_append.1 hn
    exact List.forall_mem_cons.2 ⟨readsField_render (readsValue_render hv), readsFields_render hfs⟩

end

/-- The text of a value is read back, unless it is too deep. -/
theorem readText_render {v : Value} {limit : ℕ} (hn : ∀ n ∈ v.numbers, ReadsNumber num n) :
    readText num limit (render v) = within limit v :=
  readText_of_reads (readsValue_render hn)

end Value

/-- A number of `serde_json`: an integer in range, or the text of a double, which
    is read as the double. -/
def Number.Valid (nearest : String → Option String) : Number → Prop
  | .int i => Json.inRange i
  | .float text => Toml.isFloat text.toList ∧ nearest text = some text

namespace Json

variable {t cs : List Char} {c : Char}

theorem isNumberChar_of_isDigit (h : c.isDigit) : isNumberChar c := decide_eq_true (Or.inl h)

theorem isNumberChar_of_isExponent (h : Toml.isExponent t) : ∀ c ∈ t, isNumberChar c := by
  rw [Toml.isExponent.eq_def] at h
  split at h
  · next e s ds =>
    rw [decide_eq_true_iff] at h
    obtain ⟨he, hs⟩ := h
    have hdigits : ∀ l : List Char, l.all Char.isDigit → ∀ c ∈ l, isNumberChar c :=
      fun l hl c hc => isNumberChar_of_isDigit (List.all_eq_true.1 hl c hc)
    have hmark : isNumberChar e := by
      rcases he with rfl | rfl
      · rfl
      · rfl
    refine List.forall_mem_cons.2 ⟨hmark, ?_⟩
    split at hs
    · next hsign =>
      refine List.forall_mem_cons.2 ⟨?_, hdigits ds hs.2⟩
      rcases hsign with rfl | rfl
      · rfl
      · rfl
    · exact hdigits (s :: ds) hs
  · exact absurd h Bool.false_ne_true

/-- A text is of number characters, if what is left of it after its digits is. -/
theorem isNumberChar_of_dropWhile (h : ∀ c ∈ t.dropWhile Char.isDigit, isNumberChar c) :
    ∀ c ∈ t, isNumberChar c := by
  intro c hc
  rw [← List.takeWhile_append_dropWhile (p := Char.isDigit) (l := t)] at hc
  rcases List.mem_append.1 hc with hc | hc
  · exact isNumberChar_of_isDigit (List.all_eq_true.1 List.all_takeWhile c hc)
  · exact h c hc

theorem isNumberChar_of_isFraction (h : Toml.isFraction t) : ∀ c ∈ t, isNumberChar c := by
  rw [Toml.isFraction.eq_def] at h
  split at h
  · next cs =>
    rw [decide_eq_true_iff] at h
    refine List.forall_mem_cons.2 ⟨rfl, isNumberChar_of_dropWhile ?_⟩
    rcases h.2 with hrest | hrest
    · rw [hrest]
      exact fun c hc => absurd hc List.not_mem_nil
    · exact isNumberChar_of_isExponent hrest
  · exact absurd h Bool.false_ne_true

/-- The text of a float has no other characters. -/
theorem isNumberChar_of_isFloat (h : Toml.isFloat t) : ∀ c ∈ t, isNumberChar c := by
  rw [Toml.isFloat, decide_eq_true_iff] at h
  obtain ⟨-, -, -, h⟩ := h
  have hunsigned : ∀ c ∈ if t.head? = some '-' then t.tail else t, isNumberChar c := by
    refine isNumberChar_of_dropWhile ?_
    rcases h with h | h
    · exact isNumberChar_of_isFraction h
    · exact isNumberChar_of_isExponent h
  split at hunsigned
  · next hsign =>
    obtain ⟨cs, rfl⟩ := List.head?_eq_some_iff.1 hsign
    exact List.forall_mem_cons.2 ⟨rfl, hunsigned⟩
  · exact hunsigned

/-- A float is no integer. -/
theorem readInt_of_isFloat (h : Toml.isFloat t) : Toml.readInt t = none := by
  rcases hi : Toml.readInt t with _ | i
  · rfl
  · rw [Toml.readInt] at hi
    obtain ⟨ht, -⟩ := Option.ite_none_right_eq_some.1 hi
    rw [← ht] at h
    rcases Toml.toList_toString_int _ with ⟨n, -, hn⟩ | ⟨n, -, hn⟩
    · rw [hn, (Toml.isFloat_digits fun c hc => Toml.isDigit_toDigits hc).1] at h
      exact absurd h Bool.false_ne_true
    · rw [hn, (Toml.isFloat_digits fun c hc => Toml.isDigit_toDigits hc).2] at h
      exact absurd h Bool.false_ne_true

/-! ## What is read -/

variable {α : Type} {num : List Char → Option Number} {close : Char} {n depth : ℕ}

theorem forall_mem_consResult {P : α → Prop} {x : α} {r : Option (List α × List Char)}
    {s : List α × List Char} (h : consResult x r = some s) (hx : P x)
    (hr : ∀ t ∈ r, ∀ y ∈ t.1, P y) : ∀ y ∈ s.1, P y := by
  obtain ⟨t, ht, rfl⟩ := Option.map_eq_some_iff.1 h
  exact List.forall_mem_cons.2 ⟨hx, hr t ht⟩

/-- What holds of every item that is read holds of the list. -/
theorem forall_mem_readItems {P : α → Prop} {item : Reader α}
    (h : ∀ cs r, item cs = some r → P r.1) {r : List α × List Char}
    (hr : readItems close item n cs = some r) : ∀ x ∈ r.1, P x := by
  induction n generalizing cs r with
  | zero => exact absurd hr (by simp [readItems])
  | succ n ih =>
    obtain ⟨⟨x, cs₁⟩, hitem, hrest⟩ := Option.bind_eq_some_iff.1 hr
    have hx : P x := h _ _ hitem
    simp only at hrest
    split at hrest
    · split_ifs at hrest
      · exact forall_mem_consResult hrest hx fun t ht => ih ht
      · obtain rfl := Option.some.inj hrest
        simpa using hx
    · exact absurd hrest (by simp)

theorem forall_mem_readGroup {P : α → Prop} {item : Reader α}
    (h : ∀ cs r, item cs = some r → P r.1) {r : List α × List Char}
    (hr : readGroup close item n cs = some r) : ∀ x ∈ r.1, P x := by
  rw [readGroup] at hr
  split at hr
  · split_ifs at hr
    · obtain rfl := Option.some.inj hr
      exact fun x hx => absurd hx List.not_mem_nil
    · exact forall_mem_readItems h hr
  · exact absurd hr (by simp)

theorem readField_eq_some {value : Reader Value} {r : (String × Value) × List Char}
    (h : readField value n cs = some r) : ∃ cs r', value cs = some r' ∧ r.1.2 = r'.1 := by
  rw [readField] at h
  split at h
  · split_ifs at h
    obtain ⟨⟨k, cs₁⟩, -, hrest⟩ := Option.bind_eq_some_iff.1 h
    simp only at hrest
    split at hrest
    · split_ifs at hrest
      obtain ⟨r', hr', rfl⟩ := Option.map_eq_some_iff.1 hrest
      exact ⟨_, r', hr', rfl⟩
    · exact absurd hrest (by simp)
  · exact absurd h (by simp)

theorem readScalar_depth {r : Value × List Char} (h : readScalar num cs = some r) :
    r.1.depth = 0 := by
  unfold readScalar at h
  split at h
  · obtain rfl := Option.some.inj h
    rfl
  · obtain rfl := Option.some.inj h
    rfl
  · obtain rfl := Option.some.inj h
    rfl
  · obtain ⟨m, -, rfl⟩ := Option.map_eq_some_iff.1 h
    rfl

/-- A value is not nested deeper than the reader goes. -/
theorem readValue_depth {r : Value × List Char} (h : readValue num n depth cs = some r) :
    r.1.depth ≤ depth := by
  induction n generalizing depth cs r with
  | zero => exact absurd h (by simp [readValue])
  | succ n ih =>
    rw [readValue] at h
    split at h
    · exact absurd h (by simp)
    · split_ifs at h with hquote hbracket hzero hbrace hzero
      · obtain ⟨s, -, rfl⟩ := Option.map_eq_some_iff.1 h
        exact Nat.zero_le _
      · obtain ⟨s, hs, rfl⟩ := Option.map_eq_some_iff.1 h
        have hitems := forall_mem_readGroup (P := fun v => v.depth ≤ depth - 1)
          (fun _ _ hr => ih hr) hs
        have hle := Value.depthList_le.2 hitems
        rw [Value.depth]
        omega
      · obtain ⟨s, hs, rfl⟩ := Option.map_eq_some_iff.1 h
        have hitems := forall_mem_readGroup (P := fun f => f.2.depth ≤ depth - 1)
          (fun _ _ hr => by
            obtain ⟨_, r', hr', heq⟩ := readField_eq_some hr
            rw [heq]
            exact ih hr') hs
        have hle := Value.depthFields_le.2 hitems
        rw [Value.depth]
        omega
      · rw [readScalar_depth h]
        exact Nat.zero_le _

/-- No value that is read is deeper than the limit. -/
theorem readText_depth {text : List Char} {v : Value} (h : readText num depth text = some v) :
    v.depth ≤ depth := by
  obtain ⟨r, hr, hv⟩ := Option.bind_eq_some_iff.1 h
  split_ifs at hv
  obtain rfl := Option.some.inj hv
  exact readValue_depth hr

end Json

theorem Number.Valid.readsNumber {nearest : String → Option String} {n : Number}
    (h : n.Valid nearest) : Value.ReadsNumber (Json.numberOf nearest) n := by
  rcases n with i | text
  · refine ⟨⟨fun hnil => ?_, fun c hc => ?_⟩, ?_⟩
    · have hread := Toml.readInt_toString i
      rw [show (toString i).toList = [] from hnil] at hread
      exact Option.some_ne_none i (hread.symm.trans (by decide))
    · change c ∈ (toString i).toList at hc
      rcases Toml.toList_toString_int i with ⟨n, -, hn⟩ | ⟨n, -, hn⟩
      · exact Json.isNumberChar_of_isDigit (Toml.isDigit_toDigits (hn ▸ hc))
      · rcases List.mem_cons.1 (hn ▸ hc) with rfl | hc
        · rfl
        · exact Json.isNumberChar_of_isDigit (Toml.isDigit_toDigits hc)
    · rw [Value.Number.render, Json.numberOf, Toml.readInt_toString]
      exact if_pos h
  · obtain ⟨hfloat, hnearest⟩ := h
    refine ⟨⟨fun hnil => ?_, Json.isNumberChar_of_isFloat hfloat⟩, ?_⟩
    · rw [show text.toList = [] from hnil] at hfloat
      exact absurd hfloat (by decide)
    · rw [Value.Number.render, Json.numberOf, Json.readInt_of_isFloat hfloat]
      simp only [hfloat, or_true, if_true, String.ofList_toList, hnearest, Option.map_some]

end N3ur0n
