import N3ur0n.Canonical
import N3ur0n.JsonText
import N3ur0n.Manifests.Backends
import N3ur0n.Manifests.CapFile
import N3ur0n.Manifests.CapToml

/-!
# The texts of a capability file

What the strings, the keys and the values of a request are read as, once they
are written in the file of a capability. Control characters other than tabs and
line ends are written as they are, and make the file invalid (`PlainText`). A
text with a line feed is read with one more at its end (`lined`), and `null` is
read as the empty string.

What is known of this is about legible texts: keys with a backslash or without a
character, texts of several lines with a backslash or a carriage return, and
integers that take more than 64 bits are left aside.
-/

namespace N3ur0n

namespace Value

/-! ## The parts of a value -/

mutual

/-- Every key in the value has `key`, and every part of it that is neither an array nor
    an object has `leaf`. -/
def Each (key : String → Prop) (leaf : Value → Prop) : Value → Prop
  | .array xs => EachList key leaf xs
  | .object fs => EachField key leaf fs
  | v => leaf v

def EachList (key : String → Prop) (leaf : Value → Prop) : List Value → Prop
  | [] => True
  | x :: xs => Each key leaf x ∧ EachList key leaf xs

def EachField (key : String → Prop) (leaf : Value → Prop) : List (String × Value) → Prop
  | [] => True
  | (k, x) :: fs => (key k ∧ Each key leaf x) ∧ EachField key leaf fs

end

variable {key : String → Prop} {leaf : Value → Prop} {xs : List Value}
  {fs : List (String × Value)}

/-- All of an array is as said if each item is. -/
theorem each_array : (array xs).Each key leaf ↔ ∀ x ∈ xs, x.Each key leaf := by
  rw [Each]
  induction xs with
  | nil => exact iff_of_true trivial (List.forall_mem_nil _)
  | cons x xs ih => rw [EachList, ih, List.forall_mem_cons]

/-- All of an object is as said if each key and each value is. -/
theorem each_object :
    (object fs).Each key leaf ↔ ∀ x ∈ fs, key x.1 ∧ x.2.Each key leaf := by
  rw [Each]
  induction fs with
  | nil => exact iff_of_true trivial (List.forall_mem_nil _)
  | cons x fs ih => rw [EachField, ih, List.forall_mem_cons]

mutual

/-- It is decided part by part. -/
def decEach (key : String → Prop) (leaf : Value → Prop) [DecidablePred key]
    [DecidablePred leaf] : (v : Value) → Decidable (v.Each key leaf)
  | .array xs => decEachList key leaf xs
  | .object fs => decEachField key leaf fs
  | .null => inferInstanceAs (Decidable (leaf .null))
  | .bool b => inferInstanceAs (Decidable (leaf (.bool b)))
  | .number n => inferInstanceAs (Decidable (leaf (.number n)))
  | .string s => inferInstanceAs (Decidable (leaf (.string s)))

def decEachList (key : String → Prop) (leaf : Value → Prop) [DecidablePred key]
    [DecidablePred leaf] : (xs : List Value) → Decidable (EachList key leaf xs)
  | [] => isTrue trivial
  | x :: xs => @instDecidableAnd _ _ (decEach key leaf x) (decEachList key leaf xs)

def decEachField (key : String → Prop) (leaf : Value → Prop) [DecidablePred key]
    [DecidablePred leaf] : (fs : List (String × Value)) → Decidable (EachField key leaf fs)
  | [] => isTrue trivial
  | (_, x) :: fs => @instDecidableAnd _ _ (@instDecidableAnd _ _ inferInstance (decEach key leaf x))
      (decEachField key leaf fs)

end

instance [DecidablePred key] [DecidablePred leaf] (v : Value) : Decidable (v.Each key leaf) :=
  decEach key leaf v

end Value

namespace CapToml

open Toml

/-! ## Strings -/

/-- A string without control characters, tabs and line ends apart. -/
def PlainText (s : String) : Prop := ∀ c ∈ s.toList, Toml.isControl c → c = '\n' ∨ c = '\r'

instance (s : String) : Decidable (PlainText s) :=
  inferInstanceAs (Decidable (∀ c ∈ s.toList, _))

/-- Every character that a string may not have as it is, control characters apart, is
    escaped. -/
theorem escaped_escape (c : Char) : Escaped c (escape c) := by
  have hchar {d : Char} (h : c.toNat = d.toNat) : c = d := Char.toNat_inj.1 h
  rw [escape]
  split
  · next h => exact .inr ⟨'\\', rfl, congrArg some (hchar (d := '\\') h).symm⟩
  · next h =>
    obtain rfl := hchar (d := Toml.quote) h
    exact .inr ⟨_, rfl, rfl⟩
  · next h => exact .inr ⟨'n', rfl, congrArg some (hchar (d := '\n') h).symm⟩
  · next h => exact .inr ⟨'r', rfl, congrArg some (hchar (d := '\r') h).symm⟩
  · next h => exact .inr ⟨'t', rfl, congrArg some (hchar (d := '\t') h).symm⟩
  · next hb hq _ _ _ =>
    refine .inl ⟨rfl, ?_, ?_⟩
    · rintro rfl
      exact hq rfl
    · rintro rfl
      exact hb rfl

/-- Line ends are escaped, the other control characters are not. -/
theorem exposed_escape {c : Char} :
    Exposed escape c ↔ ¬(Toml.isControl c → c = '\n' ∨ c = '\r') := by
  rw [Exposed, Classical.not_imp]
  refine and_congr_right fun hc => ⟨?_, fun hne => ?_⟩
  · rintro h (rfl | rfl)
    · exact absurd h (by decide)
    · exact absurd h (by decide)
  · rw [not_or] at hne
    rw [Toml.isControl, decide_eq_true_iff] at hc
    have hcode (d : Char) (hd : c ≠ d) : c.toNat ≠ d.toNat := fun h => hd (Char.toNat_inj.1 h)
    have hn := hcode '\n' hne.1
    have hr := hcode '\r' hne.2
    rw [escape]
    split
    · omega
    · omega
    · next h => exact absurd h hn
    · next h => exact absurd h hr
    · next h =>
      have ht : c = '\t' := Char.toNat_inj.1 h
      rcases hc with ⟨-, hc⟩ | hc
      · exact absurd ht hc
      · omega
    · rfl

/-- A string on one line is read as it is, if it is plain. -/
theorem readsValue_str (s : String) :
    ReadsValue (str s) (if PlainText s then some (.string s) else none) := by
  have h := readsValue_quoted fun c (_ : c ∈ s.toList) => escaped_escape c
  have hplain : (∃ c ∈ s.toList, Exposed escape c) ↔ ¬PlainText s := by
    simp only [exposed_escape, PlainText, not_forall, exists_prop]
  rw [unlessExposed] at h
  simp only [hplain] at h
  split_ifs at h ⊢ with hs
  · exact h
  · exact h

/-! ### Strings on several lines -/

/-- Three quotes, one after the other. -/
def Triple (s : List Char) : Prop := [quoteChar, quoteChar, quoteChar] <+: s

/-- Three quotes are escaped together. -/
theorem escapeTriples_triple {s : List Char} :
    escapeTriples (quoteChar :: quoteChar :: quoteChar :: s) =
      '\\' :: quoteChar :: '\\' :: quoteChar :: '\\' :: quoteChar :: escapeTriples s := by
  rw [escapeTriples]
  exact if_pos ⟨rfl, rfl, rfl⟩

/-- Other characters, and quotes of which there are fewer, are left as they are. -/
theorem escapeTriples_cons {c : Char} {s : List Char} (h : ¬Triple (c :: s)) :
    escapeTriples (c :: s) = c :: escapeTriples s := by
  rcases s with _ | ⟨d, _ | ⟨e, s⟩⟩
  · rfl
  · rfl
  · rw [escapeTriples]
    refine if_neg ?_
    rintro ⟨rfl, rfl, rfl⟩
    exact h ⟨s, rfl⟩

/-- A text that starts with quotes once it is written starts with them. -/
theorem quotes_escapeTriples {n : ℕ} {s t : List Char}
    (h : List.replicate n quoteChar <+: escapeTriples s ++ '\n' :: t) :
    List.replicate n quoteChar <+: s := by
  induction n generalizing s with
  | zero => exact List.nil_prefix
  | succ n ih =>
    rw [List.replicate_succ] at h ⊢
    rcases s with _ | ⟨c, s⟩
    · exact absurd (List.cons_prefix_cons.1 h).1 (by decide)
    by_cases htriple : Triple (c :: s)
    · obtain ⟨s', hs⟩ := htriple
      rw [← hs] at h
      change quoteChar :: _ <+: escapeTriples (quoteChar :: quoteChar :: quoteChar :: s') ++ _ at h
      rw [escapeTriples_triple] at h
      exact absurd (List.cons_prefix_cons.1 h).1 (by decide)
    · rw [escapeTriples_cons htriple, List.cons_append] at h
      obtain ⟨rfl, hs⟩ := List.cons_prefix_cons.1 h
      exact List.cons_prefix_cons.2 ⟨rfl, ih hs⟩

/-- A text without backslashes and carriage returns is read as it is, with the line
    feed in front of the closing quotes. -/
theorem readMultiline_escapeTriples {s rest : List Char} (h : ∀ c ∈ s, c ≠ '\\' ∧ c ≠ '\r')
    (hrest : rest.head? ≠ some quote) :
    readMultiline (escapeTriples s ++ '\n' :: quote :: quote :: quote :: rest) =
      outcome (if ∀ c ∈ s, Toml.isControl c → c = '\n' then some (s ++ ['\n']) else none) rest := by
  have hfeed : readMultiline ('\n' :: quote :: quote :: quote :: rest) =
      .ok (['\n'], rest) := by
    rw [readMultiline_plain (by decide) (by decide) (by decide), readMultiline_close hrest]
    rfl
  have hcons : ∀ {c : Char} {s : List Char}, (Toml.isControl c → c = '\n') →
      consResult c (outcome (if ∀ c ∈ s, Toml.isControl c → c = '\n' then some (s ++ ['\n'])
        else none) rest) =
        outcome (if ∀ d ∈ c :: s, Toml.isControl d → d = '\n' then some (c :: s ++ ['\n'])
          else none) rest := by
    intro c s hc
    by_cases hs : ∀ d ∈ s, Toml.isControl d → d = '\n'
    · rw [if_pos hs, if_pos (List.forall_mem_cons.2 ⟨hc, hs⟩)]
      rfl
    · rw [if_neg hs, if_neg fun h => hs (List.forall_mem_cons.1 h).2]
      rfl
  have hquote : Toml.isControl quote → quote = '\n' := fun h => absurd h (by decide)
  -- by the length: three quotes are escaped at a time
  induction hn : s.length using Nat.strong_induction_on generalizing s with
  | h n ih =>
    rcases s with _ | ⟨c, s⟩
    · rw [if_pos (List.forall_mem_nil _)]
      exact hfeed
    subst hn
    by_cases htriple : Triple (c :: s)
    · obtain ⟨s', hs⟩ := htriple
      change quote :: quote :: quote :: s' = c :: s at hs
      rw [← hs] at h ⊢
      have hread := ih s'.length (by rw [← hs]; simp only [List.length_cons]; omega)
        (fun c hc => h c (by simp [hc])) rfl
      change readMultiline (escapeTriples (quoteChar :: quoteChar :: quoteChar :: s') ++ _) = _
      rw [escapeTriples_triple]
      simp only [List.cons_append, readMultiline_backslash]
      change consResult quote (consResult quote (consResult quote (readMultiline _))) = _
      rw [hread, hcons hquote, hcons hquote, hcons hquote]
      rfl
    · obtain ⟨hc, hs⟩ := List.forall_mem_cons.1 h
      have hread := ih s.length (Nat.lt_succ_self _) hs rfl
      rw [escapeTriples_cons htriple, List.cons_append]
      by_cases hcq : c = quote
      · subst hcq
        have hlength : 2 ≤ (escapeTriples s ++ '\n' :: quote :: quote :: quote :: rest).length := by
          simp only [List.length_append, List.length_cons]
          omega
        -- of the quotes that follow there is at most one, for these are no three
        have hnext : ¬[quote, quote] <+:
            escapeTriples s ++ '\n' :: quote :: quote :: quote :: rest := fun hquotes =>
          htriple (List.cons_prefix_cons.2 ⟨rfl, quotes_escapeTriples (n := 2) hquotes⟩)
        rw [readMultiline_quote hlength hnext, hread, hcons hquote]
      · rw [readMultiline_plain hcq hc.1 hc.2]
        by_cases hcontrol : Toml.isControl c ∧ c ≠ '\n'
        · have hnot : ¬∀ d ∈ c :: s, Toml.isControl d → d = '\n' :=
            fun h => hcontrol.2 (h c List.mem_cons_self hcontrol.1)
          rw [if_pos hcontrol, if_neg hnot, outcome_none]
        · rw [if_neg hcontrol, hread, hcons]
          exact fun h => not_not.1 fun hne => hcontrol ⟨h, hne⟩

/-- A text of several lines has neither backslashes nor carriage returns. -/
def LegibleText (s : String) : Prop :=
  '\n' ∈ s.toList → ∀ c ∈ s.toList, c ≠ '\\' ∧ c ≠ '\r'

instance (s : String) : Decidable (LegibleText s) := inferInstanceAs (Decidable (_ → _))

/-- What a text is read as. -/
def lined (s : String) : String := if '\n' ∈ s.toList then s ++ "\n" else s

/-- A text is read as it is if it has one line. -/
theorem lined_eq_self {s : String} : lined s = s ↔ '\n' ∉ s.toList := by
  rw [lined]
  split_ifs with h
  · refine iff_of_false (fun heq => ?_) (not_not.2 h)
    have hlength := congrArg String.length heq
    rw [String.length_append] at hlength
    exact absurd hlength (Nat.succ_ne_self _)
  · exact iff_of_true rfl h

/-- A text is read with one more line feed if it has one. -/
theorem readsValue_multiline {s : String} (h : LegibleText s) :
    ReadsValue (multiline s) (if PlainText s then some (.string (lined s)) else none) := by
  rw [multiline, lined]
  by_cases hs : '\n' ∈ s.toList
  · have hread := readsValue_triple (t := escapeTriples s.toList ++ ['\n'])
      fun rest hrest => (congrArg readMultiline (List.append_assoc _ _ _)).trans
        (readMultiline_escapeTriples (h hs) hrest)
    -- there is no carriage return in it
    have hplain : (∀ c ∈ s.toList, Toml.isControl c → c = '\n') ↔ PlainText s :=
      forall₂_congr fun c hc => imp_congr_right fun _ => (or_iff_left (h hs c hc).2).symm
    have htext : String.ofList (s.toList ++ ['\n']) = s ++ "\n" :=
      String.toList_inj.1 (by rw [String.toList_ofList, String.toList_append]; rfl)
    rw [if_pos (by simpa using hs), if_pos hs, ← htext]
    simp only [hplain] at hread
    have hquotes : List.replicate 3 quoteChar ++ '\n' :: escapeTriples s.toList ++
        '\n' :: List.replicate 3 quoteChar = quote :: quote :: quote :: '\n' ::
          (escapeTriples s.toList ++ ['\n'] ++ [quote, quote, quote]) := by
      rw [List.append_assoc (escapeTriples _)]
      rfl
    rw [hquotes]
    split_ifs at hread ⊢
    · exact hread
    · exact hread
  · rw [if_neg (by simpa using hs), if_neg hs]
    exact readsValue_str s

/-! ## Keys -/

/-- A key that is read as it is, if it is read. -/
def LegibleKey (k : String) : Prop := k ≠ "" ∧ '\\' ∉ k.toList

instance (k : String) : Decidable (LegibleKey k) := inferInstanceAs (Decidable (_ ∧ _))

/-- A legible key is read as it is, if it is plain. -/
theorem readsKey_key {k : String} (h : LegibleKey k) :
    ReadsKey (key k) (if BackendBody.Plain k then some k else none) := by
  rw [key]
  split
  · next hchars =>
    have hbare : ∀ c ∈ k.toList, isBareKeyChar c := fun c hc => by
      have := List.all_eq_true.1 hchars c hc
      simp only [Bool.or_eq_true, decide_eq_true_eq] at this
      exact decide_eq_true (this.imp_right Or.inl)
    have hplain : BackendBody.Plain k := fun c hc =>
      isControl_of_isTokenChar (isTokenChar_of_isBareKeyChar (hbare c hc))
    rw [if_pos hplain]
    exact readsKey_bare hbare h.1
  · have hread := readsKey_quoted fun c (hc : c ∈ k.toList) =>
      BackendBody.escaped_quoteEscape fun heq => h.2 (heq ▸ hc)
    rw [BackendBody.unlessExposed_plain fun c => BackendBody.quoteEscape_control] at hread
    exact hread

/-- A key with a value, as in an inline table. -/
def pair (x : String × Value) : List Char := key x.1 ++ " = ".toList ++ value x.2

theorem values_eq_map {xs : List Value} : values xs = xs.map value := by
  induction xs with
  | nil => rfl
  | cons x xs ih => rw [values, ih, List.map_cons]

theorem pairs_eq_map {fields : List (String × Value)} : pairs fields = fields.map pair := by
  induction fields with
  | nil => rfl
  | cons x fields ih =>
    rw [List.map_cons, ← ih]
    rfl

/-- An entry of an object is read from its key and the text of its value. -/
theorem readsEntry_pair {k : String} {v : List Char} {p : Prop} [Decidable p] {t : Toml}
    (hk : LegibleKey k) (hv : ReadsValue v (if p then some t else none)) :
    ReadsEntry (key k ++ " = ".toList ++ v)
      (if BackendBody.Plain k ∧ p then some (k, t) else none) := by
  have hspace : ∀ c ∈ [' '], isSpace c := by decide
  have h := readsEntry (readsKey_key hk) hspace hspace hv
  rw [entryOf_ite] at h
  rw [List.append_assoc]
  exact h

end CapToml

/-! ## Values -/

namespace Value

mutual

/-- What a value is read as. -/
def toToml : Value → Toml
  | .null => .string ""
  | .bool b => .boolean b
  | .number (.int i) => .integer i
  | .number (.float text) => .float text
  | .string s => .string s
  | .array xs => .array (toTomlList xs)
  | .object fs => .table (toTomlFields fs)

def toTomlList : List Value → List Toml
  | [] => []
  | x :: xs => toToml x :: toTomlList xs

def toTomlFields : List (String × Value) → List (String × Toml)
  | [] => []
  | (k, x) :: fs => (k, toToml x) :: toTomlFields fs

end

theorem toTomlList_eq_map {xs : List Value} : toTomlList xs = xs.map toToml := by
  induction xs with
  | nil => rfl
  | cons x xs ih => rw [toTomlList, ih, List.map_cons]

theorem toTomlFields_eq_map {fs : List (String × Value)} :
    toTomlFields fs = fs.map fun x => (x.1, x.2.toToml) := by
  induction fs with
  | nil => rfl
  | cons x fs ih =>
    rw [List.map_cons, ← ih]
    rfl

/-- An object keeps its keys. -/
theorem keys_toTomlFields {fs : List (String × Value)} :
    (toTomlFields fs).map Prod.fst = fs.map Prod.fst := by
  rw [toTomlFields_eq_map, List.map_map]
  rfl

/-- Integers are those of 64 bits, with a sign. -/
def Fits : Value → Prop
  | .number (.int i) => Toml.inRange i
  | _ => True

instance : DecidablePred Fits
  | .number (.int _) => inferInstanceAs (Decidable (_ = _))
  | .null | .bool _ | .number (.float _) | .string _ | .array _ | .object _ => isTrue trivial

/-- Strings are plain. -/
def PlainLeaf : Value → Prop
  | .string s => CapToml.PlainText s
  | _ => True

instance : DecidablePred PlainLeaf
  | .string s => inferInstanceAs (Decidable (CapToml.PlainText s))
  | .null | .bool _ | .number _ | .array _ | .object _ => isTrue trivial

/-- Its keys and its integers are read as they are, if it is read. -/
def Legible (v : Value) : Prop := v.Each CapToml.LegibleKey Fits

/-- Its keys and its strings are plain. -/
def Clean (v : Value) : Prop := v.Each BackendBody.Plain PlainLeaf

/-- There is no `null` in it. -/
def Filled (v : Value) : Prop := v.Each (fun _ => True) (· ≠ .null)

instance (v : Value) : Decidable v.Legible := inferInstanceAs (Decidable (v.Each _ _))

instance (v : Value) : Decidable v.Clean := inferInstanceAs (Decidable (v.Each _ _))

instance (v : Value) : Decidable v.Filled := inferInstanceAs (Decidable (v.Each _ _))

end Value

/-- A value of `serde_json`: the keys of its objects are in order, and its floats
    are given by their shortest texts. -/
def TomlParser.IsJson (P : TomlParser) (v : Value) : Prop :=
  v.Ordered id ∧ ∀ n ∈ v.numbers, n.Valid fun text => some (P.shortest text)

namespace Value

variable {P : TomlParser}

/-- An array is clean if its items are. -/
theorem clean_array {xs : List Value} : (array xs).Clean ↔ ∀ x ∈ xs, x.Clean := each_array

/-- An object is clean if its entries are. -/
theorem clean_object {fs : List (String × Value)} :
    (object fs).Clean ↔ ∀ x ∈ fs, BackendBody.Plain x.1 ∧ x.2.Clean := each_object

/-! ### The text of a value -/

/-- An object whose keys are distinct is read if its entries are. -/
theorem readsValue_fields {fs : List (String × Value)} (hn : (fs.map Prod.fst).Nodup)
    (h : ∀ x ∈ fs, Toml.ReadsEntry (CapToml.pair x)
      (if BackendBody.Plain x.1 ∧ x.2.Clean then some (x.1, x.2.toToml) else none)) :
    Toml.ReadsValue ('{' :: ' ' :: CapToml.commaJoin (CapToml.pairs fs) ++ [' ', '}'])
      (if (object fs).Clean then some (.table (toTomlFields fs)) else none) := by
  have hread := Toml.readsValue_table h
  rw [Toml.mapM_ite, ← toTomlFields_eq_map, ← CapToml.pairs_eq_map] at hread
  by_cases hclean : ∀ x ∈ fs, BackendBody.Plain x.1 ∧ x.2.Clean
  · have htable : Toml.tableOf (toTomlFields fs) = some (.table (toTomlFields fs)) := by
      rw [Toml.tableOf, keys_toTomlFields]
      exact if_pos hn
    rw [if_pos hclean, Option.bind_some, htable] at hread
    rw [if_pos (clean_object.2 hclean)]
    exact hread
  · rw [if_neg hclean] at hread
    rw [if_neg (mt clean_object.1 hclean)]
    exact hread

mutual

/-- A legible value is read, if it is clean, and its text is invalid otherwise. -/
theorem readsValue_value : ∀ {v : Value}, P.IsJson v → v.Legible →
    Toml.ReadsValue (CapToml.value v) (if v.Clean then some v.toToml else none)
  | .null, _, _ => CapToml.readsValue_str ""
  | .bool b, _, _ => Toml.readsValue_boolean b
  | .number (.int _), _, hi => Toml.readsValue_integer hi
  | .number (.float _), h, _ => Toml.readsValue_float (h.2 _ List.mem_cons_self).1
  | .string s, _, _ => CapToml.readsValue_str s
  | .array xs, ⟨ho, hn⟩, hl => by
    have h := Toml.readsValue_array (readsValue_values ho hn hl)
    rw [Toml.mapM_ite, ← toTomlList_eq_map, ← CapToml.values_eq_map] at h
    by_cases hclean : ∀ x ∈ xs, x.Clean
    · rw [if_pos hclean] at h
      rw [if_pos (clean_array.2 hclean)]
      exact h
    · rw [if_neg hclean] at h
      rw [if_neg (mt clean_array.1 hclean)]
      exact h
  | .object _, ⟨⟨horder, ho⟩, hn⟩, hl =>
    readsValue_fields horder.nodup (readsEntry_pairs ho hn hl)

/-- So is each item of an array. -/
theorem readsValue_values : ∀ {xs : List Value}, OrderedList id xs →
    (∀ n ∈ numbersList xs, n.Valid fun text => some (P.shortest text)) →
    EachList CapToml.LegibleKey Fits xs →
    ∀ x ∈ xs, Toml.ReadsValue (CapToml.value x) (if x.Clean then some x.toToml else none)
  | [], _, _, _ => fun _ hx => absurd hx List.not_mem_nil
  | _ :: _, ⟨hx, hxs⟩, hn, ⟨hlx, hlxs⟩ => by
    obtain ⟨hnx, hnxs⟩ := List.forall_mem_append.1 hn
    exact List.forall_mem_cons.2 ⟨readsValue_value ⟨hx, hnx⟩ hlx, readsValue_values hxs hnxs hlxs⟩

/-- So is each entry of an object. -/
theorem readsEntry_pairs : ∀ {fs : List (String × Value)}, OrderedFields id fs →
    (∀ n ∈ numbersFields fs, n.Valid fun text => some (P.shortest text)) →
    EachField CapToml.LegibleKey Fits fs →
    ∀ x ∈ fs, Toml.ReadsEntry (CapToml.pair x)
      (if BackendBody.Plain x.1 ∧ x.2.Clean then some (x.1, x.2.toToml) else none)
  | [], _, _, _ => fun _ hx => absurd hx List.not_mem_nil
  | (_, _) :: _, ⟨hx, hfs⟩, hn, ⟨⟨hk, hlx⟩, hlfs⟩ => by
    obtain ⟨hnx, hnfs⟩ := List.forall_mem_append.1 hn
    exact List.forall_mem_cons.2 ⟨CapToml.readsEntry_pair hk (readsValue_value ⟨hx, hnx⟩ hlx),
      readsEntry_pairs hfs hnfs hlfs⟩

end

/-! ### What a value is read back as -/

/-- Entries under keys that are in order stay in their places. -/
theorem sortFields_of_keys {fs fs' : List (String × Value)} (h : Sorted.InOrder id fs)
    (hkeys : fs'.map Prod.fst = fs.map Prod.fst) : sortFields fs' = fs' := by
  refine List.Pairwise.insertionSort_eq ?_
  have hle : (fs'.map Prod.fst).Pairwise (· ≤ ·) := by
    rw [hkeys]
    exact List.pairwise_map.2 (h.imp le_of_lt)
  exact List.pairwise_map.1 hle

mutual

/-- A value is read back as it is if it has no `null`. -/
theorem toValue_toToml : ∀ {v : Value}, P.IsJson v → (P.toValue v.toToml = v ↔ v.Filled)
  | .null, _ => iff_of_false (by simp [toToml, TomlParser.toValue]) fun h => h rfl
  | .bool b, _ => iff_of_true rfl (by simp [Filled, Each])
  | .number (.int i), _ => iff_of_true rfl (by simp [Filled, Each])
  | .number (.float text), h => by
    have hshortest := Option.some.inj (h.2 _ List.mem_cons_self).2
    exact iff_of_true (by rw [toToml, TomlParser.toValue, hshortest]) (by simp [Filled, Each])
  | .string s, _ => iff_of_true rfl (by simp [Filled, Each])
  | .array xs, ⟨ho, hn⟩ => by
    rw [toToml, TomlParser.toValue, array.injEq]
    exact toValues_toTomlList ho hn
  | .object fs, ⟨⟨horder, ho⟩, hn⟩ => by
    have hkeys : (P.toObject (toTomlFields fs)).map Prod.fst = fs.map Prod.fst := by
      rw [P.toObject_eq_map, List.map_map]
      exact keys_toTomlFields
    rw [toToml, TomlParser.toValue, sortFields_of_keys horder hkeys, object.injEq]
    exact toObject_toTomlFields ho hn

theorem toValues_toTomlList : ∀ {xs : List Value}, OrderedList id xs →
    (∀ n ∈ numbersList xs, n.Valid fun text => some (P.shortest text)) →
    (P.toValues (toTomlList xs) = xs ↔ EachList (fun _ => True) (· ≠ .null) xs)
  | [], _, _ => iff_of_true rfl trivial
  | _ :: _, ⟨hx, hxs⟩, hn => by
    obtain ⟨hnx, hnxs⟩ := List.forall_mem_append.1 hn
    rw [toTomlList, TomlParser.toValues, List.cons.injEq, toValue_toToml ⟨hx, hnx⟩,
      toValues_toTomlList hxs hnxs]
    rfl

theorem toObject_toTomlFields : ∀ {fs : List (String × Value)}, OrderedFields id fs →
    (∀ n ∈ numbersFields fs, n.Valid fun text => some (P.shortest text)) →
    (P.toObject (toTomlFields fs) = fs ↔ EachField (fun _ => True) (· ≠ .null) fs)
  | [], _, _ => iff_of_true rfl trivial
  | (_, _) :: _, ⟨hx, hfs⟩, hn => by
    obtain ⟨hnx, hnfs⟩ := List.forall_mem_append.1 hn
    rw [toTomlFields, TomlParser.toObject, List.cons.injEq, Prod.mk.injEq,
      toValue_toToml ⟨hx, hnx⟩, toObject_toTomlFields hfs hnfs, EachField]
    simp [Filled]

end

end Value

end N3ur0n
