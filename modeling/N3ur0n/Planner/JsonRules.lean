import Mathlib.Tactic.Choose
import N3ur0n.Planner.Grammar

/-!
# The rules of JSON

What is derived from the rules of JSON that the grammar of plans ends with.

* `exists_readsValue`: a text that is derived from a value has one reading, as a
  value or as none, whatever comes after it;
* `derives_render`: the text of a value is derived.
-/

namespace N3ur0n
namespace PlanGrammar

open Gbnf (Expr Grammar Derives derives_seq derives_alt derives_opt derives_text)
open Json

/-- The grammar has the rules of JSON. -/
def HasJson (G : Grammar) : Prop := ∀ r ∈ tailRules, G.lookup r.1 = some r.2

variable {G : Grammar} {s t : List Char} {num : List Char → Option Number} {depth : ℕ}

/-- What the rule at a place derives. -/
theorem HasJson.derives (hG : HasJson G) (i : ℕ) (hi : i < tailRules.length := by decide) :
    Derives G (.rule tailRules[i].1) s ↔ Derives G tailRules[i].2 s :=
  Gbnf.derives_rule (hG _ (List.getElem_mem hi))

/-! ## Characters -/

/-- The rule of spaces derives texts of spaces. -/
theorem derives_ws (hG : HasJson G) : Derives G ws s ↔ IsSpaces s := by
  refine (hG.derives 11).trans (Gbnf.derives_star_chars.trans (forall₂_congr fun c _ => ?_))
  rw [Gbnf.inClass_map, isSpace, decide_eq_true_iff]
  simp

/-- That of a hexadecimal digit derives one digit. -/
theorem derives_hex (hG : HasJson G) :
    Derives G (ref "hex") s ↔ ∃ c, (hexValue c).isSome ∧ s = [c] := by
  refine (hG.derives 6).trans (Gbnf.derives_chars.trans (exists_congr fun c => and_congr_left' ?_))
  have hdigit : c.isDigit ↔ 48 ≤ c.toNat ∧ c.toNat ≤ 57 := Char.isDigit_iff_toNat
  have hclass : Gbnf.inClass false [('0', '9'), ('a', 'f'), ('A', 'F')] c ↔
      48 ≤ c.toNat ∧ c.toNat ≤ 57 ∨ 97 ≤ c.toNat ∧ c.toNat ≤ 102 ∨
        65 ≤ c.toNat ∧ c.toNat ≤ 70 := by
    rw [Gbnf.inClass_iff]
    simp
  refine hclass.trans ?_
  rw [hexValue, ← hdigit]
  split_ifs with h₁ h₂ h₃
  · simp [h₁]
  · simp [h₂]
  · simp [h₃]
  · simp [h₁, h₂, h₃]

/-- What stands for one character, or for half of one. -/
inductive CharText : List Char → Prop
  | plain {c : Char} : c ≠ quote → c ≠ '\\' → 32 ≤ c.toNat → CharText [c]
  | escape {e : Char} : e ∈ "\"\\/bfnrt".toList → CharText ['\\', e]
  | unit {a b c d : Char} : (∀ x ∈ [a, b, c, d], (hexValue x).isSome) →
      CharText ['\\', 'u', a, b, c, d]

/-- That of a character derives the texts of characters. -/
theorem derives_char (hG : HasJson G) : Derives G (ref "char") s ↔ CharText s := by
  -- the class of the grammar leaves out the quote, the backslash and what is below the space
  have hplain (c : Char) : Gbnf.inClass true
      [(Gbnf.quote, Gbnf.quote), ('\\', '\\'), (Char.ofNat 0, Char.ofNat 31)] c ↔
        c ≠ quote ∧ c ≠ '\\' ∧ 32 ≤ c.toNat := by
    have heq (d : Char) : d.toNat ≤ c.toNat ∧ c.toNat ≤ d.toNat ↔ c = d := by
      rw [← Char.toNat_inj]
      omega
    have hcontrol : (Char.ofNat 0).toNat ≤ c.toNat ∧ c.toNat ≤ (Char.ofNat 31).toNat ↔
        ¬32 ≤ c.toNat := by
      have hzero : (Char.ofNat 0).toNat = 0 := rfl
      have hlast : (Char.ofNat 31).toNat = 31 := rfl
      omega
    rw [Gbnf.inClass_true_iff, Gbnf.inClass_iff, List.exists_mem_cons_iff,
      List.exists_mem_cons_iff, List.exists_mem_cons_iff, heq, heq, hcontrol]
    simp only [List.not_mem_nil, false_and, exists_false, or_false, not_or, not_not, ne_eq]
    rfl
  refine (hG.derives 5).trans ?_
  constructor
  · intro h
    rcases derives_alt.1 h with h | h
    · obtain ⟨c, hc, rfl⟩ := Gbnf.derives_chars.1 h
      obtain ⟨hq, hb, hc⟩ := (hplain c).1 hc
      exact .plain hq hb hc
    obtain ⟨_, v, rfl, hu, hv⟩ := derives_seq.1 h
    obtain rfl := derives_text.1 hu
    rcases derives_alt.1 hv with hv | hv
    · obtain ⟨e, he, rfl⟩ := Gbnf.derives_chars.1 hv
      exact .escape (Gbnf.inClass_map.1 he)
    · simp only [seqs, word, derives_seq, derives_text, derives_hex hG] at hv
      obtain ⟨_, _, rfl, rfl, _, _, rfl, ⟨a, ha, rfl⟩, _, _, rfl, ⟨b, hb, rfl⟩, _, _, rfl,
        ⟨c, hc, rfl⟩, d, hd, rfl⟩ := hv
      exact .unit (by simp [ha, hb, hc, hd])
  · rintro (⟨hq, hb, hc⟩ | h | h)
    · exact .left (.chars ((hplain _).2 ⟨hq, hb, hc⟩))
    · exact .right (.seq .text (.left (.chars (Gbnf.inClass_map.2 h))))
    · have hex {x : Char} (hx : (hexValue x).isSome) : Derives G (ref "hex") [x] :=
        (derives_hex hG).2 ⟨x, hx, rfl⟩
      refine .right (.seq .text (.right (.seq .text (.seq (hex ?_) (.seq (hex ?_) (.seq (hex ?_)
        (hex ?_)))))))
      all_goals exact h _ (by simp)

/-! ## Strings -/

/-- The text of a string: characters, one after the other, between quotes. -/
theorem derives_string (hG : HasJson G) : Derives G (ref "string") s ↔
    ∃ ts : List (List Char), (∀ t ∈ ts, CharText t) ∧ s = quote :: (ts.flatten ++ [quote]) := by
  refine (hG.derives 4).trans ?_
  constructor
  · intro h
    obtain ⟨_, _, rfl, hu, hv⟩ := derives_seq.1 h
    obtain ⟨_, _, rfl, hbody, hw⟩ := derives_seq.1 hv
    obtain rfl := derives_text.1 hu
    obtain rfl := derives_text.1 hw
    obtain ⟨ts, rfl, hts⟩ := Gbnf.derives_star.1 hbody
    exact ⟨ts, fun t ht => (derives_char hG).1 (hts t ht), rfl⟩
  · rintro ⟨ts, hts, rfl⟩
    exact .seq .text (.seq (.flatten fun t ht => (derives_char hG).2 (hts t ht)) .text)

section Reading

variable {us cs : List Char} {m m' : ℕ}

/-- A unit that leads no pair is a character, unless it trails one. -/
theorem readUnicode_single (h : readUnit us = some (m, cs)) (hm : isLeading m = false) :
    readUnicode us = if isTrailing m then none else some (Char.ofNat m, cs) := by
  rw [readUnicode, h]
  simp only [Option.bind_eq_bind, Option.bind_some, hm, Bool.false_eq_true, if_false]

/-- A surrogate has to lead another one. -/
theorem readUnicode_lone (h : readUnit us = some (m, cs)) (hm : isLeading m)
    (hcs : ∀ cs', cs ≠ '\\' :: 'u' :: cs') : readUnicode us = none := by
  rw [readUnicode, h]
  simp only [Option.bind_eq_bind, Option.bind_some, hm, if_true]

/-- A leading unit needs a trailing one. -/
theorem readUnicode_pair {us' : List Char} (h : readUnit us = some (m, '\\' :: 'u' :: us'))
    (hm : isLeading m) (h' : readUnit us' = some (m', cs)) : readUnicode us =
      if isTrailing m' then
        some (Char.ofNat (0x10000 + (m - 0xD800) * 1024 + (m' - 0xDC00)), cs)
      else none := by
  rw [readUnicode, h]
  simp only [Option.bind_eq_bind, Option.bind_some, hm, if_true, h']

/-- Four digits are a unit. -/
theorem exists_readUnit {a b c d : Char} (h : ∀ x ∈ [a, b, c, d], (hexValue x).isSome) :
    ∃ m, ∀ cs, readUnit (a :: b :: c :: d :: cs) = some (m, cs) := by
  simp only [List.forall_mem_cons, Option.isSome_iff_exists] at h
  obtain ⟨⟨i, hi⟩, ⟨j, hj⟩, ⟨k, hk⟩, ⟨l, hl⟩, -⟩ := h
  refine ⟨i * 4096 + j * 256 + k * 16 + l, fun cs => ?_⟩
  rw [readUnit, hi, hj, hk, hl]
  rfl

/-- The letters of the short escapes are read. -/
theorem exists_readEscape {e : Char} (h : e ∈ "\"\\/bfnrt".toList) :
    e ≠ 'u' ∧ ∃ c, ∀ cs, readEscape (e :: cs) = some (c, cs) := by
  have hlist : "\"\\/bfnrt".toList = [quote, '\\', '/', 'b', 'f', 'n', 'r', 't'] := by
    simp only [String.reduceToList]
    rfl
  rw [hlist] at h
  simp only [List.mem_cons, List.not_mem_nil, or_false] at h
  rcases h with rfl | rfl | rfl | rfl | rfl | rfl | rfl | rfl
  all_goals exact ⟨by decide, _, fun _ => rfl⟩

/-- A unit is read, then the characters after it. -/
theorem readChars_unit {n : ℕ} : readChars (n + 1) ('\\' :: 'u' :: us) =
    (readUnicode us).bind fun r => consResult r.1 (readChars n r.2) := by
  rw [readChars_backslash, readEscape.eq_def]
  rfl

/-- The next character is written by its code, or not. -/
theorem unit_or_not {ts : List (List Char)} (hts : ∀ t ∈ ts, CharText t) :
    (∃ a b c d ts', ts = ['\\', 'u', a, b, c, d] :: ts' ∧ ∀ x ∈ [a, b, c, d], (hexValue x).isSome) ∨
      ∀ rest cs, ts.flatten ++ quote :: rest ≠ '\\' :: 'u' :: cs := by
  rcases ts with _ | ⟨t, ts⟩
  · exact .inr fun rest cs h => absurd (List.cons.inj h).1 (by decide)
  rcases hts t List.mem_cons_self with ⟨hq, hb, hc⟩ | he | hunit
  · exact .inr fun rest cs h => hb (List.cons.inj h).1
  · exact .inr fun rest cs h => (exists_readEscape he).1 (List.cons.inj (List.cons.inj h).2).1
  · exact .inl ⟨_, _, _, _, ts, rfl, hunit⟩

/-- What is read later does not change the first character. -/
theorem consResult_map {α : Type} {x : α} {r : Option (List α)} :
    consResult x (r.map (·, cs)) = (r.map (x :: ·)).map (·, cs) := by
  rcases r with _ | r
  · rfl
  · rfl

end Reading

/-- Whatever the characters, the string is read in one way, or not at all. -/
theorem exists_readChars {ts : List (List Char)} (hts : ∀ t ∈ ts, CharText t) :
    ∃ r : Option (List Char), ∀ n, ts.flatten.length < n → ∀ rest,
      readChars n (ts.flatten ++ quote :: rest) = r.map (·, rest) := by
  induction hk : ts.length using Nat.strong_induction_on generalizing ts with
  | _ k ih =>
  rcases ts with _ | ⟨t, ts⟩
  · refine ⟨some [], fun n hn rest => ?_⟩
    obtain ⟨n, rfl⟩ := Nat.exists_eq_succ_of_ne_zero (Nat.ne_of_gt hn)
    exact readChars_quote
  obtain ⟨ht, htail⟩ := List.forall_mem_cons.1 hts
  rw [List.length_cons] at hk
  obtain ⟨r, hr⟩ := ih ts.length (by omega) htail rfl
  rcases ht with ⟨hq, hb, hc⟩ | he | hunit
  · rename_i c
    refine ⟨r.map (c :: ·), fun n hn rest => ?_⟩
    rw [List.flatten_cons, List.singleton_append, List.length_cons] at hn
    obtain ⟨n, rfl⟩ := Nat.exists_eq_succ_of_ne_zero (Nat.ne_of_gt (Nat.zero_lt_of_lt hn))
    rw [List.flatten_cons, List.singleton_append, List.cons_append, readChars_plain hq hb hc,
      hr n (by omega), consResult_map]
  · rename_i e
    obtain ⟨-, c, hc⟩ := exists_readEscape he
    refine ⟨r.map (c :: ·), fun n hn rest => ?_⟩
    simp only [List.flatten_cons, List.length_append, List.length_cons] at hn
    obtain ⟨n, rfl⟩ := Nat.exists_eq_succ_of_ne_zero (Nat.ne_of_gt (Nat.zero_lt_of_lt hn))
    rw [List.flatten_cons, List.append_assoc, List.cons_append, List.singleton_append,
      readChars_backslash, hc, Option.bind_some, hr n (by omega), consResult_map]
  · rename_i a b c d
    obtain ⟨m, hm⟩ := exists_readUnit hunit
    have htext (rest : List Char) : (['\\', 'u', a, b, c, d] :: ts).flatten ++ quote :: rest =
        '\\' :: 'u' :: a :: b :: c :: d :: (ts.flatten ++ quote :: rest) := by
      simp only [List.flatten_cons, List.cons_append, List.nil_append]
    have hlength : (['\\', 'u', a, b, c, d] :: ts).flatten.length = ts.flatten.length + 6 := by
      simp only [List.flatten_cons, List.length_append, List.length_cons, List.length_nil]
      omega
    have hnone (h : ∀ rest,
        readUnicode (a :: b :: c :: d :: (ts.flatten ++ quote :: rest)) = none) :
        ∃ r : Option (List Char), ∀ n, (['\\', 'u', a, b, c, d] :: ts).flatten.length < n → ∀ rest,
          readChars n ((['\\', 'u', a, b, c, d] :: ts).flatten ++ quote :: rest) =
            r.map (·, rest) := by
      refine ⟨none, fun n hn rest => ?_⟩
      obtain ⟨n, rfl⟩ := Nat.exists_eq_succ_of_ne_zero (Nat.ne_of_gt (Nat.zero_lt_of_lt hn))
      rw [htext, readChars_unit, h]
      rfl
    by_cases hlead : isLeading m
    · rcases unit_or_not htail with ⟨a', b', c', d', ts', rfl, hunit'⟩ | hnot
      · -- The two halves of one character, or an error.
        obtain ⟨m', hm'⟩ := exists_readUnit hunit'
        obtain ⟨r', hr'⟩ := ih ts'.length (by rw [← hk, List.length_cons]; omega)
          (List.forall_mem_cons.1 htail).2 rfl
        have hpair (rest : List Char) := readUnicode_pair
          (hm ('\\' :: 'u' :: a' :: b' :: c' :: d' :: (ts'.flatten ++ quote :: rest))) hlead
          (hm' (ts'.flatten ++ quote :: rest))
        by_cases htrail : isTrailing m'
        · simp only [htrail, if_true] at hpair
          refine ⟨r'.map (Char.ofNat (0x10000 + (m - 0xD800) * 1024 + (m' - 0xDC00)) :: ·),
            fun n hn rest => ?_⟩
          rw [hlength] at hn
          simp only [List.flatten_cons, List.length_append, List.length_cons] at hn
          obtain ⟨n, rfl⟩ := Nat.exists_eq_succ_of_ne_zero (Nat.ne_of_gt (Nat.zero_lt_of_lt hn))
          rw [htext, readChars_unit]
          refine (congrArg (Option.bind · _) (hpair rest)).trans ?_
          rw [Option.bind_some, hr' n (by omega), consResult_map]
        · simp only [if_neg htrail] at hpair
          exact hnone hpair
      · exact hnone fun rest => readUnicode_lone (hm _) hlead (hnot rest)
    · have hsingle (rest : List Char) := readUnicode_single (hm (ts.flatten ++ quote :: rest))
        (Bool.not_eq_true _ ▸ hlead)
      by_cases htrail : isTrailing m
      · simp only [htrail, if_true] at hsingle
        exact hnone hsingle
      · simp only [if_neg htrail] at hsingle
        refine ⟨r.map (Char.ofNat m :: ·), fun n hn rest => ?_⟩
        rw [hlength] at hn
        obtain ⟨n, rfl⟩ := Nat.exists_eq_succ_of_ne_zero (Nat.ne_of_gt (Nat.zero_lt_of_lt hn))
        rw [htext, readChars_unit, hsingle, Option.bind_some, hr n (by omega), consResult_map]

/-- A string of the grammar is read up to its quote, or refused for a surrogate. -/
theorem exists_readsString {ts : List (List Char)} (hts : ∀ t ∈ ts, CharText t) :
    ∃ k, ReadsString (ts.flatten ++ [quote]) k := by
  obtain ⟨r, hr⟩ := exists_readChars hts
  refine ⟨r.map String.ofList, fun n hn rest => ?_⟩
  rw [List.length_append, List.length_singleton] at hn
  rw [readString, List.append_assoc, List.singleton_append, hr n hn]
  rcases r with _ | r
  · rfl
  · rfl

/-! ## Numbers -/

/-- The class of digits. -/
theorem inClass_digit {c : Char} : Gbnf.inClass false [('0', '9')] c ↔ c.isDigit := by
  rw [Gbnf.inClass_iff, Char.isDigit_iff_toNat, List.exists_mem_cons_iff]
  simp only [List.not_mem_nil, false_and, exists_false, or_false]

/-- An integer has no zero before other digits. -/
theorem derives_int (hG : HasJson G) : Derives G (ref "int") s ↔
    s = ['0'] ∨ ∃ c ds, (c.isDigit ∧ c ≠ '0') ∧ (∀ d ∈ ds, d.isDigit) ∧ s = c :: ds := by
  have hfirst (c : Char) : Gbnf.inClass false [('1', '9')] c ↔ c.isDigit ∧ c ≠ '0' := by
    have hzero : c ≠ '0' ↔ c.toNat ≠ 48 := (not_congr Char.toNat_inj).symm
    rw [Gbnf.inClass_iff, hzero, Char.isDigit_iff_toNat, List.exists_mem_cons_iff]
    simp only [List.not_mem_nil, false_and, exists_false, or_false]
    have h₀ : Char.toNat '0' = 48 := rfl
    have h₁ : Char.toNat '1' = 49 := rfl
    omega
  refine (hG.derives 8).trans (derives_alt.trans (or_congr derives_text ?_))
  constructor
  · intro h
    obtain ⟨_, ds, rfl, hu, hds⟩ := derives_seq.1 h
    obtain ⟨c, hc, rfl⟩ := Gbnf.derives_chars.1 hu
    exact ⟨c, ds, (hfirst c).1 hc, fun d hd => inClass_digit.1 (Gbnf.derives_star_chars.1 hds d hd),
      rfl⟩
  · rintro ⟨c, ds, hc, hds, rfl⟩
    exact .seq (.chars ((hfirst c).2 hc))
      (Gbnf.derives_star_chars.2 fun d hd => inClass_digit.2 (hds d hd))

/-- A fraction has a digit at least. -/
theorem derives_frac (hG : HasJson G) : Derives G (ref "frac") s ↔
    ∃ ds, ds ≠ [] ∧ (∀ d ∈ ds, d.isDigit) ∧ s = '.' :: ds := by
  refine (hG.derives 9).trans ?_
  constructor
  · intro h
    obtain ⟨_, ds, rfl, hpoint, hds⟩ := derives_seq.1 h
    obtain rfl := derives_text.1 hpoint
    obtain ⟨hne, hds⟩ := Gbnf.derives_plus_chars.1 hds
    exact ⟨ds, hne, fun d hd => inClass_digit.1 (hds d hd), rfl⟩
  · rintro ⟨ds, hne, hds, rfl⟩
    exact .seq .text (Gbnf.derives_plus_chars.2 ⟨hne, fun d hd => inClass_digit.2 (hds d hd)⟩)

/-- So has an exponent, which may have a sign. -/
theorem derives_exp (hG : HasJson G) : Derives G (ref "exp") s ↔
    ∃ e sign ds, (e = 'e' ∨ e = 'E') ∧ (sign = [] ∨ sign = ['-'] ∨ sign = ['+']) ∧ ds ≠ [] ∧
      (∀ d ∈ ds, d.isDigit) ∧ s = e :: (sign ++ ds) := by
  have hmark {c : Char} : Gbnf.inClass false ("eE".toList.map fun c => (c, c)) c ↔
      c = 'e' ∨ c = 'E' := by
    rw [Gbnf.inClass_map]
    simp
  have hsign {c : Char} : Gbnf.inClass false ("-+".toList.map fun c => (c, c)) c ↔
      c = '-' ∨ c = '+' := by
    rw [Gbnf.inClass_map]
    simp
  refine (hG.derives 10).trans ?_
  constructor
  · intro h
    obtain ⟨_, _, rfl, hu, h⟩ := derives_seq.1 h
    obtain ⟨sign, ds, rfl, hs, hds⟩ := derives_seq.1 h
    obtain ⟨e, he, rfl⟩ := Gbnf.derives_chars.1 hu
    obtain ⟨hne, hds⟩ := Gbnf.derives_plus_chars.1 hds
    refine ⟨e, sign, ds, hmark.1 he, ?_, hne, fun d hd => inClass_digit.1 (hds d hd), rfl⟩
    rcases derives_opt.1 hs with rfl | hs
    · exact .inl rfl
    · obtain ⟨c, hc, rfl⟩ := Gbnf.derives_chars.1 hs
      rcases hsign.1 hc with rfl | rfl
      · exact .inr (.inl rfl)
      · exact .inr (.inr rfl)
  · rintro ⟨e, sign, ds, he, hs, hne, hds, rfl⟩
    refine .seq (.chars (hmark.2 he)) (.seq ?_ (Gbnf.derives_plus_chars.2
      ⟨hne, fun d hd => inClass_digit.2 (hds d hd)⟩))
    rcases hs with rfl | rfl | rfl
    · exact .none
    · exact .some (.chars (hsign.2 (.inl rfl)))
    · exact .some (.chars (hsign.2 (.inr rfl)))

/-- A sign or none, an integer, and a fraction and an exponent or none. -/
theorem derives_number (hG : HasJson G) : Derives G (ref "number") s ↔
    ∃ m i f x, (m = [] ∨ m = ['-']) ∧ Derives G (ref "int") i ∧
      (f = [] ∨ Derives G (ref "frac") f) ∧
      (x = [] ∨ Derives G (ref "exp") x) ∧ s = m ++ (i ++ (f ++ x)) := by
  refine (hG.derives 7).trans ?_
  constructor
  · intro h
    obtain ⟨m, _, rfl, hm, h⟩ := derives_seq.1 h
    obtain ⟨i, _, rfl, hi, h⟩ := derives_seq.1 h
    obtain ⟨f, x, rfl, hf, hx⟩ := derives_seq.1 h
    exact ⟨m, i, f, x, (derives_opt.1 hm).imp_right fun h => derives_text.1 h, hi,
      derives_opt.1 hf, derives_opt.1 hx, rfl⟩
  · rintro ⟨m, i, f, x, hm, hi, hf, hx, rfl⟩
    exact .seq (derives_opt.2 (hm.imp_right fun h => derives_text.2 h))
      (.seq hi (.seq (derives_opt.2 hf) (derives_opt.2 hx)))

/-- A number has no other characters than those the reader takes for one. -/
theorem isNumberChar_of_derives (hG : HasJson G) (h : Derives G (ref "number") s) :
    s ≠ [] ∧ ∀ c ∈ s, isNumberChar c := by
  have hdigits {ds : List Char} (h : ∀ d ∈ ds, d.isDigit) : ∀ d ∈ ds, isNumberChar d :=
    fun d hd => isNumberChar_of_isDigit (h d hd)
  obtain ⟨m, i, f, x, hm, hi, hf, hx, rfl⟩ := (derives_number hG).1 h
  have hi : i ≠ [] ∧ ∀ c ∈ i, isNumberChar c := by
    rcases (derives_int hG).1 hi with rfl | ⟨c, ds, hc, hds, rfl⟩
    · decide
    · exact ⟨List.cons_ne_nil _ _,
        List.forall_mem_cons.2 ⟨isNumberChar_of_isDigit hc.1, hdigits hds⟩⟩
  refine ⟨fun hnil => hi.1 ?_, List.forall_mem_append.2 ⟨?_, List.forall_mem_append.2 ⟨hi.2,
    List.forall_mem_append.2 ⟨?_, ?_⟩⟩⟩⟩
  · exact (List.append_eq_nil_iff.1 (List.append_eq_nil_iff.1 hnil).2).1
  · rcases hm with rfl | rfl
    · exact fun c hc => absurd hc List.not_mem_nil
    · decide
  · rcases hf with rfl | hf
    · exact fun c hc => absurd hc List.not_mem_nil
    · obtain ⟨ds, -, hds, rfl⟩ := (derives_frac hG).1 hf
      exact List.forall_mem_cons.2 ⟨rfl, hdigits hds⟩
  · rcases hx with rfl | hx
    · exact fun c hc => absurd hc List.not_mem_nil
    · obtain ⟨e, sign, ds, he, hs, -, hds, rfl⟩ := (derives_exp hG).1 hx
      refine List.forall_mem_cons.2 ⟨?_, List.forall_mem_append.2 ⟨?_, hdigits hds⟩⟩
      · rcases he with rfl | rfl
        · rfl
        · rfl
      · rcases hs with rfl | rfl | rfl
        · exact fun c hc => absurd hc List.not_mem_nil
        · decide
        · decide

/-! ## Lists -/

theorem isSpaces_nil : IsSpaces [] := fun _ hc => absurd hc List.not_mem_nil

/-- Spaces after spaces. -/
theorem isSpaces_append {w w' : List Char} (hw : IsSpaces w) (hw' : IsSpaces w') :
    IsSpaces (w ++ w') := List.forall_mem_append.2 ⟨hw, hw'⟩

/-- The text is derived from the item, up to the spaces around it. -/
def Padded (G : Grammar) (item : Expr) (y : List Char) : Prop :=
  ∃ u t u', IsSpaces u ∧ IsSpaces u' ∧ Derives G item t ∧ y = u ++ (t ++ u')

/-- The items of a list, each with the spaces around it. -/
theorem exists_commaJoin (hG : HasJson G) {item : Expr} {w w' : List Char} (hw : IsSpaces w)
    (hw' : IsSpaces w') (h : Derives G (listOf item) s) :
    ∃ ys : List (List Char), ys ≠ [] ∧ w ++ (s ++ w') = commaJoin ys ∧
      ∀ y ∈ ys, Padded G item y := by
  obtain ⟨t, _, rfl, ht, hrest⟩ := derives_seq.1 h
  obtain ⟨ts, rfl, hts⟩ := Gbnf.derives_star.1 hrest
  clear h hrest
  induction ts generalizing w t with
  | nil =>
    refine ⟨[w ++ (t ++ w')], List.cons_ne_nil _ _, ?_, List.forall_mem_singleton.2 ?_⟩
    · rw [commaJoin_singleton, List.flatten_nil, List.append_nil]
    · exact ⟨w, t, w', hw, hw', ht, rfl⟩
  | cons x ts ih =>
    obtain ⟨hx, htail⟩ := List.forall_mem_cons.1 hts
    obtain ⟨u, _, rfl, hu, hx⟩ := derives_seq.1 hx
    obtain ⟨_, _, rfl, hcomma, hx⟩ := derives_seq.1 hx
    obtain ⟨v, t', rfl, hv, ht'⟩ := derives_seq.1 hx
    obtain rfl := derives_text.1 hcomma
    obtain ⟨ys, hne, hjoin, hys⟩ := ih ((derives_ws hG).1 hv) t' ht' htail
    obtain ⟨y, ys, rfl⟩ := List.exists_cons_of_ne_nil hne
    refine ⟨(w ++ (t ++ u)) :: y :: ys, List.cons_ne_nil _ _, ?_, List.forall_mem_cons.2
      ⟨⟨w, t, u, hw, (derives_ws hG).1 hu, ht, rfl⟩, hys⟩⟩
    rw [commaJoin_cons_cons, ← hjoin]
    simp only [List.flatten_cons, List.append_assoc, String.reduceToList, List.cons_append,
      List.nil_append]

/-- An item is no longer than the list that it is in. -/
theorem length_le_commaJoin {ys : List (List Char)} {y : List Char} (h : y ∈ ys) :
    y.length ≤ (commaJoin ys).length := by
  induction ys with
  | nil => exact absurd h List.not_mem_nil
  | cons x ys ih =>
    rcases ys with _ | ⟨z, ys⟩
    · rw [List.mem_singleton.1 h, commaJoin_singleton]
    · rw [commaJoin_cons_cons, List.length_append, List.length_cons]
      rcases List.mem_cons.1 h with rfl | h
      · exact Nat.le_add_right _ _
      · have := ih h
        omega

/-! ## Values -/

/-- An entry is read in one way, or not at all, if its value is. -/
theorem exists_readsField (hG : HasJson G)
    (hvalue : ∀ v, v.length < s.length → Derives G (ref "value") v →
      ∃ r, ReadsValue num depth v r)
    (h : Derives G (ref "pair") s) : ∃ f, ReadsField num depth s f := by
  obtain ⟨k, _, rfl, hk, h⟩ := derives_seq.1 ((hG.derives 2).1 h)
  obtain ⟨w, _, rfl, hw, h⟩ := derives_seq.1 h
  obtain ⟨_, _, rfl, hcolon, h⟩ := derives_seq.1 h
  obtain ⟨w', v, rfl, hw', hv⟩ := derives_seq.1 h
  obtain rfl := derives_text.1 hcolon
  obtain ⟨ts, hts, rfl⟩ := (derives_string hG).1 hk
  obtain ⟨key, hkey⟩ := exists_readsString hts
  obtain ⟨r, hr⟩ := hvalue v (by simp only [List.length_append, List.length_cons]; omega) hv
  have hspaces := hr.spaces ((derives_ws hG).1 hw') isSpaces_nil
  rw [List.append_nil] at hspaces
  exact ⟨_, readsField hkey ((derives_ws hG).1 hw) hspaces⟩

/-- A list between brackets or braces: nothing but spaces, or items. -/
theorem derives_group (hG : HasJson G) {item : Expr} {l r : String} :
    Derives G (seqs [word l, ws, .opt (listOf item), ws, word r]) s ↔
      (∃ w, IsSpaces w ∧ s = l.toList ++ (w ++ r.toList)) ∨
        ∃ w body w', IsSpaces w ∧ IsSpaces w' ∧ Derives G (listOf item) body ∧
          s = l.toList ++ (w ++ (body ++ w') ++ r.toList) := by
  constructor
  · intro h
    obtain ⟨_, _, rfl, hopen, h⟩ := derives_seq.1 h
    obtain ⟨w, _, rfl, hw, h⟩ := derives_seq.1 h
    obtain ⟨body, _, rfl, hbody, h⟩ := derives_seq.1 h
    obtain ⟨w', _, rfl, hw', hclose⟩ := derives_seq.1 h
    obtain rfl := derives_text.1 hopen
    obtain rfl := derives_text.1 hclose
    rw [derives_ws hG] at hw hw'
    rcases derives_opt.1 hbody with rfl | hbody
    · exact .inl ⟨w ++ w', isSpaces_append hw hw',
        by simp only [List.append_assoc, List.nil_append]⟩
    · exact .inr ⟨w, body, w', hw, hw', hbody, by simp only [List.append_assoc]⟩
  · rintro (⟨w, hw, rfl⟩ | ⟨w, body, w', hw, hw', hbody, rfl⟩)
    · exact .seq .text (.seq ((derives_ws hG).2 hw) (.seq .none
        (.seq ((derives_ws hG).2 isSpaces_nil) .text)))
    · rw [List.append_assoc, List.append_assoc]
      exact .seq .text (.seq ((derives_ws hG).2 hw) (.seq (.some hbody)
        (.seq ((derives_ws hG).2 hw') .text)))

section Values

variable (hG : HasJson G)
  (hvalue : ∀ v, v.length < s.length → Derives G (ref "value") v → ∀ depth,
    ∃ r, ReadsValue num depth v r)
include hG hvalue

/-- An object of the grammar is read as one, or refused. -/
theorem exists_readsValue_object (h : Derives G (ref "object") s) (depth : ℕ) :
    ∃ fs : Option (List (String × Value)), ReadsValue num depth s (fs.map .object) := by
  rcases (derives_group hG).1 ((hG.derives 1).1 h) with
    ⟨w, hw, rfl⟩ | ⟨w, body, w', hw, hw', hbody, rfl⟩
  · rcases depth with _ | depth
    · exact ⟨none, readsValue_zero (.inr rfl)⟩
    · exact ⟨some [], readsValue_object_nil hw⟩
  rcases depth with _ | depth
  · exact ⟨none, readsValue_zero (.inr rfl)⟩
  obtain ⟨ys, hne, hjoin, hys⟩ := exists_commaJoin hG hw hw' hbody
  rw [hjoin] at hvalue ⊢
  have hfields : ∀ y ∈ ys, ∃ f, ReadsField num depth y f := by
    intro y hy
    have hle := length_le_commaJoin hy
    obtain ⟨u, t, u', hu, hu', ht, rfl⟩ := hys y hy
    obtain ⟨f, hf⟩ : ∃ f, ReadsField num depth t f := exists_readsField hG (fun v hv hd =>
      hvalue v (by simp only [List.length_append] at hle ⊢; omega) hd depth) ht
    exact ⟨f, hf.spaces hu hu'⟩
  choose! f hf using hfields
  have hread : ReadsValue num (depth + 1) ('\x7b' :: commaJoin (ys.map id) ++ ['\x7d']) _ :=
    readsValue_object hne hf
  rw [List.map_id] at hread
  exact ⟨_, hread⟩

/-- An array of the grammar is read as one, or refused. -/
theorem exists_readsValue_array (h : Derives G (ref "array") s) (depth : ℕ) :
    ∃ r, ReadsValue num depth s r := by
  rcases (derives_group hG).1 ((hG.derives 3).1 h) with
    ⟨w, hw, rfl⟩ | ⟨w, body, w', hw, hw', hbody, rfl⟩
  · rcases depth with _ | depth
    · exact ⟨_, readsValue_zero (.inl rfl)⟩
    · exact ⟨_, readsValue_array_nil hw⟩
  rcases depth with _ | depth
  · exact ⟨_, readsValue_zero (.inl rfl)⟩
  obtain ⟨ys, hne, hjoin, hys⟩ := exists_commaJoin hG hw hw' hbody
  rw [hjoin] at hvalue ⊢
  have hitems : ∀ y ∈ ys, ∃ v, ReadsValue num depth y v := by
    intro y hy
    have hle := length_le_commaJoin hy
    obtain ⟨u, t, u', hu, hu', ht, rfl⟩ := hys y hy
    obtain ⟨v, hv⟩ := hvalue t (by
      simp only [List.length_append, String.reduceToList, List.length_cons] at hle ⊢
      omega) ht depth
    exact ⟨v, hv.spaces hu hu'⟩
  choose! v hv using hitems
  have hread : ReadsValue num (depth + 1) ('[' :: commaJoin (ys.map id) ++ [']']) _ :=
    readsValue_array hne hv
  rw [List.map_id] at hread
  exact ⟨_, hread⟩

end Values

/-- A value is one of the seven. -/
theorem derives_value (hG : HasJson G) : Derives G (ref "value") s ↔
    Derives G (ref "object") s ∨ Derives G (ref "array") s ∨ Derives G (ref "string") s ∨
      Derives G (ref "number") s ∨ s = "true".toList ∨ s = "false".toList ∨ s = "null".toList := by
  refine (hG.derives 0).trans ?_
  simp only [tailRules, List.getElem_cons_zero, alts, word, derives_alt, derives_text]

/-- Whatever is derived from a value is read in one way, or not at all. -/
theorem exists_readsValue (hG : HasJson G) (h : Derives G (ref "value") s) (depth : ℕ) :
    ∃ r, ReadsValue num depth s r := by
  induction hk : s.length using Nat.strong_induction_on generalizing s depth with
  | _ k ih =>
  have hvalue : ∀ v, v.length < s.length → Derives G (ref "value") v → ∀ depth,
      ∃ r, ReadsValue num depth v r := fun v hv hd depth => ih v.length (hk ▸ hv) hd depth rfl
  rcases (derives_value hG).1 h with h | h | h | h | rfl | rfl | rfl
  · obtain ⟨fs, hfs⟩ := exists_readsValue_object hG hvalue h depth
    exact ⟨_, hfs⟩
  · exact exists_readsValue_array hG hvalue h depth
  · obtain ⟨ts, hts, rfl⟩ := (derives_string hG).1 h
    obtain ⟨k, hk⟩ := exists_readsString hts
    exact ⟨_, readsValue_string hk⟩
  · obtain ⟨hne, hchars⟩ := isNumberChar_of_derives hG h
    exact ⟨_, readsValue_number hne hchars⟩
  · exact ⟨_, readsValue_bool true⟩
  · exact ⟨_, readsValue_bool false⟩
  · exact ⟨_, readsValue_null⟩

/-- An object is read as an object, or not at all. -/
theorem exists_readsObject (num : List Char → Option Number) (hG : HasJson G)
    (h : Derives G (ref "object") s) (depth : ℕ) :
    ∃ fs : Option (List (String × Value)), ReadsValue num depth s (fs.map .object) :=
  exists_readsValue_object hG (fun _ _ hd => exists_readsValue hG hd) h depth

/-- A list of strings is read as one, or not at all. -/
theorem exists_readsStrings (num : List Char → Option Number) (hG : HasJson G)
    (h : Derives G (seqs [word "[", ws, .opt (listOf (ref "string")), ws, word "]"]) s)
    (depth : ℕ) : ∃ ks : Option (List String),
      ReadsValue num depth s (ks.map fun ks => .array (ks.map .string)) := by
  rcases (derives_group hG).1 h with ⟨w, hw, rfl⟩ | ⟨w, body, w', hw, hw', hbody, rfl⟩
  · rcases depth with _ | depth
    · exact ⟨none, readsValue_zero (.inl rfl)⟩
    · exact ⟨some [], readsValue_array_nil hw⟩
  rcases depth with _ | depth
  · exact ⟨none, readsValue_zero (.inl rfl)⟩
  obtain ⟨ys, hne, hjoin, hys⟩ := exists_commaJoin hG hw hw' hbody
  have hitems : ∀ y ∈ ys, ∃ k : Option String, ReadsValue num depth y (k.map .string) := by
    intro y hy
    obtain ⟨u, t, u', hu, hu', ht, rfl⟩ := hys y hy
    obtain ⟨ts, hts, rfl⟩ := (derives_string hG).1 ht
    obtain ⟨k, hk⟩ := exists_readsString hts
    exact ⟨k, (readsValue_string hk).spaces hu hu'⟩
  choose! k hk using hitems
  have hread : ReadsValue num (depth + 1) ('[' :: commaJoin (ys.map id) ++ [']']) _ :=
    readsValue_array hne hk
  have hmap : (ys.mapM fun y => (k y).map Value.string) = (ys.mapM k).map (·.map .string) := by
    clear hne hjoin hys hk hread
    induction ys with
    | nil => rfl
    | cons y ys ih =>
      rw [List.mapM_cons, List.mapM_cons, ih]
      rcases k y with _ | k
      · rfl
      · rcases ys.mapM _ with _ | ks
        · rfl
        · rfl
  rw [List.map_id, hmap, Option.map_map] at hread
  rw [hjoin]
  exact ⟨_, hread⟩

/-! ## What is written -/

attribute [local simp] Value.render

/-- What escapes a character is the text of one. -/
theorem charText_escape (c : Char) : CharText (Value.escape c) := by
  have hexDigit {k : ℕ} (hk : k < 16) : (hexValue (Value.hexDigit k)).isSome := by
    rw [hexValue_hexDigit hk]
    rfl
  rcases escape_cases c with ⟨h, hq, hb, hc⟩ | ⟨e, h, he, -⟩ | ⟨hc, h⟩
  · exact h ▸ .plain hq hb hc
  · have hcode : ∀ {k : ℕ}, e.toNat = k → e = Char.ofNat k :=
      fun h => h ▸ (Char.ofNat_toNat e).symm
    refine h ▸ .escape ?_
    unfold Toml.unescape at he
    split at he
    · next h => exact hcode h ▸ by decide
    · next h => exact hcode h ▸ by decide
    · next h => exact hcode h ▸ by decide
    · next h => exact hcode h ▸ by decide
    · next h => exact hcode h ▸ by decide
    · next h => exact hcode h ▸ by decide
    · next h => exact hcode h ▸ by decide
    · exact absurd he (Option.some_ne_none c).symm
  · rw [h]
    refine .unit ?_
    simp only [List.forall_mem_cons]
    exact ⟨rfl, rfl, hexDigit (by omega), hexDigit (by omega), fun _ h => absurd h List.not_mem_nil⟩

/-- A quoted text is a string of the grammar. -/
theorem derives_quote (hG : HasJson G) (k : String) : Derives G (ref "string") (Value.quote k) := by
  refine (derives_string hG).2 ⟨k.toList.map Value.escape, fun t ht => ?_, ?_⟩
  · obtain ⟨c, -, rfl⟩ := List.mem_map.1 ht
    exact charText_escape c
  · rw [← List.flatMap_def]
    rfl

/-- The digits of a number do not start with zero, unless the number is zero. -/
theorem head_toDigits {n : ℕ} (hn : 0 < n) : (Nat.toDigits 10 n).head? ≠ some '0' := by
  induction n using Nat.strong_induction_on with
  | _ n ih =>
  rcases Nat.lt_or_ge n 10 with h | h
  · have hdigit : ∀ k < 10, 0 < k → some (Nat.digitChar k) ≠ some '0' := by decide
    rw [Nat.toDigits_of_lt_base h]
    exact hdigit n h hn
  · rw [Nat.toDigits_of_base_le (by decide) h, List.head?_append_of_ne_nil _ Nat.toDigits_ne_nil]
    exact ih (n / 10) (by omega) (by omega)

/-- Digits are an integer, if they do not start with a zero. -/
theorem derives_digits (hG : HasJson G) {ds : List Char} (hne : ds ≠ [])
    (hds : ∀ c ∈ ds, c.isDigit) (hhead : ds.head? = some '0' → ds = ['0']) :
    Derives G (ref "int") ds := by
  refine (derives_int hG).2 ?_
  obtain ⟨c, ds, rfl⟩ := List.exists_cons_of_ne_nil hne
  obtain ⟨hc, hds⟩ := List.forall_mem_cons.1 hds
  by_cases hzero : c = '0'
  · exact .inl (hhead (congrArg some hzero))
  · exact .inr ⟨c, ds, ⟨hc, hzero⟩, hds, rfl⟩

/-- The decimal text of a number is an integer. -/
theorem derives_toDigits (hG : HasJson G) (n : ℕ) : Derives G (ref "int") (Nat.toDigits 10 n) := by
  refine derives_digits hG Nat.toDigits_ne_nil (fun c => Toml.isDigit_toDigits) fun h => ?_
  rcases Nat.eq_zero_or_pos n with rfl | hn
  · rfl
  · exact absurd h (head_toDigits hn)

/-- The exponents of `serde_json` are exponents. -/
theorem derives_isExponent (hG : HasJson G) (h : Toml.isExponent t) : Derives G (ref "exp") t := by
  rw [derives_exp hG]
  rw [Toml.isExponent.eq_def] at h
  split at h
  · next e x ds =>
    rw [decide_eq_true_iff] at h
    obtain ⟨he, hs⟩ := h
    split at hs
    · next hsign =>
      refine ⟨e, [x], ds, he, .inr ?_, hs.1, List.all_eq_true.1 hs.2, rfl⟩
      rcases hsign with rfl | rfl
      · exact .inr rfl
      · exact .inl rfl
    · exact ⟨e, [], x :: ds, he, .inl rfl, List.cons_ne_nil _ _, List.all_eq_true.1 hs, rfl⟩
  · exact absurd h Bool.false_ne_true

/-- Its fractions are fractions, maybe with an exponent. -/
theorem derives_isFraction (hG : HasJson G) (h : Toml.isFraction t) :
    ∃ f x, Derives G (ref "frac") f ∧ (x = [] ∨ Derives G (ref "exp") x) ∧ t = f ++ x := by
  rw [Toml.isFraction.eq_def] at h
  split at h
  · next cs =>
    rw [decide_eq_true_iff] at h
    obtain ⟨hne, hrest⟩ := h
    refine ⟨'.' :: cs.takeWhile Char.isDigit, cs.dropWhile Char.isDigit, (derives_frac hG).2
      ⟨_, hne, List.all_eq_true.1 List.all_takeWhile, rfl⟩,
      hrest.imp_right (derives_isExponent hG), ?_⟩
    rw [List.cons_append, List.takeWhile_append_dropWhile]
  · exact absurd h Bool.false_ne_true

/-- Its floats are numbers. -/
theorem derives_isFloat (hG : HasJson G) (h : Toml.isFloat t) : Derives G (ref "number") t := by
  rw [Toml.isFloat, decide_eq_true_iff] at h
  obtain ⟨-, hne, hhead, hrest⟩ := h
  rw [derives_number hG]
  have hint := derives_digits hG hne (List.all_eq_true.1 List.all_takeWhile) hhead
  obtain ⟨m, cs, hm, hcs, rfl⟩ : ∃ m cs, (m = [] ∨ m = ['-']) ∧
      (if t.head? = some '-' then t.tail else t) = cs ∧ t = m ++ cs := by
    split
    · next hsign =>
      obtain ⟨cs, rfl⟩ := List.head?_eq_some_iff.1 hsign
      exact ⟨['-'], cs, .inr rfl, rfl, rfl⟩
    · exact ⟨[], t, .inl rfl, rfl, rfl⟩
  rw [hcs] at hint hrest
  have hsplit := (List.takeWhile_append_dropWhile (p := Char.isDigit) (l := cs)).symm
  rcases hrest with hrest | hrest
  · obtain ⟨f, x, hf, hx, hfx⟩ := derives_isFraction hG hrest
    exact ⟨m, _, f, x, hm, hint, .inr hf, hx, congrArg (m ++ ·) (hfx ▸ hsplit)⟩
  · exact ⟨m, _, [], _, hm, hint, .inl rfl, .inr (derives_isExponent hG hrest),
      congrArg (m ++ ·) hsplit⟩

/-- Every number that is written is derived. -/
theorem derives_renderNumber (hG : HasJson G) {nearest : String → Option String} {n : Number}
    (h : n.Valid nearest) : Derives G (ref "number") (Value.Number.render n) := by
  rcases n with i | text
  · rw [derives_number hG]
    rcases Toml.toList_toString_int i with ⟨n, -, hn⟩ | ⟨n, -, hn⟩
    · refine ⟨[], _, [], [], .inl rfl, derives_toDigits hG n, .inl rfl, .inl rfl, ?_⟩
      rw [List.append_nil, List.append_nil, List.nil_append]
      exact hn
    · refine ⟨['-'], _, [], [], .inr rfl, derives_toDigits hG n, .inl rfl, .inl rfl, ?_⟩
      rw [List.append_nil, List.append_nil]
      exact hn
  · exact derives_isFloat hG h.1

/-- The items of a list, with a comma and nothing else between them. -/
theorem derives_commaJoin (hG : HasJson G) {item : Expr} {ys : List (List Char)} (hne : ys ≠ [])
    (h : ∀ y ∈ ys, Derives G item y) : Derives G (listOf item) (commaJoin ys) := by
  have hspaces : Derives G ws [] := (derives_ws hG).2 isSpaces_nil
  obtain ⟨y, ys, rfl⟩ := List.exists_cons_of_ne_nil hne
  obtain ⟨hy, hys⟩ := List.forall_mem_cons.1 h
  refine derives_seq.2 ⟨y, (ys.map (',' :: ·)).flatten, ?_, hy, .flatten fun t ht => ?_⟩
  · clear hne h hy hys
    induction ys generalizing y with
    | nil => rw [commaJoin_singleton, List.map_nil, List.flatten_nil, List.append_nil]
    | cons z ys ih => rw [commaJoin_cons_cons, ih, List.map_cons, List.flatten_cons]; rfl
  · obtain ⟨z, hz, rfl⟩ := List.mem_map.1 ht
    exact .seq (s := []) hspaces (.seq (s := [',']) .text (.seq (s := []) hspaces (hys z hz)))

/-- A list between brackets or braces, without spaces. -/
theorem derives_items (hG : HasJson G) {item : Expr} {l r : String} {ys : List (List Char)}
    (h : ∀ y ∈ ys, Derives G item y) :
    Derives G (seqs [word l, ws, .opt (listOf item), ws, word r])
      (l.toList ++ (commaJoin ys ++ r.toList)) := by
  rw [derives_group hG]
  rcases ys with _ | ⟨y, ys⟩
  · exact .inl ⟨[], isSpaces_nil, rfl⟩
  · refine .inr ⟨[], _, [], isSpaces_nil, isSpaces_nil,
      derives_commaJoin hG (List.cons_ne_nil y ys) h, ?_⟩
    rw [List.nil_append, List.append_nil]

/-- A field is derived when its value is. -/
theorem derives_renderField (hG : HasJson G) {k : String} {v : Value}
    (h : Derives G (ref "value") v.render) :
    Derives G (ref "pair") (Value.renderField (k, v)) := by
  have hspaces : Derives G ws [] := (derives_ws hG).2 isSpaces_nil
  exact (hG.derives 2).2 (.seq (derives_quote hG k) (.seq (s := []) hspaces
    (.seq (s := [':']) .text (.seq (s := []) hspaces h))))

/-- An object is derived when its values are. -/
theorem derives_object (hG : HasJson G) {fs : List (String × Value)}
    (h : ∀ f ∈ fs, Derives G (ref "value") f.2.render) :
    Derives G (ref "object") (Value.object fs).render := by
  rw [Value.render, Value.renderFields_eq]
  refine (hG.derives 1).2 (derives_items hG fun y hy => ?_)
  obtain ⟨f, hf, rfl⟩ := List.mem_map.1 hy
  exact derives_renderField hG (h f hf)

/-- An array is derived when its items are. -/
theorem derives_array (hG : HasJson G) {xs : List Value}
    (h : ∀ x ∈ xs, Derives G (ref "value") x.render) :
    Derives G (ref "array") (Value.array xs).render := by
  rw [Value.render, Value.renderList_eq]
  refine (hG.derives 3).2 (derives_items hG fun y hy => ?_)
  obtain ⟨x, hx, rfl⟩ := List.mem_map.1 hy
  exact h x hx

mutual

/-- A value is derived, where it is written. -/
theorem derives_render (hG : HasJson G) {nearest : String → Option String} : ∀ {v : Value},
    (∀ n ∈ v.numbers, n.Valid nearest) → Derives G (ref "value") v.render
  | .null, _ => (derives_value hG).2 (by simp)
  | .bool true, _ => (derives_value hG).2 (by simp)
  | .bool false, _ => (derives_value hG).2 (by simp)
  | .number n, h =>
    have hn := derives_renderNumber hG (h n (List.mem_singleton_self n))
    (derives_value hG).2 (.inr (.inr (.inr (.inl hn))))
  | .string s, _ => (derives_value hG).2 (.inr (.inr (.inl (derives_quote hG s))))
  | .array _, h =>
    (derives_value hG).2 (.inr (.inl (derives_array hG (derives_renderList hG h))))
  | .object _, h =>
    (derives_value hG).2 (.inl (derives_object hG (derives_renderFields hG h)))

theorem derives_renderList (hG : HasJson G) {nearest : String → Option String} :
    ∀ {xs : List Value}, (∀ n ∈ Value.numbersList xs, n.Valid nearest) →
      ∀ x ∈ xs, Derives G (ref "value") x.render
  | [], _ => fun _ hx => absurd hx List.not_mem_nil
  | _ :: _, h =>
    have hsplit := List.forall_mem_append.1 h
    List.forall_mem_cons.2 ⟨derives_render hG hsplit.1, derives_renderList hG hsplit.2⟩

theorem derives_renderFields (hG : HasJson G) {nearest : String → Option String} :
    ∀ {fs : List (String × Value)}, (∀ n ∈ Value.numbersFields fs, n.Valid nearest) →
      ∀ f ∈ fs, Derives G (ref "value") f.2.render
  | [], _ => fun _ hx => absurd hx List.not_mem_nil
  | (_, _) :: _, h =>
    have hsplit := List.forall_mem_append.1 h
    List.forall_mem_cons.2 ⟨derives_render hG hsplit.1, derives_renderFields hG hsplit.2⟩

end

end PlanGrammar
end N3ur0n
