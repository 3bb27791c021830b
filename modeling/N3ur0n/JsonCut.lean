import Mathlib.Data.List.TakeWhile
import N3ur0n.JsonText
import N3ur0n.Lib.Nesting
import N3ur0n.Planner.Reference

/-!
# JSON text, cut

What is read of a JSON text closes its strings and braces, and closes no others. So the
rest of an object whose beginning was lost is no JSON text.

* `takes_readValue`: the text of a value crosses;
* `readText_rest`: the rest of an object is not read.
-/

namespace N3ur0n.Json

open Nesting

variable {α : Type} {num : List Char → Option Number} {p q : Place} {close c : Char}
  {n depth : ℕ} {cs u v : List Char}

/-- The scanner of JSON text. -/
def marks : Marks := ⟨quote, by decide⟩

/-- What the reader takes leads the scanner from one place to another one. -/
def Takes (p q : Place) (read : Reader α) : Prop :=
  ∀ cs r, read cs = some r → ∃ t, cs = t ++ r.2 ∧ Leads marks p q t

/-- The reader of a group takes what crosses, and the closing character. -/
def TakesUpTo (close : Char) (read : Reader α) : Prop :=
  ∀ cs r, read cs = some r → ∃ t, cs = t ++ close :: r.2 ∧ Crosses marks t

theorem isWhitespace_of_isSpace (h : isSpace c) : isWhitespace c := by
  have hc : c = ' ' ∨ c = '\t' ∨ c = '\n' ∨ c = '\r' := of_decide_eq_true h
  rcases hc with rfl | rfl | rfl | rfl
  · decide
  · decide
  · decide
  · decide

/-- A blank between two tokens is no mark. -/
theorem plain_of_isSpace (h : isSpace c) : Plain marks c := by
  have hc : c = ' ' ∨ c = '\t' ∨ c = '\n' ∨ c = '\r' := of_decide_eq_true h
  rcases hc with rfl | rfl | rfl | rfl
  · decide
  · decide
  · decide
  · decide

/-- No character of a number is a mark. -/
theorem plain_of_isNumberChar (h : isNumberChar c) : Plain marks c :=
  ⟨isNumberChar_ne h (by decide), isNumberChar_ne h (by decide), isNumberChar_ne h (by decide),
    isNumberChar_ne h (by decide)⟩

/-- The spaces that are skipped are crossed. -/
theorem exists_skipSpaces (cs : List Char) : ∃ w, cs = w ++ skipSpaces cs ∧ Crosses marks w :=
  ⟨cs.takeWhile isSpace, List.takeWhile_append_dropWhile.symm,
    crosses_plain fun _ hc => plain_of_isSpace (List.mem_takeWhile_imp hc)⟩

/-! ## Strings -/

theorem move_hex (h : (hexValue c).isSome) (d : ℕ) :
    move marks (.inside, d) c = some (.inside, d) := by
  have hslash : c ≠ '\\' := by
    rintro rfl
    exact absurd h (by decide)
  have hquote : c ≠ quote := by
    rintro rfl
    exact absurd h (by decide)
  rw [move, if_neg hslash]
  exact congrArg some (congrArg (·, d) (if_neg hquote))

/-- Four hexadecimal digits are taken inside the string. -/
theorem takes_readUnit : Takes .inside .inside readUnit := by
  intro cs r h
  rcases cs with _ | ⟨a, _ | ⟨b, _ | ⟨c, _ | ⟨d, cs⟩⟩⟩⟩
  · exact absurd h (by simp [readUnit])
  · exact absurd h (by simp [readUnit])
  · exact absurd h (by simp [readUnit])
  · exact absurd h (by simp [readUnit])
  · obtain ⟨x, ha, h⟩ := Option.bind_eq_some_iff.1 h
    obtain ⟨y, hb, h⟩ := Option.bind_eq_some_iff.1 h
    obtain ⟨z, hc, h⟩ := Option.bind_eq_some_iff.1 h
    obtain ⟨t, hd, h⟩ := Option.bind_eq_some_iff.1 h
    obtain rfl := Option.some.inj h
    have hmove {e : Char} {k : ℕ} (he : hexValue e = some k) := move_hex (by rw [he]; rfl)
    exact ⟨[a, b, c, d], rfl,
      .cons (hmove ha) (.cons (hmove hb) (.cons (hmove hc) (.cons (hmove hd) leads_nil)))⟩

theorem takes_readUnicode : Takes .inside .inside readUnicode := by
  intro cs r h
  obtain ⟨⟨k, cs₁⟩, hunit, hrest⟩ := Option.bind_eq_some_iff.1 h
  obtain ⟨t, rfl, ht⟩ := takes_readUnit _ _ hunit
  simp only at hrest
  split_ifs at hrest
  · split at hrest
    · next cs₂ =>
      obtain ⟨⟨m, cs₃⟩, hunit', hlast⟩ := Option.bind_eq_some_iff.1 hrest
      obtain ⟨t', rfl, ht'⟩ := takes_readUnit _ _ hunit'
      simp only at hlast
      split_ifs at hlast
      obtain rfl := Option.some.inj hlast
      refine ⟨t ++ '\\' :: 'u' :: t', by simp, ht.append ?_⟩
      exact .cons (q := .escaped) (fun _ => rfl) (.cons (fun _ => rfl) ht')
    · exact absurd hrest (by simp)
  · obtain rfl := Option.some.inj hrest
    exact ⟨t, rfl, ht⟩

/-- What follows a backslash is taken, and the string goes on. -/
theorem takes_readEscape : Takes .escaped .inside readEscape := by
  intro cs r h
  rcases cs with _ | ⟨e, cs⟩
  · exact absurd h (by simp [readEscape])
  · rw [readEscape] at h
    split_ifs at h
    · obtain ⟨t, rfl, ht⟩ := takes_readUnicode _ _ h
      exact ⟨e :: t, rfl, .cons (fun _ => rfl) ht⟩
    · obtain rfl := Option.some.inj h
      exact ⟨[e], rfl, .cons (fun _ => rfl) leads_nil⟩
    · obtain ⟨x, -, rfl⟩ := Option.map_eq_some_iff.1 h
      exact ⟨[e], rfl, .cons (fun _ => rfl) leads_nil⟩

/-- The characters of a string, up to its closing quote. -/
theorem takes_readChars : Takes .inside .outside (readChars n) := by
  induction n with
  | zero => exact fun cs r h => absurd h (by simp [readChars])
  | succ n ih =>
    intro cs r h
    rcases cs with _ | ⟨c, cs⟩
    · exact absurd h (by simp [readChars])
    · rw [readChars] at h
      split_ifs at h with hquote hslash
      · obtain rfl := Option.some.inj h
        exact ⟨[c], rfl, .cons (fun _ => by subst hquote; rfl) leads_nil⟩
      · obtain ⟨s, hescape, h⟩ := Option.bind_eq_some_iff.1 h
        obtain ⟨s', hchars, rfl⟩ := Option.map_eq_some_iff.1 h
        obtain ⟨t, rfl, ht⟩ := takes_readEscape _ _ hescape
        obtain ⟨t', hcs, ht'⟩ := ih _ _ hchars
        refine ⟨c :: (t ++ t'), by rw [hcs, List.cons_append, List.append_assoc], ?_⟩
        exact .cons (fun _ => by subst hslash; rfl) (ht.append ht')
      · obtain ⟨s', hchars, rfl⟩ := Option.map_eq_some_iff.1 h
        obtain ⟨t, rfl, ht⟩ := ih _ _ hchars
        refine ⟨c :: t, rfl, .cons (fun d => ?_) ht⟩
        rw [move, if_neg hslash]
        exact congrArg some (congrArg (·, d) (if_neg hquote))

/-- A string is taken up to its closing quote. -/
theorem takes_readString : Takes .inside .outside (readString n) := by
  intro cs r h
  obtain ⟨s, hchars, rfl⟩ := Option.map_eq_some_iff.1 h
  exact takes_readChars _ _ hchars

/-! ## Values -/

/-- Items are taken up to the bracket that closes their list. -/
theorem takesUpTo_readItems {item : Reader α} (hitem : Takes .outside .outside item) :
    TakesUpTo close (readItems close item n) := by
  induction n with
  | zero => exact fun cs r h => absurd h (by simp [readItems])
  | succ n ih =>
    intro cs r h
    obtain ⟨⟨x, cs₁⟩, hx, hrest⟩ := Option.bind_eq_some_iff.1 h
    obtain ⟨t, rfl, ht⟩ := hitem _ _ hx
    obtain ⟨w, hw, hspaces⟩ := exists_skipSpaces cs₁
    simp only at hrest ⊢
    split at hrest
    · next c cs₂ hskip =>
      rw [hskip] at hw
      split_ifs at hrest with hcomma hclose
      · obtain ⟨s, hs, rfl⟩ := Option.map_eq_some_iff.1 hrest
        obtain ⟨t', rfl, ht'⟩ := ih _ _ hs
        refine ⟨t ++ (w ++ c :: t'), by rw [hw]; simp, ht.append (hspaces.append ?_)⟩
        have hplain : Plain marks c := by
          rw [hcomma]
          decide
        exact (crosses_plain (List.forall_mem_singleton.2 hplain)).append ht'
      · obtain rfl := Option.some.inj hrest
        exact ⟨t ++ w, by rw [hw, ← hclose, List.append_assoc], ht.append hspaces⟩
    · exact absurd hrest (by simp)

/-- So is a list, which may have no items. -/
theorem takesUpTo_readGroup {item : Reader α} (hitem : Takes .outside .outside item) :
    TakesUpTo close (readGroup close item n) := by
  intro cs r h
  obtain ⟨w, hw, hspaces⟩ := exists_skipSpaces cs
  rw [readGroup] at h
  split at h
  · next c cs₁ hskip =>
    rw [hskip] at hw
    split_ifs at h with hclose
    · obtain rfl := Option.some.inj h
      exact ⟨w, by rw [hw, hclose], hspaces⟩
    · obtain ⟨t, ht, hcross⟩ := takesUpTo_readItems hitem _ _ h
      exact ⟨w ++ t, by rw [hw, ht, List.append_assoc], hspaces.append hcross⟩
  · exact absurd h (by simp)

/-- A field is taken with its key and its colon. -/
theorem takes_readField {value : Reader Value} (hvalue : Takes .outside .outside value) :
    Takes .outside .outside (readField value n) := by
  intro cs r h
  obtain ⟨w, hw, hspaces⟩ := exists_skipSpaces cs
  rw [readField] at h
  split at h
  · next c cs₁ hskip =>
    rw [hskip] at hw
    split_ifs at h with hquote
    obtain ⟨⟨k, cs₂⟩, hkey, hrest⟩ := Option.bind_eq_some_iff.1 h
    obtain ⟨t, rfl, ht⟩ := takes_readString _ _ hkey
    obtain ⟨w', hw', hspaces'⟩ := exists_skipSpaces cs₂
    simp only at hrest
    split at hrest
    · next c' cs₃ hskip' =>
      rw [hskip'] at hw'
      split_ifs at hrest with hcolon
      obtain ⟨s, hs, rfl⟩ := Option.map_eq_some_iff.1 hrest
      obtain ⟨t', rfl, ht'⟩ := hvalue _ _ hs
      refine ⟨w ++ (c :: t ++ (w' ++ c' :: t')), by rw [hw, hw']; simp, hspaces.append ?_⟩
      have hplain : Plain marks c' := by
        rw [hcolon]
        decide
      have hkey : Crosses marks (c :: t) := by
        rw [hquote]
        exact crosses_quote ht
      exact hkey.append
        (hspaces'.append ((crosses_plain (List.forall_mem_singleton.2 hplain)).append ht'))
    · exact absurd hrest (by simp)
  · exact absurd h (by simp)

/-- A value that is no group is taken. -/
theorem takes_readScalar : Takes .outside .outside (readScalar num) := by
  intro cs r h
  have hplain {t : List Char} (ht : t.all fun c => decide (Plain marks c)) : Crosses marks t :=
    crosses_plain fun c hc => of_decide_eq_true (List.all_eq_true.1 ht c hc)
  unfold readScalar at h
  split at h
  · obtain rfl := Option.some.inj h
    exact ⟨"null".toList, rfl, hplain (by decide)⟩
  · obtain rfl := Option.some.inj h
    exact ⟨"true".toList, rfl, hplain (by decide)⟩
  · obtain rfl := Option.some.inj h
    exact ⟨"false".toList, rfl, hplain (by decide)⟩
  · obtain ⟨m, -, rfl⟩ := Option.map_eq_some_iff.1 h
    exact ⟨_, List.takeWhile_append_dropWhile.symm,
      crosses_plain fun c hc => plain_of_isNumberChar (List.mem_takeWhile_imp hc)⟩

/-- What is between brackets is crossed one level deeper. -/
theorem crosses_brackets {t : List Char} (h : Crosses marks t) :
    Crosses marks ('[' :: t ++ [']']) := by
  have hopen : Plain marks '[' := by decide
  have hclose : Plain marks ']' := by decide
  exact ((crosses_plain (List.forall_mem_singleton.2 hopen)).append h).append
    (crosses_plain (List.forall_mem_singleton.2 hclose))

/-- The text of a value crosses. -/
theorem takes_readValue : Takes .outside .outside (readValue num n depth) := by
  induction n generalizing depth with
  | zero => exact fun cs r h => absurd h (by simp [readValue])
  | succ n ih =>
    intro cs r h
    obtain ⟨w, hw, hspaces⟩ := exists_skipSpaces cs
    rw [readValue] at h
    split at h
    · exact absurd h (by simp)
    · next c cs₁ hskip =>
      rw [hskip] at hw
      split_ifs at h with hquote hbracket hzero hbrace hzero
      · obtain ⟨s, hs, rfl⟩ := Option.map_eq_some_iff.1 h
        obtain ⟨t, rfl, ht⟩ := takes_readString _ _ hs
        exact ⟨w ++ c :: t, by rw [hw]; simp, hspaces.append (hquote ▸ crosses_quote ht)⟩
      · obtain ⟨s, hs, rfl⟩ := Option.map_eq_some_iff.1 h
        obtain ⟨t, rfl, ht⟩ := takesUpTo_readGroup ih _ _ hs
        exact ⟨w ++ ('[' :: t ++ [']']), by rw [hw, hbracket]; simp,
          hspaces.append (crosses_brackets ht)⟩
      · obtain ⟨s, hs, rfl⟩ := Option.map_eq_some_iff.1 h
        obtain ⟨t, rfl, ht⟩ := takesUpTo_readGroup (takes_readField ih) _ _ hs
        exact ⟨w ++ ('{' :: t ++ ['}']), by rw [hw, hbrace]; simp,
          hspaces.append (crosses_braces ht)⟩
      · obtain ⟨t, ht, hcross⟩ := takes_readScalar _ _ h
        exact ⟨w ++ t, by rw [hw, ht, List.append_assoc], hspaces.append hcross⟩

/-! ## Objects -/

/-- The text of an object: spaces, then what crosses between its braces. -/
theorem readValue_object {fs : List (String × Value)} {rest : List Char}
    (h : readValue num n depth cs = some (.object fs, rest)) :
    ∃ w t, cs = w ++ '{' :: (t ++ '}' :: rest) ∧ (∀ c ∈ w, isSpace c) ∧ Crosses marks t := by
  rcases n with _ | n
  · exact absurd h (by simp [readValue])
  · have hw : cs = cs.takeWhile isSpace ++ skipSpaces cs := List.takeWhile_append_dropWhile.symm
    rw [readValue] at h
    split at h
    · exact absurd h (by simp)
    · next c cs₁ hskip =>
      rw [hskip] at hw
      split_ifs at h with hquote hbracket hzero hbrace hzero
      · obtain ⟨s, -, hs⟩ := Option.map_eq_some_iff.1 h
        exact absurd hs (by simp)
      · obtain ⟨s, -, hs⟩ := Option.map_eq_some_iff.1 h
        exact absurd hs (by simp)
      · obtain ⟨s, hs, heq⟩ := Option.map_eq_some_iff.1 h
        obtain ⟨t, ht, hcross⟩ := takesUpTo_readGroup (takes_readField takes_readValue) _ _ hs
        obtain rfl : s.2 = rest := congrArg Prod.snd heq
        exact ⟨_, t, by rw [← ht, ← hbrace, ← hw], fun c hc => List.mem_takeWhile_imp hc, hcross⟩
      · exact absurd (readScalar_depth h) (by simp [Value.depth])

theorem skipSpaces_eq_nil : skipSpaces cs = [] ↔ ∀ c ∈ cs, isSpace c := List.dropWhile_eq_nil_iff

/-- The text that is read crosses, and is not of spaces only. -/
theorem crosses_of_readText {x : Value} (h : readText num depth v = some x) :
    Crosses marks v ∧ ∃ c ∈ v, ¬ isSpace c := by
  obtain ⟨⟨y, rest⟩, hvalue, hrest⟩ := Option.bind_eq_some_iff.1 h
  split_ifs at hrest with hspaces
  obtain ⟨t, ht, hcross⟩ := takes_readValue _ _ hvalue
  refine ⟨ht ▸ hcross.append (crosses_plain fun c hc => ?_), ?_⟩
  · exact plain_of_isSpace (skipSpaces_eq_nil.1 hspaces c hc)
  · by_contra hall
    push Not at hall
    rw [readValue, skipSpaces_eq_nil.2 hall] at hvalue
    exact absurd hvalue (by simp)

/-- The rest of an object is not read, if more than spaces are lost. -/
theorem readText_rest {depth' : ℕ} {fs : List (String × Value)}
    (h : readText num depth (u ++ v) = some (.object fs)) (hu : ∃ c ∈ u, ¬ isSpace c) :
    readText num depth' v = none := by
  obtain ⟨c, hc, hspace⟩ := hu
  obtain ⟨⟨y, rest⟩, hvalue, hrest⟩ := Option.bind_eq_some_iff.1 h
  split_ifs at hrest with hspaces
  obtain rfl : y = .object fs := Option.some.inj hrest
  obtain ⟨w, t, htext, hw, ht⟩ := readValue_object hvalue
  have hrestSpaces := skipSpaces_eq_nil.1 hspaces
  -- The first brace is lost.
  obtain ⟨a, rfl, ha⟩ : ∃ a, u = w ++ '{' :: a ∧ t ++ '}' :: rest = a ++ v := by
    rcases List.append_eq_append_iff.1 htext with ⟨a, rfl, -⟩ | ⟨a, rfl, ha⟩
    · exact absurd (hw c (List.mem_append_left a hc)) hspace
    · rcases a with _ | ⟨b, a⟩
      · rw [List.append_nil] at hc
        exact absurd (hw c hc) hspace
      · rw [List.cons_append, List.cons.injEq] at ha
        exact ⟨a, by rw [ha.1], ha.2⟩
  by_contra hread
  obtain ⟨x, hx⟩ := Option.ne_none_iff_exists'.1 hread
  obtain ⟨hcross, b, hb, hbspace⟩ := crosses_of_readText hx
  have hsuffix := ht.suffix_of_braces
    (crosses_plain fun c hc => plain_of_isSpace (hrestSpaces c hc)) (List.ne_nil_of_mem hb) ha hcross
  exact hbspace (hrestSpaces b (hsuffix.subset hb))

end N3ur0n.Json
