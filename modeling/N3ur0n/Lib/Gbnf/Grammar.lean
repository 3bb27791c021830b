import Mathlib.Data.List.Basic

/-!
# GBNF grammars

The grammars of llama.cpp. A *rule* has a name, and stands for an expression of
texts, characters and other rules, in sequences, alternatives and repetitions.

* `Derives`: the texts that are derived from an expression;
* `WellFormed`: the rules have different names, and refer to each other only.
-/

namespace Gbnf

/-- What a rule stands for. A character is one of some ranges, or of none of them. -/
inductive Expr
  | empty
  | text (s : List Char)
  | chars (negated : Bool) (ranges : List (Char × Char))
  | rule (name : List Char)
  | seq (e f : Expr)
  | alt (e f : Expr)
  | opt (e : Expr)
  | star (e : Expr)
  | plus (e : Expr)

/-- The rules, by their names. -/
abbrev Grammar := List (List Char × Expr)

def inClass (negated : Bool) (ranges : List (Char × Char)) (c : Char) : Bool :=
  (ranges.any fun r => r.1 ≤ c ∧ c ≤ r.2) != negated

/-- The rules that an expression refers to. -/
def Expr.rules : Expr → List (List Char)
  | empty | text _ | chars _ _ => []
  | rule name => [name]
  | seq e f | alt e f => e.rules ++ f.rules
  | opt e | star e | plus e => e.rules

structure WellFormed (root : List Char) (G : Grammar) : Prop where
  nodup : (G.map Prod.fst).Nodup
  root_mem : root ∈ G.map Prod.fst
  closed : ∀ r ∈ G, ∀ name ∈ r.2.rules, name ∈ G.map Prod.fst

/-- The text is derived from the expression. -/
inductive Derives (G : Grammar) : Expr → List Char → Prop
  | empty : Derives G .empty []
  | text {s} : Derives G (.text s) s
  | chars {negated ranges c} : inClass negated ranges c → Derives G (.chars negated ranges) [c]
  | rule {name e s} : G.lookup name = some e → Derives G e s → Derives G (.rule name) s
  | seq {e f s t} : Derives G e s → Derives G f t → Derives G (.seq e f) (s ++ t)
  | left {e f s} : Derives G e s → Derives G (.alt e f) s
  | right {e f s} : Derives G f s → Derives G (.alt e f) s
  | none {e} : Derives G (.opt e) []
  | some {e s} : Derives G e s → Derives G (.opt e) s
  | nil {e} : Derives G (.star e) []
  | cons {e s t} : Derives G e s → Derives G (.star e) t → Derives G (.star e) (s ++ t)
  | plus {e s t} : Derives G e s → Derives G (.star e) t → Derives G (.plus e) (s ++ t)

variable {G : Grammar} {e f : Expr} {s t : List Char}

/-! ## What is derived from an expression -/

@[simp] theorem derives_empty : Derives G .empty s ↔ s = [] := by
  constructor
  · rintro ⟨⟩
    rfl
  · rintro rfl
    exact .empty

@[simp] theorem derives_text : Derives G (.text t) s ↔ s = t := by
  constructor
  · rintro ⟨⟩
    rfl
  · rintro rfl
    exact .text

@[simp] theorem derives_chars {negated : Bool} {ranges : List (Char × Char)} :
    Derives G (.chars negated ranges) s ↔ ∃ c, inClass negated ranges c ∧ s = [c] := by
  constructor
  · rintro ⟨⟩
    exact ⟨_, ‹_›, rfl⟩
  · rintro ⟨c, hc, rfl⟩
    exact .chars hc

/-- A rule derives what its expression does. -/
theorem derives_rule {name : List Char} (h : G.lookup name = some e) :
    Derives G (.rule name) s ↔ Derives G e s := by
  constructor
  · rintro ⟨⟩
    rename_i h' hs
    obtain rfl := Option.some.inj (h.symm.trans h')
    exact hs
  · exact .rule h

@[simp] theorem derives_seq :
    Derives G (.seq e f) s ↔ ∃ u v, s = u ++ v ∧ Derives G e u ∧ Derives G f v := by
  constructor
  · rintro ⟨⟩
    exact ⟨_, _, rfl, ‹_›, ‹_›⟩
  · rintro ⟨u, v, rfl, hu, hv⟩
    exact .seq hu hv

@[simp] theorem derives_alt : Derives G (.alt e f) s ↔ Derives G e s ∨ Derives G f s := by
  constructor
  · rintro (_ | _)
    · exact .inl ‹_›
    · exact .inr ‹_›
  · rintro (h | h)
    · exact .left h
    · exact .right h

@[simp] theorem derives_opt : Derives G (.opt e) s ↔ s = [] ∨ Derives G e s := by
  constructor
  · rintro (_ | _)
    · exact .inl rfl
    · exact .inr ‹_›
  · rintro (rfl | h)
    · exact .none
    · exact .some h

theorem Derives.flatten {ts : List (List Char)} (h : ∀ t ∈ ts, Derives G e t) :
    Derives G (.star e) ts.flatten := by
  induction ts with
  | nil => exact .nil
  | cons t ts ih =>
    obtain ⟨ht, hts⟩ := List.forall_mem_cons.1 h
    exact .cons ht (ih hts)

/-- A repetition is a list of parts. -/
theorem derives_star :
    Derives G (.star e) s ↔ ∃ ts : List (List Char), s = ts.flatten ∧ ∀ t ∈ ts, Derives G e t := by
  constructor
  · intro h
    generalize he : Expr.star e = e' at h
    induction h with
    | nil =>
      exact ⟨[], rfl, fun t ht => absurd ht List.not_mem_nil⟩
    | cons ht _ _ ih =>
      obtain rfl := Expr.star.inj he
      obtain ⟨ts, rfl, hparts⟩ := ih rfl
      exact ⟨_ :: ts, rfl, List.forall_mem_cons.2 ⟨ht, hparts⟩⟩
    | _ => cases he
  · rintro ⟨ts, rfl, h⟩
    exact .flatten h

theorem lookup_of_nodup {r : List Char × Expr} (hn : (G.map Prod.fst).Nodup) (hr : r ∈ G) :
    G.lookup r.1 = some r.2 := by
  induction G with
  | nil => exact absurd hr List.not_mem_nil
  | cons r' G ih =>
    obtain ⟨hfirst, hn⟩ := List.nodup_cons.1 hn
    rcases List.mem_cons.1 hr with rfl | hr
    · rw [List.lookup_cons, beq_self_eq_true]
    · have hne : r.1 ≠ r'.1 := fun he => hfirst (he ▸ List.mem_map_of_mem hr)
      rw [List.lookup_cons, beq_false_of_ne hne]
      exact ih hn hr

/-- Each rule of a grammar is found by its name. -/
theorem WellFormed.lookup {root : List Char} {r : List Char × Expr} (h : WellFormed root G)
    (hr : r ∈ G) : G.lookup r.1 = some r.2 := lookup_of_nodup h.nodup hr

/-! ## Characters -/

theorem inClass_iff {ranges : List (Char × Char)} {c : Char} :
    inClass false ranges c ↔ ∃ r ∈ ranges, r.1.toNat ≤ c.toNat ∧ c.toNat ≤ r.2.toNat := by
  rw [inClass, Bool.bne_false, List.any_eq_true]
  refine exists_congr fun r => and_congr_right fun _ => decide_eq_true_iff.trans ?_
  exact and_congr UInt32.le_iff_toNat_le UInt32.le_iff_toNat_le

theorem inClass_true_iff {ranges : List (Char × Char)} {c : Char} :
    inClass true ranges c ↔ ¬inClass false ranges c := by
  rw [inClass, inClass, Bool.bne_true, Bool.bne_false, Bool.not_eq_true']
  exact Bool.eq_false_iff

/-- A class of single characters. -/
theorem inClass_map {cs : List Char} {c : Char} :
    inClass false (cs.map fun c => (c, c)) c ↔ c ∈ cs := by
  rw [inClass_iff]
  constructor
  · rintro ⟨r, hr, hle, hge⟩
    obtain ⟨d, hd, rfl⟩ := List.mem_map.1 hr
    obtain rfl : d = c := Char.toNat_inj.1 (Nat.le_antisymm hle hge)
    exact hd
  · exact fun h => ⟨(c, c), List.mem_map_of_mem h, Nat.le_refl _, Nat.le_refl _⟩

/-- The parts of a repetition, if each is one character. -/
theorem flatten_of_singletons {p : Char → Prop} {ts : List (List Char)}
    (h : ∀ t ∈ ts, ∃ c, p c ∧ t = [c]) : ∀ c ∈ ts.flatten, p c := by
  intro c hc
  obtain ⟨t, ht, hc⟩ := List.mem_flatten.1 hc
  obtain ⟨d, hd, rfl⟩ := h t ht
  obtain rfl := List.mem_singleton.1 hc
  exact hd

/-- A repetition of characters of a class. -/
theorem derives_star_chars {negated : Bool} {ranges : List (Char × Char)} :
    Derives G (.star (.chars negated ranges)) s ↔ ∀ c ∈ s, inClass negated ranges c := by
  rw [derives_star]
  constructor
  · rintro ⟨ts, rfl, h⟩
    exact flatten_of_singletons fun t ht => derives_chars.1 (h t ht)
  · intro h
    refine ⟨s.map fun c => [c], ?_, fun t ht => ?_⟩
    · rw [← List.flatMap_def, List.flatMap_singleton' s]
    · obtain ⟨c, hc, rfl⟩ := List.mem_map.1 ht
      exact .chars (h c hc)

theorem derives_plus_chars {negated : Bool} {ranges : List (Char × Char)} :
    Derives G (.plus (.chars negated ranges)) s ↔
      s ≠ [] ∧ ∀ c ∈ s, inClass negated ranges c := by
  constructor
  · rintro ⟨⟩
    rename_i ht hts
    obtain ⟨c, hc, rfl⟩ := derives_chars.1 ht
    exact ⟨List.cons_ne_nil _ _, List.forall_mem_cons.2 ⟨hc, derives_star_chars.1 hts⟩⟩
  · rintro ⟨hne, h⟩
    obtain ⟨c, s, rfl⟩ := List.exists_cons_of_ne_nil hne
    obtain ⟨hc, hs⟩ := List.forall_mem_cons.1 h
    exact .plus (.chars hc) (derives_star_chars.2 hs)

end Gbnf
