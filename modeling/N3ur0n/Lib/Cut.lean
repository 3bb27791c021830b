import Mathlib.Data.List.DropRight
import N3ur0n.Lib.Text

/-!
# Cutting texts

Many small parsers read a text from left to right, and at each position either
recognise a token, jumping over the text it covers, or leave one character to
itself. `cut` is that loop, for any way of recognising tokens.

How a token is recognised may depend on some state of the program. Two ways of
recognising tokens cut a text alike as soon as they agree at the positions one
of them *visits* (`cut_congr`): what it jumps over does not matter.
-/

namespace Cut

variable {α β : Type*}

/-- The text before the first `c`, if there is a `c`. -/
def upTo [DecidableEq β] (c : β) : List β → Option (List β)
  | [] => none
  | x :: xs => if x = c then some [] else (upTo c xs).map (x :: ·)

theorem upTo_append_cons [DecidableEq β] (c : β) (s t : List β) :
    upTo c (s ++ c :: t) = some (s.takeWhile (· ≠ c)) := by
  induction s with
  | nil => simp [upTo]
  | cons x s ih =>
    by_cases hx : x = c
    · simp [upTo, hx]
    · simp [upTo, hx, ih]

/-- What is before the first `c` is followed by it. -/
theorem upTo_eq_some [DecidableEq β] {c : β} {s u : List β} :
    upTo c s = some u ↔ ∃ v, s = u ++ c :: v ∧ c ∉ u := by
  induction s generalizing u with
  | nil => simp [upTo]
  | cons x s ih =>
    rw [upTo]
    split_ifs with hx
    · subst hx
      constructor
      · intro hu
        obtain rfl := Option.some.inj hu
        exact ⟨s, rfl, List.not_mem_nil⟩
      · rintro ⟨v, hv, hc⟩
        rcases u with _ | ⟨y, u⟩
        · rfl
        · exact absurd (List.cons.inj hv).1 fun e => hc (e ▸ List.mem_cons_self)
    · simp only [Option.map_eq_some_iff, ih]
      constructor
      · rintro ⟨u, ⟨v, rfl, hc⟩, rfl⟩
        exact ⟨v, rfl, List.not_mem_cons_of_ne_of_not_mem (Ne.symm hx) hc⟩
      · rintro ⟨v, hv, hc⟩
        rcases u with _ | ⟨y, u⟩
        · exact absurd (List.cons.inj hv).1 hx
        · rw [List.cons_append, List.cons.injEq] at hv
          obtain ⟨rfl, rfl⟩ := hv
          exact ⟨u, ⟨v, rfl, List.not_mem_of_not_mem_cons hc⟩, rfl⟩

theorem upTo_eq_none [DecidableEq β] {c : β} {s : List β} : upTo c s = none ↔ c ∉ s := by
  induction s with
  | nil => simp [upTo]
  | cons x s ih =>
    rw [upTo, List.mem_cons, not_or]
    split_ifs with hx
    · simp [hx]
    · simp [ih, Ne.symm hx]

/-- What is read up to a character does not depend on what follows it. -/
theorem takeWhile_append_cons {p : β → Bool} {c : β} (hc : ¬p c) (s t : List β) :
    (s ++ c :: t).takeWhile p = s.takeWhile p := by
  induction s with
  | nil => simp [hc]
  | cons x s ih =>
    by_cases hx : p x
    · simp [hx, ih]
    · simp [hx]

/-- The texts before and after the first `sep`, if there is one. -/
def splitOnce [DecidableEq β] (sep : List β) : List β → Option (List β × List β)
  | [] => if sep = [] then some ([], []) else none
  | c :: cs =>
    if sep.isPrefixOf (c :: cs) then some ([], (c :: cs).drop sep.length)
    else (splitOnce sep cs).map fun r => (c :: r.1, r.2)

/-- The text before the last `sep`, if there is one; `sep` is not empty. -/
def upToLast [DecidableEq β] (sep : List β) : List β → Option (List β)
  | [] => none
  | c :: cs =>
    match upToLast sep cs with
    | some u => some (c :: u)
    | none => if sep.isPrefixOf (c :: cs) then some [] else none

/-- What remains of a text, with the spaces at its two ends removed. -/
def trim (space : β → Bool) (s : List β) : List β := (s.dropWhile space).rdropWhile space

/-- A text without spaces is left as it is. -/
theorem trim_of_forall {space : β → Bool} {s : List β} (h : ∀ c ∈ s, space c = false) :
    trim space s = s := by
  have hdrop : s.dropWhile space = s := by
    rcases s with _ | ⟨c, s⟩
    · rfl
    · exact List.dropWhile_cons_of_neg (by rw [h c List.mem_cons_self]; exact Bool.false_ne_true)
  rw [trim, hdrop]
  refine List.rdropWhile_eq_self_iff.2 fun hs => ?_
  rw [h _ (List.getLast_mem hs)]
  exact Bool.false_ne_true

section Last

variable [DecidableEq β] {sep s u v w : List β} {c x : β}

theorem upToLast_append (h : upToLast sep v = some w) : upToLast sep (u ++ v) = some (u ++ w) := by
  induction u with
  | nil => exact h
  | cons c u ih => rw [List.cons_append, upToLast, ih, List.cons_append]

theorem upToLast_eq_none (hsep : sep ≠ []) : upToLast sep s = none ↔ ¬sep <:+: s := by
  induction s with
  | nil => simp [upToLast, hsep]
  | cons c cs ih =>
    rw [List.infix_cons_iff, upToLast]
    cases h : upToLast sep cs with
    | some u =>
      have hcs : sep <:+: cs := not_not.1 (ih.not.1 (by simp [h]))
      simp [hcs]
    | none =>
      have hcs : ¬sep <:+: cs := ih.1 h
      simp [hcs, List.isPrefixOf_iff_prefix]

theorem splitOnce_eq_none (hx : x ∉ s) : splitOnce [x] s = none := by
  induction s with
  | nil => rfl
  | cons c s ih =>
    obtain ⟨hc, hs⟩ := not_or.1 (List.mem_cons.not.1 hx)
    simp [splitOnce, ih hs, hc]

/-- A text is split at a separator whose first character is not before it. -/
theorem splitOnce_append_append (hx : x ∉ u) :
    splitOnce (x :: sep) (u ++ (x :: sep ++ v)) = some (u, v) := by
  induction u with
  | nil => simp [splitOnce]
  | cons c u ih =>
    obtain ⟨hc, hu⟩ := not_or.1 (List.mem_cons.not.1 hx)
    rw [List.cons_append, splitOnce, if_neg (by simp [hc]), ih hu]
    rfl

theorem splitOnce_append (hx : x ∉ u) : splitOnce [x] (u ++ x :: v) = some (u, v) :=
  splitOnce_append_append hx

/-- Two texts, split by a character that is in neither of the first halves, are the
    same only if their halves are. -/
theorem append_cons_inj {u' v' : List β} (hu : x ∉ u) (hu' : x ∉ u')
    (h : u ++ x :: v = u' ++ x :: v') : u = u' ∧ v = v' := by
  have hsplit := congrArg (splitOnce [x]) h
  rw [splitOnce_append hu, splitOnce_append hu', Option.some_inj, Prod.mk.injEq] at hsplit
  exact hsplit

/-- A text is split at a doubled character, exactly if what is before neither has it
    doubled nor ends with it. -/
theorem splitOnce_pair_append :
    splitOnce [x, x] (u ++ ([x, x] ++ v)) = some (u, v) ↔ ¬[x, x] <:+: u ∧ ¬[x] <:+ u := by
  induction u with
  | nil => simp [splitOnce]
  | cons c u ih =>
    rw [List.cons_append, splitOnce, List.infix_cons_iff, List.suffix_cons_iff]
    split_ifs with hc
    · -- The separator is already at the head, where the text before it is empty.
      have hhead : [x, x] <+: c :: u ∨ [x] = c :: u := by
        obtain ⟨rfl, h⟩ := List.cons_prefix_cons.1 (List.isPrefixOf_iff_prefix.1 hc)
        rcases u with - | ⟨d, u⟩
        · exact Or.inr rfl
        · obtain ⟨rfl, -⟩ := List.cons_prefix_cons.1 h
          exact Or.inl (List.prefix_append [x, x] u)
      refine iff_of_false (by simp) fun h => ?_
      rcases hhead with hhead | hhead
      · exact h.1 (Or.inl hhead)
      · exact h.2 (Or.inl hhead)
    · have hpre : ¬[x, x] <+: c :: u := fun h =>
        hc (List.isPrefixOf_iff_prefix.2 (h.trans ⟨[x, x] ++ v, rfl⟩))
      have hne : [x] ≠ c :: u := by
        rintro heq
        obtain ⟨rfl, rfl⟩ := List.cons.inj heq
        exact hc (List.isPrefixOf_iff_prefix.2 ⟨x :: v, rfl⟩)
      simp only [hpre, hne, false_or]
      rw [← ih]
      simp [Option.map_eq_some_iff]

/-- A text is split if the separator is somewhere in it. -/
theorem splitOnce_eq_none_iff : splitOnce sep s = none ↔ ¬sep <:+: s := by
  induction s with
  | nil => simp [splitOnce]
  | cons c s ih =>
    rw [splitOnce, List.infix_cons_iff, ← List.isPrefixOf_iff_prefix]
    split_ifs with hc
    · simp [hc]
    · simp [hc, ih]

/-- The separator is between the two texts. -/
theorem eq_of_splitOnce (h : splitOnce sep s = some (u, v)) : s = u ++ (sep ++ v) := by
  induction s generalizing u with
  | nil =>
    obtain ⟨rfl, rfl, rfl⟩ : sep = [] ∧ u = [] ∧ v = [] := by simpa [splitOnce, eq_comm] using h
    rfl
  | cons c s ih =>
    rw [splitOnce] at h
    split_ifs at h with hc
    · obtain ⟨t, ht⟩ := List.isPrefixOf_iff_prefix.1 hc
      rw [← ht, List.drop_left, Option.some.injEq, Prod.mk.injEq] at h
      rw [← ht, ← h.1, h.2, List.nil_append]
    · obtain ⟨⟨u', v'⟩, hs, he⟩ := Option.map_eq_some_iff.1 h
      obtain ⟨rfl, rfl⟩ := Prod.mk.inj he
      rw [ih hs, List.cons_append]

/-- What follows a text does not change where it is split. -/
theorem splitOnce_append_right (h : splitOnce sep s = some (u, v)) (t : List β) :
    splitOnce sep (s ++ t) = some (u, v ++ t) := by
  induction s generalizing u with
  | nil =>
    obtain ⟨rfl, rfl, rfl⟩ : sep = [] ∧ u = [] ∧ v = [] := by simpa [splitOnce, eq_comm] using h
    rcases t with - | ⟨c, t⟩
    · rfl
    · simp [splitOnce]
  | cons c s ih =>
    rw [splitOnce] at h
    rw [List.cons_append, splitOnce]
    split_ifs at h with hc
    · obtain ⟨t', ht⟩ := List.isPrefixOf_iff_prefix.1 hc
      rw [← ht, List.drop_left, Option.some.injEq, Prod.mk.injEq] at h
      have happ : c :: (s ++ t) = sep ++ (t' ++ t) := by
        rw [← List.cons_append, ← ht, List.append_assoc]
      rw [happ, if_pos (List.isPrefixOf_iff_prefix.2 (List.prefix_append _ _)), List.drop_left,
        ← h.1, h.2]
    · obtain ⟨⟨u', v'⟩, hs, he⟩ := Option.map_eq_some_iff.1 h
      obtain ⟨rfl, rfl⟩ := Prod.mk.inj he
      have hlen : sep.length ≤ (c :: s).length := by
        rw [eq_of_splitOnce hs]
        simp only [List.length_cons, List.length_append]
        omega
      rw [ih hs, Option.map_some, if_neg fun hp => hc ?_]
      exact List.isPrefixOf_iff_prefix.2 (List.prefix_of_prefix_length_le
        (List.isPrefixOf_iff_prefix.1 hp) (List.prefix_append (c :: s) t) hlen)

end Last

section Affixes

variable {sep u v : List β} {c : β}

theorem prefix_append_cons (hc : c ∉ sep) : sep <+: u ++ c :: v ↔ sep <+: u := by
  constructor
  · intro h
    rcases le_or_gt sep.length u.length with hle | hlt
    · exact List.prefix_of_prefix_length_le h (List.prefix_append u _) hle
    · have happ : u ++ c :: v = (u ++ [c]) ++ v := by simp
      have hu : u ++ [c] <+: sep :=
        List.prefix_of_prefix_length_le (happ ▸ List.prefix_append _ v) h
          (by rw [List.length_append]; exact hlt)
      exact absurd (hu.subset (by simp)) hc
  · exact fun h => h.trans (List.prefix_append u _)

theorem infix_append_cons (hc : c ∉ sep) : sep <:+: u ++ c :: v ↔ sep <:+: u ∨ sep <:+: v := by
  constructor
  · intro h
    induction u with
    | nil =>
      rcases List.infix_cons_iff.1 h with h | h
      · rcases sep with _ | ⟨d, sep⟩
        · exact .inl List.nil_infix
        · obtain rfl := (List.cons_prefix_cons.1 h).1
          exact absurd List.mem_cons_self hc
      · exact .inr h
    | cons d u ih =>
      rcases List.infix_cons_iff.1 h with h | h
      · exact .inl ((prefix_append_cons hc).1 h).isInfix
      · exact (ih h).imp_left fun h => List.infix_cons h
  · rintro (h | h)
    · exact h.trans (List.prefix_append u _).isInfix
    · exact (List.infix_cons h).trans (List.suffix_append u _).isInfix

end Affixes

/-- Where a text begins and ends without spaces, those around it are trimmed. -/
theorem trim_append {space : β → Bool} {u m v : List β} {c d : β} {m₁ m₂ : List β}
    (hc : m = c :: m₁) (hspace : space c = false) (hd : m = m₂ ++ [d]) (hspace' : space d = false) :
    trim space (u ++ m ++ v) = u.dropWhile space ++ m ++ v.rdropWhile space := by
  have hmid : (m ++ v).dropWhile space = m ++ v := by
    rw [hc, List.cons_append, List.dropWhile_cons_of_neg (by simp [hspace])]
  have hleft : (u ++ m ++ v).dropWhile space = u.dropWhile space ++ m ++ v := by
    rw [List.append_assoc, List.dropWhile_append, hmid, List.append_assoc]
    split
    · rename_i h
      rw [List.isEmpty_iff.1 h]
      rfl
    · rfl
  have hmid' : (m.reverse ++ (u.dropWhile space).reverse).dropWhile space =
      m.reverse ++ (u.dropWhile space).reverse := by
    rw [hd, List.reverse_append, List.reverse_singleton, List.singleton_append, List.cons_append,
      List.dropWhile_cons_of_neg (by simp [hspace'])]
  rw [trim, hleft, List.rdropWhile, List.reverse_append, List.reverse_append, List.dropWhile_append,
    hmid']
  split
  · rename_i h
    rw [List.rdropWhile, List.isEmpty_iff.1 h]
    simp
  · simp [List.rdropWhile]

/-- What has no spaces at its ends is kept. -/
theorem infix_trim {space : β → Bool} {sep s : List β} (hsep : ∀ c ∈ sep, space c = false)
    (h : sep <:+: s) : sep <:+: trim space s := by
  obtain ⟨u, v, rfl⟩ := h
  rcases List.eq_nil_or_concat sep with rfl | ⟨m₂, d, hd⟩
  · exact List.nil_infix
  · rw [List.concat_eq_append] at hd
    obtain ⟨c, m₁, hc⟩ := List.exists_cons_of_ne_nil (l := sep) (by rw [hd]; simp)
    rw [trim_append hc (hsep c (by rw [hc]; exact List.mem_cons_self)) hd
      (hsep d (by rw [hd]; simp))]
    exact List.infix_append _ _ _

/-- A text is what remains of it when trimmed, with the spaces around. -/
theorem append_trim_append (space : β → Bool) (s : List β) :
    s.takeWhile space ++ (trim space s ++ (s.dropWhile space).rtakeWhile space) = s := by
  rw [trim, List.rdropWhile_append_rtakeWhile, List.takeWhile_append_dropWhile]

theorem rdropWhile_append {space : β → Bool} {u v : List β} (h : ∃ c ∈ v, ¬ space c) :
    (u ++ v).rdropWhile space = u ++ v.rdropWhile space := by
  obtain ⟨c, hc, hspace⟩ := h
  have hne : ¬ (v.reverse.dropWhile space).isEmpty := fun hnil =>
    hspace (List.dropWhile_eq_nil_iff.1 (List.isEmpty_iff.1 hnil) c (List.mem_reverse.2 hc))
  rw [List.rdropWhile, List.reverse_append, List.dropWhile_append, if_neg hne,
    List.reverse_append, List.reverse_reverse, List.rdropWhile]

theorem exists_mem_dropWhile {space : β → Bool} {u : List β} (h : ∃ c ∈ u, ¬ space c) :
    ∃ c ∈ u.dropWhile space, ¬ space c := by
  obtain ⟨c, hc, hspace⟩ := h
  have hne : u.dropWhile space ≠ [] := fun hnil =>
    hspace (List.dropWhile_eq_nil_iff.1 hnil c hc)
  exact ⟨_, List.head_mem hne, by rw [List.head_dropWhile_not space hne]; exact Bool.false_ne_true⟩

/-- A text that is trimmed ends with its rest, trimmed. -/
theorem exists_trim_append {space : β → Bool} {u v : List β} (hu : ∃ c ∈ u, ¬ space c)
    (hv : ∃ c ∈ v, ¬ space c) :
    ∃ u', trim space (u ++ v) = u' ++ trim space v ∧ ∃ c ∈ u', ¬ space c := by
  obtain ⟨c, hc, hspace⟩ := exists_mem_dropWhile hu
  have hsplit : v.rdropWhile space = v.takeWhile space ++ trim space v := by
    rw [trim, ← rdropWhile_append (exists_mem_dropWhile hv), List.takeWhile_append_dropWhile]
  refine ⟨u.dropWhile space ++ v.takeWhile space, ?_, c, List.mem_append_left _ hc, hspace⟩
  rw [trim, List.dropWhile_append, if_neg (by simpa using List.ne_nil_of_mem hc),
    rdropWhile_append hv, hsplit, List.append_assoc]

theorem trim_append_of_forall {space : β → Bool} {u v : List β} (h : ∀ c ∈ u, space c) :
    trim space (u ++ v) = trim space v := by
  rw [trim, List.dropWhile_append, List.dropWhile_eq_nil_iff.2 h]
  rfl

theorem trim_eq_nil {space : β → Bool} {v : List β} (h : ∀ c ∈ v, space c) : trim space v = [] := by
  rw [trim, List.dropWhile_eq_nil_iff.2 h]
  rfl

/-- The text is cut from left to right, after `n` characters to jump over:
    `token` recognises a token at the head of the text, telling how many
    characters it covers after the first one. -/
def cut (token : List β → Option (α × ℕ)) : ℕ → List β → List (β ⊕ α)
  | _, [] => []
  | n + 1, _ :: cs => cut token n cs
  | 0, c :: cs =>
    match token (c :: cs) with
    | some (a, n) => .inr a :: cut token n cs
    | none => .inl c :: cut token 0 cs

attribute [local simp] cut

/-- What is jumped over is dropped. -/
theorem cut_eq_drop {token : List β → Option (α × ℕ)} {n : ℕ} {s : List β} :
    cut token n s = cut token 0 (s.drop n) := by
  induction s generalizing n with
  | nil => simp [cut]
  | cons c cs ih =>
    rcases n with _ | n
    · rfl
    · exact ih

/-- The characters at the beginning of what is cut are those of the text. -/
theorem prefix_of_map_inl_prefix_cut {token : List β → Option (α × ℕ)} {u s : List β}
    (h : u.map .inl <+: cut token 0 s) : u <+: s := by
  induction u generalizing s with
  | nil => exact List.nil_prefix
  | cons x u ih =>
    rcases s with - | ⟨c, s⟩
    · simp at h
    · cases ht : token (c :: s) with
      | some r => simp [ht, List.cons_prefix_cons] at h
      | none =>
        simp only [cut, ht, List.map_cons, List.cons_prefix_cons, Sum.inl.injEq] at h
        obtain ⟨rfl, h⟩ := h
        exact List.cons_prefix_cons.2 ⟨rfl, ih h⟩

/-- Where no token is recognised, the characters are kept. -/
theorem cut_skip {token : List β → Option (α × ℕ)} {s t : List β}
    (h : ∀ x, x <:+ s → x ≠ [] → token (x ++ t) = none) :
    cut token 0 (s ++ t) = s.map .inl ++ cut token 0 t := by
  induction s with
  | nil => rfl
  | cons c s ih =>
    have hc : token (c :: (s ++ t)) = none := h (c :: s) List.suffix_rfl (List.cons_ne_nil c s)
    rw [List.cons_append]
    simp only [cut, hc]
    rw [ih fun x hx => h x (hx.trans (List.suffix_cons c s)), List.map_cons, List.cons_append]

/-- Nothing is lost when a text is cut, if the tokens cover the texts they stand
    for. -/
theorem cut_flatMap {token : List β → Option (α × ℕ)} {source : β ⊕ α → List β}
    (hchar : ∀ c, source (.inl c) = [c])
    (htoken : ∀ s a n, token s = some (a, n) →
      ∃ t, s = source (.inr a) ++ t ∧ n + 1 = (source (.inr a)).length) (n : ℕ) (s : List β) :
    (cut token n s).flatMap source = s.drop n := by
  induction s generalizing n with
  | nil => simp [cut]
  | cons c cs ih =>
    rcases n with _ | n
    · cases ht : token (c :: cs) with
      | none =>
        have hcut : cut token 0 (c :: cs) = .inl c :: cut token 0 cs := by simp [cut, ht]
        rw [hcut, List.flatMap_cons, ih, hchar]
        rfl
      | some r =>
        obtain ⟨t, hsource, hlen⟩ := htoken _ _ _ ht
        have hcut : cut token 0 (c :: cs) = .inr r.1 :: cut token r.2 cs := by simp [cut, ht]
        have hrest : cs.drop r.2 = t := by
          rw [← List.drop_succ_cons (a := c), hsource, hlen, List.drop_left]
        rw [hcut, List.flatMap_cons, ih, hrest, List.drop_zero, hsource]
    · exact ih n

/-- The last pieces of a text are those of some text. -/
theorem exists_cut_eq {token : List β → Option (α × ℕ)} {n : ℕ} {s : List β}
    {before after : List (β ⊕ α)} (h : cut token n s = before ++ after) :
    ∃ t, cut token 0 t = after := by
  induction s generalizing n before with
  | nil =>
    rw [cut, eq_comm, List.append_eq_nil_iff] at h
    exact ⟨[], by rw [cut, h.2]⟩
  | cons c s ih =>
    rcases n with _ | n
    · rcases before with _ | ⟨x, before⟩
      · exact ⟨c :: s, h⟩
      · cases ht : token (c :: s) with
        | none =>
          simp only [cut, ht] at h
          exact ih (List.cons.inj h).2
        | some r =>
          simp only [cut, ht] at h
          exact ih (List.cons.inj h).2
    · exact ih h

/-- The texts `token` is tried on when the text is cut. -/
def visited (token : List β → Option (α × ℕ)) : ℕ → List β → List (List β)
  | _, [] => []
  | n + 1, _ :: cs => visited token n cs
  | 0, c :: cs =>
    (c :: cs) :: match token (c :: cs) with
    | some (_, n) => visited token n cs
    | none => visited token 0 cs

attribute [local simp] visited

section Visited

variable {token : List β → Option (α × ℕ)} {n : ℕ} {c : β} {s x : List β}

theorem visited_cons_none (h : token (c :: s) = none) :
    visited token 0 (c :: s) = (c :: s) :: visited token 0 s := by
  rw [visited, h]

theorem visited_cons_some {r : α × ℕ} (h : token (c :: s) = some r) :
    visited token 0 (c :: s) = (c :: s) :: visited token r.2 s := by
  rw [visited, h]

theorem mem_visited_self : c :: s ∈ visited token 0 (c :: s) := by
  rw [visited]
  exact List.mem_cons_self

/-- Suffixes of the text are visited. -/
theorem suffix_of_mem_visited (h : x ∈ visited token n s) : x <:+ s ∧ x ≠ [] := by
  induction s generalizing n with
  | nil => simp [visited] at h
  | cons c s ih =>
    have hlater {n : ℕ} (h : x ∈ visited token n s) : x <:+ c :: s ∧ x ≠ [] :=
      ⟨(ih h).1.trans (List.suffix_cons c s), (ih h).2⟩
    rcases n with _ | n
    · cases ht : token (c :: s) with
      | none =>
        rw [visited_cons_none ht] at h
        rcases List.mem_cons.1 h with rfl | h
        · exact ⟨List.suffix_rfl, List.cons_ne_nil c s⟩
        · exact hlater h
      | some r =>
        rw [visited_cons_some ht] at h
        rcases List.mem_cons.1 h with rfl | h
        · exact ⟨List.suffix_rfl, List.cons_ne_nil c s⟩
        · exact hlater h
    · exact hlater h

end Visited

/-- A text is cut at a point which no token goes over, when what follows does not
    change which tokens are recognised where what is before is visited. -/
theorem cut_append {token : List β → Option (α × ℕ)} {s t : List β} {n : ℕ}
    (h : ∀ x ∈ visited token n s, token (x ++ t) = token x ∧
      ∀ a k, token x = some (a, k) → k < x.length)
    (hn : n ≤ s.length) : cut token n (s ++ t) = cut token n s ++ cut token 0 t := by
  induction s generalizing n with
  | nil =>
    rw [List.length_nil, Nat.le_zero] at hn
    simp [hn, cut]
  | cons c s ih =>
    rcases n with _ | n
    · obtain ⟨heq, hlt⟩ := h (c :: s) mem_visited_self
      rw [List.cons_append] at heq ⊢
      simp only [cut, heq]
      cases ht : token (c :: s) with
      | none =>
        rw [visited_cons_none ht] at h
        exact congrArg _ (ih (fun x hx => h x (List.mem_cons_of_mem _ hx)) (Nat.zero_le _))
      | some r =>
        rw [visited_cons_some ht] at h
        exact congrArg _ (ih (fun x hx => h x (List.mem_cons_of_mem _ hx))
          (Nat.le_of_lt_succ (hlt _ _ ht)))
    · exact ih h (Nat.le_of_succ_le_succ hn)

/-- Where the tokens of a text start, after `n` characters to jump over, counting
    from `k`. -/
def tokensAt (token : List β → Option (α × ℕ)) : ℕ → ℕ → List β → List (ℕ × α)
  | _, _, [] => []
  | k, n + 1, _ :: cs => tokensAt token (k + 1) n cs
  | k, 0, c :: cs =>
    match token (c :: cs) with
    | some (a, n) => (k, a) :: tokensAt token (k + 1) n cs
    | none => tokensAt token (k + 1) 0 cs

attribute [local simp] tokensAt

theorem tokensAt_map_snd {token : List β → Option (α × ℕ)} {k n : ℕ} {s : List β} :
    (tokensAt token k n s).map Prod.snd = (cut token n s).filterMap (·.getRight?) := by
  induction s generalizing k n with
  | nil => simp [tokensAt, cut]
  | cons c s ih =>
    rcases n with _ | n
    · cases ht : token (c :: s) with
      | none => simp [tokensAt, cut, ht, ih, List.filterMap_cons]
      | some r => simp [tokensAt, cut, ht, ih]
    · exact ih

theorem tokensAt_eq_drop {token : List β → Option (α × ℕ)} {k n : ℕ} {s : List β} :
    tokensAt token k n s = tokensAt token (k + n) 0 (s.drop n) := by
  induction s generalizing k n with
  | nil => simp [tokensAt]
  | cons c s ih =>
    rcases n with _ | n
    · rfl
    · rw [tokensAt, ih, List.drop_succ_cons, Nat.add_right_comm, Nat.add_assoc]

theorem tokensAt_append {token : List β → Option (α × ℕ)} {s t : List β} {k n : ℕ}
    (h : ∀ x ∈ visited token n s, token (x ++ t) = token x ∧
      ∀ a k, token x = some (a, k) → k < x.length)
    (hn : n ≤ s.length) :
    tokensAt token k n (s ++ t) = tokensAt token k n s ++ tokensAt token (k + s.length) 0 t := by
  induction s generalizing k n with
  | nil =>
    rw [List.length_nil, Nat.le_zero] at hn
    simp [hn, tokensAt]
  | cons c s ih =>
    have hlen : k + (c :: s).length = k + 1 + s.length := by
      rw [List.length_cons, Nat.add_assoc, Nat.add_comm s.length]
    rw [hlen]
    rcases n with _ | n
    · obtain ⟨heq, hlt⟩ := h (c :: s) mem_visited_self
      rw [List.cons_append] at heq ⊢
      simp only [tokensAt, heq]
      cases ht : token (c :: s) with
      | none =>
        rw [visited_cons_none ht] at h
        exact ih (fun x hx => h x (List.mem_cons_of_mem _ hx)) (Nat.zero_le _)
      | some r =>
        rw [visited_cons_some ht] at h
        exact congrArg _ (ih (fun x hx => h x (List.mem_cons_of_mem _ hx))
          (Nat.le_of_lt_succ (hlt _ _ ht)))
    · exact ih h (Nat.le_of_succ_le_succ hn)

/-- Tokens start where the text is. -/
theorem le_of_mem_tokensAt {token : List β → Option (α × ℕ)} {k n o : ℕ} {s : List β} {a : α}
    (h : (o, a) ∈ tokensAt token k n s) : k ≤ o ∧ o < k + s.length := by
  induction s generalizing k n with
  | nil => simp [tokensAt] at h
  | cons c s ih =>
    rw [List.length_cons]
    rcases n with _ | n
    · cases ht : token (c :: s) with
      | none =>
        simp only [tokensAt, ht] at h
        have := ih h
        omega
      | some r =>
        simp only [tokensAt, ht, List.mem_cons, Prod.mk.injEq] at h
        rcases h with ⟨rfl, -⟩ | h
        · omega
        · have := ih h
          omega
    · have := ih h
      omega

section Places

variable {token : List β → Option (α × ℕ)} {k n o : ℕ} {s t : List β} {a : α}

/-- The tokens, with how many characters they cover after the first one. -/
def counted (token : List β → Option (α × ℕ)) (s : List β) : Option ((α × ℕ) × ℕ) :=
  (token s).map fun r => (r, r.2)

/-- A token of the text is recognised where it starts. -/
theorem token_of_mem_tokensAt (h : (o, a) ∈ tokensAt token k n s) :
    ∃ m, token (s.drop (o - k)) = some (a, m) := by
  induction s generalizing k n with
  | nil => simp [tokensAt] at h
  | cons c s ih =>
    have hlater {n : ℕ} (h : (o, a) ∈ tokensAt token (k + 1) n s) :
        ∃ m, token ((c :: s).drop (o - k)) = some (a, m) := by
      obtain ⟨m, hm⟩ := ih h
      have hle := (le_of_mem_tokensAt h).1
      have hsub : o - k = (o - (k + 1)) + 1 := by omega
      exact ⟨m, by rwa [hsub, List.drop_succ_cons]⟩
    rcases n with _ | n
    · cases ht : token (c :: s) with
      | none =>
        simp only [tokensAt, ht] at h
        exact hlater h
      | some r =>
        simp only [tokensAt, ht, List.mem_cons, Prod.mk.injEq] at h
        rcases h with ⟨rfl, rfl⟩ | h
        · exact ⟨r.2, by rw [Nat.sub_self, List.drop_zero, ht]⟩
        · exact hlater h
    · exact hlater h

/-- The first token starts after what is jumped over. -/
theorem add_le_of_mem_tokensAt (h : (o, a) ∈ tokensAt token k n s) : k + n ≤ o := by
  rw [tokensAt_eq_drop] at h
  exact (le_of_mem_tokensAt h).1

theorem tokensAt_counted :
    (tokensAt (counted token) k n s).map (fun x => x.2.1) =
      (cut token n s).filterMap (·.getRight?) := by
  induction s generalizing k n with
  | nil => simp [tokensAt, cut]
  | cons c s ih =>
    rcases n with _ | n
    · cases ht : token (c :: s) with
      | none => simp [tokensAt, counted, cut, ht, ih, List.filterMap_cons]
      | some r => simp [tokensAt, counted, cut, ht, ih]
    · exact ih

/-- Tokens do not overlap. -/
theorem tokensAt_pairwise :
    (tokensAt (counted token) k n s).Pairwise fun x y => x.1 + x.2.2 < y.1 := by
  induction s generalizing k n with
  | nil => simp [tokensAt]
  | cons c s ih =>
    rcases n with _ | n
    · cases ht : token (c :: s) with
      | none =>
        simp only [tokensAt, counted, ht, Option.map_none]
        exact ih
      | some r =>
        simp only [tokensAt, counted, ht, Option.map_some]
        refine List.pairwise_cons.2 ⟨fun x hx => ?_, ih⟩
        have := add_le_of_mem_tokensAt hx
        simp only
        omega
    · exact ih

/-- Where no token is recognised, none is found. -/
theorem tokensAt_skip (h : ∀ x, x <:+ s → x ≠ [] → token (x ++ t) = none) :
    tokensAt token k 0 (s ++ t) = tokensAt token (k + s.length) 0 t := by
  induction s generalizing k with
  | nil => rfl
  | cons c s ih =>
    have hc : token (c :: (s ++ t)) = none := h (c :: s) List.suffix_rfl (List.cons_ne_nil c s)
    rw [List.cons_append]
    simp only [tokensAt, hc]
    rw [ih fun x hx => h x (hx.trans (List.suffix_cons c s)), List.length_cons]
    congr 1
    omega

/-- What is jumped over is told by the tokens. -/
theorem visited_counted : visited (counted token) n s = visited token n s := by
  induction s generalizing n with
  | nil => simp [visited]
  | cons c s ih =>
    rcases n with _ | n
    · cases ht : token (c :: s) with
      | none => simp [visited, counted, ht, ih]
      | some r => simp [visited, counted, ht, ih]
    · exact ih

/-- Where what follows makes a token of the text go into it, a token goes over the end
    of the text. -/
theorem exists_mem_tokensAt_over (hx : ∃ x ∈ visited token n s, token (x ++ t) ≠ token x)
    (h : ∀ x ∈ visited token n s, token (x ++ t) ≠ token x →
      ∃ a m, token (x ++ t) = some (a, m) ∧ x.length ≤ m) :
    ∃ o a m, (o, a, m) ∈ tokensAt (counted token) k n (s ++ t) ∧
      o < k + s.length ∧ k + s.length ≤ o + m := by
  induction s generalizing k n with
  | nil =>
    obtain ⟨x, hmem, -⟩ := hx
    exact absurd hmem (by simp [visited])
  | cons c s ih =>
    have hlen : k + (c :: s).length = k + 1 + s.length := by
      rw [List.length_cons, Nat.add_assoc, Nat.add_comm s.length]
    rcases n with _ | n
    · by_cases heq : token (c :: s ++ t) = token (c :: s)
      · rw [List.cons_append] at heq ⊢
        simp only [tokensAt, counted, heq]
        -- The token of the head is the same, so the change is later.
        have hlater {m : ℕ} (hv : visited token 0 (c :: s) = (c :: s) :: visited token m s) :
            ∃ o a m', (o, a, m') ∈ tokensAt (counted token) (k + 1) m (s ++ t) ∧
              o < k + (c :: s).length ∧ k + (c :: s).length ≤ o + m' := by
          rw [hv] at hx h
          obtain ⟨x, hmem, hne⟩ := hx
          rcases List.mem_cons.1 hmem with rfl | hmem
          · exact absurd heq hne
          · rw [hlen]
            exact ih ⟨x, hmem, hne⟩ fun y hy => h y (List.mem_cons_of_mem _ hy)
        cases ht : token (c :: s) with
        | none => exact hlater (visited_cons_none ht)
        | some r =>
          obtain ⟨o, a, m, hmem, hlt, hle⟩ := hlater (visited_cons_some ht)
          exact ⟨o, a, m, List.mem_cons_of_mem _ hmem, hlt, hle⟩
      · obtain ⟨a, m, hsome, hle⟩ := h (c :: s) mem_visited_self heq
        rw [List.cons_append] at hsome ⊢
        refine ⟨k, a, m, ?_, ?_, Nat.add_le_add_left hle k⟩
        · simp only [tokensAt, counted, hsome, Option.map_some]
          exact List.mem_cons_self
        · rw [List.length_cons]
          omega
    · rw [hlen]
      exact ih hx h

end Places

/-- Tokens recognised alike wherever the text is visited cut it alike. -/
theorem cut_congr {token token' : List β → Option (α × ℕ)} {n : ℕ} {s : List β}
    (h : ∀ p ∈ visited token n s, token' p = token p) : cut token' n s = cut token n s := by
  induction s generalizing n with
  | nil => simp only [cut]
  | cons c cs ih =>
    cases n with
    | succ n => exact ih h
    | zero =>
      have hc : token' (c :: cs) = token (c :: cs) := h _ (by simp [visited])
      simp only [cut, hc]
      cases ht : token (c :: cs) with
      | none => exact congrArg _ (ih fun p hp => h p (by simp [visited, ht, hp]))
      | some r => exact congrArg _ (ih fun p hp => h p (by simp [visited, ht, hp]))

/-- A token of the text was recognised where the text is visited. -/
theorem mem_visited_of_mem_cut {token : List β → Option (α × ℕ)} {n : ℕ} {s : List β} {a : α}
    (h : .inr a ∈ cut token n s) : ∃ p ∈ visited token n s, ∃ k, token p = some (a, k) := by
  induction s generalizing n with
  | nil => simp [cut] at h
  | cons c cs ih =>
    cases n with
    | succ n => exact ih h
    | zero =>
      cases ht : token (c :: cs) with
      | none =>
        simp only [cut, ht, List.mem_cons, reduceCtorEq, false_or] at h
        obtain ⟨p, hp, k, hk⟩ := ih h
        exact ⟨p, by simp [visited, ht, hp], k, hk⟩
      | some r =>
        simp only [cut, ht, List.mem_cons, Sum.inr.injEq] at h
        rcases h with rfl | h
        · exact ⟨c :: cs, by simp [visited], r.2, ht⟩
        · obtain ⟨p, hp, k, hk⟩ := ih h
          exact ⟨p, by simp [visited, ht, hp], k, hk⟩

end Cut
