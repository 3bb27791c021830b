import Mathlib.Data.List.Sort
import Mathlib.Data.List.Perm.Basic
import Mathlib.Order.Basic

/-!
# Rankings

The elements of a list by decreasing value, ties in any order: what a query
with `ORDER BY … DESC` answers. With a limit, only the first ones are kept.

* `mem_take_iff`: an element is among the first ones, whatever the order of the
  ties, exactly when there are not too many of at least its value;
* `sort`: the ranking in which ties keep the order of the list (`pairwise_sort`),
  and `take_sort_iff`: when the first ones do not depend on that order.
-/

namespace Ranking

variable {α β : Type*} [LinearOrder β] (f : α → β)

/-- The list `l` has the elements of `l₀`, of decreasing value. -/
def Ranks (l₀ l : List α) : Prop := l.Perm l₀ ∧ l.Pairwise fun a b => f b ≤ f a

variable {f}

theorem ranks_insertionSort (l₀ : List α) :
    Ranks f l₀ (l₀.insertionSort fun a b => f b ≤ f a) := by
  refine ⟨List.perm_insertionSort _ _, ?_⟩
  have htotal : Std.Total fun a b : α => f b ≤ f a := ⟨fun a b => le_total (f b) (f a)⟩
  have htrans : IsTrans α fun a b => f b ≤ f a := ⟨fun a b c hab hbc => hbc.trans hab⟩
  exact List.pairwise_insertionSort _ _

/-- The first ones before `a` have at least its value. -/
theorem countP_of_ranks {l₀ l₁ l₂ : List α} {a : α} (h : Ranks f l₀ (l₁ ++ a :: l₂)) :
    l₁.length + 1 ≤ l₀.countP fun b => f a ≤ f b := by
  obtain ⟨hperm, hsorted⟩ := h
  have hle : ∀ b ∈ l₁, f a ≤ f b := fun b hb =>
    (List.pairwise_append.1 hsorted).2.2 b hb a List.mem_cons_self
  rw [← hperm.countP_eq, List.countP_append, List.countP_cons_of_pos (by simp),
    List.countP_eq_length.2 fun b hb => decide_eq_true (hle b hb)]
  omega

/-- There is a ranking in which the other elements before `a` are those of `p`, when
    these have at least its value and the rest at most. -/
theorem exists_ranks_cut [DecidableEq α] {l₀ : List α} {a : α} (ha : a ∈ l₀) {p : α → Bool}
    (hp : ∀ b, p b → f a ≤ f b) (hnp : ∀ b, ¬p b → f b ≤ f a) :
    ∃ l₁ l₂, Ranks f l₀ (l₁ ++ a :: l₂) ∧ l₁.Perm ((l₀.erase a).filter p) := by
  obtain ⟨l₁, hp₁, hs₁⟩ : ∃ l, Ranks f ((l₀.erase a).filter p) l := ⟨_, ranks_insertionSort _⟩
  obtain ⟨l₂, hp₂, hs₂⟩ : ∃ l, Ranks f ((l₀.erase a).filter fun b => !p b) l :=
    ⟨_, ranks_insertionSort _⟩
  have h₁ : ∀ b ∈ l₁, f a ≤ f b := fun b hb => hp b (List.mem_filter.1 (hp₁.mem_iff.1 hb)).2
  have h₂ : ∀ b ∈ l₂, f b ≤ f a := fun b hb =>
    hnp b (by simpa using (List.mem_filter.1 (hp₂.mem_iff.1 hb)).2)
  refine ⟨l₁, l₂, ⟨?_, ?_⟩, hp₁⟩
  · have hsplit : (l₁ ++ l₂).Perm (l₀.erase a) :=
      (hp₁.append hp₂).trans (List.filter_append_perm p (l₀.erase a))
    exact (List.perm_middle.trans (hsplit.cons a)).trans (List.perm_cons_erase ha).symm
  · refine List.pairwise_append.2 ⟨hs₁, List.pairwise_cons.2 ⟨h₂, hs₂⟩, ?_⟩
    intro x hx y hy
    rcases List.mem_cons.1 hy with rfl | hy
    · exact h₁ x hx
    · exact (h₂ y hy).trans (h₁ x hx)

/-- There is a ranking in which `a` comes after all those of its value. -/
theorem exists_ranks_last [DecidableEq α] {l₀ : List α} {a : α} (hn : l₀.Nodup) (ha : a ∈ l₀) :
    ∃ l₁ l₂, Ranks f l₀ (l₁ ++ a :: l₂) ∧ l₁.length + 1 = l₀.countP (fun b => f a ≤ f b) ∧
      a ∉ l₁ := by
  obtain ⟨l₁, l₂, hr, hp⟩ := exists_ranks_cut (f := f) (p := fun b => f a ≤ f b) ha
    (fun b hb => of_decide_eq_true hb) fun b hb => le_of_lt (by simpa using hb)
  refine ⟨l₁, l₂, hr, ?_, fun hal => hn.not_mem_erase (List.mem_of_mem_filter (hp.mem_iff.1 hal))⟩
  rw [(List.perm_cons_erase ha).countP_eq, List.countP_cons_of_pos (by simp),
    List.countP_eq_length_filter, hp.length_eq]

/-- There is a ranking in which `a` comes before all those of its value. -/
theorem exists_ranks_first [DecidableEq α] {l₀ : List α} {a : α} (ha : a ∈ l₀) :
    ∃ l₁ l₂, Ranks f l₀ (l₁ ++ a :: l₂) ∧ l₁.length = l₀.countP fun b => f a < f b := by
  obtain ⟨l₁, l₂, hr, hp⟩ := exists_ranks_cut (f := f) (p := fun b => f a < f b) ha
    (fun b hb => (of_decide_eq_true hb).le) fun b hb => by simpa using hb
  refine ⟨l₁, l₂, hr, ?_⟩
  rw [(List.perm_cons_erase ha).countP_eq, List.countP_cons_of_neg (by simp),
    List.countP_eq_length_filter, hp.length_eq]

/-- Those of more than the value of `a` are before it. -/
theorem countP_lt_of_ranks {l₀ l₁ l₂ : List α} {a : α} (h : Ranks f l₀ (l₁ ++ a :: l₂)) :
    l₀.countP (fun b => f a < f b) ≤ l₁.length := by
  obtain ⟨hperm, hsorted⟩ := h
  have hnot : (a :: l₂).countP (fun b => f a < f b) = 0 := by
    have hle := (List.pairwise_cons.1 (List.pairwise_append.1 hsorted).2.1).1
    rw [List.countP_eq_zero]
    intro b hb hlt
    rcases List.mem_cons.1 hb with rfl | hb
    · exact absurd (of_decide_eq_true hlt) (lt_irrefl _)
    · exact absurd (of_decide_eq_true hlt) (hle b hb).not_gt
  rw [← hperm.countP_eq, List.countP_append, hnot, Nat.add_zero]
  exact List.countP_le_length

/-- The values of a ranking do not depend on the order of the ties. -/
theorem map_eq_of_ranks {l₀ l l' : List α} (h : Ranks f l₀ l) (h' : Ranks f l₀ l') :
    l.map f = l'.map f := by
  have hsorted (l : List α) (hl : Ranks f l₀ l) : (l.map f).Pairwise fun x y => y ≤ x :=
    List.pairwise_map.2 hl.2
  refine List.Perm.eq_of_pairwise (fun x y _ _ hyx hxy => le_antisymm hxy hyx)
    (hsorted l h) (hsorted l' h') ((h.1.trans h'.1.symm).map f)

/-- The first `n` are the same in all rankings exactly when those that are tied come
    after `n` of more than their value. -/
theorem take_eq_iff [DecidableEq α] {l₀ : List α} {n : ℕ} :
    (∀ l l', Ranks f l₀ l → Ranks f l₀ l' → l.take n = l'.take n) ↔
      ∀ a ∈ l₀, ∀ b ∈ l₀, a ≠ b → f a = f b → n ≤ l₀.countP fun c => f a < f c := by
  constructor
  · intro h a ha b hb hne hab
    by_contra hlt
    obtain ⟨l₁, l₂, hr, hlen⟩ := exists_ranks_first (f := f) ha
    obtain ⟨l₁', l₂', hr', hlen'⟩ := exists_ranks_first (f := f) hb
    rw [← hab, ← hlen] at hlen'
    -- Both are at the same place, among the first ones.
    have hat := congrArg (fun l => l[l₁.length]?) (h _ _ hr hr')
    simp only [List.getElem?_take, List.getElem?_append_right, le_refl, Nat.sub_self, hlen',
      List.getElem?_cons_zero] at hat
    rw [if_pos (by omega), if_pos (by omega), Option.some.injEq] at hat
    exact hne hat
  · intro h l l' hl hl'
    have hlength : l.length = l'.length := hl.1.length_eq.trans hl'.1.length_eq.symm
    refine List.ext_getElem (by simp [hlength]) fun i hi hi' => ?_
    obtain ⟨hin, hil⟩ := Nat.lt_min.1 (List.length_take ▸ hi)
    obtain ⟨-, hil'⟩ := Nat.lt_min.1 (List.length_take ▸ hi')
    rw [List.getElem_take, List.getElem_take]
    by_contra hne
    have hvalue : f l[i] = f l'[i] := by
      have hmap := map_eq_of_ranks hl hl'
      have := congrArg (fun l => l[i]?) hmap
      simpa [hil, hil'] using this
    have hcount := h l[i] (hl.1.mem_iff.1 (List.getElem_mem hil)) l'[i]
      (hl'.1.mem_iff.1 (List.getElem_mem hil')) hne hvalue
    have hsplit : l = l.take i ++ l[i] :: l.drop (i + 1) := by
      rw [List.getElem_cons_drop, List.take_append_drop]
    have hbefore := countP_lt_of_ranks (hsplit ▸ hl)
    rw [List.length_take] at hbefore
    omega

/-- By decreasing value; ties keep their order. -/
def sort (f : α → β) (l : List α) : List α := l.insertionSort fun a b => f b ≤ f a

theorem sort_map {γ : Type*} {g : γ → α} {l : List γ} :
    sort f (l.map g) = (sort (fun c => f (g c)) l).map g :=
  (List.map_insertionSort _ _ g l fun _ _ _ _ => Iff.rfl).symm

theorem ranks_sort {l₀ l : List α} (h : l.Perm l₀) : Ranks f l₀ (sort f l) :=
  ⟨(ranks_insertionSort l).1.trans h, (ranks_insertionSort l).2⟩

theorem sort_of_ranks {l₀ l : List α} (h : Ranks f l₀ l) : sort f l = l :=
  h.2.insertionSort_eq

section Stable

variable {γ : Type*} [Preorder γ] {g : α → γ} {a : α} {l : List α}

/-- Inserted before those that it is tied with, the first one remains first. -/
theorem pairwise_orderedInsert (ha : ∀ b ∈ l, g a < g b)
    (h : l.Pairwise fun a b => f b < f a ∨ f b = f a ∧ g a < g b) :
    (l.orderedInsert (fun a b => f b ≤ f a) a).Pairwise fun a b =>
      f b < f a ∨ f b = f a ∧ g a < g b := by
  induction l with
  | nil => exact List.pairwise_singleton _ a
  | cons b l ih =>
    obtain ⟨hb, hl⟩ := List.pairwise_cons.1 h
    obtain ⟨hab, hrest⟩ := List.forall_mem_cons.1 ha
    by_cases hle : f b ≤ f a
    · rw [List.orderedInsert_cons_of_le _ l hle]
      refine List.pairwise_cons.2 ⟨List.forall_mem_cons.2 ⟨?_, fun c hc => ?_⟩, h⟩
      · exact hle.lt_or_eq.imp id fun heq => ⟨heq, hab⟩
      · have hcb : f c ≤ f b := (hb c hc).elim le_of_lt fun h => h.1.le
        exact (hcb.trans hle).lt_or_eq.imp id fun heq => ⟨heq, hrest c hc⟩
    · rw [List.orderedInsert_of_not_le _ l hle]
      refine List.pairwise_cons.2 ⟨fun c hc => ?_, ih hrest hl⟩
      rcases (List.mem_orderedInsert _).1 hc with rfl | hc
      · exact .inl (not_le.1 hle)
      · exact hb c hc

/-- Ties keep their order: that of `g`, if the list is ordered by it. -/
theorem pairwise_sort (h : l.Pairwise fun a b => g a < g b) :
    (sort f l).Pairwise fun a b => f b < f a ∨ f b = f a ∧ g a < g b := by
  induction l with
  | nil => exact List.Pairwise.nil
  | cons a l ih =>
    obtain ⟨hfirst, hl⟩ := List.pairwise_cons.1 h
    exact pairwise_orderedInsert
      (fun b hb => hfirst b ((List.perm_insertionSort _ l).mem_iff.1 hb)) (ih hl)

end Stable

/-- The first `n` do not depend on the order of the list exactly when those that are
    tied come after `n` of more than their value. -/
theorem take_sort_iff [DecidableEq α] {l₀ : List α} {n : ℕ} :
    (∀ l l', l.Perm l₀ → l'.Perm l₀ → (sort f l).take n = (sort f l').take n) ↔
      ∀ a ∈ l₀, ∀ b ∈ l₀, a ≠ b → f a = f b → n ≤ l₀.countP fun c => f a < f c := by
  rw [← take_eq_iff]
  constructor
  · intro h l l' hl hl'
    rw [← sort_of_ranks hl, ← sort_of_ranks hl']
    exact h l l' hl.1 hl'.1
  · exact fun h l l' hl hl' => h _ _ (ranks_sort hl) (ranks_sort hl')

/-- An element is among the first `n`, in every ranking, exactly when there are
    at most `n` elements of at least its value, itself included. -/
theorem mem_take_iff [DecidableEq α] {l₀ : List α} (hn : l₀.Nodup) {a : α} {n : ℕ} :
    (∀ l, Ranks f l₀ l → a ∈ l.take n) ↔ a ∈ l₀ ∧ l₀.countP (fun b => f a ≤ f b) ≤ n := by
  constructor
  · intro h
    have hl := ranks_insertionSort (f := f) l₀
    have ha : a ∈ l₀ := hl.1.mem_iff.1 (List.mem_of_mem_take (h _ hl))
    refine ⟨ha, ?_⟩
    obtain ⟨l₁, l₂, hr, hlen, hal⟩ := exists_ranks_last (f := f) hn ha
    by_contra hlt
    have hle : n ≤ l₁.length := by omega
    have hmem := h _ hr
    rw [List.take_append_of_le_length hle] at hmem
    exact hal (List.mem_of_mem_take hmem)
  · rintro ⟨ha, hle⟩ l hl
    obtain ⟨l₁, l₂, rfl⟩ := List.append_of_mem (hl.1.mem_iff.2 ha)
    have hlen := countP_of_ranks hl
    rw [List.take_append]
    refine List.mem_append_right _ ?_
    obtain ⟨m, hm⟩ : ∃ m, n - l₁.length = m + 1 := ⟨n - l₁.length - 1, by omega⟩
    rw [hm]
    exact List.mem_cons_self

end Ranking
