import N3ur0n.Lib.Cut

/-!
# Texts of segments

A text is made of segments, with a separator between any two of them. A prefix of it
has the first segments, and a part of one more; this part is empty if the prefix ends
with a separator.

* `prefix_intercalate`: what a prefix of a text of segments is made of;
* `exists_kept`: the same, for what remains of the prefix when the separators and
  the spaces at its end are removed.
-/

namespace Segments

open Cut

variable {β : Type*} {x : β} {s t q : List β} {ls pre : List (List β)}

/-- What is between two separators has none. -/
theorem not_mem_of_mem_splitOn [DecidableEq β] (h : s ∈ t.splitOn x) : x ∉ s := by
  induction t generalizing s with
  | nil =>
    rw [List.splitOn_nil, List.mem_singleton] at h
    exact h ▸ List.not_mem_nil
  | cons c t ih =>
    rw [List.splitOn_cons_eq_if_modifyHead] at h
    split_ifs at h with hc
    · rcases List.mem_cons.1 h with rfl | h
      · exact List.not_mem_nil
      · exact ih h
    · obtain ⟨l, ls, hs⟩ := List.exists_cons_of_ne_nil (List.splitOn_ne_nil x t)
      rw [hs, List.modifyHead_cons] at h
      rcases List.mem_cons.1 h with rfl | h
      · rw [List.mem_cons, not_or]
        exact ⟨fun hx => hc (by simp [hx]), ih (hs ▸ List.mem_cons_self)⟩
      · exact ih (hs ▸ List.mem_cons_of_mem _ h)

/-- A text has the characters of its segments, and the separator. -/
theorem mem_intercalate {c : β} (h : c ∈ [x].intercalate ls) : c = x ∨ ∃ s ∈ ls, c ∈ s := by
  induction ls with
  | nil => exact absurd h List.not_mem_nil
  | cons s ls ih =>
    rcases eq_or_ne ls [] with rfl | hls
    · rw [List.intercalate_singleton] at h
      exact .inr ⟨s, List.mem_cons_self, h⟩
    · rw [List.intercalate_cons_of_ne_nil hls, List.mem_append, List.mem_append,
        List.mem_singleton] at h
      rcases h with (h | h) | h
      · exact .inr ⟨s, List.mem_cons_self, h⟩
      · exact .inl h
      · exact (ih h).imp_right fun ⟨s', hs', hc⟩ => ⟨s', List.mem_cons_of_mem _ hs', hc⟩

theorem mem_intercalate_of_mem {c : β} (hs : s ∈ ls) (hc : c ∈ s) : c ∈ [x].intercalate ls := by
  induction ls with
  | nil => exact absurd hs List.not_mem_nil
  | cons s' ls ih =>
    rcases eq_or_ne ls [] with rfl | hls
    · rw [List.intercalate_singleton]
      exact List.mem_singleton.1 hs ▸ hc
    · rw [List.intercalate_cons_of_ne_nil hls]
      rcases List.mem_cons.1 hs with rfl | hs
      · exact List.mem_append_left _ (List.mem_append_left _ hc)
      · exact List.mem_append_right _ (ih hs)

/-- One more segment. -/
theorem intercalate_concat (hpre : pre ≠ []) :
    [x].intercalate (pre ++ [q]) = [x].intercalate pre ++ x :: q := by
  induction pre with
  | nil => exact absurd rfl hpre
  | cons s pre ih =>
    rcases pre with - | ⟨s', pre⟩
    · simp
    · rw [List.cons_append, List.cons_append, List.intercalate_cons_cons, ← List.cons_append,
        ih (List.cons_ne_nil _ _), List.intercalate_cons_cons]
      simp only [List.append_assoc]

/-- The last segment comes at the end, after a separator if there are others. -/
theorem intercalate_last (pre : List (List β)) (q : List β) :
    ∃ u, [x].intercalate (pre ++ [q]) = u ++ q ∧
      (pre = [] ∧ u = [] ∨ u = [x].intercalate pre ++ [x]) := by
  rcases eq_or_ne pre [] with rfl | hpre
  · exact ⟨[], by simp, .inl ⟨rfl, rfl⟩⟩
  · exact ⟨[x].intercalate pre ++ [x], by simp [intercalate_concat hpre], .inr rfl⟩

theorem rtakeWhile_intercalate [DecidableEq β] (hq : x ∉ q) :
    ([x].intercalate (pre ++ [q])).rtakeWhile (· ≠ x) = q := by
  have hall : ∀ c ∈ q.reverse, decide (c ≠ x) = true := fun c hc =>
    decide_eq_true fun h => hq (h ▸ List.mem_reverse.1 hc)
  obtain ⟨u, hu, ⟨-, rfl⟩ | rfl⟩ := intercalate_last (x := x) pre q
  · rw [hu, List.nil_append, List.rtakeWhile_eq_self_iff]
    exact fun c hc => hall c (List.mem_reverse.2 hc)
  · rw [hu, List.rtakeWhile, List.append_assoc, List.singleton_append, List.reverse_append,
      List.reverse_cons, List.append_assoc, List.singleton_append,
      takeWhile_append_cons (by simp), List.takeWhile_eq_self_iff.2 hall, List.reverse_reverse]

/-- A prefix has some of the segments, and a part of the next one. -/
theorem prefix_intercalate (hls : ls ≠ []) (h : t <+: [x].intercalate ls) :
    ∃ pre s post q, ls = pre ++ s :: post ∧ q <+: s ∧ t = [x].intercalate (pre ++ [q]) := by
  induction ls generalizing t with
  | nil => exact absurd rfl hls
  | cons s ls ih =>
    rcases ls with - | ⟨s', ls⟩
    · rw [List.intercalate_singleton] at h
      exact ⟨[], s, [], t, rfl, h, by simp⟩
    · rw [List.intercalate_cons_cons, List.append_assoc, List.singleton_append] at h
      rcases List.prefix_or_prefix_of_prefix h (List.prefix_append s _) with hts | hst
      · exact ⟨[], s, s' :: ls, t, rfl, hts, by simp⟩
      · obtain ⟨t', rfl⟩ := hst
        have ht' := (List.prefix_append_right_inj s).1 h
        rcases t' with - | ⟨c, t'⟩
        · exact ⟨[], s, s' :: ls, s, rfl, List.prefix_refl _, by simp⟩
        · obtain ⟨rfl, ht'⟩ := List.cons_prefix_cons.1 ht'
          obtain ⟨pre, s₁, post, q, hls', hq, rfl⟩ := ih (List.cons_ne_nil _ _) ht'
          refine ⟨s :: pre, s₁, post, q, by rw [hls', List.cons_append], hq, ?_⟩
          rw [List.cons_append, List.intercalate_cons_of_ne_nil (by simp)]
          simp

/-! ## Spaces -/

/-- A segment that is not empty, and has no spaces at its ends. -/
def Clean (space : β → Bool) (s : List β) : Prop := s ≠ [] ∧ trim space s = s

variable {space : β → Bool}

theorem clean_iff : Clean space s ↔ (∃ c s', s = c :: s' ∧ space c = false) ∧
    s.rdropWhile space = s := by
  constructor
  · rintro ⟨hne, htrim⟩
    have hdrop : s.dropWhile space = s := by
      refine (List.dropWhile_suffix space).eq_of_length (le_antisymm
        (List.dropWhile_suffix space).length_le ?_)
      have hle := (List.rdropWhile_prefix space (s.dropWhile space)).length_le
      rwa [← trim, htrim] at hle
    rw [trim, hdrop] at htrim
    refine ⟨?_, htrim⟩
    obtain ⟨c, s', rfl⟩ := List.exists_cons_of_ne_nil hne
    refine ⟨c, s', rfl, ?_⟩
    by_contra hc
    rw [List.dropWhile_cons_of_pos (by simpa using hc)] at hdrop
    have hle := (List.dropWhile_suffix space (l := s')).length_le
    rw [hdrop, List.length_cons] at hle
    omega
  · rintro ⟨⟨c, s', rfl, hc⟩, hr⟩
    refine ⟨List.cons_ne_nil _ _, ?_⟩
    rw [trim, List.dropWhile_cons_of_neg (by simp [hc]), hr]

/-- What remains of a segment is clean, if anything does. -/
theorem clean_trim (h : trim space s ≠ []) : Clean space (trim space s) := by
  rw [trim] at h ⊢
  obtain ⟨c, r, hr⟩ := List.exists_cons_of_ne_nil h
  obtain ⟨v, hv⟩ := hr ▸ List.rdropWhile_prefix space (s.dropWhile space)
  refine clean_iff.2 ⟨⟨c, r, hr, ?_⟩, List.rdropWhile_idempotent space _⟩
  have hhead := List.head?_dropWhile_not space s
  rw [← hv] at hhead
  simpa using hhead

/-- What the spaces at the end are removed from, if something before them remains. -/
theorem rdropWhile_append {u : List β} (hq : q.rdropWhile space ≠ []) :
    (u ++ q).rdropWhile space = u ++ q.rdropWhile space := by
  rw [List.rdropWhile, List.reverse_append, List.dropWhile_append, if_neg, List.reverse_append,
    List.reverse_reverse, List.rdropWhile]
  rw [List.rdropWhile, ne_eq, List.reverse_eq_nil_iff] at hq
  simpa using hq

/-- A part of a clean segment from its beginning on is clean, but for spaces at the
    end. -/
theorem Clean.ofPart (hs : Clean space s) (hq : q <+: s) (hne : q ≠ []) :
    Clean space (q.rdropWhile space) := by
  obtain ⟨⟨c, s', rfl, hc⟩, -⟩ := clean_iff.1 hs
  obtain ⟨d, q', rfl⟩ := List.exists_cons_of_ne_nil hne
  obtain ⟨rfl, -⟩ := List.cons_prefix_cons.1 hq
  have hkept : (d :: q').rdropWhile space ≠ [] := fun h =>
    absurd (List.rdropWhile_eq_nil_iff.1 h d List.mem_cons_self) (by simp [hc])
  obtain ⟨e, r, hr⟩ := List.exists_cons_of_ne_nil hkept
  have hhead : e :: r <+: d :: q' := hr ▸ List.rdropWhile_prefix space _
  obtain ⟨rfl, -⟩ := List.cons_prefix_cons.1 hhead
  exact clean_iff.2 ⟨⟨e, r, hr, hc⟩, List.rdropWhile_idempotent space _⟩

/-- The spaces at the end of the last segment are all there are at the ends of the
    text. -/
theorem trim_intercalate (hpre : ∀ s ∈ pre, Clean space s) (hq : Clean space (q.rdropWhile space)) :
    trim space ([x].intercalate (pre ++ [q])) = [x].intercalate (pre ++ [q.rdropWhile space]) := by
  have hhead : ∃ c w, [x].intercalate (pre ++ [q]) = c :: w ∧ space c = false := by
    rcases pre with - | ⟨s, pre⟩
    · obtain ⟨⟨c, w, hcw, hc⟩, -⟩ := clean_iff.1 hq
      obtain ⟨v, hv⟩ := hcw ▸ List.rdropWhile_prefix space q
      exact ⟨c, w ++ v, by simp [← hv], hc⟩
    · obtain ⟨⟨c, w, rfl, hc⟩, -⟩ := clean_iff.1 (hpre s List.mem_cons_self)
      exact ⟨c, _, List.intercalate_cons_cons_left, hc⟩
  obtain ⟨c, w, hcw, hc⟩ := hhead
  have hdrop : ([x].intercalate (pre ++ [q])).dropWhile space = [x].intercalate (pre ++ [q]) := by
    rw [hcw, List.dropWhile_cons_of_neg (by simp [hc])]
  rw [trim, hdrop]
  rcases eq_or_ne pre [] with rfl | hne
  · simp
  · rw [intercalate_concat hne, intercalate_concat hne, List.append_cons,
      rdropWhile_append hq.1, ← List.append_cons]

/-- A text that does not have the character is left as it is, also after another one. -/
theorem rdropWhile_of_not_mem [DecidableEq β] {u : List β} (hx : x ∉ q) (hne : q ≠ []) :
    (u ++ q).rdropWhile (· = x) = u ++ q := by
  rw [List.rdropWhile_eq_self_iff]
  intro hl h
  rw [List.getLast_append_of_ne_nil _ hne] at h
  exact hx (of_decide_eq_true h ▸ List.getLast_mem hne)

/-- What remains of a prefix: some of the segments, and at the end either one more of
    them, or the part of it that the prefix has. -/
theorem exists_kept [DecidableEq β] (hls : ls ≠ []) (hmem : ∀ s ∈ ls, x ∉ s)
    (hclean : ∀ s ∈ ls, Clean space s) (h : t <+: [x].intercalate ls) (ht : t ≠ []) :
    ∃ pre q, trim space (t.rdropWhile (· = x)) = [x].intercalate (pre ++ [q]) ∧
      (∀ s ∈ pre, s ∈ ls) ∧ Clean space q ∧ (∃ s ∈ ls, q <+: s) ∧
      (t.rtakeWhile (· ≠ x) = [] ∧ q ∈ ls ∨ q = (t.rtakeWhile (· ≠ x)).rdropWhile space) := by
  obtain ⟨pre, s, post, q, rfl, hq, rfl⟩ := prefix_intercalate hls h
  have hs : s ∈ pre ++ s :: post := List.mem_append_right _ List.mem_cons_self
  have hpre : ∀ s' ∈ pre, s' ∈ pre ++ s :: post := fun s' hs' => List.mem_append_left _ hs'
  have hxq : x ∉ q := fun hx => hmem s hs (hq.subset hx)
  rw [rtakeWhile_intercalate hxq]
  rcases eq_or_ne q [] with rfl | hne
  · -- the prefix ends with a separator, and nothing else is removed
    rcases List.eq_nil_or_concat pre with rfl | ⟨pre, s', rfl⟩
    · exact absurd rfl ht
    rw [List.concat_eq_append] at *
    have hs' := hpre s' (List.mem_append_right _ List.mem_cons_self)
    have hclean' := hclean s' hs'
    have hspaces := (clean_iff.1 hclean').2
    obtain ⟨u, hu, -⟩ := intercalate_last (x := x) pre s'
    refine ⟨pre, s', ?_, fun r hr => hpre r (List.mem_append_left _ hr), hclean',
      ⟨s', hs', List.prefix_refl _⟩, .inl ⟨rfl, hs'⟩⟩
    rw [intercalate_concat (by simp), List.rdropWhile_concat_pos (· = x) _ x (by simp), hu,
      rdropWhile_of_not_mem (hmem s' hs') hclean'.1, ← hu, trim_intercalate, hspaces]
    · exact fun r hr => hclean r (hpre r (List.mem_append_left _ hr))
    · rwa [hspaces]
  · have hkept := (hclean s hs).ofPart hq hne
    obtain ⟨u, hu, -⟩ := intercalate_last (x := x) pre q
    refine ⟨pre, _, ?_, hpre, hkept, ⟨s, hs, (List.rdropWhile_prefix space q).trans hq⟩, .inr rfl⟩
    rw [hu, rdropWhile_of_not_mem hxq hne, ← hu,
      trim_intercalate (fun r hr => hclean r (hpre r hr)) hkept]

end Segments
