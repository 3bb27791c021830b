import Mathlib.Data.Finset.Sort
import Mathlib.Data.List.Nodup
import Mathlib.Order.Lattice.Nat
import N3ur0n.Lib.Table

/-!
# Dependency graphs and countdown scheduling

A *dependency graph* gives every node the nodes it waits for. A node is
*ready* once these are done, and the nodes may be completed in any *legal*
order, each one ready when its turn comes.

* `before`: the nodes a node waits for, directly or not; they are done when it
  is ready (`before_subset`);
* `Legal.acyclic`: a legal order of all the nodes makes the graph acyclic;
* `Acyclic.exists_ready`: an acyclic graph always has a ready node, until all are done.

Programs find the ready nodes by *countdown*: a counter for every node of the
dependencies still to come (`Counts`), and for every node the list of the nodes
waiting for it (`Adjacent`). When a node is done, the counters of the nodes
waiting for it go down by one, and those reaching zero are released
(`release`).

* `release_spec`: what is released is what the completion makes ready;
* `Countdown.step`: whatever the order in which the released nodes are
  completed, the released nodes are always the ready ones;
* `Countdown.kahn_legal`: the order of Kahn's algorithm, a countdown with a
  queue, is legal.
-/

/-- A finite dependency graph on the nodes `α`. -/
structure DepGraph (α : Type*) [DecidableEq α] where
  nodes : Finset α
  /-- The nodes a node waits for. -/
  deps : α → Finset α
  deps_subset : ∀ a ∈ nodes, deps a ⊆ nodes

namespace DepGraph

variable {α : Type*} [DecidableEq α] (g : DepGraph α)

/-- The nodes all of whose dependencies are `done`. -/
def ready (done : Finset α) : Finset α := g.nodes.filter fun a => g.deps a ⊆ done

theorem mem_ready {done : Finset α} {a : α} :
    a ∈ g.ready done ↔ a ∈ g.nodes ∧ g.deps a ⊆ done := Finset.mem_filter

theorem ready_mono {done done' : Finset α} (h : done ⊆ done') : g.ready done ⊆ g.ready done' :=
  fun _ ha => g.mem_ready.2 ⟨(g.mem_ready.1 ha).1, (g.mem_ready.1 ha).2.trans h⟩

/-- The nodes a node waits for through at most `n` dependencies. -/
def before : ℕ → α → Finset α
  | 0, _ => ∅
  | n + 1, a => g.deps a ∪ (g.deps a).biUnion (before n)

/-- A node gets ready with the last node of `done`: none of `done` waits for all
    that the node waits for. -/
def Prompt (done : Finset α) (a : α) : Prop :=
  a ∈ g.ready done ∧ ∀ b ∈ done, ∀ n, ¬g.deps a ⊆ g.before n b

variable {g} in
/-- When nodes are done once they are ready, what a ready node waits for is done. -/
theorem before_subset {done : Finset α} (hd : done ⊆ g.ready done) {a : α}
    (ha : a ∈ g.ready done) (n : ℕ) : g.before n a ⊆ done := by
  induction n generalizing a with
  | zero => exact Finset.empty_subset _
  | succ n ih =>
    have hdeps := (g.mem_ready.1 ha).2
    exact Finset.union_subset hdeps (Finset.biUnion_subset.2 fun d hda => ih (hd (hdeps hda)))

variable {g} in
/-- What a node waits for has a lower rank, like its dependencies. -/
theorem rank_lt_of_mem_before {rank : α → ℕ}
    (hrank : ∀ a ∈ g.nodes, ∀ d ∈ g.deps a, rank d < rank a) {n : ℕ} {a b : α}
    (ha : a ∈ g.nodes) (hb : b ∈ g.before n a) : b ∈ g.nodes ∧ rank b < rank a := by
  induction n generalizing a with
  | zero => exact absurd hb (Finset.notMem_empty b)
  | succ n ih =>
    rcases Finset.mem_union.1 hb with hb | hb
    · exact ⟨g.deps_subset a ha hb, hrank a ha b hb⟩
    · obtain ⟨d, hd, hb⟩ := Finset.mem_biUnion.1 hb
      obtain ⟨hbn, hlt⟩ := ih (g.deps_subset a ha hd) hb
      exact ⟨hbn, hlt.trans (hrank a ha d hd)⟩

variable {g} in
/-- What a node makes ready is ready promptly. -/
theorem prompt_of_released {done : Finset α} (hd : done ⊆ g.ready done) {a b : α}
    (ha : a ∈ g.ready done) (hb : b ∈ g.ready (insert a done)) (hnb : b ∉ g.ready done) :
    g.Prompt (insert a done) b := by
  refine ⟨hb, fun c hc n hsub => hnb (g.mem_ready.2 ⟨(g.mem_ready.1 hb).1, ?_⟩)⟩
  have hcr : c ∈ g.ready done := (Finset.mem_insert.1 hc).elim (fun h => h ▸ ha) fun h => hd h
  exact hsub.trans (before_subset hd hcr n)

/-! ## Legal orders -/

/-- The list completes nodes legally from `done`: each one is ready, and not
    done yet, when its turn comes. -/
def Legal : Finset α → List α → Prop
  | _, [] => True
  | done, a :: l => a ∈ g.ready done ∧ a ∉ done ∧ Legal (insert a done) l

/-- No node waits, directly or not, for itself: dependencies have lower ranks. -/
def Acyclic : Prop := ∃ rank : α → ℕ, ∀ a ∈ g.nodes, ∀ d ∈ g.deps a, rank d < rank a

variable {g} {done : Finset α} {l : List α}

theorem Legal.mem_nodes (h : g.Legal done l) {a : α} (ha : a ∈ l) : a ∈ g.nodes ∧ a ∉ done := by
  induction l generalizing done with
  | nil => exact absurd ha List.not_mem_nil
  | cons b l ih =>
    obtain ⟨hb, hnb, hl⟩ := h
    rcases List.mem_cons.1 ha with rfl | ha'
    · exact ⟨(g.mem_ready.1 hb).1, hnb⟩
    · exact ⟨(ih hl ha').1, fun hd => (ih hl ha').2 (Finset.mem_insert_of_mem hd)⟩

theorem Legal.nodup (h : g.Legal done l) : l.Nodup := by
  induction l generalizing done with
  | nil => exact List.nodup_nil
  | cons b l ih =>
    obtain ⟨_, _, hl⟩ := h
    exact List.nodup_cons.2 ⟨fun hb => (hl.mem_nodes hb).2 (Finset.mem_insert_self _ _), ih hl⟩

/-- In a legal order, a dependency that is not done at the start comes first. -/
theorem Legal.idxOf_lt (h : g.Legal done l) {a d : α} (ha : a ∈ l) (hd : d ∈ g.deps a)
    (hnd : d ∉ done) : l.idxOf d < l.idxOf a := by
  induction l generalizing done with
  | nil => exact absurd ha List.not_mem_nil
  | cons b l ih =>
    obtain ⟨hb, hnb, hl⟩ := h
    by_cases hab : b = a
    -- The first node of the order only waits for what was done at the start.
    · exact absurd ((g.mem_ready.1 hb).2 (hab ▸ hd)) hnd
    · have ha' : a ∈ l := (List.mem_cons.1 ha).resolve_left (Ne.symm hab)
      rw [List.idxOf_cons_ne _ hab]
      by_cases hdb : b = d
      · rw [hdb, List.idxOf_cons_self]
        exact Nat.succ_pos _
      · rw [List.idxOf_cons_ne _ hdb]
        refine Nat.succ_lt_succ (ih hl ha' ?_)
        simp only [Finset.mem_insert, not_or]
        exact ⟨Ne.symm hdb, hnd⟩

/-- A graph whose nodes can all be completed in a legal order is acyclic. -/
theorem Legal.acyclic (h : g.Legal ∅ l) (hall : ∀ a ∈ g.nodes, a ∈ l) : g.Acyclic :=
  ⟨l.idxOf, fun a ha _ hd => h.idxOf_lt (hall a ha) hd (Finset.notMem_empty _)⟩

/-- Until all the nodes of an acyclic graph are done, one of the others is
    ready: the one of least rank. -/
theorem Acyclic.exists_ready (hg : g.Acyclic) (hne : ¬g.nodes ⊆ done) :
    ∃ a ∈ g.ready done, a ∉ done := by
  obtain ⟨rank, hrank⟩ := hg
  have hs : (g.nodes \ done).Nonempty := Finset.sdiff_nonempty.2 hne
  obtain ⟨a, ha, hmin⟩ := Finset.exists_min_image _ rank hs
  obtain ⟨han, had⟩ := Finset.mem_sdiff.1 ha
  refine ⟨a, g.mem_ready.2 ⟨han, fun d hd => ?_⟩, had⟩
  by_contra hnd
  have := hmin d (Finset.mem_sdiff.2 ⟨g.deps_subset a han hd, hnd⟩)
  exact absurd (hrank a han d hd) (not_lt.2 this)

/-! ## Countdown -/

variable (g) in
/-- The counters hold, for every node, the number of its dependencies still to
    come. -/
def Counts (indeg : Table α ℕ) (done : Finset α) : Prop :=
  ∀ a ∈ g.nodes, indeg.lookup a = some (g.deps a \ done).card

variable (g) in
/-- The lists hold, for every node, the nodes waiting for it, each of them once. -/
def Adjacent (outs : α → List α) : Prop :=
  ∀ a ∈ g.nodes, (outs a).Nodup ∧ ∀ b, b ∈ outs a ↔ b ∈ g.nodes ∧ a ∈ g.deps b

/-- The counters of the nodes of the list go down by one; the nodes reaching
    zero are returned, in order. -/
def release (indeg : Table α ℕ) : List α → Table α ℕ × List α
  | [] => (indeg, [])
  | o :: outs =>
    match indeg.lookup o with
    | some d =>
      let r := release (indeg.insert o (d - 1)) outs
      (r.1, if d - 1 = 0 then o :: r.2 else r.2)
    | none => release indeg outs

theorem release_lookup {indeg : Table α ℕ} {outs : List α} (hn : outs.Nodup) (b : α) :
    (release indeg outs).1.lookup b =
      if b ∈ outs then (indeg.lookup b).map (· - 1) else indeg.lookup b := by
  induction outs generalizing indeg with
  | nil => simp [release]
  | cons o outs ih =>
    obtain ⟨ho, hn⟩ := List.nodup_cons.1 hn
    cases hlo : indeg.lookup o with
    | none =>
      simp only [release, hlo, ih hn, List.mem_cons]
      by_cases hb : b = o
      · subst hb
        simp [ho, hlo]
      · simp [hb]
    | some d =>
      simp only [release, hlo, ih hn, List.mem_cons, Finmap.lookup_insert_ite]
      by_cases hb : b = o
      · subst hb
        simp [ho, hlo]
      · simp [hb]

theorem mem_release {indeg : Table α ℕ} {outs : List α} (hn : outs.Nodup) (b : α) :
    b ∈ (release indeg outs).2 ↔ b ∈ outs ∧ ∃ d, indeg.lookup b = some d ∧ d - 1 = 0 := by
  induction outs generalizing indeg with
  | nil => simp [release]
  | cons o outs ih =>
    obtain ⟨ho, hn⟩ := List.nodup_cons.1 hn
    cases hlo : indeg.lookup o with
    | none =>
      simp only [release, hlo, ih hn, List.mem_cons]
      by_cases hb : b = o
      · subst hb
        simp [ho, hlo]
      · simp [hb]
    | some d =>
      -- The rest of the list does not look at the counter of `o` again.
      have hr := @ih (indeg.insert o (d - 1)) hn
      simp only [Finmap.lookup_insert_ite] at hr
      simp only [release, hlo]
      by_cases hb : b = o
      · subst hb
        split_ifs with h0 <;> simp [hr, ho, hlo, h0]
      · split_ifs with h0 <;> simp [hr, hb]

theorem release_nodup {indeg : Table α ℕ} {outs : List α} (hn : outs.Nodup) :
    (release indeg outs).2.Nodup := by
  induction outs generalizing indeg with
  | nil => exact List.nodup_nil
  | cons o outs ih =>
    obtain ⟨ho, hn⟩ := List.nodup_cons.1 hn
    cases hlo : indeg.lookup o with
    | none => simpa only [release, hlo] using ih hn
    | some d =>
      have hr := @ih (indeg.insert o (d - 1)) hn
      simp only [release, hlo]
      split_ifs
      · exact List.nodup_cons.2 ⟨fun h => ho ((mem_release hn o).1 h).1, hr⟩
      · exact hr

/-- When `a` is done, the countdown releases exactly the nodes `a` makes ready. -/
theorem release_spec {indeg : Table α ℕ} {outs : α → List α} (hc : g.Counts indeg done)
    (hadj : g.Adjacent outs) {a : α} (ha : a ∈ g.nodes) (hna : a ∉ done) :
    g.Counts (release indeg (outs a)).1 (insert a done) ∧
      ∀ b, b ∈ (release indeg (outs a)).2 ↔ b ∈ g.ready (insert a done) ∧ b ∉ g.ready done := by
  obtain ⟨hn, hmem⟩ := hadj a ha
  -- One dependency less is still to come, for the nodes waiting for `a`.
  have hdrop (b : α) (hb : a ∈ g.deps b) :
      (g.deps b \ insert a done).card = (g.deps b \ done).card - 1 := by
    rw [Finset.sdiff_insert]
    exact Finset.card_erase_of_mem (Finset.mem_sdiff.2 ⟨hb, hna⟩)
  constructor
  · intro b hb
    rw [release_lookup hn, hc b hb]
    by_cases hab : a ∈ g.deps b
    · rw [if_pos ((hmem b).2 ⟨hb, hab⟩), Option.map_some, hdrop b hab]
    · rw [if_neg fun h => hab ((hmem b).1 h).2, Finset.sdiff_insert_of_notMem hab]
  · intro b
    rw [mem_release hn, hmem, g.mem_ready, g.mem_ready]
    constructor
    · rintro ⟨⟨hb, hab⟩, d, hd, hd0⟩
      rw [hc b hb, Option.some.injEq] at hd
      rw [← hd, ← hdrop b hab, Finset.card_eq_zero, Finset.sdiff_eq_empty_iff_subset] at hd0
      exact ⟨⟨hb, hd0⟩, fun h => hna (h.2 hab)⟩
    · rintro ⟨⟨hb, hsub⟩, hnr⟩
      have hab : a ∈ g.deps b := by
        by_contra hab
        exact hnr ⟨hb, (Finset.subset_insert_iff_of_notMem hab).1 hsub⟩
      refine ⟨⟨hb, hab⟩, _, hc b hb, ?_⟩
      rw [← hdrop b hab, Finset.card_eq_zero, Finset.sdiff_eq_empty_iff_subset]
      exact hsub

variable (g) in
/-- A countdown in progress: some nodes are `done`, all of them once ready, and
    the ready nodes which are not done are `live`, each of them once. -/
structure Countdown (done : Finset α) (indeg : Table α ℕ) (live : List α) : Prop where
  counts : g.Counts indeg done
  done_ready : done ⊆ g.ready done
  nodup : live.Nodup
  mem_live : ∀ b, b ∈ live ↔ b ∈ g.ready done ∧ b ∉ done

variable {indeg : Table α ℕ} {live : List α} {outs : α → List α}

/-- Completing a live node, in any order, is a step of the countdown: what it
    releases becomes live. -/
theorem Countdown.step (h : g.Countdown done indeg live) (hadj : g.Adjacent outs) {a : α}
    (ha : a ∈ live) : g.Countdown (insert a done) (release indeg (outs a)).1
      (live.erase a ++ (release indeg (outs a)).2) := by
  obtain ⟨har, had⟩ := (h.mem_live a).1 ha
  have han : a ∈ g.nodes := (g.mem_ready.1 har).1
  obtain ⟨hc, hrel⟩ := release_spec h.counts hadj han had
  have hmono := g.ready_mono (Finset.subset_insert a done)
  refine ⟨hc, Finset.insert_subset (hmono har) (h.done_ready.trans hmono), ?_, fun b => ?_⟩
  · refine (h.nodup.erase a).append (release_nodup (hadj a han).1) fun b hb hb' => ?_
    exact ((hrel b).1 hb').2 ((h.mem_live b).1 (List.mem_of_mem_erase hb)).1
  · rw [List.mem_append, hrel, h.nodup.mem_erase_iff, h.mem_live, Finset.mem_insert, not_or]
    constructor
    · rintro (⟨hba, hb, hbd⟩ | ⟨hb, hnb⟩)
      · exact ⟨hmono hb, hba, hbd⟩
      · -- What is done was ready before, and `b` was not.
        exact ⟨hb, fun e => hnb (e ▸ har), fun hbd => hnb (h.done_ready hbd)⟩
    · rintro ⟨hb, hba, hbd⟩
      by_cases hbr : b ∈ g.ready done
      · exact .inl ⟨hba, hbr, hbd⟩
      · exact .inr ⟨hb, hbr⟩

/-- A node is live only once. -/
theorem Countdown.live_not_done (h : g.Countdown done indeg live) {a : α} (ha : a ∈ live) :
    a ∈ g.ready done ∧ a ∉ done := (h.mem_live a).1 ha

/-- In an acyclic graph, the countdown only stops with all the nodes done. -/
theorem Countdown.done_of_live_nil (h : g.Countdown done indeg []) (hg : g.Acyclic) :
    done = g.nodes := by
  refine Finset.Subset.antisymm (fun a ha => (g.mem_ready.1 (h.done_ready ha)).1) ?_
  by_contra hne
  obtain ⟨a, har, had⟩ := hg.exists_ready hne
  exact List.not_mem_nil ((h.mem_live a).2 ⟨har, had⟩)

/-! ## Kahn's algorithm -/

/-- Kahn's loop, for at most `n` nodes: the first node of the queue is done, and
    what it releases joins the queue. -/
def kahn (outs : α → List α) : ℕ → Table α ℕ → List α → List α
  | 0, _, _ => []
  | _ + 1, _, [] => []
  | n + 1, indeg, a :: queue =>
    let r := release indeg (outs a)
    a :: kahn outs n r.1 (queue ++ r.2)

/-- Kahn's order is legal. -/
theorem Countdown.kahn_legal (h : g.Countdown done indeg live) (hadj : g.Adjacent outs) (n : ℕ) :
    g.Legal done (kahn outs n indeg live) := by
  induction n generalizing done indeg live with
  | zero => trivial
  | succ n ih =>
    cases live with
    | nil => trivial
    | cons a queue =>
      have hstep := h.step hadj (a := a) List.mem_cons_self
      rw [List.erase_cons_head] at hstep
      obtain ⟨har, had⟩ := h.live_not_done List.mem_cons_self
      exact ⟨har, had, ih hstep⟩

/-- The loop ends: as many rounds as there are nodes to be done are enough. -/
theorem Countdown.kahn_fuel (h : g.Countdown done indeg live) (hadj : g.Adjacent outs) {n m : ℕ}
    (hn : (g.nodes \ done).card ≤ n) (hm : n ≤ m) :
    kahn outs m indeg live = kahn outs n indeg live := by
  induction n generalizing done indeg live m with
  | zero =>
    cases live with
    | nil => cases m <;> rfl
    | cons a queue =>
      obtain ⟨har, had⟩ := h.live_not_done List.mem_cons_self
      -- Nothing is left to be done, but `a` is live.
      rw [Nat.le_zero, Finset.card_eq_zero, Finset.sdiff_eq_empty_iff_subset] at hn
      exact absurd (hn (g.mem_ready.1 har).1) had
  | succ n ih =>
    obtain ⟨m, rfl⟩ : ∃ k, m = k + 1 := Nat.exists_eq_succ_of_ne_zero (by omega)
    cases live with
    | nil => rfl
    | cons a queue =>
      have hstep := h.step hadj (a := a) List.mem_cons_self
      rw [List.erase_cons_head] at hstep
      obtain ⟨har, had⟩ := h.live_not_done List.mem_cons_self
      have hcard : (g.nodes \ insert a done).card ≤ n := by
        rw [Finset.sdiff_insert, Finset.card_erase_of_mem
          (Finset.mem_sdiff.2 ⟨(g.mem_ready.1 har).1, had⟩)]
        omega
      exact congrArg _ (ih hstep hcard (Nat.le_of_succ_le_succ hm))

end DepGraph
