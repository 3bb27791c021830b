import Mathlib.Data.Finset.Lattice.Fold
import Mathlib.Data.List.Chain
import Mathlib.Logic.Relation
import Mathlib.Order.Bounds.Basic
import Mathlib.Order.WellFounded
import N3ur0n.Lib.Dag

/-!
# Cycles and chains of dependencies

A dependency graph is followed from a node to those it waits for.

* `mem_kahn`: Kahn's algorithm leaves out the nodes from which this may go on
  forever, as they lead to a cycle, and no other;
* `Heights.isGreatest`: when every node is one higher than the highest node it
  waits for, the highest node tells how long the longest chain is.
-/

namespace DepGraph

variable {α : Type*} [DecidableEq α] (g : DepGraph α)

/-- The node `a` waits for the node `d`. -/
def WaitsFor (a d : α) : Prop := a ∈ g.nodes ∧ d ∈ g.deps a

/-- Following the dependencies of the node, a cycle is reached. -/
def ReachesCycle (a : α) : Prop :=
  ∃ c, Relation.ReflTransGen g.WaitsFor a c ∧ Relation.TransGen g.WaitsFor c c

variable {g} {done : Finset α} {l : List α} {a d : α}

theorem WaitsFor.mem_nodes (h : g.WaitsFor a d) : d ∈ g.nodes := g.deps_subset a h.1 h.2

/-! ## Cycles -/

/-- Among finitely many nodes which all wait for another one of them, there is
    a cycle. -/
theorem reachesCycle_of_stuck {s : Finset α} (hs : ∀ a ∈ s, ∃ d ∈ s, g.WaitsFor a d)
    (ha : a ∈ s) : g.ReachesCycle a := by
  by_contra hno
  -- Otherwise, the nodes of `s` after `a` are well-founded: one is the last.
  let after := { b : s // Relation.ReflTransGen g.WaitsFor a b }
  let r : after → after → Prop := fun b c => Relation.TransGen g.WaitsFor c.1 b.1
  have hirrefl : Std.Irrefl r := ⟨fun c hc => hno ⟨c.1, c.2, hc⟩⟩
  have htrans : IsTrans after r := ⟨fun _ _ _ hbc hcd => hcd.trans hbc⟩
  have hwf : WellFounded r := Finite.wellFounded_of_trans_of_irrefl r
  obtain ⟨⟨⟨b, hb⟩, hab⟩, -, hlast⟩ :=
    hwf.has_min Set.univ ⟨⟨⟨a, ha⟩, Relation.ReflTransGen.refl⟩, trivial⟩
  obtain ⟨d, hd, hbd⟩ := hs b hb
  exact hlast ⟨⟨d, hd⟩, hab.tail hbd⟩ trivial (Relation.TransGen.single hbd)

/-- A legal order holds what its nodes wait for, before them. -/
theorem Legal.mem_of_waitsFor (h : g.Legal ∅ l) (ha : a ∈ l) (hd : g.WaitsFor a d) :
    d ∈ l ∧ l.idxOf d < l.idxOf a := by
  have hlt := h.idxOf_lt ha hd.2 (Finset.notMem_empty d)
  exact ⟨List.idxOf_lt_length_iff.1 (hlt.trans_le List.idxOf_le_length), hlt⟩

theorem Legal.mem_of_transGen (h : g.Legal ∅ l) (ha : a ∈ l)
    (hd : Relation.TransGen g.WaitsFor a d) : d ∈ l ∧ l.idxOf d < l.idxOf a := by
  induction hd with
  | single hd => exact h.mem_of_waitsFor ha hd
  | tail _ hd ih =>
    obtain ⟨hm, hlt⟩ := h.mem_of_waitsFor ih.1 hd
    exact ⟨hm, hlt.trans ih.2⟩

/-- The nodes of a legal order lead to no cycle. -/
theorem Legal.not_reachesCycle (h : g.Legal ∅ l) (ha : a ∈ l) : ¬g.ReachesCycle a := by
  rintro ⟨c, hac, hcc⟩
  have hc : c ∈ l := by
    rcases Relation.reflTransGen_iff_eq_or_transGen.1 hac with rfl | hac
    · exact ha
    · exact (h.mem_of_transGen ha hac).1
  exact lt_irrefl _ (h.mem_of_transGen hc hcc).2

/-- Given enough rounds, the countdown of Kahn's algorithm stops when nothing
    is live. -/
theorem Countdown.kahn_stops {indeg : Table α ℕ} {live : List α} {outs : α → List α}
    (h : g.Countdown done indeg live) (hadj : g.Adjacent outs) {n : ℕ}
    (hn : (g.nodes \ done).card ≤ n) :
    ∃ indeg', g.Countdown (done ∪ (kahn outs n indeg live).toFinset) indeg' [] := by
  induction n generalizing done indeg live with
  | zero =>
    rcases live with _ | ⟨a, queue⟩
    · exact ⟨indeg, by simpa [kahn] using h⟩
    · obtain ⟨har, had⟩ := h.live_not_done List.mem_cons_self
      rw [Nat.le_zero, Finset.card_eq_zero, Finset.sdiff_eq_empty_iff_subset] at hn
      exact absurd (hn (g.mem_ready.1 har).1) had
  | succ n ih =>
    rcases live with _ | ⟨a, queue⟩
    · exact ⟨indeg, by simpa [kahn] using h⟩
    · have hstep := h.step hadj (a := a) List.mem_cons_self
      rw [List.erase_cons_head] at hstep
      obtain ⟨har, had⟩ := h.live_not_done List.mem_cons_self
      have hcard : (g.nodes \ insert a done).card ≤ n := by
        rw [Finset.sdiff_insert, Finset.card_erase_of_mem
          (Finset.mem_sdiff.2 ⟨(g.mem_ready.1 har).1, had⟩)]
        omega
      obtain ⟨indeg', hend⟩ := ih hstep hcard
      refine ⟨indeg', ?_⟩
      rwa [kahn, List.toFinset_cons, Finset.union_insert, ← Finset.insert_union]

/-- Kahn's order holds the nodes which lead to no cycle. -/
theorem Countdown.mem_kahn {indeg : Table α ℕ} {live : List α} {outs : α → List α}
    (h : g.Countdown ∅ indeg live) (hadj : g.Adjacent outs) {n : ℕ} (hn : g.nodes.card ≤ n)
    (ha : a ∈ g.nodes) : a ∈ kahn outs n indeg live ↔ ¬g.ReachesCycle a := by
  refine ⟨(h.kahn_legal hadj n).not_reachesCycle, fun hno => ?_⟩
  by_contra hout
  obtain ⟨indeg', hend⟩ := h.kahn_stops hadj (n := n) (by rwa [Finset.sdiff_empty])
  rw [Finset.empty_union] at hend
  -- A node left out is not ready: it waits for another one.
  refine hno (reachesCycle_of_stuck (s := g.nodes \ (kahn outs n indeg live).toFinset)
    (fun b hb => ?_) (Finset.mem_sdiff.2 ⟨ha, by simpa using hout⟩))
  obtain ⟨hbn, hbo⟩ := Finset.mem_sdiff.1 hb
  have hnr : b ∉ g.ready (kahn outs n indeg live).toFinset := fun hr =>
    List.not_mem_nil ((hend.mem_live b).2 ⟨hr, hbo⟩)
  obtain ⟨d, hd, hdo⟩ := Finset.not_subset.1 fun hsub => hnr (g.mem_ready.2 ⟨hbn, hsub⟩)
  exact ⟨d, Finset.mem_sdiff.2 ⟨g.deps_subset b hbn hd, hdo⟩, hbn, hd⟩

/-- A node which waits for nothing leads to no cycle. -/
theorem not_reachesCycle_of_forall (h : ∀ d, ¬g.WaitsFor a d) : ¬g.ReachesCycle a := by
  rintro ⟨c, hac, hcc⟩
  rcases Relation.ReflTransGen.cases_head hac with rfl | ⟨d, had, -⟩
  · obtain ⟨d, had, -⟩ := Relation.TransGen.head'_iff.1 hcc
    exact h d had
  · exact h d had

/-! ## Chains -/

variable (g) in
/-- A chain: each node waits for the next one. -/
def Chain (l : List α) : Prop := l.IsChain g.WaitsFor ∧ ∀ a ∈ l, a ∈ g.nodes

variable (g) in
/-- The nodes of `s` wait for nodes of `s`, and are one higher than the highest
    of them. -/
def Heights (s : Finset α) (height : α → ℕ) : Prop :=
  ∀ a ∈ s, a ∈ g.nodes ∧ g.deps a ⊆ s ∧ height a = (g.deps a).sup height + 1

variable {s : Finset α} {height : α → ℕ}

theorem Heights.length_le (h : g.Heights s height) (ha : a ∈ s) (hl : (a :: l).IsChain g.WaitsFor) :
    (a :: l).length ≤ height a := by
  obtain ⟨-, hsub, heq⟩ := h a ha
  induction l generalizing a with
  | nil => simp [heq]
  | cons b l ih =>
    obtain ⟨⟨-, hb⟩, hl⟩ := List.isChain_cons_cons.1 hl
    obtain ⟨-, hsub', heq'⟩ := h b (hsub hb)
    have hle : height b ≤ (g.deps a).sup height := Finset.le_sup hb
    have := ih (hsub hb) hl hsub' heq'
    rw [List.length_cons]
    omega

/-- From every node, there is a chain as long as the node is high. -/
theorem Heights.exists_chain (h : g.Heights s height) (ha : a ∈ s) :
    ∃ l, (a :: l).IsChain g.WaitsFor ∧ (∀ b ∈ l, b ∈ s) ∧ (a :: l).length = height a := by
  induction hk : height a using Nat.strong_induction_on generalizing a with
  | _ k ih =>
    obtain ⟨han, hsub, heq⟩ := h a ha
    rcases (g.deps a).eq_empty_or_nonempty with he | hne
    · refine ⟨[], List.isChain_singleton a, fun b hb => absurd hb List.not_mem_nil, ?_⟩
      rw [← hk, heq, he, Finset.sup_empty]
      rfl
    · -- The chain goes on from the highest of the dependencies.
      obtain ⟨d, hd, hsup⟩ := Finset.exists_mem_eq_sup _ hne height
      obtain ⟨l, hl, hls, hlen⟩ := ih (height d) (by omega) (hsub hd) rfl
      refine ⟨d :: l, List.isChain_cons_cons.2 ⟨⟨han, hd⟩, hl⟩,
        List.forall_mem_cons.2 ⟨hsub hd, hls⟩, ?_⟩
      rw [List.length_cons, hlen]
      omega

/-- The highest node tells the length of the longest chain. -/
theorem Heights.isGreatest (h : g.Heights g.nodes height) :
    IsGreatest { n | ∃ l, g.Chain l ∧ l.length = n } (g.nodes.sup height) := by
  constructor
  · rcases g.nodes.eq_empty_or_nonempty with he | hne
    · exact ⟨[], ⟨List.isChain_nil, fun a ha => absurd ha List.not_mem_nil⟩, by simp [he]⟩
    · obtain ⟨a, ha, hsup⟩ := Finset.exists_mem_eq_sup _ hne height
      obtain ⟨l, hl, hls, hlen⟩ := h.exists_chain ha
      exact ⟨a :: l, ⟨hl, List.forall_mem_cons.2 ⟨ha, hls⟩⟩, hlen.trans hsup.symm⟩
  · rintro n ⟨l, ⟨hl, hln⟩, rfl⟩
    rcases l with _ | ⟨a, l⟩
    · exact Nat.zero_le _
    · have ha : a ∈ g.nodes := hln a List.mem_cons_self
      exact (h.length_le ha hl).trans (Finset.le_sup ha)

end DepGraph
