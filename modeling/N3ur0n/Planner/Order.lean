import Mathlib.Order.Lattice.Nat
import N3ur0n.Lib.Chains
import N3ur0n.Planner.Plan

/-!
# The order of the steps

`topologicalOrder` is Kahn's algorithm on maps that it builds from hash
collections, so nothing says in which order these are filled; and it never
fails, on a cycle it only stops early.

* `topologicalOrder_spec`: the order holds the steps which lead to no cycle,
  each after what it waits for, whatever the order of the hash collections;
* `planDepth` climbs this order, and is the length of the longest chain of
  dependent steps when the order is complete. On a plan with a cycle it is
  documented to be zero, but it is so only if no step can start
  (`planDepth_documented_iff`).
-/

namespace N3ur0n

namespace Plan

variable (p : Plan)

/-- The step `a` waits for the other step `d`: it declares it, or refers to it. -/
def WaitsFor (a d : String) : Prop :=
  ∃ s ∈ p.plan, s.id = a ∧ d ∈ s.deps ∧ d ≠ a ∧ d ∈ p.ids

/-- Following the dependencies of the step, a cycle is reached. -/
def ReachesCycle (a : String) : Prop :=
  ∃ c, Relation.ReflTransGen p.WaitsFor a c ∧ Relation.TransGen p.WaitsFor c c

/-- No step waits for itself through other steps. -/
def NoCycle : Prop := ∀ c, ¬Relation.TransGen p.WaitsFor c c

/-! ## Hash collections -/

/-- The maps of the plan, when the hash set of the dependencies of every step is
    iterated in the order `iter`. -/
def wireIn (iter : PlanStep → List String) : Wiring :=
  let entered := p.plan.foldl (fun w s => w.enter s.id) ⟨∅, ∅⟩
  p.plan.foldl (fun w s => (iter s).foldl (Wiring.connect s.id) w) entered

/-- An adjacency list in plan order, without repetitions. -/
def arrange (outs : List String) : List String :=
  (outs.insertionSort fun a b => p.sortKey a ≤ p.sortKey b).destutter (· ≠ ·)

/-- The adjacency lists, arranged one after the other in the order `visit`. -/
def arrangeAll (visit : List String) (edges : Table String (List String)) :
    Table String (List String) :=
  visit.foldl (fun edges id => edges.modify id p.arrange) edges

/-- The order of the plan, when the hash collections are iterated in the orders
    `iter` and `visit`. -/
def topologicalOrderIn (iter : PlanStep → List String) (visit : List String) : List String :=
  let w := p.wireIn iter
  let edges := p.arrangeAll visit w.edges
  DepGraph.kahn (fun id => (edges.lookup id).getD []) p.plan.length w.indeg
    (p.ids.filter fun id => w.indeg.lookup id = some 0)

variable {p}

/-- An edge does not change which other edges are skipped. -/
theorem skip_connect {id d d' : String} {w : Wiring} :
    (d' = id ∨ d' ∉ (w.connect id d).indeg) ↔ d' = id ∨ d' ∉ w.indeg := by
  rw [Wiring.connect]
  split_ifs
  · rfl
  · rw [Finmap.mem_insert]
    tauto

/-- The edges of a step may be added in any order. -/
theorem connect_comm (id d d' : String) (w : Wiring) :
    (w.connect id d).connect id d' = (w.connect id d').connect id d := by
  by_cases hd : d = id ∨ d ∉ w.indeg
  · rw [Wiring.connect_of_skip hd, Wiring.connect_of_skip (skip_connect.2 hd)]
  by_cases hd' : d' = id ∨ d' ∉ w.indeg
  · rw [Wiring.connect_of_skip hd', Wiring.connect_of_skip (skip_connect.2 hd')]
  · have hcd : w.connect id d = ⟨_, _⟩ := if_neg hd
    have hcd' : w.connect id d' = ⟨_, _⟩ := if_neg hd'
    have hboth : (w.connect id d).connect id d' = ⟨_, _⟩ := if_neg (skip_connect.not.2 hd')
    have hboth' : (w.connect id d').connect id d = ⟨_, _⟩ := if_neg (skip_connect.not.2 hd)
    rw [hboth, hboth', hcd, hcd']
    by_cases hdd : d = d'
    · rw [hdd]
    · simp only [Finmap.insert_insert, Finmap.lookup_insert, Wiring.outs,
        Finmap.lookup_insert_of_ne _ hdd, Finmap.lookup_insert_of_ne _ (Ne.symm hdd),
        Finmap.insert_insert_of_ne _ hdd]

/-- The maps do not depend on the iteration of the hash sets. -/
theorem wireIn_eq {iter : PlanStep → List String} (h : ∀ s ∈ p.plan, (iter s).Perm s.deps) :
    p.wireIn iter = p.wire := by
  refine List.foldl_ext _ _ _ fun w s hs => ?_
  exact (h s hs).foldl_eq' (fun d _ d' _ w => connect_comm s.id d d' w) w

theorem lookup_arrangeAll {visit : List String} (hn : visit.Nodup)
    (edges : Table String (List String)) (a : String) :
    (p.arrangeAll visit edges).lookup a =
      if a ∈ visit then (edges.lookup a).map p.arrange else edges.lookup a := by
  induction visit generalizing edges with
  | nil => rfl
  | cons b visit ih =>
    obtain ⟨hb, hn⟩ := List.nodup_cons.1 hn
    have hcons : p.arrangeAll (b :: visit) edges =
        p.arrangeAll visit (edges.modify b p.arrange) := rfl
    rw [hcons, ih hn, Finmap.lookup_modify]
    by_cases hab : a = b
    · subst hab
      simp [hb]
    · simp [hab]

/-- Once every list is arranged, the lists are those of `Plan.outs`. -/
theorem arrangeAll_outs {visit : List String} (hn : visit.Nodup)
    (hv : ∀ a, a ∈ visit ↔ a ∈ p.wire.edges) (a : String) :
    ((p.arrangeAll visit p.wire.edges).lookup a).getD [] = p.outs a := by
  rw [lookup_arrangeAll hn]
  cases ha : p.wire.edges.lookup a with
  | none => simp [outs, Wiring.outs, ha]
  | some l =>
    have hmem : a ∈ visit := (hv a).2 (Finmap.mem_of_lookup_eq_some ha)
    simp [outs, Wiring.outs, ha, hmem, arrange]

/-- The order does not depend on the iteration of the hash collections. -/
theorem topologicalOrderIn_eq {iter : PlanStep → List String} {visit : List String}
    (hi : ∀ s ∈ p.plan, (iter s).Perm s.deps) (hn : visit.Nodup)
    (hv : ∀ a, a ∈ visit ↔ a ∈ p.wire.edges) :
    p.topologicalOrderIn iter visit = topologicalOrder p := by
  have houts : (fun id => ((p.arrangeAll visit p.wire.edges).lookup id).getD []) = p.outs := by
    funext a
    exact arrangeAll_outs hn hv a
  simp only [topologicalOrderIn, wireIn_eq hi, houts]
  rfl

/-! ## The graph of the plan -/

theorem graph_waitsFor (hn : p.ids.Nodup) : p.graph.WaitsFor = p.WaitsFor := by
  funext a d
  refine propext ⟨?_, ?_⟩
  · rintro ⟨ha, hd⟩
    obtain ⟨s, hs, rfl⟩ := mem_ids.1 (mem_graph_nodes.1 ha)
    exact ⟨s, hs, rfl, (mem_graph_deps hn hs).1 hd⟩
  · rintro ⟨s, hs, rfl, hd⟩
    exact ⟨mem_graph_nodes.2 (mem_ids.2 ⟨s, hs, rfl⟩), (mem_graph_deps hn hs).2 hd⟩

theorem graph_reachesCycle (hn : p.ids.Nodup) (a : String) :
    p.graph.ReachesCycle a ↔ p.ReachesCycle a := by
  rw [DepGraph.ReachesCycle, graph_waitsFor hn, ReachesCycle]

theorem card_graph_nodes (hn : p.ids.Nodup) : p.graph.nodes.card = p.plan.length :=
  (List.toFinset_card_of_nodup hn).trans (List.length_map _)

theorem legal_topologicalOrder (hn : p.ids.Nodup) : p.graph.Legal ∅ (topologicalOrder p) :=
  (countdown_seeds hn).kahn_legal (adjacent_outs hn) _

theorem mem_topologicalOrder (hn : p.ids.Nodup) {a : String} :
    a ∈ topologicalOrder p ↔ a ∈ p.ids ∧ ¬p.ReachesCycle a := by
  have hmem (ha : a ∈ p.graph.nodes) : a ∈ topologicalOrder p ↔ ¬p.ReachesCycle a := by
    rw [← graph_reachesCycle hn]
    exact (countdown_seeds hn).mem_kahn (adjacent_outs hn) (card_graph_nodes hn).le ha
  refine ⟨fun ha => ?_, fun ⟨ha, hc⟩ => (hmem (mem_graph_nodes.2 ha)).2 hc⟩
  have han := ((legal_topologicalOrder hn).mem_nodes ha).1
  exact ⟨mem_graph_nodes.1 han, (hmem han).1 ha⟩

/-- A node of a cycle leads to it, and is a step of the plan. -/
theorem noCycle_iff : p.NoCycle ↔ ∀ a ∈ p.ids, ¬p.ReachesCycle a := by
  constructor
  · rintro h a - ⟨c, -, hc⟩
    exact h c hc
  · intro h c hc
    obtain ⟨d, ⟨s, hs, rfl, -⟩, -⟩ := Relation.TransGen.head'_iff.1 hc
    exact h s.id (mem_ids.2 ⟨s, hs, rfl⟩) ⟨s.id, .refl, hc⟩

/-- The order is complete exactly if there is no cycle. -/
theorem length_topologicalOrder (hn : p.ids.Nodup) :
    (topologicalOrder p).length = p.plan.length ↔ p.NoCycle := by
  have hnodup := (legal_topologicalOrder hn).nodup
  have hsub : topologicalOrder p ⊆ p.ids := fun a ha => ((mem_topologicalOrder hn).1 ha).1
  have hids : p.ids.length = p.plan.length := List.length_map _
  rw [noCycle_iff, ← hids]
  constructor
  · intro hlen a ha
    have hperm := (hnodup.subperm hsub).perm_of_length_le hlen.ge
    exact ((mem_topologicalOrder hn).1 (hperm.mem_iff.2 ha)).2
  · intro h
    refine ((List.perm_ext_iff_of_nodup hnodup hn).2 fun a => ?_).length_eq
    rw [mem_topologicalOrder hn]
    exact and_iff_left_of_imp (h a)

/-! ## What the order is -/

/-- What an order of the steps is to be: the steps which lead to no cycle, each
    of them once and after the steps it waits for. -/
structure OrderedBy (p : Plan) (order : List String) : Prop where
  nodup : order.Nodup
  subset : order ⊆ p.ids
  after : ∀ a ∈ order, ∀ d, p.WaitsFor a d → d ∈ order ∧ order.idxOf d < order.idxOf a
  mem_iff : ∀ a ∈ p.ids, a ∈ order ↔ ¬p.ReachesCycle a
  full_iff : order.length = p.plan.length ↔ p.NoCycle

/-- The order is what it is to be, whatever the order in which the hash
    collections are iterated; its loop ends, as more rounds change nothing. -/
theorem topologicalOrder_spec (hn : p.ids.Nodup) :
    p.OrderedBy (topologicalOrder p) ∧
      (∀ n, p.plan.length ≤ n →
        DepGraph.kahn p.outs n p.wire.indeg p.seeds = topologicalOrder p) ∧
      ∀ iter visit, (∀ s ∈ p.plan, (iter s).Perm s.deps) → visit.Nodup →
        (∀ a, a ∈ visit ↔ a ∈ (p.wireIn iter).edges) →
        p.topologicalOrderIn iter visit = topologicalOrder p where
  left := {
    nodup := (legal_topologicalOrder hn).nodup
    subset := fun a ha => ((mem_topologicalOrder hn).1 ha).1
    after := fun a ha d hd => (legal_topologicalOrder hn).mem_of_waitsFor ha (by
      rwa [graph_waitsFor hn])
    mem_iff := fun a ha => by
      rw [mem_topologicalOrder hn]
      exact and_iff_right ha
    full_iff := length_topologicalOrder hn }
  right := by
    refine ⟨fun n => topologicalOrder_fuel hn, fun iter visit hi hv hmem => ?_⟩
    rw [wireIn_eq hi] at hmem
    exact topologicalOrderIn_eq hi hv hmem

/-- A step waits for nothing, and two others wait for each other. -/
def besideCycle : Plan where
  plan := [
    ⟨"s1", "alice", "echo", .object [], []⟩,
    ⟨"s2", "alice", "echo", .object [("text", .string "$\x7bs3.out\x7d")], ["s1"]⟩,
    ⟨"s3", "alice", "echo", .object [], ["s2"]⟩]

theorem topologicalOrder_spec_besideCycle :
    besideCycle.OrderedBy ["s1"] ∧
      besideCycle.topologicalOrderIn (fun s => s.deps.reverse) ["s3", "s1", "s2"] = ["s1"] := by
  have hn : besideCycle.ids.Nodup := by decide
  have horder : topologicalOrder besideCycle = ["s1"] := by decide
  obtain ⟨hspec, -, hsets⟩ := topologicalOrder_spec hn
  rw [horder] at hspec
  refine ⟨hspec, (hsets _ _ (fun s _ => s.deps.reverse_perm) (by decide) fun a => ?_).trans horder⟩
  have hkeys : (besideCycle.wireIn fun s => s.deps.reverse).edges.keys = {"s3", "s1", "s2"} := by
    decide
  rw [← Finmap.mem_keys, hkeys]
  simp

/-! ## Depth -/

/-- The level of a step, above the steps it waits for which have one. -/
def levelAbove (level : Table String ℕ) (s : PlanStep) : ℕ :=
  ((s.deps.filter (· ≠ s.id)).filterMap level.lookup).max?.getD 0 + 1

variable (p) in
/-- A step of the loop of `planDepth`. -/
def deepen (acc : Table String ℕ × ℕ) (id : String) : Table String ℕ × ℕ :=
  match p.byId.lookup id with
  | none => acc
  | some step =>
    let d := levelAbove acc.1 step
    (acc.1.insert step.id d, max acc.2 d)

end Plan

/-- Longest chain of dependent steps in the plan; the order it climbs never fails. -/
def planDepth (p : Plan) : ℕ := ((topologicalOrder p).foldl p.deepen (∅, 0)).2

namespace Plan

variable {p : Plan}

/-- The highest level among some steps, those without a level aside. -/
theorem max_filterMap_lookup (level : Table String ℕ) (l : List String) :
    (l.filterMap level.lookup).max?.getD 0 = l.toFinset.sup fun d => (level.lookup d).getD 0 := by
  induction l with
  | nil => rfl
  | cons d l ih =>
    rw [List.toFinset_cons, Finset.sup_insert, ← ih]
    cases hd : level.lookup d with
    | none => simp [hd]
    | some n =>
      cases hm : (l.filterMap level.lookup).max? with
      | none => simp [hd, List.max?_eq_none_iff.1 hm]
      | some m => simp [hd, List.max?_cons, hm]

/-- The loop of `planDepth` in progress: the steps done have levels, the highest
    of which is kept. -/
structure Climbed (p : Plan) (done : Finset String) (acc : Table String ℕ × ℕ) : Prop where
  keys : acc.1.keys = done
  heights : p.graph.Heights done fun a => (acc.1.lookup a).getD 0
  deepest : acc.2 = done.sup fun a => (acc.1.lookup a).getD 0

/-- The level of a step is one above its dependencies: no level is known outside
    of the plan. -/
theorem levelAbove_eq (hn : p.ids.Nodup) {s : PlanStep} (hs : s ∈ p.plan)
    {level : Table String ℕ} (hl : ∀ d ∈ level, d ∈ p.ids) :
    levelAbove level s = ((p.graph.deps s.id).sup fun d => (level.lookup d).getD 0) + 1 := by
  rw [levelAbove, max_filterMap_lookup, graph_deps hn hs]
  refine congrArg (· + 1) (le_antisymm (Finset.sup_le fun d hd => ?_) (Finset.sup_mono ?_))
  · rw [List.mem_toFinset, List.mem_filter, decide_eq_true_eq] at hd
    by_cases hmem : d ∈ level
    · have hdep : d ∈ (p.knownDeps s).toFinset :=
        List.mem_toFinset.2 (mem_knownDeps.2 ⟨hd.1, hd.2, hl d hmem⟩)
      exact Finset.le_sup (f := fun d => (level.lookup d).getD 0) hdep
    · rw [Finmap.lookup_eq_none.2 hmem]
      exact Nat.zero_le _
  · intro d hd
    rw [List.mem_toFinset, mem_knownDeps] at hd
    rw [List.mem_toFinset, List.mem_filter, decide_eq_true_eq]
    exact ⟨hd.1, hd.2.1⟩

/-- The next step of a legal order gets its level. -/
theorem Climbed.step (hn : p.ids.Nodup) {done : Finset String} {acc : Table String ℕ × ℕ}
    (h : p.Climbed done acc) {a : String} (ha : a ∈ p.graph.ready done) (hnd : a ∉ done) :
    p.Climbed (insert a done) (p.deepen acc a) := by
  obtain ⟨han, hdeps⟩ := p.graph.mem_ready.1 ha
  obtain ⟨s, hs, rfl⟩ := mem_ids.1 (mem_graph_nodes.1 han)
  have hlevel : levelAbove acc.1 s = _ := levelAbove_eq hn hs fun d hd => by
    rw [← Finmap.mem_keys, h.keys] at hd
    exact mem_graph_nodes.1 (h.heights d hd).1
  have hdeepen : p.deepen acc s.id = (acc.1.insert s.id (levelAbove acc.1 s),
      max acc.2 (levelAbove acc.1 s)) := by
    simp only [deepen, (lookup_byId hn).2 ⟨hs, rfl⟩]
  -- The steps done before keep their levels.
  have hkeep {b : String} (hb : b ∈ done) :
      ((p.deepen acc s.id).1.lookup b).getD 0 = (acc.1.lookup b).getD 0 := by
    have hne : b ≠ s.id := ne_of_mem_of_not_mem hb hnd
    rw [hdeepen, Finmap.lookup_insert_of_ne _ hne]
  have hself : ((p.deepen acc s.id).1.lookup s.id).getD 0 = levelAbove acc.1 s := by
    rw [hdeepen, Finmap.lookup_insert, Option.getD_some]
  refine ⟨?_, fun b hb => ?_, ?_⟩
  · rw [hdeepen, Finmap.keys_insert, h.keys]
  · rcases Finset.mem_insert.1 hb with rfl | hb
    · refine ⟨han, hdeps.trans (Finset.subset_insert _ _), ?_⟩
      simp only [hself, hlevel]
      exact congrArg (· + 1) (Finset.sup_congr rfl fun d hd => (hkeep (hdeps hd)).symm)
    · obtain ⟨hbn, hsub, heq⟩ := h.heights b hb
      refine ⟨hbn, hsub.trans (Finset.subset_insert _ _), ?_⟩
      simp only [hkeep hb, heq]
      exact congrArg (· + 1) (Finset.sup_congr rfl fun d hd => (hkeep (hsub hd)).symm)
  · rw [Finset.sup_insert, hself, Finset.sup_congr rfl fun b hb => hkeep hb, ← h.deepest, hdeepen]
    exact max_comm _ _

/-- Along a legal order, all the steps get their levels. -/
theorem Climbed.foldl (hn : p.ids.Nodup) {done : Finset String} {acc : Table String ℕ × ℕ}
    (h : p.Climbed done acc) {order : List String} (hl : p.graph.Legal done order) :
    p.Climbed (done ∪ order.toFinset) (order.foldl p.deepen acc) := by
  induction order generalizing done acc with
  | nil => simpa using h
  | cons a order ih =>
    obtain ⟨ha, hnd, hl⟩ := hl
    have := ih (h.step hn ha hnd) hl
    rwa [List.foldl_cons, List.toFinset_cons, Finset.union_insert, ← Finset.insert_union]

theorem climbed_planDepth (hn : p.ids.Nodup) :
    p.Climbed (topologicalOrder p).toFinset ((topologicalOrder p).foldl p.deepen (∅, 0)) := by
  have hstart : p.Climbed ∅ (∅, 0) :=
    ⟨Finmap.keys_empty, fun a ha => absurd ha (Finset.notMem_empty a), rfl⟩
  simpa using hstart.foldl hn (legal_topologicalOrder hn)

variable (p) in
/-- A chain of dependent steps: each one waits for the next. -/
def Chain (l : List String) : Prop := l.IsChain p.WaitsFor ∧ ∀ a ∈ l, a ∈ p.ids

/-- The depth of a plan without cycles is the length of its longest chains. -/
theorem planDepth_isGreatest (hn : p.ids.Nodup) (hc : p.NoCycle) :
    IsGreatest { n | ∃ l, p.Chain l ∧ l.length = n } (planDepth p) := by
  have hall : (topologicalOrder p).toFinset = p.graph.nodes := by
    ext a
    rw [List.mem_toFinset, mem_topologicalOrder hn, mem_graph_nodes]
    exact and_iff_left_of_imp (noCycle_iff.1 hc a)
  obtain ⟨-, hheights, hdeepest⟩ := climbed_planDepth hn
  rw [hall] at hheights hdeepest
  have hchain (l : List String) : p.graph.Chain l ↔ p.Chain l := by
    rw [DepGraph.Chain, graph_waitsFor hn, Chain]
    exact and_congr_right fun _ => forall₂_congr fun a _ => mem_graph_nodes
  rw [planDepth, hdeepest]
  simpa only [hchain] using hheights.isGreatest

/-- The depth is positive as soon as a step leads to no cycle. -/
theorem planDepth_eq_zero (hn : p.ids.Nodup) :
    planDepth p = 0 ↔ ∀ a ∈ p.ids, p.ReachesCycle a := by
  obtain ⟨-, hheights, hdeepest⟩ := climbed_planDepth hn
  have horder : planDepth p = 0 ↔ topologicalOrder p = [] := by
    rw [planDepth, hdeepest, ← List.toFinset_eq_empty_iff]
    constructor
    · intro h0
      refine Finset.eq_empty_of_forall_notMem fun a ha => ?_
      obtain ⟨-, -, heq⟩ := hheights a ha
      have hle := heq.symm.trans ((Finset.sup_eq_bot_iff _ _).1 h0 a ha)
      exact Nat.succ_ne_zero _ hle
    · intro he
      rw [he, Finset.sup_empty]
      rfl
  rw [horder, List.eq_nil_iff_forall_not_mem]
  refine forall_congr' fun a => ?_
  rw [mem_topologicalOrder hn, not_and, not_not]

variable (p) in
/-- What is documented of the depth: the length of the longest chain of dependent
    steps, or zero for a plan with a cycle. -/
def DepthDocumented : Prop :=
  (p.NoCycle → IsGreatest { n | ∃ l, p.Chain l ∧ l.length = n } (planDepth p)) ∧
    (¬p.NoCycle → planDepth p = 0)

/-- The depth is as documented if there is no cycle, or if every step waits for
    another one; a step that can start gives a plan with a cycle a depth. -/
theorem planDepth_documented_iff (hn : p.ids.Nodup) :
    p.DepthDocumented ↔ p.NoCycle ∨ ∀ a ∈ p.ids, ∃ d, p.WaitsFor a d := by
  rw [DepthDocumented, planDepth_eq_zero hn]
  constructor
  · rintro ⟨-, hzero⟩
    refine or_iff_not_imp_left.2 fun hc a ha => ?_
    by_contra hno
    refine DepGraph.not_reachesCycle_of_forall (g := p.graph) (a := a) (fun d hd => hno ⟨d, ?_⟩)
      ((graph_reachesCycle hn a).2 (hzero hc a ha))
    rwa [graph_waitsFor hn] at hd
  · intro h
    refine ⟨planDepth_isGreatest hn, fun hc a ha => ?_⟩
    -- All the steps wait for one another, as the plan is finite.
    rw [← graph_reachesCycle hn]
    refine DepGraph.reachesCycle_of_stuck (s := p.graph.nodes) (fun b hb => ?_)
      (mem_graph_nodes.2 ha)
    obtain ⟨d, hd⟩ := (h.resolve_left hc) b (mem_graph_nodes.1 hb)
    rw [← graph_waitsFor hn] at hd
    exact ⟨d, hd.mem_nodes, hd⟩

theorem planDepth_documented_iff_besideCycle :
    besideCycle.DepthDocumented ↔
      besideCycle.NoCycle ∨ ∀ a ∈ besideCycle.ids, ∃ d, besideCycle.WaitsFor a d :=
  planDepth_documented_iff (by decide)

/-- A cycle beside a step that can start: the depth is not zero. -/
theorem not_depthDocumented_besideCycle : besideCycle.ids.Nodup ∧ ¬besideCycle.DepthDocumented := by
  refine ⟨by decide, fun h => ?_⟩
  have hdepth : planDepth besideCycle = 1 := by decide
  have hcycle : ¬besideCycle.NoCycle := by
    rw [← length_topologicalOrder (by decide)]
    decide
  rw [h.2 hcycle] at hdepth
  exact Nat.zero_ne_one hdepth

end Plan

end N3ur0n
