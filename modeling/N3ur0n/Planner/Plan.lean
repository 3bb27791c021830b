import Mathlib.Data.List.Destutter
import Mathlib.Data.List.Sort
import N3ur0n.Lib.Dag
import N3ur0n.Lib.Fallible
import N3ur0n.Planner.Catalog
import N3ur0n.Planner.Reference

/-!
# Plans

A plan is a list of steps, each calling a capability of a peer. A step waits
for the steps it declares (`dependsOn`) and for those it refers to in its
arguments; `Plan.graph` is the dependency graph.

The code never builds this graph: it counts, for every step, its dependencies,
and lists, for every step, the steps waiting for it (`Plan.wire`), both for the
order of Kahn's algorithm (`topologicalOrder`) and for the execution. For
distinct step ids, these are the counters and the lists of the graph
(`counts_wire`, `adjacent_wire`).

`validatePlan` accepts a plan if, among others, its ids are distinct and the
order is complete; the graph of an accepted plan is acyclic
(`Plan.Valid.acyclic`).
-/

namespace N3ur0n

structure PlanStep where
  id : String
  peer : String
  capability : String
  args : Value
  dependsOn : List String

structure Plan where
  plan : List PlanStep

inductive PlanError
  | parse (message : String)
  | validation (message : String)
  | execution (message : String)
  deriving DecidableEq

/-- The name of the tool a step calls. -/
def PlanStep.toolName (s : PlanStep) : String := s.peer ++ "::" ++ s.capability

/-- The steps a step waits for: those it declares, and those it refers to. -/
def PlanStep.deps (s : PlanStep) : List String := (s.dependsOn ++ collectRefs s.args).dedup

theorem PlanStep.mem_deps (s : PlanStep) (d : String) :
    d ∈ s.deps ↔ d ∈ s.dependsOn ∨ d ∈ collectRefs s.args := by
  simp [PlanStep.deps]

theorem PlanStep.deps_nodup (s : PlanStep) : s.deps.Nodup := List.nodup_dedup _

namespace Plan

variable (p : Plan)

def ids : List String := p.plan.map (·.id)

def byId : Table String PlanStep := Finmap.collect (p.plan.map fun s => (s.id, s))

def planIdx : Table String ℕ := Finmap.collect p.ids.zipIdx

/-- The dependencies of a step among the other steps of the plan. -/
def knownDeps (s : PlanStep) : List String := s.deps.filter fun d => d ≠ s.id ∧ d ∈ p.ids

/-- The dependency graph. -/
def graph : DepGraph String where
  nodes := p.ids.toFinset
  deps a := ((p.plan.filter (·.id = a)).flatMap p.knownDeps).toFinset
  deps_subset a _ d hd := by
    simp only [knownDeps, List.mem_toFinset, List.mem_flatMap, List.mem_filter,
      decide_eq_true_eq] at hd ⊢
    obtain ⟨_, _, _, _, h⟩ := hd
    exact h

end Plan

/-! ## Counters and adjacency lists -/

/-- The maps built over a plan: the indegree of each step, and the steps
    waiting for it. -/
structure Wiring where
  indeg : Table String ℕ
  edges : Table String (List String)

namespace Wiring

/-- `indeg.entry(id).or_insert(0)` and `edges.entry(id).or_default()`. -/
def enter (w : Wiring) (id : String) : Wiring where
  indeg := if id ∈ w.indeg then w.indeg else w.indeg.insert id 0
  edges := if id ∈ w.edges then w.edges else w.edges.insert id []

/-- The steps waiting for `id`. -/
def outs (w : Wiring) (id : String) : List String := (w.edges.lookup id).getD []

/-- The edge from the dependency `dep` of the step `id`, unless it is the step
    itself or no step of the plan. -/
def connect (id : String) (w : Wiring) (dep : String) : Wiring :=
  if dep = id ∨ dep ∉ w.indeg then w
  else {
    indeg := w.indeg.insert id ((w.indeg.lookup id).getD 0 + 1)
    edges := w.edges.insert dep (w.outs dep ++ [id]) }

theorem lookup_enter (w : Wiring) (id a : String) :
    (w.enter id).indeg.lookup a = if a = id then some ((w.indeg.lookup id).getD 0)
      else w.indeg.lookup a := by
  rw [enter]
  by_cases hid : id ∈ w.indeg
  · obtain ⟨n, hn⟩ := Finmap.mem_iff.1 hid
    by_cases ha : a = id
    · subst ha
      simp [hid, hn]
    · simp [hid, ha]
  · have hnone := Finmap.lookup_eq_none.2 hid
    simp [hid, hnone, Finmap.lookup_insert_ite]

theorem outs_enter (w : Wiring) (id a : String) : (w.enter id).outs a = w.outs a := by
  unfold enter outs
  by_cases hid : id ∈ w.edges
  · simp [hid]
  · by_cases ha : a = id
    · subst ha
      simp [hid, Finmap.lookup_eq_none.2 hid]
    · simp [hid, ha]

theorem connect_of_skip {id dep : String} {w : Wiring} (h : dep = id ∨ dep ∉ w.indeg) :
    connect id w dep = w := if_pos h

/-- An edge adds one to a counter, and one step to a list. -/
theorem connect_spec {id dep : String} {w : Wiring} (hid : id ∈ w.indeg) (a : String) :
    (connect id w dep).indeg.keys = w.indeg.keys ∧
      (connect id w dep).indeg.lookup a =
        (if a = id ∧ dep ≠ id ∧ dep ∈ w.indeg then (w.indeg.lookup a).map (· + 1)
          else w.indeg.lookup a) ∧
      (connect id w dep).outs a =
        w.outs a ++ if a = dep ∧ dep ≠ id ∧ dep ∈ w.indeg then [id] else [] := by
  obtain ⟨n, hn⟩ := Finmap.mem_iff.1 hid
  by_cases h : dep = id ∨ dep ∉ w.indeg
  · have hskip : ¬(dep ≠ id ∧ dep ∈ w.indeg) := by tauto
    simp [connect_of_skip h, hskip]
  · have htake : dep ≠ id ∧ dep ∈ w.indeg := by tauto
    refine ⟨?_, ?_, ?_⟩
    · rw [connect, if_neg h, Finmap.keys_insert]
      exact Finset.insert_eq_of_mem (Finmap.mem_keys.2 hid)
    · rw [connect, if_neg h, Finmap.lookup_insert_ite, hn]
      by_cases ha : a = id
      · subst ha
        simp [htake, hn]
      · simp [ha]
    · rw [connect, if_neg h]
      by_cases ha : a = dep
      · subst ha
        simp [outs, htake]
      · simp [outs, ha]

/-- The edges of a step: its counter grows by the number of its dependencies
    among the steps entered. -/
theorem foldl_connect_spec {id : String} {deps : List String} {w : Wiring} (hid : id ∈ w.indeg)
    (hn : deps.Nodup) (a : String) :
    (deps.foldl (connect id) w).indeg.keys = w.indeg.keys ∧
      (deps.foldl (connect id) w).indeg.lookup a =
        (if a = id then (w.indeg.lookup a).map
            (· + (deps.filter fun d => d ≠ id ∧ d ∈ w.indeg).length)
          else w.indeg.lookup a) ∧
      (deps.foldl (connect id) w).outs a =
        w.outs a ++ if a ∈ deps ∧ a ≠ id ∧ a ∈ w.indeg then [id] else [] := by
  induction deps generalizing w with
  | nil => simp
  | cons d deps ih =>
    obtain ⟨hd, hn⟩ := List.nodup_cons.1 hn
    obtain ⟨hkeys, hlook, houts⟩ := @connect_spec id d w hid a
    -- The edges do not enter steps, so the same dependencies count.
    have hmem (b : String) : b ∈ (connect id w d).indeg ↔ b ∈ w.indeg := by
      rw [← Finmap.mem_keys, hkeys, Finmap.mem_keys]
    obtain ⟨ihk, ihl, iho⟩ := ih (w := connect id w d) ((hmem id).2 hid) hn
    simp only [hmem] at ihl iho
    refine ⟨ihk.trans hkeys, ?_, ?_⟩
    · rw [List.foldl_cons, ihl, hlook]
      by_cases ha : a = id
      · subst ha
        by_cases hc : d ≠ a ∧ d ∈ w.indeg
        · simp [hc, Function.comp_def, Nat.add_comm, Nat.add_assoc]
        · simp [hc]
      · simp [ha]
    · rw [List.foldl_cons, iho, houts]
      by_cases had : a = d
      · subst had
        simp [hd]
      · simp [had]

end Wiring

namespace Plan

variable (p : Plan)

def wire : Wiring :=
  let entered := p.plan.foldl (fun w s => w.enter s.id) ⟨∅, ∅⟩
  p.plan.foldl (fun w s => s.deps.foldl (Wiring.connect s.id) w) entered

theorem foldl_enter_spec (l : List PlanStep) (w : Wiring) (a : String) :
    (l.foldl (fun w s => w.enter s.id) w).indeg.lookup a =
        (if a ∈ l.map (·.id) then some ((w.indeg.lookup a).getD 0) else w.indeg.lookup a) ∧
      (l.foldl (fun w s => w.enter s.id) w).outs a = w.outs a := by
  induction l generalizing w with
  | nil => simp
  | cons s l ih =>
    obtain ⟨ihl, iho⟩ := ih (w.enter s.id)
    refine ⟨?_, iho.trans (w.outs_enter s.id a)⟩
    rw [List.foldl_cons, ihl, w.lookup_enter]
    by_cases ha : a = s.id
    · subst ha
      simp
    · simp [ha]

/-- The edges of the steps of a list with distinct ids, all of them entered. -/
theorem foldl_connect_plan {l : List PlanStep} {w : Wiring} (hn : (l.map (·.id)).Nodup)
    (hl : ∀ s ∈ l, s.id ∈ w.indeg) :
    let w' := l.foldl (fun w s => s.deps.foldl (Wiring.connect s.id) w) w
    w'.indeg.keys = w.indeg.keys ∧
      (∀ s ∈ l, w'.indeg.lookup s.id = (w.indeg.lookup s.id).map
        (· + (s.deps.filter fun d => d ≠ s.id ∧ d ∈ w.indeg).length)) ∧
      (∀ a, a ∉ l.map (·.id) → w'.indeg.lookup a = w.indeg.lookup a) ∧
      ∀ a, w'.outs a = w.outs a ++
        (l.filter fun s => a ∈ s.deps ∧ a ≠ s.id ∧ a ∈ w.indeg).map (·.id) := by
  induction l generalizing w with
  | nil => simp
  | cons s l ih =>
    obtain ⟨hs, hn⟩ := List.nodup_cons.1 hn
    have hspec (b : String) :=
      Wiring.foldl_connect_spec (hl s List.mem_cons_self) s.deps_nodup b
    have hmem (b : String) : b ∈ (s.deps.foldl (Wiring.connect s.id) w).indeg ↔ b ∈ w.indeg := by
      rw [← Finmap.mem_keys, (hspec b).1, Finmap.mem_keys]
    obtain ⟨ihk, ihl, ihn, iho⟩ := ih (w := s.deps.foldl (Wiring.connect s.id) w) hn
      fun t ht => (hmem _).2 (hl t (List.mem_cons_of_mem _ ht))
    simp only [hmem] at ihl iho
    refine ⟨ihk.trans (hspec s.id).1, fun t ht => ?_, fun a ha => ?_, fun a => ?_⟩
    · rcases List.mem_cons.1 ht with rfl | ht'
      -- The steps after `t` have other ids, and leave its counter alone.
      · rw [List.foldl_cons, ihn t.id hs, (hspec t.id).2.1, if_pos rfl]
      · have hts : t.id ≠ s.id := fun h => hs (List.mem_map.2 ⟨t, ht', h⟩)
        rw [List.foldl_cons, ihl t ht', (hspec t.id).2.1, if_neg hts]
    · simp only [List.map_cons, List.mem_cons, not_or] at ha
      rw [List.foldl_cons, ihn a ha.2, (hspec a).2.1, if_neg ha.1]
    · rw [List.foldl_cons, iho, (hspec a).2.2, List.append_assoc]
      by_cases hc : a ∈ s.deps ∧ a ≠ s.id ∧ a ∈ w.indeg
      · simp [hc]
      · simp [hc]

/-- The key adjacency lists are sorted by: `usize::MAX` for an unknown id. -/
def sortKey (id : String) : ℕ := (p.planIdx.lookup id).getD (2 ^ 64 - 1)

/-- The steps waiting for `id`, sorted in plan order, without repetitions. -/
def outs (id : String) : List String :=
  ((p.wire.outs id).insertionSort fun a b => p.sortKey a ≤ p.sortKey b).destutter (· ≠ ·)

/-- The steps waiting for nothing, in plan order. -/
def seeds : List String := p.ids.filter fun id => p.wire.indeg.lookup id = some 0

variable {p}

theorem mem_ids {a : String} : a ∈ p.ids ↔ ∃ s ∈ p.plan, s.id = a := List.mem_map

theorem eq_of_id_eq (hn : p.ids.Nodup) {s t : PlanStep} (hs : s ∈ p.plan) (ht : t ∈ p.plan)
    (h : s.id = t.id) : s = t := List.inj_on_of_nodup_map hn hs ht h

theorem lookup_byId (hn : p.ids.Nodup) {a : String} {s : PlanStep} :
    p.byId.lookup a = some s ↔ s ∈ p.plan ∧ s.id = a := by
  rw [byId, Finmap.lookup_collect (by simpa [Function.comp_def, ids] using hn)]
  simp [and_comm, eq_comm]

theorem lookup_planIdx (hn : p.ids.Nodup) {a : String} {i : ℕ} :
    p.planIdx.lookup a = some i ↔ p.ids[i]? = some a := by
  rw [planIdx, Finmap.lookup_collect (by rwa [List.zipIdx_map_fst]), List.mem_zipIdx_iff_getElem?]

theorem mem_knownDeps {s : PlanStep} {d : String} :
    d ∈ p.knownDeps s ↔ d ∈ s.deps ∧ d ≠ s.id ∧ d ∈ p.ids := by
  simp [knownDeps]

theorem graph_deps (hn : p.ids.Nodup) {s : PlanStep} (hs : s ∈ p.plan) :
    p.graph.deps s.id = (p.knownDeps s).toFinset := by
  ext d
  simp only [graph, List.mem_toFinset, List.mem_flatMap, List.mem_filter, decide_eq_true_eq]
  exact ⟨fun ⟨t, ⟨ht, hts⟩, hd⟩ => eq_of_id_eq hn ht hs hts ▸ hd, fun hd => ⟨s, ⟨hs, rfl⟩, hd⟩⟩

theorem mem_graph_deps (hn : p.ids.Nodup) {s : PlanStep} (hs : s ∈ p.plan) {d : String} :
    d ∈ p.graph.deps s.id ↔ d ∈ s.deps ∧ d ≠ s.id ∧ d ∈ p.ids := by
  rw [graph_deps hn hs, List.mem_toFinset, mem_knownDeps]

theorem mem_graph_nodes {a : String} : a ∈ p.graph.nodes ↔ a ∈ p.ids := List.mem_toFinset

/-- What the maps of the code hold, for distinct ids: the number of the known
    dependencies of every step, and the steps waiting for every step. -/
theorem wire_spec (hn : p.ids.Nodup) :
    (∀ s ∈ p.plan, p.wire.indeg.lookup s.id = some (p.knownDeps s).length) ∧
      ∀ a, p.wire.outs a = (p.plan.filter fun s => a ∈ p.knownDeps s).map (·.id) := by
  have hent := foldl_enter_spec p.plan ⟨∅, ∅⟩
  simp only [Finmap.lookup_empty, Option.getD_none] at hent
  have hmem (a : String) :
      a ∈ (p.plan.foldl (fun w s => w.enter s.id) (⟨∅, ∅⟩ : Wiring)).indeg ↔ a ∈ p.ids := by
    rw [← Finmap.lookup_isSome, (hent a).1, ids]
    split_ifs with h <;> simp [h]
  obtain ⟨-, hlook, -, houts⟩ := foldl_connect_plan hn fun s hs =>
    (hmem s.id).2 (mem_ids.2 ⟨s, hs, rfl⟩)
  simp only [hmem] at hlook houts
  refine ⟨fun s hs => ?_, fun a => ?_⟩
  · rw [wire, hlook s hs, (hent s.id).1, if_pos (List.mem_map.2 ⟨s, hs, rfl⟩), Option.map_some,
      Nat.zero_add, knownDeps]
  · rw [wire, houts a, (hent a).2]
    simp [mem_knownDeps, Wiring.outs]

/-- The counters are those of the graph. -/
theorem counts_wire (hn : p.ids.Nodup) : p.graph.Counts p.wire.indeg ∅ := by
  intro a ha
  obtain ⟨s, hs, rfl⟩ := mem_ids.1 (mem_graph_nodes.1 ha)
  have hd : (p.knownDeps s).Nodup := s.deps_nodup.filter _
  rw [(wire_spec hn).1 s hs, graph_deps hn hs, Finset.sdiff_empty, List.toFinset_card_of_nodup hd]

/-- Plan order is the order of the sort keys. -/
theorem pairwise_sortKey (hn : p.ids.Nodup) :
    p.ids.Pairwise fun a b => p.sortKey a ≤ p.sortKey b := by
  have hkey {i : ℕ} (hi : i < p.ids.length) : p.sortKey p.ids[i] = i := by
    rw [sortKey, (lookup_planIdx hn).2 (List.getElem?_eq_getElem hi), Option.getD_some]
  refine List.pairwise_iff_getElem.2 fun i j hi hj hij => ?_
  rw [hkey hi, hkey hj]
  exact hij.le

/-- The list of the steps waiting for a step is filled in plan order already,
    each step once: sorting it and removing repetitions change nothing. -/
theorem outs_eq (hn : p.ids.Nodup) (a : String) :
    p.outs a = (p.plan.filter fun s => a ∈ p.knownDeps s).map (·.id) := by
  have hsub : ((p.plan.filter fun s => a ∈ p.knownDeps s).map (·.id)).Sublist p.ids :=
    List.filter_sublist.map _
  rw [outs, (wire_spec hn).2, ((pairwise_sortKey hn).sublist hsub).insertionSort_eq]
  exact List.destutter_of_isChain _ _ (hn.sublist hsub).isChain

/-- The lists are those of the graph. -/
theorem adjacent_outs (hn : p.ids.Nodup) : p.graph.Adjacent p.outs := by
  intro a ha
  rw [outs_eq hn]
  refine ⟨hn.sublist (List.filter_sublist.map _), fun b => ?_⟩
  simp only [List.mem_map, List.mem_filter, decide_eq_true_eq]
  constructor
  · rintro ⟨s, ⟨hs, hd⟩, rfl⟩
    exact ⟨mem_graph_nodes.2 (mem_ids.2 ⟨s, hs, rfl⟩),
      (mem_graph_deps hn hs).2 (mem_knownDeps.1 hd)⟩
  · rintro ⟨hb, hd⟩
    obtain ⟨s, hs, rfl⟩ := mem_ids.1 (mem_graph_nodes.1 hb)
    exact ⟨s, ⟨hs, mem_knownDeps.2 ((mem_graph_deps hn hs).1 hd)⟩, rfl⟩

/-- The countdown starts with the steps waiting for nothing. -/
theorem countdown_seeds (hn : p.ids.Nodup) : p.graph.Countdown ∅ p.wire.indeg p.seeds where
  counts := counts_wire hn
  done_ready := Finset.empty_subset _
  nodup := hn.filter _
  mem_live b := by
    rw [seeds, List.mem_filter, DepGraph.mem_ready, mem_graph_nodes, decide_eq_true_eq]
    simp only [Finset.notMem_empty, not_false_eq_true, and_true]
    refine and_congr_right fun hb => ?_
    rw [counts_wire hn b (mem_graph_nodes.2 hb), Finset.sdiff_empty, Option.some.injEq,
      Finset.card_eq_zero, Finset.subset_empty]

end Plan

/-- Step ids in a valid execution order. -/
def topologicalOrder (p : Plan) : List String :=
  DepGraph.kahn p.outs p.plan.length p.wire.indeg p.seeds

/-- The order is complete only if the graph is acyclic. -/
theorem Plan.acyclic_of_topologicalOrder {p : Plan} (hn : p.ids.Nodup)
    (hlen : (topologicalOrder p).length = p.plan.length) : p.graph.Acyclic := by
  have hlegal := (countdown_seeds hn).kahn_legal (adjacent_outs hn) p.plan.length
  have hsub : topologicalOrder p ⊆ p.ids := fun a ha => mem_graph_nodes.1 (hlegal.mem_nodes ha).1
  have hids : p.ids.length = p.plan.length := List.length_map _
  refine hlegal.acyclic fun a ha => ?_
  have hperm := (hlegal.nodup.subperm hsub).perm_of_length_le (hids.trans hlen.symm).le
  exact hperm.mem_iff.2 (mem_graph_nodes.1 ha)

/-- The fuel of the order is enough: more would not change it. -/
theorem topologicalOrder_fuel {p : Plan} (hn : p.ids.Nodup) {n : ℕ} (h : p.plan.length ≤ n) :
    DepGraph.kahn p.outs n p.wire.indeg p.seeds = topologicalOrder p := by
  refine (Plan.countdown_seeds hn).kahn_fuel (Plan.adjacent_outs hn) ?_ h
  rw [Finset.sdiff_empty]
  exact (List.toFinset_card_le _).trans (List.length_map _).le

/-! ## Validation -/

/-- A JSON schema compiler: a schema is rejected with a message, or gives the
    messages of the violations in a value, none if it conforms. -/
abbrev SchemaCompiler := Value → Except String (Value → List String)

/-- Whether a schema constrains nothing: `{}`, or no object at all. -/
def unconstrained : Value → Bool
  | .object (_ :: _) => false
  | _ => true

def validateArgsAgainstSchema (compile : SchemaCompiler) (args schema : Value) :
    Except String Unit :=
  if unconstrained schema then .ok ()
  else
    match compile schema with
    | .error e => .error ("schema compile failed: " ++ e)
    | .ok errors =>
      match errors args with
      | [] => .ok ()
      | msgs => .error ("; ".intercalate (msgs.take 3))

/-- Hard cap on plan size. -/
def maxPlanSteps : ℕ := 8

/-- The first id that was seen before. -/
def duplicateId : List String → List String → Option String
  | _, [] => none
  | seen, id :: ids => if id ∈ seen then some id else duplicateId (id :: seen) ids

/-- Arguments without templates conform to the schema of the tool; the others
    are checked when the step starts. -/
def checkArgs (compile : SchemaCompiler) (step : PlanStep) (tool : ToolDef) :
    Except PlanError Unit :=
  if firstUnresolvedTemplate step.args = none then
    (validateArgsAgainstSchema compile step.args tool.cap.schemaIn).mapError fun e =>
      .validation s!"step `{step.id}`: args do not conform to `{step.toolName}` schema_in: {e}"
  else .ok ()

/-- The tool of the step exists, its arguments conform, and the steps it
    declares to wait for exist. -/
def checkStep (compile : SchemaCompiler) (plan : Plan) (catalog : Catalog) (step : PlanStep) :
    Except PlanError Unit :=
  match catalog.find step.toolName with
  | none => .error (.validation s!"step `{step.id}`: tool `{step.toolName}` not in catalog")
  | some tool => do
    checkArgs compile step tool
    forM step.dependsOn fun dep => Except.reject (dep ∉ plan.ids)
      (.validation s!"step `{step.id}`: depends_on `{dep}` does not exist")

/-- The declared outputs of the steps. -/
def Plan.schemaOuts (plan : Plan) (catalog : Catalog) : Table String Value :=
  Finmap.collect (plan.plan.filterMap fun s =>
    (catalog.find s.toolName).map fun t => (s.id, t.cap.schemaOut))

/-- The field a reference reads is among the outputs its step declares, if it
    declares any. -/
def checkField (plan : Plan) (catalog : Catalog) (step : PlanStep) (shown rid field : String) :
    Except PlanError Unit :=
  match ((plan.schemaOuts catalog).lookup rid).bind (Value.get "properties") with
  | some (.object (x :: props)) =>
    let avail := (x :: props).map Prod.fst
    let list := ", ".intercalate avail
    Except.reject (field ∉ avail) (.validation (s!"step `{step.id}`: `{shown}` references field " ++
      s!"`{field}` not produced by step `{rid}` (available: {list})"))
  | _ => .ok ()

/-- A reference is to another step of the plan, and to one of its outputs. -/
def checkReference (plan : Plan) (catalog : Catalog) (step : PlanStep) (key : List Char) :
    Except PlanError Unit := do
  let rid := headOf key
  let shown := "$\x7b" ++ String.ofList key ++ "\x7d"
  Except.reject (rid ∉ plan.ids)
    (.validation s!"step `{step.id}`: reference `{shown}` points to unknown step `{rid}`")
  Except.reject (rid = step.id)
    (.validation s!"step `{step.id}`: references its own output `{shown}`")
  match (key.splitOn '.').tail.head? with
  | some field => checkField plan catalog step shown rid (String.ofList field)
  | none => .ok ()

def validatePlan (compile : SchemaCompiler) (plan : Plan) (catalog : Catalog) :
    Except PlanError Unit := do
  let n := plan.plan.length
  Except.reject (n = 0) (.validation "plan has no steps")
  Except.reject (maxPlanSteps < n)
    (.validation s!"plan has {n} steps, exceeds MAX_PLAN_STEPS={maxPlanSteps}")
  (duplicateId [] plan.ids).elim (.ok ()) fun id =>
    .error (.validation s!"duplicate step id `{id}`")
  forM plan.plan (checkStep compile plan catalog)
  forM plan.plan fun step => forM (collectRefKeys step.args) (checkReference plan catalog step)
  Except.reject ((topologicalOrder plan).length ≠ n)
    (.validation "plan has a dependency cycle")

/-- What validation guarantees. -/
structure Plan.Valid (p : Plan) (catalog : Catalog) : Prop where
  size : 0 < p.plan.length ∧ p.plan.length ≤ maxPlanSteps
  nodup : p.ids.Nodup
  tool : ∀ s ∈ p.plan, ∃ t, catalog.find s.toolName = some t
  declared : ∀ s ∈ p.plan, ∀ d ∈ s.dependsOn, d ∈ p.ids
  references : ∀ s ∈ p.plan, ∀ key ∈ collectRefKeys s.args, headOf key ∈ p.ids ∧ headOf key ≠ s.id
  order : (topologicalOrder p).length = p.plan.length

theorem duplicateId_eq_none {seen ids : List String} :
    duplicateId seen ids = none ↔ ids.Nodup ∧ ∀ a ∈ ids, a ∉ seen := by
  induction ids generalizing seen with
  | nil => simp [duplicateId]
  | cons a ids ih =>
    rw [duplicateId, List.nodup_cons, List.forall_mem_cons]
    split_ifs with h
    · simp [h]
    · rw [ih]
      simp only [List.mem_cons, not_or]
      exact ⟨fun ⟨hn, hs⟩ => ⟨⟨fun ha => (hs a ha).1 rfl, hn⟩, h, fun b hb => (hs b hb).2⟩,
        fun ⟨⟨ha, hn⟩, _, hs⟩ => ⟨hn, fun b hb => ⟨fun e => ha (e ▸ hb), hs b hb⟩⟩⟩

theorem checkStep_eq_ok {compile : SchemaCompiler} {p : Plan} {catalog : Catalog} {s : PlanStep}
    (h : checkStep compile p catalog s = .ok ()) :
    (∃ t, catalog.find s.toolName = some t) ∧ ∀ d ∈ s.dependsOn, d ∈ p.ids := by
  rw [checkStep] at h
  cases hf : catalog.find s.toolName with
  | none => simp [hf] at h
  | some tool =>
    simp only [hf] at h
    obtain ⟨-, h⟩ := Except.check_eq_ok.1 h
    refine ⟨⟨tool, rfl⟩, fun d hd => ?_⟩
    exact not_not.1 (Except.reject_eq_ok.1 (Except.forM_eq_ok.1 h d hd))

theorem checkReference_eq_ok {p : Plan} {catalog : Catalog} {s : PlanStep} {key : List Char}
    (h : checkReference p catalog s key = .ok ()) : headOf key ∈ p.ids ∧ headOf key ≠ s.id := by
  obtain ⟨h1, h⟩ := Except.check_eq_ok.1 h
  obtain ⟨h2, -⟩ := Except.check_eq_ok.1 h
  exact ⟨not_not.1 (Except.reject_eq_ok.1 h1), Except.reject_eq_ok.1 h2⟩

theorem Plan.valid_of_validatePlan {compile : SchemaCompiler} {p : Plan} {catalog : Catalog}
    (h : validatePlan compile p catalog = .ok ()) : p.Valid catalog := by
  obtain ⟨h0, h⟩ := Except.check_eq_ok.1 h
  obtain ⟨h8, h⟩ := Except.check_eq_ok.1 h
  obtain ⟨hdup, h⟩ := Except.check_eq_ok.1 h
  obtain ⟨hstep, h⟩ := Except.check_eq_ok.1 h
  obtain ⟨href, hord⟩ := Except.check_eq_ok.1 h
  -- The checks that passed, in the order of `validatePlan`.
  have hnodup : duplicateId [] p.ids = none := by
    cases hd : duplicateId [] p.ids with
    | none => rfl
    | some id => simp [hd] at hdup
  exact {
    size := ⟨Nat.pos_of_ne_zero (Except.reject_eq_ok.1 h0), not_lt.1 (Except.reject_eq_ok.1 h8)⟩
    nodup := (duplicateId_eq_none.1 hnodup).1
    tool := fun s hs => (checkStep_eq_ok (Except.forM_eq_ok.1 hstep s hs)).1
    declared := fun s hs => (checkStep_eq_ok (Except.forM_eq_ok.1 hstep s hs)).2
    references := fun s hs key hkey =>
      checkReference_eq_ok (Except.forM_eq_ok.1 (Except.forM_eq_ok.1 href s hs) key hkey)
    order := not_not.1 (Except.reject_eq_ok.1 hord) }

/-- The graph of an accepted plan is acyclic. -/
theorem Plan.Valid.acyclic {p : Plan} {catalog : Catalog} (h : p.Valid catalog) :
    p.graph.Acyclic :=
  p.acyclic_of_topologicalOrder h.nodup h.order

end N3ur0n
