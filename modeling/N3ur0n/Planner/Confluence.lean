import N3ur0n.Planner.Safety

/-!
# Confluence of the executor

With tools that are functions of their peer, their capability and their
arguments, one would like the result of an execution not to depend on the order
in which its steps complete. It does not as long as the arguments of a step are
resolved from the results of the steps it waits for only: the plan is
*foreseen* (`Plan.Foreseen`) when whatever a step looks up on the blackboard is
a step it waits for, directly or not, or one that cannot be done before the
step is spawned.

* `execute_confluent`: any two executions of a foreseen plan end with the same
  blackboard and the same trace, call ids aside.

Not all accepted plans are foreseen: the two scanners of `Planner.Reference`
disagree on what a reference is, so a step may look up a step it does not wait
for.

* `nested_not_confluent`: a plan whose results depend on the order.
-/

namespace N3ur0n

/-- The steps a step waits for, directly or not. -/
def Plan.before (p : Plan) (id : String) : Finset String := p.graph.before p.plan.length id

/-- What the arguments of a step look up is a step it waits for, or one which
    waits for everything the step waits for. -/
def Plan.Foreseen (p : Plan) : Prop :=
  ∀ t ∈ p.plan, ∀ s ∈ t.args.strings, ∀ h ∈ readHeads (fun id => decide (id ∈ p.before t.id)) s,
    h ∈ p.ids → h ∈ p.before t.id ∨ p.graph.deps t.id ⊆ p.before h

instance (p : Plan) : Decidable p.Foreseen :=
  inferInstanceAs (Decidable (∀ t ∈ p.plan, ∀ s ∈ t.args.strings,
    ∀ h ∈ readHeads (fun id => decide (id ∈ p.before t.id)) s,
      h ∈ p.ids → h ∈ p.before t.id ∨ p.graph.deps t.id ⊆ p.before h))

/-- A runtime whose tools are functions of their peer, their capability and
    their arguments. -/
def functional (callId : ℕ → String) (compile : SchemaCompiler)
    (f : String → String → Value → Except String Value) : Runtime Unit where
  callId := callId
  compile := compile
  invoke _ tool args := f tool.peerId tool.cap.name args

def TraceEntry.withoutCallId (e : TraceEntry) : TraceEntry := { e with callId := "" }

theorem TraceEntry.withoutCallId_close {e e' : TraceEntry} (h : e.withoutCallId = e'.withoutCallId)
    (r : Except String Value) : (e.close r).withoutCallId = (e'.close r).withoutCallId := by
  obtain ⟨-, h1, h2, h3, h4, h5⟩ := TraceEntry.mk.inj h
  rcases r with err | value
  · simp only [close, withoutCallId, h1, h2, h3, h4]
  · simp only [close, withoutCallId, h1, h2, h3, h5]

namespace ExecState

variable {compile : SchemaCompiler} {f : String → String → Value → Except String Value}
  {catalog : Catalog} {p : Plan}

/-- A step is prepared alike from two blackboards which resolve its arguments
    alike. -/
theorem prepare_congr {s : PlanStep} {c c' : String} {B B' : Blackboard}
    (h : resolveValue s.args B = resolveValue s.args B') :
    (prepare compile catalog s c B).1.withoutCallId =
        (prepare compile catalog s c' B').1.withoutCallId ∧
      (prepare compile catalog s c B).2 = (prepare compile catalog s c' B').2 := by
  simp only [prepare, h]
  split
  · exact ⟨rfl, rfl⟩
  · split
    · exact ⟨rfl, rfl⟩
    · split
      · exact ⟨rfl, rfl⟩
      · exact ⟨rfl, rfl⟩

/-- The outcome of a job does not depend on what is observed. -/
theorem Outcome.functional_eq {c c' : ℕ → String} {as as' : List (Action Unit)} {id : String}
    {w : Work} {r r' : Except String Value} (h : Outcome (functional c compile f) as id w r)
    (h' : Outcome (functional c' compile f) as' id w r') : r = r' := by
  cases w with
  | failed err => exact h.2.trans h'.2.symm
  | queued tool args | running tool args =>
    obtain ⟨_, -, hr⟩ := h
    obtain ⟨_, -, hr'⟩ := h'
    exact hr.trans hr'.symm

/-- A foreseen step resolves alike from two blackboards which are alike on the
    steps it waits for. -/
theorem resolve_eq_of_foreseen (hf : p.Foreseen) {s : PlanStep} (hs : s ∈ p.plan)
    {B B' : Blackboard} (hB : B.keys ⊆ p.graph.ready B.keys) (hp : p.graph.Prompt B.keys s.id)
    (hB' : B'.keys ⊆ p.graph.ready B'.keys) (hp' : p.graph.Prompt B'.keys s.id)
    (heq : ∀ id ∈ p.before s.id, B.lookup id = B'.lookup id) :
    resolveValue s.args B = resolveValue s.args B' := by
  have hknown (B : Blackboard) (hB : B.keys ⊆ p.graph.ready B.keys)
      (hp : p.graph.Prompt B.keys s.id) {str : String} (hstr : str ∈ s.args.strings) {id : String}
      (hid : id ∈ readHeads (fun id => decide (id ∈ p.before s.id)) str) :
      id ∈ B ↔ id ∈ p.before s.id := by
    refine ⟨fun hb => ?_, fun hb => Finmap.mem_keys.1 (DepGraph.before_subset hB hp.1 _ hb)⟩
    have hb' := Finmap.mem_keys.2 hb
    have hids := Plan.mem_graph_nodes.1 (p.graph.mem_ready.1 (hB hb')).1
    -- What waits for all that `s` waits for is not done when `s` is spawned.
    exact (hf s hs str hstr id hid hids).resolve_right (hp.2 id hb' _)
  refine @resolveValue_congr (fun id => decide (id ∈ p.before s.id)) _ _ _
    fun str hstr id hid => ⟨?_, ?_⟩
  · rw [hknown B hB hp hstr hid, decide_eq_true_eq]
  · by_cases hb : id ∈ p.before s.id
    · exact heq id hb
    · rw [Finmap.lookup_eq_none.2 fun h => hb ((hknown B hB hp hstr hid).1 h),
        Finmap.lookup_eq_none.2 fun h => hb ((hknown B' hB' hp' hstr hid).1 h)]

/-- In two executions of a foreseen plan, a step that is done has the same
    result and the same entry. -/
theorem recorded_eq (hg : p.graph.Acyclic) (hf : p.Foreseen)
    {c c' : ℕ → String} {as as' : List (Action Unit)} {σ σ' : ExecState}
    (hr : ∀ s ∈ p.plan, Recorded (functional c compile f) catalog p as σ s)
    (hr' : ∀ s ∈ p.plan, Recorded (functional c' compile f) catalog p as' σ' s) :
    ∀ s ∈ p.plan, σ.blackboard.lookup s.id = σ'.blackboard.lookup s.id ∧
      (σ.traceById.lookup s.id).map (·.withoutCallId) =
        (σ'.traceById.lookup s.id).map (·.withoutCallId) := by
  obtain ⟨rank, hrank⟩ := hg
  -- By induction on the rank of the step.
  suffices h : ∀ n, ∀ s ∈ p.plan, rank s.id < n →
      σ.blackboard.lookup s.id = σ'.blackboard.lookup s.id ∧
        (σ.traceById.lookup s.id).map (·.withoutCallId) =
          (σ'.traceById.lookup s.id).map (·.withoutCallId) from
    fun s hs => h _ s hs (Nat.lt_succ_self _)
  intro n
  induction n with
  | zero => exact fun s _ h => absurd h (Nat.not_lt_zero _)
  | succ n ih =>
    intro s hs hlt
    obtain ⟨e, w, r, ⟨B, cs, hprep, hext, hB, hp⟩, ho, hbb, htr⟩ := hr s hs
    obtain ⟨e', w', r', ⟨B', cs', hprep', hext', hB', hp'⟩, ho', hbb', htr'⟩ := hr' s hs
    have hres : resolveValue s.args B = resolveValue s.args B' := by
      refine resolve_eq_of_foreseen hf hs hB hp hB' hp' fun id hid => ?_
      have hnode := Plan.mem_graph_nodes.2 (Plan.mem_ids.2 ⟨s, hs, rfl⟩)
      obtain ⟨hidn, hidlt⟩ := DepGraph.rank_lt_of_mem_before hrank hnode hid
      obtain ⟨t, ht, rfl⟩ := Plan.mem_ids.1 (Plan.mem_graph_nodes.1 hidn)
      obtain ⟨v, hv⟩ := Finmap.mem_iff.1 (Finmap.mem_keys.1 (DepGraph.before_subset hB hp.1 _ hid))
      obtain ⟨v', hv'⟩ :=
        Finmap.mem_iff.1 (Finmap.mem_keys.1 (DepGraph.before_subset hB' hp'.1 _ hid))
      calc B.lookup t.id = σ.blackboard.lookup t.id := hv.trans (hext _ _ hv).symm
        _ = σ'.blackboard.lookup t.id := (ih t ht (by omega)).1
        _ = B'.lookup t.id := (hext' _ _ hv').trans hv'.symm
    -- The same arguments are prepared to the same job, whose outcome is a function.
    obtain ⟨he, hw⟩ : e.withoutCallId = e'.withoutCallId ∧ w = w' := by
      have := @prepare_congr compile catalog s cs cs' B B' hres
      rwa [show prepare compile catalog s cs B = (e, w) from hprep,
        show prepare compile catalog s cs' B' = (e', w') from hprep'] at this
    subst hw
    obtain rfl := ho.functional_eq ho'
    exact ⟨hbb.trans hbb'.symm, by
      rw [htr, htr', Option.map_some, Option.map_some, TraceEntry.withoutCallId_close he]⟩

/-- Any two executions of a foreseen plan which has been accepted end alike, call
    ids aside. -/
theorem execute_confluent (hv : validatePlan compile p catalog = .ok ()) (hf : p.Foreseen)
    {c c' : ℕ → String} {as as' : List (Action Unit)} {σ σ' : ExecState}
    (h : execute (functional c compile f) catalog p as = some σ) (hnil : σ.inFlight = [])
    (h' : execute (functional c' compile f) catalog p as' = some σ') (hnil' : σ'.inFlight = []) :
    (σ.planRun p).blackboard = (σ'.planRun p).blackboard ∧
      (σ.planRun p).trace.map (·.withoutCallId) = (σ'.planRun p).trace.map (·.withoutCallId) := by
  have hval := Plan.valid_of_validatePlan hv
  have hI := inv_execute hval.nodup h
  have hI' := inv_execute hval.nodup h'
  have hkeys := hI.all_done hval.acyclic hnil
  have hkeys' := hI'.all_done hval.acyclic hnil'
  -- At the end of both, every step is done, so `recorded_eq` applies to all.
  have hdone {τ : ExecState} (hτ : τ.blackboard.keys = p.ids.toFinset) (s : PlanStep)
      (hs : s ∈ p.plan) : s.id ∈ τ.blackboard := by
    rw [← Finmap.mem_keys, hτ, List.mem_toFinset]
    exact Plan.mem_ids.2 ⟨s, hs, rfl⟩
  have heq := recorded_eq hval.acyclic hf (fun s hs => hI.recorded s hs (hdone hkeys s hs))
    fun s hs => hI'.recorded s hs (hdone hkeys' s hs)
  constructor
  · refine Finmap.ext_lookup fun a => ?_
    by_cases ha : a ∈ p.ids
    · obtain ⟨s, hs, rfl⟩ := Plan.mem_ids.1 ha
      exact (heq s hs).1
    · have hnot {τ : ExecState} (hτ : τ.blackboard.keys = p.ids.toFinset) :
          τ.blackboard.lookup a = none := Finmap.lookup_eq_none.2 fun hb => ha (by
        rwa [← Finmap.mem_keys, hτ, List.mem_toFinset] at hb)
      exact (hnot hkeys).trans (hnot hkeys').symm
  · obtain ⟨g, hg, hgs⟩ := hI.planRun_trace hval.nodup hval.acyclic hnil
    obtain ⟨g', hg', hgs'⟩ := hI'.planRun_trace hval.nodup hval.acyclic hnil'
    rw [hg, hg', List.map_map, List.map_map]
    refine List.map_congr_left fun s hs => ?_
    have := (heq s hs).2
    rw [(hgs s hs).1, (hgs' s hs).1] at this
    exact Option.some.inj this

/-! ## Examples -/

/-- Tools which return an object with a field. -/
def objects (callId : String) : Runtime Unit :=
  functional (fun _ => callId) observing.compile fun _ _ _ => .ok (.object [("v", .null)])

/-- `s2` waits for `s3`, and refers to `s1`. -/
def crossed : Plan := ⟨[
  ⟨"s1", "abc", "t", .object [], []⟩,
  ⟨"s3", "abc", "t", .object [], []⟩,
  ⟨"s2", "abc", "t", .object [("x", .string "$\x7bs1.v\x7d")], ["s3"]⟩]⟩

/-- `s1` and `s3` run at the same time, and `s1` returns first. -/
def firstOrder : List (Action Unit) :=
  [.start "s1", .start "s3", .returned "s1" (), .returned "s3" (), .start "s2", .returned "s2" ()]

/-- They start and return the other way round. -/
def otherOrder : List (Action Unit) :=
  [.start "s3", .start "s1", .returned "s3" (), .returned "s1" (), .start "s2", .returned "s2" ()]

/-- The plan is foreseen: what is left is the same in both orders, call ids aside. -/
theorem execute_confluent_crossed : ∃ σ σ',
    execute (objects "a") oneTool crossed firstOrder = some σ ∧
      execute (objects "b") oneTool crossed otherOrder = some σ' ∧
      (σ.planRun crossed).blackboard = (σ'.planRun crossed).blackboard ∧
      (σ.planRun crossed).trace.map (·.withoutCallId) =
        (σ'.planRun crossed).trace.map (·.withoutCallId) := by
  have hend : (execute (objects "a") oneTool crossed firstOrder).map (·.inFlight) = some [] := by
    decide
  have hend' : (execute (objects "b") oneTool crossed otherOrder).map (·.inFlight) = some [] := by
    decide
  obtain ⟨σ, hσ, hnil⟩ := Option.map_eq_some_iff.1 hend
  obtain ⟨σ', hσ', hnil'⟩ := Option.map_eq_some_iff.1 hend'
  exact ⟨σ, σ', hσ, hσ', execute_confluent (by decide) (by decide) hσ hnil hσ' hnil'⟩

/-- `s2` waits for `s3`, and refers to `s1` within a pair of braces which the
    collection of references jumps over. -/
def nested : Plan := ⟨[
  ⟨"s1", "abc", "t", .object [], []⟩,
  ⟨"s3", "abc", "t", .object [], []⟩,
  ⟨"s2", "abc", "t", .object [("x", .string "\x7b\"a\": \"$\x7bs1.v\x7d\"\x7d")], ["s3"]⟩]⟩

/-- `s2` need not wait for `s1`, and runs without its result. -/
def secondOrder : List (Action Unit) :=
  [.start "s1", .start "s3", .returned "s3" (), .returned "s1" (), .failed "s2"]

/-- The plan is accepted, and its results depend on the order. -/
theorem nested_not_confluent : validatePlan observing.compile nested oneTool = .ok () ∧
    ∃ σ σ', execute (objects "a") oneTool nested firstOrder = some σ ∧ σ.inFlight = [] ∧
      execute (objects "a") oneTool nested secondOrder = some σ' ∧ σ'.inFlight = [] ∧
      (σ.planRun nested).blackboard ≠ (σ'.planRun nested).blackboard := by
  have h₁ : (execute (objects "a") oneTool nested firstOrder).map
      (fun σ => (σ.inFlight, σ.blackboard.lookup "s2")) =
        some ([], some (.object [("v", .null)])) := by decide
  have h₂ : (execute (objects "a") oneTool nested secondOrder).map
      (fun σ => (σ.inFlight, decide (σ.blackboard.lookup "s2" = some (.object [("v", .null)])))) =
        some ([], false) := by decide +kernel
  obtain ⟨σ, hσ, hend⟩ := Option.map_eq_some_iff.1 h₁
  obtain ⟨σ', hσ', hend'⟩ := Option.map_eq_some_iff.1 h₂
  obtain ⟨hnil, hv⟩ := Prod.mk.inj hend
  obtain ⟨hnil', hv'⟩ := Prod.mk.inj hend'
  refine ⟨by decide, σ, σ', hσ, hnil, hσ', hnil', fun heq => of_decide_eq_false hv' ?_⟩
  exact (congrArg (Finmap.lookup "s2") heq).symm.trans hv

end ExecState

end N3ur0n
