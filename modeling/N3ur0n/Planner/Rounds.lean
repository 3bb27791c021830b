import Mathlib.Algebra.GroupWithZero.Nat
import N3ur0n.Planner.Dispatch
import N3ur0n.Planner.Safety

/-!
# The rounds of a dispatch

What a step of a dispatch can do is said once (`Step`, `step_cases`). From it,
a dispatch executes one plan after the other, each of them accepted, and to its
end (`Round`): the traces of the rounds that are over, put together, are the
trace of the dispatch, and the plans are those journalled, in order (`Traced`).

The steps of a dispatch are bounded by a *budget*, which is looked at before a
continuation is compiled, not once its size is known.

* `steps_in_budget`: a dispatch executes at most `maxTotalSteps` steps exactly
  when the plan of a continuation that was compiled with steps left has no more
  steps than these (`InBudget`);
* `sixteen_steps`: otherwise, it may execute two plans of `maxPlanSteps` steps.
-/

namespace N3ur0n

/-- The action of the executor, if the action of the dispatch is one. -/
def DispatchAction.act? {ω : Type} : DispatchAction ω → Option (Action ω)
  | .act a => some a
  | _ => none

/-- The actions of the executor during a dispatch. -/
def acts {ω : Type} (as : List (DispatchAction ω)) : List (Action ω) :=
  as.filterMap DispatchAction.act?

/-- The trace of the rounds that are over, as long as the dispatch keeps it. -/
def Stage.trace? : Stage → Option (List TraceEntry)
  | .compiling | .chatting => some []
  | .executing x => some x.earlierTrace
  | .deciding _ _ r => some r.run.trace
  | .reflecting _ _ trace => some trace
  | .replied outcome => some outcome.trace
  | .failed _ => none

/-- The round in progress. -/
def Stage.current : Stage → Option Execution
  | .executing x => some x
  | _ => none

/-- Whether the dispatch waits for the first plan, or for the reply. -/
def Stage.waits : Stage → Bool
  | .compiling | .chatting | .reflecting _ _ _ => true
  | _ => false

/-- The plans journalled. -/
def Db.plans (db : Db) : List Plan := db.planRuns.map (·.plan)

theorem resolvePlan_valid {compile : SchemaCompiler} {catalog : Catalog} {plan p : Plan}
    {answers : List (Except String Plan)}
    (h : resolvePlan compile catalog plan answers = .valid p) :
    validatePlan compile p catalog = .ok () := by
  have hcorrect (e : PlanError) (answers : List (Except String Plan))
      (h : correctPlan compile catalog e answers = .valid p) :
      validatePlan compile p catalog = .ok () := by
    -- Every answer is validated before it is taken.
    induction answers generalizing e with
    | nil => exact absurd h (by simp [correctPlan])
    | cons answer answers ih =>
      rcases answer with err | retried
      · exact absurd h (by simp [correctPlan])
      · simp only [correctPlan] at h
        split_ifs at h
        split at h
        · rename_i hv
          exact PlanOutcome.valid.inj h ▸ hv
        · exact ih _ h
  rw [resolvePlan] at h
  split_ifs at h
  split at h
  · rename_i hv
    exact PlanOutcome.valid.inj h ▸ hv
  · exact hcorrect _ _ h

theorem nextPlan_eq_some {compile : SchemaCompiler} {catalog : Catalog} {trace : List TraceEntry}
    {plan : Except String Plan} {answers : List (Except String Plan)} {next : Plan}
    (h : nextPlan compile catalog trace plan answers = some next) :
    validatePlan compile next catalog = .ok () ∧ addsNothing next trace catalog = false := by
  unfold nextPlan at h
  split at h
  · exact absurd h (by simp)
  · split at h
    · rename_i hv
      split_ifs at h with hadds
      obtain rfl := Option.some.inj h
      exact ⟨resolvePlan_valid hv, by simpa using hadds⟩
    · exact absurd h (by simp)

/-- An execution with its plan, its call ids and its actions. -/
structure Round (ω : Type) where
  plan : Plan
  callId : ℕ → String
  actions : List (Action ω)
  state : ExecState

namespace Round

variable {ω : Type}

def trace (r : Round ω) : List TraceEntry := (r.state.planRun r.plan).trace

/-- The plan was accepted, and its execution is over. -/
structure Complete (R : Runtime ω) (catalog : Catalog) (r : Round ω) : Prop where
  valid : validatePlan R.compile r.plan catalog = .ok ()
  execute : ExecState.execute (R.withCallId r.callId) catalog r.plan r.actions = some r.state
  ended : r.state.inFlight = []

/-- The entries of the trace are those of the steps, in the order of the plan. -/
def InPlanOrder (r : Round ω) : Prop :=
  List.Forall₂ (fun step entry => r.state.traceById.lookup step.id = some entry) r.plan.plan r.trace

variable {R : Runtime ω} {catalog : Catalog} {r : Round ω}

theorem Complete.inv (h : r.Complete R catalog) :
    ExecState.Inv (R.withCallId r.callId) catalog r.plan r.actions r.state :=
  ExecState.inv_execute (Plan.valid_of_validatePlan h.valid).nodup h.execute

/-- In a round, every step completes, and has an entry in the trace. -/
theorem Complete.lengths (h : r.Complete R catalog) :
    r.trace.length = r.plan.plan.length ∧
      (completions r.actions).length = r.plan.plan.length ∧
      (starts r.actions).length ≤ r.plan.plan.length := by
  have hval := Plan.valid_of_validatePlan h.valid
  obtain ⟨f, hf, -⟩ := h.inv.planRun_trace hval.nodup hval.acyclic h.ended
  refine ⟨by rw [trace, hf, List.length_map], ?_, h.inv.starts_completions_le.1⟩
  rw [← h.inv.finished_eq, (h.inv.finished_perm hval.nodup hval.acyclic h.ended).length_eq,
    Plan.ids, List.length_map]

theorem Complete.inPlanOrder (h : r.Complete R catalog) : r.InPlanOrder := by
  have hval := Plan.valid_of_validatePlan h.valid
  obtain ⟨f, hf, hentries⟩ := h.inv.planRun_trace hval.nodup hval.acyclic h.ended
  rw [InPlanOrder, trace, hf, List.forall₂_map_right_iff, List.forall₂_same]
  exact fun s hs => (hentries s hs).1

end Round

namespace DispatchState

open ExecState (observing oneTool)

variable {ω : Type} (R : Runtime ω) (nodeId : String)

/-- What a step of a dispatch can do. -/
inductive Step : DispatchState → DispatchAction ω → DispatchState → Prop
  | fail {d : DispatchState} {a : DispatchAction ω} (e : DispatchError) (ha : a.act? = none)
      (hd : d.stage.waits) : Step d a { d with stage := .failed e }
  | skip {d : DispatchState} {a : DispatchAction ω} (ha : a.act? = none)
      (hd : d.stage = .compiling) : Step d a { d with stage := .reflecting 1 none [] }
  | begin {d : DispatchState} {a : DispatchAction ω} {now : ℤ} {runId : String}
      {callId : ℕ → String} {p : Plan} {db : Db} (ha : a.act? = none) (hd : d.stage = .compiling)
      (hv : validatePlan R.compile p d.catalog = .ok ())
      (hdb : d.db.insertPlanRun ⟨runId, d.state.id, p⟩ = .ok db) :
      Step d a (d.execute R db now (d.state.nextSeq - 1) none p callId)
  | act {d : DispatchState} {x : Execution} {a : Action ω} {σ : ExecState}
      (hd : d.stage = .executing x)
      (hσ : x.state.step (R.withCallId x.callId) d.catalog x.plan a = some σ) :
      Step d (.act a) (d.advance nodeId x σ)
  | finish {d : DispatchState} {x : Execution} {entries : List (String × Value)}
      (hd : d.stage = .executing x) (hnil : x.state.inFlight = []) :
      Step d (.finished entries) { d with
        state := reconcile nodeId d.state (x.state.planRun x.plan).trace
        stage := .deciding x.startedAt x.baseSeq (x.finish (x.state.planRun x.plan) entries) }
  | next {d : DispatchState} {startedAt : ℤ} {baseSeq : ℕ} {r : Rounds} {now : ℤ}
      {runId : String} {callId : ℕ → String} {plan : Except String Plan}
      {answers : List (Except String Plan)} {p : Plan} {db : Db} (used : ℕ)
      (hd : d.stage = .deciding startedAt baseSeq r)
      (hn : d.continuation R startedAt r now runId plan answers = some (p, db)) :
      Step d (.continued now runId callId plan answers)
        (d.execute R db startedAt baseSeq (some { r with used }) p callId)
  | stop {d : DispatchState} {startedAt : ℤ} {baseSeq : ℕ} {r : Rounds} {now : ℤ}
      {runId : String} {callId : ℕ → String} {plan : Except String Plan}
      {answers : List (Except String Plan)} (used : ℕ) (hd : d.stage = .deciding startedAt baseSeq r)
      (hn : d.continuation R startedAt r now runId plan answers = none) :
      Step d (.continued now runId callId plan answers)
        { d with stage := .reflecting used (some r.run.blackboard) r.run.trace }
  | reply {d : DispatchState} {content model : Option String} {rounds : ℕ} {text : String}
      {trace : List TraceEntry} (hd : (∃ bb, d.stage = .reflecting rounds bb trace) ∨
        d.stage = .chatting ∧ trace = []) :
      Step d (.composed content model) (d.reply rounds text model trace)

variable {R nodeId}

theorem step_cases {d d' : DispatchState} {a : DispatchAction ω}
    (h : d.step R nodeId a = some d') : Step R nodeId d a d' := by
  cases a with
  | compiled now runId callId plan answers =>
    simp only [step] at h
    split at h
    · rename_i hd
      obtain rfl := Option.some.inj h
      unfold begin
      split
      · exact .fail _ rfl (by rw [hd]; rfl)
      -- An empty plan and an invalid one skip the execution.
      · split
        · exact .skip rfl hd
        · exact .skip rfl hd
        · rename_i hv
          split
          · exact .fail _ rfl (by rw [hd]; rfl)
          · rename_i hdb
            exact .begin rfl hd (resolvePlan_valid hv) hdb
    · exact absurd h (by simp)
  | act a =>
    simp only [step] at h
    split at h
    · rename_i hd
      obtain ⟨σ, hσ, rfl⟩ := Option.map_eq_some_iff.1 h
      exact .act hd hσ
    · exact absurd h (by simp)
  | finished entries =>
    simp only [step] at h
    split at h
    · rename_i hd
      obtain ⟨hc, h⟩ := Option.ite_none_right_eq_some.1 h
      obtain rfl := Option.some.inj h
      exact .finish hd hc.1
    · exact absurd h (by simp)
  | continued now runId callId plan answers =>
    simp only [step] at h
    split at h
    · rename_i startedAt baseSeq r hd
      obtain rfl := Option.some.inj h
      rw [proceed]
      cases hn : d.continuation R startedAt r now runId plan answers with
      | none => exact .stop _ hd hn
      | some x => exact .next _ hd hn
    · exact absurd h (by simp)
  | composed content model =>
    simp only [step] at h
    split at h
    · rename_i hd
      obtain rfl := Option.some.inj h
      exact .reply (.inl ⟨_, hd⟩)
    · rename_i hd
      obtain rfl := Option.some.inj h
      exact .reply (.inr ⟨hd, rfl⟩)
    · rename_i hd
      obtain rfl := Option.some.inj h
      exact .fail _ rfl (by rw [hd]; rfl)
    · exact absurd h (by simp)
  | backendFailed e =>
    simp only [step] at h
    split at h
    · rename_i hd
      obtain rfl := Option.some.inj h
      exact .fail _ rfl (by rw [hd]; rfl)
    · rename_i hd
      obtain rfl := Option.some.inj h
      exact .fail _ rfl (by rw [hd]; rfl)
    · exact absurd h (by simp)

/-! ## The rounds so far -/

variable (R) in
/-- After the actions `as`, the `rounds` are over, and `h` are the actions of the
    round in progress, if there is one. The plans `plans` were journalled before
    the dispatch. -/
structure Traced (plans : List Plan) (as : List (DispatchAction ω)) (d : DispatchState)
    (rounds : List (Round ω)) (h : List (Action ω)) : Prop where
  complete : ∀ r ∈ rounds, r.Complete R d.catalog
  trace : ∀ t ∈ d.stage.trace?, t = rounds.flatMap Round.trace
  acts : acts as = rounds.flatMap (·.actions) ++ h
  plans : d.db.plans = plans ++ rounds.map (·.plan) ++ d.stage.current.toList.map (·.plan)
  idle : d.stage.current = none → h = []
  progress : ∀ x ∈ d.stage.current, validatePlan R.compile x.plan d.catalog = .ok () ∧
    ExecState.execute (R.withCallId x.callId) d.catalog x.plan h = some x.state

theorem acts_append (as bs : List (DispatchAction ω)) : acts (as ++ bs) = acts as ++ acts bs :=
  List.filterMap_append

/-- A step between stages without a round in progress. -/
theorem Traced.rest {plans : List Plan} {as : List (DispatchAction ω)} {d d' : DispatchState}
    {rounds : List (Round ω)} {h : List (Action ω)} (ht : Traced R plans as d rounds h)
    {a : DispatchAction ω} (ha : a.act? = none) (hd : d.stage.current = none)
    (hd' : d'.stage.current = none) (hcat : d'.catalog = d.catalog)
    (hplans : d'.db.plans = d.db.plans)
    (htrace : ∀ t ∈ d'.stage.trace?, t ∈ d.stage.trace?) :
    Traced R plans (as ++ [a]) d' rounds h where
  complete := hcat ▸ ht.complete
  trace t h := ht.trace t (htrace t h)
  acts := by rw [acts_append, ht.acts]; simp [N3ur0n.acts, ha]
  plans := by rw [hplans, ht.plans, hd, hd']
  idle _ := ht.idle hd
  progress x hx := absurd hx (by simp [hd'])

/-- A plan starts. -/
theorem Traced.execute {plans : List Plan} {as : List (DispatchAction ω)} {d : DispatchState}
    {rounds : List (Round ω)} {h : List (Action ω)} (ht : Traced R plans as d rounds h)
    {a : DispatchAction ω} (ha : a.act? = none) (hd : d.stage.current = none) {db : Db}
    {startedAt : ℤ} {baseSeq : ℕ} {earlier : Option Rounds} {p : Plan} {callId : ℕ → String}
    (hv : validatePlan R.compile p d.catalog = .ok ()) {run : PlanRunRecord} (hrun : run.plan = p)
    (hdb : d.db.insertPlanRun run = .ok db)
    (htrace : (match earlier with | none => [] | some r => r.run.trace) ∈ d.stage.trace?) :
    Traced R plans (as ++ [a]) (d.execute R db startedAt baseSeq earlier p callId) rounds [] where
  complete := ht.complete
  trace t h := by
    obtain rfl := Option.some.inj h
    exact ht.trace _ htrace
  acts := by
    rw [acts_append, ht.acts, ht.idle hd]
    simp [N3ur0n.acts, ha]
  plans := by
    have hplans : db.plans = d.db.plans ++ [p] := by
      rw [Db.plans, (Db.insertPlanRun_eq_ok hdb).2.2, List.map_append, List.map_singleton, hrun]
      rfl
    rw [DispatchState.execute, hplans, ht.plans, hd]
    simp [Stage.current]
  idle h := absurd h (by simp [DispatchState.execute, Stage.current])
  progress x hx := by
    obtain rfl := Option.some.inj hx
    exact ⟨hv, rfl⟩

variable (nodeId) in
/-- The durability hook only changes the turns stored. -/
theorem persist_frame (d : DispatchState) (baseSeq : ℕ) (y : ℕ × TraceEntry) :
    (d.persist nodeId baseSeq y).catalog = d.catalog ∧
      (d.persist nodeId baseSeq y).state = d.state ∧
      (d.persist nodeId baseSeq y).db.planRuns = d.db.planRuns := by
  rw [persist]
  split
  · rename_i hdb
    exact ⟨rfl, rfl, (Db.appended_of_appendTurns (Except.mapError_eq_ok.1 hdb)).planRuns⟩
  · exact ⟨rfl, rfl, rfl⟩

variable (nodeId) in
theorem foldl_persist_frame (d : DispatchState) (baseSeq : ℕ) (l : List (ℕ × TraceEntry)) :
    (l.foldl (fun d y => d.persist nodeId baseSeq y) d).catalog = d.catalog ∧
      (l.foldl (fun d y => d.persist nodeId baseSeq y) d).state = d.state ∧
      (l.foldl (fun d y => d.persist nodeId baseSeq y) d).db.planRuns = d.db.planRuns := by
  induction l generalizing d with
  | nil => exact ⟨rfl, rfl, rfl⟩
  | cons y l ih =>
    obtain ⟨h₁, h₂, h₃⟩ := ih (d.persist nodeId baseSeq y)
    obtain ⟨h₁', h₂', h₃'⟩ := persist_frame nodeId d baseSeq y
    exact ⟨h₁.trans h₁', h₂.trans h₂', h₃.trans h₃'⟩

theorem reply_frame (d : DispatchState) (rounds : ℕ) (text : String) (model : Option String)
    (trace : List TraceEntry) :
    (d.reply rounds text model trace).catalog = d.catalog ∧
      (d.reply rounds text model trace).db.planRuns = d.db.planRuns ∧
      (d.reply rounds text model trace).stage.current = none ∧
      ∀ t ∈ (d.reply rounds text model trace).stage.trace?, t = trace := by
  rw [reply]
  split
  · exact ⟨rfl, rfl, rfl, fun t ht => absurd ht (by simp [Stage.trace?])⟩
  · rename_i hdb
    exact ⟨rfl, persistLast_planRuns hdb, rfl, fun t ht => (Option.some.inj ht).symm⟩

theorem finish_trace (x : Execution) (run : PlanRun) (entries : List (String × Value)) :
    (x.finish run entries).run.trace = x.earlierTrace ++ run.trace := by
  rw [Execution.finish, Execution.earlierTrace]
  cases x.earlier with
  | none => rfl
  | some r => rfl

theorem continuation_eq_some {d : DispatchState} {startedAt : ℤ} {r : Rounds} {now : ℤ}
    {runId : String} {plan : Except String Plan} {answers : List (Except String Plan)} {p : Plan}
    {db : Db} (h : d.continuation R startedAt r now runId plan answers = some (p, db)) :
    validatePlan R.compile p d.catalog = .ok () ∧
      d.db.insertPlanRun ⟨runId, d.state.id, p⟩ = .ok db := by
  obtain ⟨-, h⟩ := Option.ite_none_right_eq_some.1 h
  obtain ⟨next, hnext, h⟩ := Option.bind_eq_some_iff.1 h
  obtain ⟨db', hdb, heq⟩ := Option.map_eq_some_iff.1 h
  obtain ⟨rfl, rfl⟩ := Prod.mk.inj heq
  refine ⟨(nextPlan_eq_some hnext).1, ?_⟩
  cases hrun : d.db.insertPlanRun ⟨runId, d.state.id, next⟩ with
  | error e => exact absurd hdb (by simp [hrun, Except.toOption])
  | ok db₂ =>
    rw [hrun] at hdb
    exact congrArg _ (Option.some.inj hdb)

theorem Stage.current_of_waits {s : Stage} (h : s.waits) : s.current = none := by
  cases s with
  | executing x => exact absurd h (by simp [Stage.waits])
  | _ => rfl

/-- One more step: the round in progress goes on, or it is over, or a round
    starts, or none of this. -/
theorem traced_step {plans : List Plan} {as : List (DispatchAction ω)} {d d' : DispatchState}
    {rounds : List (Round ω)} {h : List (Action ω)} (ht : Traced R plans as d rounds h)
    {a : DispatchAction ω} (hs : Step R nodeId d a d') :
    ∃ rounds' h', Traced R plans (as ++ [a]) d' rounds' h' := by
  cases hs with
  | fail e ha hd =>
    exact ⟨rounds, h, ht.rest ha (Stage.current_of_waits hd) rfl rfl rfl
      fun t ht => absurd ht (by simp [Stage.trace?])⟩
  | skip ha hd =>
    exact ⟨rounds, h, ht.rest ha (by rw [hd]; rfl) rfl rfl rfl fun t ht => by rw [hd]; exact ht⟩
  | begin ha hd hv hdb =>
    exact ⟨rounds, [], ht.execute ha (by rw [hd]; rfl) hv rfl hdb (by rw [hd]; rfl)⟩
  | act hd hσ =>
    rename_i x b σ
    obtain ⟨hcat, -, hruns⟩ := foldl_persist_frame nodeId d x.baseSeq (hooks x σ)
    have hx : x ∈ d.stage.current := by rw [hd]; rfl
    obtain ⟨hv, hrun⟩ := ht.progress x hx
    refine ⟨rounds, h ++ [b], ?_, fun t h => ht.trace t (by rw [hd]; exact h), ?_, ?_,
      fun hn => absurd hn (by simp [advance, Stage.current]), fun y hy => ?_⟩
    · rw [advance, hcat]
      exact ht.complete
    · rw [acts_append, ht.acts, List.append_assoc]
      rfl
    · rw [advance, Db.plans, hruns, ← Db.plans, ht.plans, hd]
      rfl
    · obtain rfl := Option.some.inj hy
      rw [advance, hcat]
      exact ⟨hv, Run.run_snoc.2 ⟨x.state, hrun, hσ⟩⟩
  | finish hd hnil =>
    rename_i x entries
    have hx : x ∈ d.stage.current := by rw [hd]; rfl
    obtain ⟨hv, hrun⟩ := ht.progress x hx
    -- The round in progress becomes one of those that are over.
    refine ⟨rounds ++ [⟨x.plan, x.callId, h, x.state⟩], [], fun r hr => ?_, fun t h => ?_, ?_, ?_,
      fun _ => rfl, fun y hy => absurd hy (by simp [Stage.current])⟩
    · rcases List.mem_append.1 hr with hr | hr
      · exact ht.complete r hr
      · obtain rfl := List.mem_singleton.1 hr
        exact ⟨hv, hrun, hnil⟩
    · obtain rfl := Option.some.inj h
      rw [finish_trace, ht.trace x.earlierTrace (by rw [hd]; rfl), List.flatMap_append]
      simp [Round.trace]
    · rw [acts_append, ht.acts, List.flatMap_append]
      simp [N3ur0n.acts, DispatchAction.act?]
    · rw [ht.plans, hd]
      simp [Stage.current]
  | next used hd hn =>
    obtain ⟨hv, hdb⟩ := continuation_eq_some hn
    exact ⟨rounds, [], ht.execute rfl (by rw [hd]; rfl) hv rfl hdb (by rw [hd]; rfl)⟩
  | stop used hd hn =>
    exact ⟨rounds, h, ht.rest rfl (by rw [hd]; rfl) rfl rfl rfl fun t ht => by rw [hd]; exact ht⟩
  | reply hd =>
    rename_i content model n text trace
    obtain ⟨hcat, hruns, hcur, htr⟩ := reply_frame d n text model trace
    refine ⟨rounds, h, ht.rest rfl ?_ hcur hcat ?_ fun t ht => ?_⟩
    · rcases hd with ⟨bb, hd⟩ | ⟨hd, -⟩
      · rw [hd]; rfl
      · rw [hd]; rfl
    · rw [Db.plans, hruns, ← Db.plans]
    · obtain rfl := htr t ht
      rcases hd with ⟨bb, hd⟩ | ⟨hd, rfl⟩
      · rw [hd]; rfl
      · rw [hd]; rfl

theorem start_frame (db : Db) (catalog : Catalog) (mode : DispatchMode)
    (state : ConversationState) (input : UserInput) :
    (start db catalog mode state input).stage.current = none ∧
      (start db catalog mode state input).db.planRuns = db.planRuns ∧
      (∀ t ∈ (start db catalog mode state input).stage.trace?, t = []) := by
  rw [start]
  split
  · exact ⟨rfl, rfl, fun t ht => absurd ht (by simp [Stage.trace?])⟩
  · rename_i hdb
    have hruns := persistLast_planRuns hdb
    cases mode with
    | auto => exact ⟨rfl, hruns, fun t ht => (Option.some.inj ht).symm⟩
    | direct => exact ⟨rfl, hruns, fun t ht => (Option.some.inj ht).symm⟩

theorem traced_start (db : Db) (catalog : Catalog) (mode : DispatchMode)
    (state : ConversationState) (input : UserInput) :
    Traced R db.plans [] (start db catalog mode state input) [] [] := by
  obtain ⟨hcur, hruns, htr⟩ := start_frame db catalog mode state input
  refine ⟨fun r hr => absurd hr List.not_mem_nil, htr, rfl, ?_, fun _ => rfl,
    fun x hx => absurd hx (by simp [hcur])⟩
  rw [Db.plans, hruns, hcur]
  simp [Db.plans]

variable (R) in
/-- The plan of the round in progress is valid, and was executed so far. -/
def Ongoing (d : DispatchState) : Prop :=
  ∀ x ∈ d.stage.current, validatePlan R.compile x.plan d.catalog = .ok () ∧
    ∃ h, ExecState.execute (R.withCallId x.callId) d.catalog x.plan h = some x.state

theorem Traced.ongoing {plans : List Plan} {as : List (DispatchAction ω)} {d : DispatchState}
    {rounds : List (Round ω)} {h : List (Action ω)} (ht : Traced R plans as d rounds h) :
    Ongoing R d := fun x hx => ⟨(ht.progress x hx).1, h, (ht.progress x hx).2⟩

theorem ongoing_start (db : Db) (catalog : Catalog) (mode : DispatchMode)
    (state : ConversationState) (input : UserInput) :
    Ongoing R (start db catalog mode state input) :=
  (traced_start db catalog mode state input).ongoing

/-- The journal of the plans does not matter to a round. -/
theorem Ongoing.step {d d' : DispatchState} {a : DispatchAction ω} (ho : Ongoing R d)
    (hs : Step R nodeId d a d') : Ongoing R d' := by
  cases hs with
  | fail | skip | finish | stop => exact fun x hx => absurd hx (by simp [Stage.current])
  | begin ha hd hv hdb =>
    intro x hx
    obtain rfl := Option.some.inj hx
    exact ⟨hv, [], rfl⟩
  | next used hd hn =>
    intro x hx
    obtain rfl := Option.some.inj hx
    exact ⟨(continuation_eq_some hn).1, [], rfl⟩
  | act hd hσ =>
    rename_i x b σ
    obtain ⟨hv, h, hrun⟩ := ho x (by rw [hd]; rfl)
    intro y hy
    obtain rfl := Option.some.inj hy
    rw [advance, (foldl_persist_frame nodeId d x.baseSeq (hooks x σ)).1]
    exact ⟨hv, h ++ [b], Run.run_snoc.2 ⟨x.state, hrun, hσ⟩⟩
  | reply hd =>
    rename_i content model n text trace
    intro x hx
    rw [(reply_frame d n text model trace).2.2.1] at hx
    exact absurd hx (by simp)

/-! ## The budget -/

/-- The steps of these plans. -/
def planned (plans : List Plan) : ℕ := (plans.map (·.plan.length)).sum

theorem planned_append (plans plans' : List Plan) :
    planned (plans ++ plans') = planned plans + planned plans' := by
  rw [planned, List.map_append, List.sum_append]
  rfl

variable (R) in
/-- If a continuation starts for which there are a round and steps left, its steps
    are not more than these. -/
def InBudget (d : DispatchState) (a : DispatchAction ω) : Prop :=
  match d.stage, a with
  | .deciding startedAt _ r, .continued now runId _ plan answers =>
    r.round < maxPlanRounds → r.run.trace.length < maxTotalSteps →
      ∀ x ∈ d.continuation R startedAt r now runId plan answers,
        x.1.plan.length ≤ maxTotalSteps - r.run.trace.length
  | _, _ => True

instance {d : DispatchState} {a : DispatchAction ω} : Decidable (InBudget R d a) := by
  unfold InBudget
  split <;> infer_instance

/-- No round starts without a round and steps left for it. -/
theorem left_of_continuation {d : DispatchState} {startedAt : ℤ} {r : Rounds} {now : ℤ}
    {runId : String} {plan : Except String Plan} {answers : List (Except String Plan)}
    {x : Plan × Db} (h : d.continuation R startedAt r now runId plan answers = some x) :
    r.round < maxPlanRounds ∧ r.run.trace.length < maxTotalSteps := by
  obtain ⟨hmay, -⟩ := Option.ite_none_right_eq_some.1 h
  obtain ⟨hround, hreason⟩ := Bool.and_eq_true_iff.1 hmay
  refine ⟨of_decide_eq_true hround, not_le.1 fun hle => ?_⟩
  rw [continuationReason, if_pos (Or.inl hle)] at hreason
  exact Bool.false_ne_true hreason

/-- The steps of complete rounds are those of their plans. -/
theorem lengths_of_complete {catalog : Catalog} {rounds : List (Round ω)}
    (h : ∀ r ∈ rounds, r.Complete R catalog) :
    (rounds.flatMap Round.trace).length = planned (rounds.map (·.plan)) ∧
      (completions (rounds.flatMap (·.actions))).length = planned (rounds.map (·.plan)) ∧
      (starts (rounds.flatMap (·.actions))).length ≤ planned (rounds.map (·.plan)) := by
  induction rounds with
  | nil => exact ⟨rfl, rfl, le_rfl⟩
  | cons r rounds ih =>
    obtain ⟨hr, h⟩ := List.forall_mem_cons.1 h
    obtain ⟨ih₁, ih₂, ih₃⟩ := ih h
    obtain ⟨h₁, h₂, h₃⟩ := hr.lengths
    have hcons : planned ((r :: rounds).map (·.plan)) =
        r.plan.plan.length + planned (rounds.map (·.plan)) := rfl
    rw [List.flatMap_cons, List.flatMap_cons, completions_append, starts_append,
      List.length_append, List.length_append, List.length_append, hcons]
    omega

theorem Traced.planned_eq {plans : List Plan} {as : List (DispatchAction ω)} {d : DispatchState}
    {rounds : List (Round ω)} {h : List (Action ω)} (ht : Traced R plans as d rounds h) :
    planned d.db.plans = planned plans + (rounds.flatMap Round.trace).length +
      planned (d.stage.current.toList.map (·.plan)) := by
  rw [ht.plans, planned_append, planned_append, (lengths_of_complete ht.complete).1]

theorem inBudget_of_ne {d : DispatchState} (h : ∀ t b r, d.stage ≠ .deciding t b r)
    (a : DispatchAction ω) : InBudget R d a := by
  unfold InBudget
  split
  · rename_i hd
    exact absurd hd (h _ _ _)
  · trivial

theorem inBudget_continued {d : DispatchState} {startedAt : ℤ} {baseSeq : ℕ} {r : Rounds}
    (hd : d.stage = .deciding startedAt baseSeq r) {now : ℤ} {runId : String}
    {callId : ℕ → String} {plan : Except String Plan} {answers : List (Except String Plan)} :
    InBudget R d (.continued now runId callId plan answers) ↔
      ∀ x, d.continuation R startedAt r now runId plan answers = some x →
        r.run.trace.length + x.1.plan.length ≤ maxTotalSteps := by
  unfold InBudget
  rw [hd]
  constructor
  · -- The tests of `continuation` give what the condition asks for.
    intro h x hx
    obtain ⟨hround, hleft⟩ := left_of_continuation hx
    have := h hround hleft x hx
    omega
  · intro h _ _ x hx
    have := h x hx
    omega

theorem ne_deciding_of_waits {s : Stage} (h : s.waits) (t : ℤ) (b : ℕ) (r : Rounds) :
    s ≠ .deciding t b r := by
  rintro rfl
  exact absurd h (by simp [Stage.waits])

/-- A plan that starts is journalled. -/
theorem planned_insertPlanRun {db db' : Db} {id conversationId : String} {p : Plan}
    (h : db.insertPlanRun ⟨id, conversationId, p⟩ = .ok db') :
    planned db'.plans = planned db.plans + p.plan.length := by
  rw [Db.plans, (Db.insertPlanRun_eq_ok h).2.2, List.map_append, planned_append]
  rfl

/-- A step keeps the plans within the budget exactly when it is in budget. -/
theorem planned_step {plans : List Plan} {as : List (DispatchAction ω)} {d d' : DispatchState}
    {rounds : List (Round ω)} {h : List (Action ω)} (ht : Traced R plans as d rounds h)
    {a : DispatchAction ω} (hs : Step R nodeId d a d') :
    planned d'.db.plans ≤ planned plans + maxTotalSteps ↔
      planned d.db.plans ≤ planned plans + maxTotalSteps ∧ InBudget R d a := by
  have hplanned := ht.planned_eq
  cases hs with
  | fail e ha hd => exact (and_iff_left (inBudget_of_ne (ne_deciding_of_waits hd) a)).symm
  | skip ha hd => exact (and_iff_left (inBudget_of_ne (by simp [hd]) a)).symm
  | begin ha hd hv hdb =>
    rename_i p db
    -- A first plan fits.
    have hnil : rounds.flatMap Round.trace = [] := (ht.trace [] (by rw [hd]; rfl)).symm
    have hsize : p.plan.length ≤ maxTotalSteps :=
      (Plan.valid_of_validatePlan hv).size.2.trans (by decide)
    rw [hnil, hd] at hplanned
    have hlen : planned d.db.plans = planned plans := hplanned
    rw [and_iff_left (inBudget_of_ne (by simp [hd]) a), execute, planned_insertPlanRun hdb, hlen]
    exact iff_of_true (Nat.add_le_add_left hsize _) (Nat.le_add_right _ _)
  | act hd hσ =>
    rename_i x b σ
    obtain ⟨-, -, hruns⟩ := foldl_persist_frame nodeId d x.baseSeq (hooks x σ)
    rw [advance, Db.plans, hruns, ← Db.plans]
    exact (and_iff_left (inBudget_of_ne (by simp [hd]) _)).symm
  | finish hd hnil => exact (and_iff_left (inBudget_of_ne (by simp [hd]) _)).symm
  | next used hd hn =>
    rename_i startedAt baseSeq r now runId callId plan answers p db
    have htrace := ht.trace r.run.trace (by rw [hd]; rfl)
    rw [← htrace, hd] at hplanned
    have hlen : planned d.db.plans = planned plans + r.run.trace.length := hplanned
    have hiff : InBudget R d (.continued now runId callId plan answers) ↔
        r.run.trace.length + p.plan.length ≤ maxTotalSteps := by
      rw [inBudget_continued hd]
      exact ⟨fun h => h _ hn, fun h x hx => Option.some.inj (hn.symm.trans hx) ▸ h⟩
    rw [hiff, execute, planned_insertPlanRun (continuation_eq_some hn).2, hlen]
    omega
  | stop used hd hn =>
    exact (and_iff_left ((inBudget_continued hd).2 fun x hx =>
      absurd (hn.symm.trans hx) (by simp))).symm
  | reply hd =>
    rename_i content model n text trace
    rw [Db.plans, (reply_frame d n text model trace).2.1, ← Db.plans]
    refine (and_iff_left (inBudget_of_ne ?_ _)).symm
    rcases hd with ⟨bb, hd⟩ | ⟨hd, -⟩
    · simp [hd]
    · simp [hd]

/-- In any run of a dispatch in which a continuation, if it is compiled when fewer
    than `maxTotalSteps` steps were executed, has no more steps than are left, at most
    `maxTotalSteps` steps are executed or invoked; and when no round is in progress,
    at most so many were executed only if that was so. -/
theorem steps_in_budget {db : Db} {catalog : Catalog} {mode : DispatchMode}
    {state : ConversationState} {input : UserInput} {as : List (DispatchAction ω)}
    {d : DispatchState}
    (h : Run.run (step R nodeId) (start db catalog mode state input) as = some d) :
    (Run.Along (step R nodeId) (InBudget R) (start db catalog mode state input) as →
      (completions (acts as)).length ≤ maxTotalSteps ∧
        (starts (acts as)).length ≤ maxTotalSteps) ∧
    (d.stage.current = none → ((completions (acts as)).length ≤ maxTotalSteps ↔
      Run.Along (step R nodeId) (InBudget R) (start db catalog mode state input) as)) := by
  -- Along the run, the plans journalled are within the budget exactly when the
  -- continuations were: what the actions did follows from `Traced`.
  obtain ⟨⟨rounds, h', ht⟩, -, hiff⟩ := Run.run_induction
    (P := fun as d => (∃ rounds h, Traced R db.plans as d rounds h) ∧
      Run.run (step R nodeId) (start db catalog mode state input) as = some d ∧
      (planned d.db.plans ≤ planned db.plans + maxTotalSteps ↔
        Run.Along (step R nodeId) (InBudget R) (start db catalog mode state input) as))
    ⟨⟨[], [], traced_start db catalog mode state input⟩, rfl, by
      have hlen := (@traced_start ω R db catalog mode state input).planned_eq
      rw [(start_frame db catalog mode state input).1] at hlen
      exact iff_of_true (hlen.trans_le (Nat.le_add_right _ _)) trivial⟩
    (fun as t a t' ⟨⟨rounds, h', ht⟩, hrun, hiff⟩ hstep =>
      ⟨traced_step ht (step_cases hstep), Run.run_snoc.2 ⟨t, hrun, hstep⟩, by
        rw [planned_step ht (step_cases hstep), hiff, Run.along_snoc hrun]⟩) h
  have hplanned := ht.planned_eq
  obtain ⟨htrace, hcomp, hstart⟩ := lengths_of_complete ht.complete
  rw [← hiff, ht.acts, completions_append, starts_append, List.length_append, List.length_append]
  cases hcur : d.stage.current with
  | none =>
    rw [ht.idle hcur]
    rw [hcur] at hplanned
    have hlen : planned d.db.plans = planned db.plans + _ := hplanned
    simp only [completions, starts, List.filterMap_nil, List.length_nil] at hcomp hstart ⊢
    exact ⟨fun h => by omega, fun _ => by omega⟩
  | some x =>
    obtain ⟨hv, hrun⟩ := ht.progress x hcur
    obtain ⟨hs, hc⟩ := (ExecState.inv_execute (Plan.valid_of_validatePlan hv).nodup
      hrun).starts_completions_le
    rw [hcur] at hplanned
    have hlen : planned d.db.plans = planned db.plans + _ + x.plan.plan.length := hplanned
    exact ⟨fun h => by omega, fun h => absurd h (by simp)⟩

/-! ## Two large plans -/

/-- Steps with the same arguments, which wait for nothing. -/
def stepsOf (ids : List String) (args : Value) : Plan :=
  ⟨ids.map fun id => ⟨id, "abc", "t", args, []⟩⟩

/-- Eight of them. -/
def eightSteps (args : Value) : Plan := stepsOf ["a", "b", "c", "d", "e", "f", "g", "h"] args

/-- The steps run one after the other; the first one fails. -/
def eightActions : List (DispatchAction (Except String Value)) :=
  [.act (.start "a"), .act (.returned "a" (.error "down"))] ++
    ["b", "c", "d", "e", "f", "g", "h"].flatMap fun id =>
      [.act (.start id), .act (.returned id (.ok .null))]

/-- The blackboard they leave. -/
def eightEntries : List (String × Value) :=
  ("a", .object [("error", .string "down")]) ::
    ["b", "c", "d", "e", "f", "g", "h"].map fun id => (id, .null)

def oneRound : List (DispatchAction (Except String Value)) :=
  .compiled 0 "r1" (fun _ => "x") (.ok (eightSteps (.object []))) [] :: eightActions ++
    [.finished eightEntries]

/-- As a step failed, a continuation is compiled. -/
def twoRounds : List (DispatchAction (Except String Value)) :=
  oneRound ++ .continued 1 "r2" (fun _ => "y") (.ok (eightSteps (.object [("n", .null)]))) [] ::
    eightActions ++ [.finished eightEntries]

/-- A database with one conversation, without turns. -/
def newDb : Db := ⟨[⟨"c", "me"⟩], [], [], List.nodup_nil, by simp⟩

/-- The message `hi` is dispatched in it. -/
def saidHi : DispatchState := start newDb oneTool .auto ⟨"c", "me", [], 0⟩ ⟨"hi", []⟩

/-- The continuation has the four steps that are left. -/
def fourMore : List (DispatchAction (Except String Value)) :=
  oneRound ++ .continued 1 "r2" (fun _ => "y")
      (.ok (stepsOf ["a", "b", "c", "d"] (.object [("n", .null)]))) [] ::
    ["a", "b", "c", "d"].flatMap fun id => [.act (.start id), .act (.returned id (.ok .null))]

/-- Twelve steps are executed, and no more. -/
theorem steps_in_budget_fourMore : (completions (acts fourMore)).length = maxTotalSteps ∧
    (completions (acts fourMore)).length ≤ maxTotalSteps ∧
      (starts (acts fourMore)).length ≤ maxTotalSteps := by
  obtain ⟨d, hd⟩ := Option.isSome_iff_exists.1
    (show (Run.run (step observing "n3:me") saidHi fourMore).isSome by decide +kernel)
  have halong : Run.Along (step observing "n3:me") (InBudget observing) saidHi fourMore := by
    decide +kernel
  exact ⟨by decide, (steps_in_budget hd).1 halong⟩

/-- One dispatch executes and invokes sixteen steps. -/
theorem sixteen_steps : (Run.run (step observing "n3:me") saidHi twoRounds).isSome ∧
    (completions (acts twoRounds)).length = 16 ∧ (starts (acts twoRounds)).length = 16 ∧
      ¬(completions (acts twoRounds)).length ≤ maxTotalSteps := by
  refine ⟨by decide +kernel, by decide, by decide, by decide⟩

end DispatchState

end N3ur0n
