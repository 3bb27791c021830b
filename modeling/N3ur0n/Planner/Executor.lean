import N3ur0n.Lib.Run
import N3ur0n.Planner.Plan

/-!
# Executing plans

The executor keeps a set of jobs *in flight*, one for each step that waits for
nothing any more and has not completed. A job is prepared when its step is
spawned: the arguments are resolved from the blackboard of that moment, and a
step that cannot be invoked (a template left, no such tool, arguments that do
not conform) is a job that has failed already. The others wait for one of
`maxConcurrentSteps` permits, and are invoked.

Jobs complete in any order. A completion records the result on the blackboard
and in the trace, runs the durability hook, counts the dependants of the step
down, and spawns those which wait for nothing any more.

The order in which jobs get a permit and complete, and what the invocations
return, are the *actions* of the machine `step`. The result of an invocation is
a function of an observation `ω` of the world outside, its tool and its
arguments (`Runtime.invoke`), for any `ω`.
-/

namespace N3ur0n

/-- Hard cap on concurrent step invocations within a single plan dispatch. -/
def maxConcurrentSteps : ℕ := 4

structure TraceEntry where
  callId : String
  peerId : String
  capability : String
  args : Value
  result : Option Value
  error : Option String
  deriving DecidableEq

/-- The dispatch events of the executor. -/
inductive DispatchEvent
  | stepStart (id : String)
  | stepDone (id : String) (args : Value) (result : Option Value) (error : Option String)
  deriving DecidableEq

/-- What the executor calls: the generator of call ids, the JSON schema
    compiler, and the invocation of a capability, given an observation of the
    world outside. -/
structure Runtime (ω : Type) where
  callId : ℕ → String
  compile : SchemaCompiler
  invoke : ω → ToolDef → Value → Except String Value

/-- What is left to do for a step in flight. -/
inductive Work
  | failed (error : String)
  | queued (tool : ToolDef) (args : Value)
  | running (tool : ToolDef) (args : Value)
  deriving DecidableEq

structure Job where
  id : String
  work : Work
  deriving DecidableEq

structure ExecState where
  indeg : Table String ℕ
  blackboard : Blackboard
  traceById : Table String TraceEntry
  lastId : Option String
  inFlight : List Job
  /-- How many call ids were generated. -/
  minted : ℕ
  events : List DispatchEvent
  /-- The calls of the durability hook, with the index of the step. -/
  hooked : List (ℕ × TraceEntry)

structure PlanRun where
  blackboard : Blackboard
  lastStepId : Option String
  trace : List TraceEntry

/-- The actions of the outside world: a job gets a permit, a job that has failed
    already completes, an invocation returns. -/
inductive Action (ω : Type)
  | start (id : String)
  | failed (id : String)
  | returned (id : String) (obs : ω)

/-- The trace entry and the job of a step spawned with this blackboard. -/
def prepare (compile : SchemaCompiler) (catalog : Catalog) (step : PlanStep) (callId : String)
    (blackboard : Blackboard) : TraceEntry × Work :=
  let args := resolveValue step.args blackboard
  let entry (peerId : String) (error : Option String) : TraceEntry :=
    ⟨callId, peerId, step.capability, args, none, error⟩
  match firstUnresolvedTemplate args with
  | some unresolved =>
    let err := s!"step `{step.id}`: unresolved template `{unresolved}` (no expressions allowed " ++
      "in $\x7b...\x7d; use raw refs only, let the downstream tool combine values)"
    (entry step.peer (some err), .failed err)
  | none =>
    match catalog.find step.toolName with
    | none =>
      let err := s!"tool `{step.toolName}` not in catalog"
      (entry step.peer (some err), .failed err)
    | some tool =>
      match validateArgsAgainstSchema compile args tool.cap.schemaIn with
      | .error e =>
        let err := s!"step `{step.id}`: resolved args do not conform to `{step.toolName}` " ++
          s!"schema_in: {e}"
        (entry tool.peerId (some err), .failed err)
      | .ok () => (entry tool.peerId none, .queued tool args)

/-- The blackboard entry of a result. -/
def settle : Except String Value → Value
  | .ok value => value
  | .error err => .object [("error", .string err)]

/-- The trace entry of a step that has completed. -/
def TraceEntry.close (e : TraceEntry) : Except String Value → TraceEntry
  | .ok value => { e with result := some value }
  | .error err => { e with error := some err }

/-- The event of a step that has completed. -/
def doneEvent (id : String) (args : Value) : Except String Value → DispatchEvent
  | .ok value => .stepDone id args (some value) none
  | .error err => .stepDone id args none (some err)

namespace ExecState

variable {ω : Type} (R : Runtime ω) (catalog : Catalog) (p : Plan)

/-- The ids of the steps in flight. -/
def live (σ : ExecState) : List String := σ.inFlight.map (·.id)

def spawnStep (σ : ExecState) (stepId : String) : ExecState :=
  match p.byId.lookup stepId with
  | none => σ
  | some step =>
    let spawned := prepare R.compile catalog step (R.callId σ.minted) σ.blackboard
    { σ with
      traceById := σ.traceById.insert step.id spawned.1
      inFlight := σ.inFlight ++ [⟨step.id, spawned.2⟩]
      minted := σ.minted + 1 }

def initial : ExecState :=
  p.seeds.foldl (spawnStep R catalog p) {
    indeg := p.wire.indeg
    blackboard := ∅
    traceById := ∅
    lastId := none
    inFlight := []
    minted := 0
    events := []
    hooked := [] }

/-- The result of a step is recorded, and handed to the durability hook. -/
def record (σ : ExecState) (id : String) (result : Except String Value) : ExecState :=
  let traceById := σ.traceById.modify id (·.close result)
  let stepArgs := ((traceById.lookup id).map (·.args)).getD (.object [])
  { σ with
    blackboard := σ.blackboard.insert id (settle result)
    traceById
    lastId := if result.isOk then some id else σ.lastId
    inFlight := σ.inFlight.eraseP (·.id = id)
    events := σ.events ++ [doneEvent id stepArgs result]
    hooked := σ.hooked ++
      match p.planIdx.lookup id, traceById.lookup id with
      | some idx, some entry => [(idx, entry)]
      | _, _ => [] }

/-- The steps waiting for `id` are counted down, and those waiting for nothing
    any more are spawned, in order (a step spawned leaves the counters alone). -/
def freeDownstream (σ : ExecState) (id : String) : ExecState :=
  let released := DepGraph.release σ.indeg (p.outs id)
  released.2.foldl (spawnStep R catalog p) { σ with indeg := released.1 }

def complete (σ : ExecState) (id : String) (result : Except String Value) : ExecState :=
  (σ.record p id result).freeDownstream R catalog p id

/-- The invocations which hold a permit. -/
def permits (σ : ExecState) : ℕ :=
  σ.inFlight.countP fun j => match j.work with | .running _ _ => true | _ => false

/-- The job of a step in flight. -/
def work (σ : ExecState) (id : String) : Option Work :=
  (σ.inFlight.find? (·.id = id)).map (·.work)

def acquire (σ : ExecState) (id : String) (tool : ToolDef) (args : Value) : ExecState :=
  { σ with
    inFlight := σ.inFlight.map fun j => if j.id = id then ⟨id, .running tool args⟩ else j
    events := σ.events ++ [.stepStart id] }

def step (σ : ExecState) : Action ω → Option ExecState
  | .start id =>
    match σ.work id with
    | some (.queued tool args) =>
      if σ.permits < maxConcurrentSteps then some (σ.acquire id tool args) else none
    | _ => none
  | .failed id =>
    match σ.work id with
    | some (.failed err) => some (σ.complete R catalog p id (.error err))
    | _ => none
  | .returned id obs =>
    match σ.work id with
    | some (.running tool args) => some (σ.complete R catalog p id (R.invoke obs tool args))
    | _ => none

/-- The trace in plan order: every entry is taken out of the table once. -/
def reassemble : List PlanStep → Table String TraceEntry → List TraceEntry
  | [], _ => []
  | s :: steps, t =>
    match t.lookup s.id with
    | some entry => entry :: reassemble steps (t.erase s.id)
    | none => reassemble steps t

/-- The result of the execution, when nothing is in flight any more. -/
def planRun (σ : ExecState) : PlanRun where
  blackboard := σ.blackboard
  lastStepId := σ.lastId
  trace := reassemble p.plan σ.traceById

/-- The state of `execute_plan_streaming` after these actions. -/
def execute (actions : List (Action ω)) : Option ExecState :=
  Run.run (step R catalog p) (initial R catalog p) actions

end ExecState

end N3ur0n
