import N3ur0n.Conversation
import N3ur0n.Message
import N3ur0n.Planner.Executor
import N3ur0n.Planner.Order

/-!
# Dispatches

A dispatch answers one message of the user. The turn of the user is stored; a
compiler turns the message into a plan, which is executed; when a step failed,
or the plan is deep, a *continuation* is compiled, with what was done in front
of the compiler, and executed; finally the composer writes the reply from the
blackboards of all the rounds, merged into one.

The call of each step and its result are stored by the durability hook, the
moment the step is done, and pushed to the conversation in memory when its round
is over, in the order of the plan.

What the compiler, the steps and the composer answer, when, and in which order
the steps are done, are the actions of the machine `DispatchState.step`. At most
one of the transactions on the turns of the conversation takes place in a step.
-/

namespace N3ur0n

open Cut

/-! ## Plans -/

/-- How many corrective recompiles a rejected plan gets. -/
def compileRetryLimit : ℕ := 1

inductive PlanOutcome
  | empty
  | valid (plan : Plan)
  | invalid (error : PlanError)

/-- The plans compiled in answer to the errors of the ones before, in order. -/
def correctPlan (compile : SchemaCompiler) (catalog : Catalog) :
    PlanError → List (Except String Plan) → PlanOutcome
  | last, [] => .invalid last
  | last, .error _ :: _ => .invalid last
  | _, .ok retried :: answers =>
    if retried.plan.isEmpty then .empty
    else
      match validatePlan compile retried catalog with
      | .ok () => .valid retried
      | .error e => correctPlan compile catalog e answers

/-- A plan is validated, unless it is empty, and compiled again when it is
    rejected; the `answers` are those of the compiler. -/
def resolvePlan (compile : SchemaCompiler) (catalog : Catalog) (plan : Plan)
    (answers : List (Except String Plan)) : PlanOutcome :=
  if plan.plan.isEmpty then .empty
  else
    match validatePlan compile plan catalog with
    | .ok () => .valid plan
    | .error first => correctPlan compile catalog first (answers.take compileRetryLimit)

/-! ## Continuations -/

/-- Compile and execute rounds a single dispatch may use. -/
def maxPlanRounds : ℕ := 2

def continuationDepthThreshold : ℕ := 3

/-- Tool invocations a whole dispatch may execute, across every round. -/
def maxTotalSteps : ℕ := 12

/-- Time after which no further round starts. -/
def dispatchBudgetSecs : ℤ := 300

/-- Why a dispatch should plan another round. -/
def continuationReason (trace : List TraceEntry) (depth : ℕ) (elapsed : ℤ) : Option String :=
  if maxTotalSteps ≤ trace.length ∨ dispatchBudgetSecs ≤ elapsed then none
  else if trace.any (·.error.isSome) then some "a step failed"
  else if continuationDepthThreshold ≤ depth then
    some "plan is deep enough to suspect it stopped short"
  else none

/-- Identity of an invocation: who, what, and with exactly which values. -/
def invocationFingerprint (peerId capability : String) (args : Value) : String :=
  peerId ++ "::" ++ capability ++ "::" ++ String.ofList args.render

def executedInvocations (trace : List TraceEntry) : List String :=
  trace.map fun e => invocationFingerprint e.peerId e.capability e.args

/-- The continuation would only redo invocations that already ran. -/
def addsNothing (next : Plan) (trace : List TraceEntry) (catalog : Catalog) : Bool :=
  !trace.isEmpty && next.plan.all fun step =>
    (collectRefs step.args).isEmpty &&
      match catalog.find step.toolName with
      | none => false
      | some tool => decide (invocationFingerprint tool.peerId step.capability step.args ∈
          executedInvocations trace)

def suffixed (round : ℕ) (id : String) : String := id ++ s!"_r{round + 1}"

/-- The key of a step of a continuation: its id, with a suffix when the id is
    taken. -/
def roundKey (round : ℕ) (board : Blackboard) (id : String) : String :=
  if id ∈ board then suffixed round id else id

/-- The entries of the blackboard of a continuation are inserted, in the order
    they are enumerated. -/
def mergeRound (round : ℕ) (board : Blackboard) (entries : List (String × Value)) : Blackboard :=
  entries.foldl (fun board x => board.insert (roundKey round board x.1) x.2) board

/-- What the rounds so far have produced, and how many were compiled. -/
structure Rounds where
  run : PlanRun
  round : ℕ
  depth : ℕ
  used : ℕ

def Rounds.first (plan : Plan) (run : PlanRun) : Rounds := ⟨run, 1, planDepth plan, 1⟩

/-- The run of a continuation is merged into the run of the rounds before. -/
def Rounds.absorb (r : Rounds) (plan : Plan) (run : PlanRun) (entries : List (String × Value)) :
    Rounds where
  run := {
    blackboard := mergeRound r.round r.run.blackboard entries
    lastStepId := run.lastStepId.or r.run.lastStepId
    trace := r.run.trace ++ run.trace }
  round := r.round + 1
  depth := planDepth plan
  used := r.used

/-! ## The machine -/

inductive DispatchMode
  | auto
  | direct

structure DispatchOutcome where
  rounds : ℕ
  reply : String
  model : Option String
  trace : List TraceEntry

inductive DispatchError
  | persistUser (e : ConversationError)
  | compile (e : String)
  | journal (e : StorageError)
  | backend (e : String)
  | persistAssistant (e : ConversationError)

/-- A round in progress: the rounds before, its plan, and its execution. -/
structure Execution where
  startedAt : ℤ
  baseSeq : ℕ
  earlier : Option Rounds
  plan : Plan
  callId : ℕ → String
  state : ExecState

/-- The trace of the rounds before. -/
def Execution.earlierTrace (x : Execution) : List TraceEntry :=
  match x.earlier with
  | none => []
  | some r => r.run.trace

/-- What the rounds have produced, with the one in progress. -/
def Execution.finish (x : Execution) (run : PlanRun) (entries : List (String × Value)) : Rounds :=
  match x.earlier with
  | none => .first x.plan run
  | some r => r.absorb x.plan run entries

inductive Stage
  /-- The turn of the user is stored, the compiler works. -/
  | compiling
  /-- The same, when the reply is asked for directly. -/
  | chatting
  | executing (x : Execution)
  /-- A round is over: is there another one? -/
  | deciding (startedAt : ℤ) (baseSeq : ℕ) (rounds : Rounds)
  | reflecting (rounds : ℕ) (blackboard : Option Blackboard) (trace : List TraceEntry)
  | replied (outcome : DispatchOutcome)
  | failed (e : DispatchError)

structure DispatchState where
  db : Db
  catalog : Catalog
  /-- The conversation in memory. -/
  state : ConversationState
  stage : Stage
  /-- Why the database refused turns, if it did. -/
  refused : List ConversationError

/-- What the world outside answers, and when. A compiler answers with a plan,
    and to errors; call ids are generated; the entries of a blackboard are
    enumerated in any order. -/
inductive DispatchAction (ω : Type)
  | compiled (now : ℤ) (runId : String) (callId : ℕ → String) (plan : Except String Plan)
      (answers : List (Except String Plan))
  | act (a : Action ω)
  | finished (entries : List (String × Value))
  | continued (now : ℤ) (runId : String) (callId : ℕ → String) (plan : Except String Plan)
      (answers : List (Except String Plan))
  | composed (content model : Option String)
  | backendFailed (e : String)

/-- The executor with these call ids. -/
def Runtime.withCallId {ω : Type} (R : Runtime ω) (callId : ℕ → String) : Runtime ω :=
  { R with callId }

/-- The reply, with the references the composer wrote resolved. -/
def compose (blackboard : Option Blackboard) (raw : String) : String :=
  match blackboard with
  | none => raw
  | some bb =>
    match resolveValue (.string raw) bb with
    | .string s => s
    | _ => ""

/-- The peer of a trace entry, or this node when it is no instance id. -/
def peerOf (nodeId : String) (e : TraceEntry) : String :=
  match parseInstanceId e.peerId with
  | .ok id => id
  | .error _ => nodeId

/-- The call and the result of every entry are pushed. -/
def reconcile (nodeId : String) (state : ConversationState) (trace : List TraceEntry) :
    ConversationState :=
  trace.foldl (fun s e =>
    (s.pushToolCallWithId e.callId (peerOf nodeId e) e.capability e.args).pushToolResult
      e.callId (peerOf nodeId e) e.capability e.result e.error) state

/-- The plan of the next round, if the compiler has one which adds something. -/
def nextPlan (compile : SchemaCompiler) (catalog : Catalog) (trace : List TraceEntry)
    (plan : Except String Plan) (answers : List (Except String Plan)) : Option Plan :=
  match plan with
  | .error _ => none
  | .ok compiled =>
    match resolvePlan compile catalog compiled answers with
    | .valid next => if addsNothing next trace catalog then none else some next
    | _ => none

namespace DispatchState

variable {ω : Type} (R : Runtime ω) (nodeId : String)

/-- The turn of the user is pushed and stored. -/
def start (db : Db) (catalog : Catalog) (mode : DispatchMode) (state : ConversationState)
    (input : UserInput) : DispatchState :=
  match persistLast db (state.pushUserInput input) with
  | .error e => ⟨db, catalog, state.pushUserInput input, .failed (.persistUser e), [e]⟩
  | .ok db =>
    match mode with
    | .auto => ⟨db, catalog, state.pushUserInput input, .compiling, []⟩
    | .direct => ⟨db, catalog, state.pushUserInput input, .chatting, []⟩

variable (d : DispatchState)

/-- A plan starts, once it is journalled. -/
def execute (db : Db) (startedAt : ℤ) (baseSeq : ℕ) (earlier : Option Rounds) (plan : Plan)
    (callId : ℕ → String) : DispatchState :=
  { d with
    db
    stage := .executing {
      startedAt, baseSeq, earlier, plan, callId
      state := ExecState.initial (R.withCallId callId) d.catalog plan } }

/-- The first plan is compiled: an empty or an invalid one is answered directly.
    The block of the tool turns starts after the turn of the user. -/
def begin (now : ℤ) (runId : String) (callId : ℕ → String) (plan : Except String Plan)
    (answers : List (Except String Plan)) : DispatchState :=
  match plan with
  | .error e => { d with stage := .failed (.compile e) }
  | .ok compiled =>
    match resolvePlan R.compile d.catalog compiled answers with
    | .empty | .invalid _ => { d with stage := .reflecting 1 none [] }
    | .valid plan =>
      match d.db.insertPlanRun ⟨runId, d.state.id, plan⟩ with
      | .error e => { d with stage := .failed (.journal e) }
      | .ok db => d.execute R db now (d.state.nextSeq - 1) none plan callId

/-- The durability hook, which only logs an error. -/
def persist (baseSeq : ℕ) (x : ℕ × TraceEntry) : DispatchState :=
  match persistToolPairAt d.db d.state.id baseSeq x.1 x.2.callId (peerOf nodeId x.2)
      x.2.capability x.2.args x.2.result x.2.error with
  | .ok db => { d with db }
  | .error e => { d with refused := d.refused ++ [e] }

/-- The calls of the durability hook which led to the state `σ`: the indices of
    the steps of a continuation follow those of the rounds before. -/
def hooks (x : Execution) (σ : ExecState) : List (ℕ × TraceEntry) :=
  (σ.hooked.drop x.state.hooked.length).map fun y => (y.1 + x.earlierTrace.length, y.2)

/-- The execution made a step. -/
def advance (x : Execution) (σ : ExecState) : DispatchState :=
  { (hooks x σ).foldl (fun d y => d.persist nodeId x.baseSeq y) d with
    stage := .executing { x with state := σ } }

/-- A round is over when nothing is in flight any more. -/
def finishRound (x : Execution) (entries : List (String × Value)) : Option DispatchState :=
  let run := x.state.planRun x.plan
  if x.state.inFlight = [] ∧ Finmap.Enumerates entries run.blackboard then
    some { d with
      state := reconcile nodeId d.state run.trace
      stage := .deciding x.startedAt x.baseSeq (x.finish run entries) }
  else none

/-- There is a reason to go on. -/
def mayContinue (startedAt now : ℤ) (r : Rounds) : Bool :=
  r.round < maxPlanRounds && (continuationReason r.run.trace r.depth (now - startedAt)).isSome

/-- The plan of the next round, if there is a next round, journalled. -/
def continuation (startedAt : ℤ) (r : Rounds) (now : ℤ) (runId : String)
    (plan : Except String Plan) (answers : List (Except String Plan)) : Option (Plan × Db) :=
  if mayContinue startedAt now r then
    (nextPlan R.compile d.catalog r.run.trace plan answers).bind fun next =>
      ((d.db.insertPlanRun ⟨runId, d.state.id, next⟩).toOption).map fun db => (next, db)
  else none

/-- The next round starts, or the composer is asked for the reply. -/
def proceed (startedAt : ℤ) (baseSeq : ℕ) (r : Rounds) (now : ℤ) (runId : String)
    (callId : ℕ → String) (plan : Except String Plan) (answers : List (Except String Plan)) :
    DispatchState :=
  let used := if mayContinue startedAt now r then r.used + 1 else r.used
  match d.continuation R startedAt r now runId plan answers with
  | some (next, db) => d.execute R db startedAt baseSeq (some { r with used }) next callId
  | none => { d with stage := .reflecting used (some r.run.blackboard) r.run.trace }

/-- The reply is pushed and stored. -/
def reply (rounds : ℕ) (content : String) (model : Option String) (trace : List TraceEntry) :
    DispatchState :=
  match persistLast d.db (d.state.pushAssistant content model) with
  | .error e => { d with
    state := d.state.pushAssistant content model
    stage := .failed (.persistAssistant e)
    refused := d.refused ++ [e] }
  | .ok db => { d with
    db
    state := d.state.pushAssistant content model
    stage := .replied ⟨rounds, content, model, trace⟩ }

def step : DispatchAction ω → Option DispatchState
  | .compiled now runId callId plan answers =>
    match d.stage with
    | .compiling => some (d.begin R now runId callId plan answers)
    | _ => none
  | .act a =>
    match d.stage with
    | .executing x =>
      (x.state.step (R.withCallId x.callId) d.catalog x.plan a).map (d.advance nodeId x)
    | _ => none
  | .finished entries =>
    match d.stage with
    | .executing x => d.finishRound nodeId x entries
    | _ => none
  | .continued now runId callId plan answers =>
    match d.stage with
    | .deciding startedAt baseSeq r =>
      some (d.proceed R startedAt baseSeq r now runId callId plan answers)
    | _ => none
  | .composed content model =>
    match d.stage, content with
    | .reflecting rounds blackboard trace, content =>
      let raw := String.ofList (trim isWhitespace (content.getD "").toList)
      some (d.reply rounds (compose blackboard raw) model trace)
    | .chatting, some content => some (d.reply 1 content model [])
    | .chatting, none =>
      some { d with stage := .failed (.backend "LLM response missing message.content field") }
    | _, _ => none
  | .backendFailed e =>
    match d.stage with
    | .reflecting _ _ _ | .chatting => some { d with stage := .failed (.backend e) }
    | _ => none

end DispatchState

end N3ur0n
