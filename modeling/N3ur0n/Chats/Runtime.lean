import N3ur0n.Chats.Stored
import N3ur0n.Lib.Lru
import N3ur0n.Lib.Threads

/-!
# Runtimes

The messages of users come in over HTTP, any number of them at a time. The node
hands them to its planner *runtime*, which has a lock for every conversation, a
limited number of permits for dispatches, and a cache of conversations. A
request of a chat (`Chat`)

* takes the runtime there is when it comes in, and is read and checked
  (`prepareDispatch`);
* waits for the lock of its conversation, then for a permit, in this runtime;
* finds the state of the conversation in the cache, or loads it, and caches it;
* dispatches its message from this state. When the dispatch replied, its state
  is cached; when it failed, the conversation leaves the cache.

At any point in between, other requests go on, and the future of the request may
be dropped: what it holds is released. When the settings of the planner change,
a new runtime takes the place of the old one; it has locks and a cache of its
own, and the requests that took the old one go on with that.

`NodeRuntime.program` makes it a program of threads, each of them a chat.
-/

namespace N3ur0n

/-! ## The runtime -/

structure RuntimeConfig where
  maxConcurrentPlanners : ℕ
  maxActiveConversations : ℕ

/-- A conversation in the cache. How many of its turns were stored when it was
    put there, `stored`, is not in the source, and nothing below reads it. -/
structure Cached where
  state : ConversationState
  stored : ℕ

structure NodeRuntime where
  /-- Permits that are free. -/
  plannerSlots : ℕ
  /-- The locks of conversations that are held, and who holds them. -/
  convLocks : Table String ℕ
  cache : Lru String Cached

namespace NodeRuntime

def new (config : RuntimeConfig) : NodeRuntime where
  plannerSlots := max config.maxConcurrentPlanners 1
  convLocks := ∅
  cache := .new (max config.maxActiveConversations 1)

variable (rt : NodeRuntime)

def lock (id : String) (k : ℕ) : NodeRuntime := { rt with convLocks := rt.convLocks.insert id k }

def unlock (id : String) : NodeRuntime := { rt with convLocks := rt.convLocks.erase id }

def acquirePlannerSlot : NodeRuntime := { rt with plannerSlots := rt.plannerSlots - 1 }

/-- The permit and the lock are given back. -/
def release (id : String) : NodeRuntime :=
  { rt.unlock id with plannerSlots := rt.plannerSlots + 1 }

def evict (id : String) : NodeRuntime := { rt with cache := rt.cache.pop id }

end NodeRuntime

/-- The database, and the runtimes built so far, by their numbers: requests that
    come in take the runtime `current`. -/
structure AppState where
  db : Db
  runtimeConfig : RuntimeConfig
  runtimes : ℕ → NodeRuntime
  current : ℕ

namespace AppState

/-- The node starts. -/
def boot (config : RuntimeConfig) (db : Db) : AppState := ⟨db, config, fun _ => .new config, 0⟩

variable (S : AppState)

/-- Something happens to a runtime. -/
def onRuntime (g : ℕ) (f : NodeRuntime → NodeRuntime) : AppState :=
  { S with runtimes := Function.update S.runtimes g (f (S.runtimes g)) }

/-- A state is put in the cache of a runtime. -/
def storeInCache (g : ℕ) (s : ConversationState) : AppState :=
  S.onRuntime g fun rt => { rt with
    cache := rt.cache.put s.id ⟨s, (S.db.turnsOf s.id).length⟩ }

/-- A new runtime takes the place of the current one. -/
def hotReload : AppState :=
  { S.onRuntime (S.current + 1) fun _ => .new S.runtimeConfig with current := S.current + 1 }

end AppState

/-! ## Requests -/

/-- A message to a conversation. The catalogue is the one that the planner
    builds, and ranks, for this message. -/
structure ChatRequest where
  clientId : String
  conversationId : String
  message : String
  attachments : List UserAttachment
  mode : DispatchMode
  catalog : Catalog

def ChatRequest.input (q : ChatRequest) : UserInput :=
  ⟨String.ofList (Cut.trim isWhitespace q.message.toList), q.attachments⟩

inductive ChatError
  | conversation (e : ConversationError)
  /-- The planner refuses the message, before it stores the turn of the user. -/
  | refused (e : String)
  | dispatch (e : DispatchError)

inductive ChatResponse
  | badRequest (e : String)
  | notFound (e : String)
  | failed (e : ChatError)
  | replied (o : DispatchOutcome)

/-- What a request that holds the lock of its conversation is doing. -/
inductive ChatWork
  /-- It waits for a permit. -/
  | locked
  | loading
  /-- The state was loaded from the database, and is about to be cached. -/
  | loaded (s : ConversationState)
  /-- The state is about to be dispatched from. -/
  | ready (s : ConversationState)
  | running (d : DispatchState)

/-- The state of the conversation was taken, to dispatch from it. -/
def ChatWork.dispatches : ChatWork → Prop
  | .locked | .loading => False
  | .loaded _ | .ready _ | .running _ => True

/-- Where a request stands; from the second phase on, it has a runtime. -/
inductive ChatPhase
  | entered
  /-- Its body is being read. -/
  | preparing (g : ℕ)
  /-- It waits for the lock. -/
  | waiting (g : ℕ)
  | holding (g : ℕ) (w : ChatWork)

structure Chat where
  request : ChatRequest
  phase : ChatPhase

/-- What a request learns from outside. -/
inductive ChatEvent (ω : Type)
  /-- Nothing: it is its turn. -/
  | go
  | refused (e : String)
  | dispatch (a : DispatchAction ω)

/-- What happens around the requests. -/
inductive ChatEnv
  | hotReload
  /-- The conversation leaves the cache, as when it is renamed. -/
  | evict (g : ℕ) (id : String)
  | create (id clientId : String)

/-- What is checked before a message is dispatched. -/
def prepareDispatch (db : Db) (q : ChatRequest) : Except ChatResponse Unit :=
  if q.input.text = "" ∧ q.input.attachments = [] then
    .error (.badRequest "message and attachments are both empty")
  else
    match db.conversations.find? (·.id = q.conversationId) with
    | none => .error (.notFound "conversation not found")
    | some record =>
      if record.clientId ≠ q.clientId then .error (.notFound "conversation not found") else .ok ()

namespace Chat

variable {ω : Type} (R : Runtime ω) (nodeId : String) (S : AppState) (k : ℕ) (c : Chat)

/-- The request goes on in this phase. -/
def goesOn (S : AppState) (phase : ChatPhase) : Option (AppState × (Chat ⊕ ChatResponse)) :=
  some (S, .inl { c with phase })

/-- The request is over, and releases what it holds. -/
def ends (S : AppState) (g : ℕ) (r : ChatResponse) : Option (AppState × (Chat ⊕ ChatResponse)) :=
  some (S.onRuntime g (·.release c.request.conversationId), .inr r)

/-- The state of the conversation is looked up in the cache, or loaded. -/
def loadState (g : ℕ) : Option (AppState × (Chat ⊕ ChatResponse)) :=
  let (found, cache) := (S.runtimes g).cache.get c.request.conversationId
  let S := S.onRuntime g fun rt => { rt with cache }
  match found with
  | some e =>
    if e.state.clientId ≠ c.request.clientId then
      c.ends S g (.failed (.conversation .ownershipMismatch))
    else c.goesOn S (.holding g (.ready e.state))
  | none =>
    match load S.db c.request.conversationId c.request.clientId with
    | .error e => c.ends S g (.failed (.conversation e))
    | .ok s => c.goesOn S (.holding g (.loaded s))

/-- The dispatch returned: it leaves the cache in step with the database. -/
def returned (g : ℕ) (d : DispatchState) : Option (AppState × (Chat ⊕ ChatResponse)) :=
  match d.stage with
  | .replied o => c.ends (S.storeInCache g d.state) g (.replied o)
  | .failed e =>
    c.ends (S.onRuntime g (·.evict c.request.conversationId)) g (.failed (.dispatch e))
  | _ => none

/-- The next step of a request. -/
def step (e : ChatEvent ω) : Option (AppState × (Chat ⊕ ChatResponse)) :=
  let q := c.request
  match c.phase, e with
  | .entered, .go => c.goesOn S (.preparing S.current)
  | .preparing g, .go =>
    match prepareDispatch S.db q with
    | .error r => some (S, .inr r)
    | .ok () => c.goesOn S (.waiting g)
  | .waiting g, .go =>
    if q.conversationId ∈ (S.runtimes g).convLocks then none
    else c.goesOn (S.onRuntime g (·.lock q.conversationId k)) (.holding g .locked)
  | .holding g .locked, .go =>
    if (S.runtimes g).plannerSlots = 0 then none
    else c.goesOn (S.onRuntime g (·.acquirePlannerSlot)) (.holding g .loading)
  | .holding g .loading, .go => c.loadState S g
  | .holding g (.loaded s), .go => c.goesOn (S.storeInCache g s) (.holding g (.ready s))
  | .holding g (.ready s), .go =>
    let d := DispatchState.start S.db q.catalog q.mode s q.input
    c.goesOn { S with db := d.db } (.holding g (.running d))
  | .holding g (.ready _), .refused e =>
    match q.mode with
    | .auto => c.ends (S.onRuntime g (·.evict q.conversationId)) g (.failed (.refused e))
    | .direct => none
  | .holding g (.running d), .dispatch a =>
    -- The database is the one that all the requests share.
    (({ d with db := S.db } : DispatchState).step R nodeId a).bind fun d =>
      c.goesOn { S with db := d.db } (.holding g (.running d))
  | .holding g (.running d), .go => c.returned S g d
  | _, _ => none

/-- The future of the request is dropped. -/
def abort : Option AppState :=
  match c.phase with
  | .entered | .preparing _ | .waiting _ => some S
  | .holding g .locked => some (S.onRuntime g (·.unlock c.request.conversationId))
  | .holding g _ => some (S.onRuntime g (·.release c.request.conversationId))

end Chat

/-- What happens around the requests. -/
def AppState.env (S : AppState) : ChatEnv → Option AppState
  | .hotReload => some S.hotReload
  | .evict g id => some (S.onRuntime g (·.evict id))
  | .create id clientId =>
    match create S.db id clientId with
    | .ok (db, _) => some { S with db }
    | .error _ => none

/-- The requests of chats, as threads on the state of the node. -/
def NodeRuntime.program {ω : Type} (R : Runtime ω) (nodeId : String) :
    Program AppState ChatRequest Chat (ChatEvent ω) ChatResponse ChatEnv where
  enter q := ⟨q, .entered⟩
  step S k c e := c.step R nodeId S k e
  abort S _ c := c.abort S
  env := AppState.env

/-- A message is dispatched to a conversation of its client. -/
theorem owned_of_prepareDispatch {db : Db} {q : ChatRequest} (h : prepareDispatch db q = .ok ()) :
    db.Owned q.conversationId q.clientId := by
  rw [prepareDispatch] at h
  split_ifs at h
  split at h
  · cases h
  · rename_i record hfind
    split_ifs at h with hclient
    exact ⟨record, hfind, not_not.1 hclient⟩

/-! ## What a step does -/

namespace AppState

variable (S : AppState) (g : ℕ) (f : NodeRuntime → NodeRuntime)

@[simp] theorem onRuntime_runtimes (g' : ℕ) : (S.onRuntime g f).runtimes g' =
    if g' = g then f (S.runtimes g) else S.runtimes g' := by
  simp only [onRuntime, Function.update_apply]

@[simp] theorem hotReload_runtimes : S.hotReload.runtimes g =
    if g = S.current + 1 then .new S.runtimeConfig else S.runtimes g := by
  simp only [hotReload, onRuntime, Function.update_apply]

@[simp] theorem storeInCache_db (s : ConversationState) : (S.storeInCache g s).db = S.db := rfl

end AppState

namespace Chat

variable {ω : Type} (R : Runtime ω) (nodeId : String) (S : AppState) (k : ℕ) (c : Chat)

/-- The steps of a request. -/
inductive Moves : AppState → Chat ⊕ ChatResponse → Prop
  | enter (hc : c.phase = .entered) : Moves S (.inl { c with phase := .preparing S.current })
  | reject {g : ℕ} (r : ChatResponse) (hc : c.phase = .preparing g) : Moves S (.inr r)
  | prepare {g : ℕ} (hc : c.phase = .preparing g)
      (howned : S.db.Owned c.request.conversationId c.request.clientId) :
      Moves S (.inl { c with phase := .waiting g })
  | lock {g : ℕ} (hc : c.phase = .waiting g)
      (hfree : c.request.conversationId ∉ (S.runtimes g).convLocks) :
      Moves (S.onRuntime g (·.lock c.request.conversationId k))
        (.inl { c with phase := .holding g .locked })
  | permit {g : ℕ} (hc : c.phase = .holding g .locked) :
      Moves (S.onRuntime g (·.acquirePlannerSlot)) (.inl { c with phase := .holding g .loading })
  | hit {g : ℕ} {e : Cached} (hc : c.phase = .holding g .loading)
      (he : (S.runtimes g).cache.lookup c.request.conversationId = some e)
      (hclient : e.state.clientId = c.request.clientId) :
      Moves (S.onRuntime g fun rt =>
        { rt with cache := ((S.runtimes g).cache.get c.request.conversationId).2 })
        (.inl { c with phase := .holding g (.ready e.state) })
  | miss {g : ℕ} {s : ConversationState} (hc : c.phase = .holding g .loading)
      (he : (S.runtimes g).cache.lookup c.request.conversationId = none)
      (hs : load S.db c.request.conversationId c.request.clientId = .ok s) :
      Moves (S.onRuntime g fun rt =>
        { rt with cache := ((S.runtimes g).cache.get c.request.conversationId).2 })
        (.inl { c with phase := .holding g (.loaded s) })
  | unavailable {g : ℕ} (r : ChatResponse) (hc : c.phase = .holding g .loading)
      (hwhy : match (S.runtimes g).cache.lookup c.request.conversationId with
        | some e => e.state.clientId ≠ c.request.clientId
        | none => ∀ s, load S.db c.request.conversationId c.request.clientId ≠ .ok s) :
      Moves ((S.onRuntime g fun rt =>
        { rt with cache := ((S.runtimes g).cache.get c.request.conversationId).2 }).onRuntime g
          (·.release c.request.conversationId)) (.inr r)
  | cache {g : ℕ} {s : ConversationState} (hc : c.phase = .holding g (.loaded s)) :
      Moves (S.storeInCache g s) (.inl { c with phase := .holding g (.ready s) })
  | start {g : ℕ} {s : ConversationState} {d : DispatchState}
      (hc : c.phase = .holding g (.ready s))
      (hd : d = .start S.db c.request.catalog c.request.mode s c.request.input) :
      Moves { S with db := d.db } (.inl { c with phase := .holding g (.running d) })
  | act {g : ℕ} {d d' : DispatchState} {a : DispatchAction ω}
      (hc : c.phase = .holding g (.running d))
      (hd : ({ d with db := S.db } : DispatchState).step R nodeId a = some d') :
      Moves { S with db := d'.db } (.inl { c with phase := .holding g (.running d') })
  | reply {g : ℕ} {d : DispatchState} {o : DispatchOutcome}
      (hc : c.phase = .holding g (.running d)) (ho : d.stage = .replied o) :
      Moves ((S.storeInCache g d.state).onRuntime g (·.release c.request.conversationId))
        (.inr (.replied o))
  | fail {g : ℕ} {w : ChatWork} (r : ChatResponse) (hc : c.phase = .holding g w)
      (hw : w.dispatches) :
      Moves ((S.onRuntime g (·.evict c.request.conversationId)).onRuntime g
        (·.release c.request.conversationId)) (.inr r)

variable {R nodeId S k c} {S' : AppState} {o : Chat ⊕ ChatResponse}

theorem goesOn_eq_some {phase : ChatPhase} (h : c.goesOn S phase = some (S', o)) :
    S' = S ∧ o = .inl { c with phase } := by
  obtain ⟨rfl, rfl⟩ := Prod.mk.inj (Option.some.inj h)
  exact ⟨rfl, rfl⟩

theorem ends_eq_some {g : ℕ} {r : ChatResponse} (h : c.ends S g r = some (S', o)) :
    S' = S.onRuntime g (·.release c.request.conversationId) ∧ o = .inr r := by
  obtain ⟨rfl, rfl⟩ := Prod.mk.inj (Option.some.inj h)
  exact ⟨rfl, rfl⟩

theorem loadState_moves {g : ℕ} (hc : c.phase = .holding g .loading)
    (h : c.loadState S g = some (S', o)) : c.Moves R nodeId S k S' o := by
  rw [loadState] at h
  have hfst := Lru.get_fst (t := (S.runtimes g).cache) (k := c.request.conversationId)
  cases hget : (S.runtimes g).cache.get c.request.conversationId with
  | mk found cache =>
    have hcache : cache = ((S.runtimes g).cache.get c.request.conversationId).2 := by rw [hget]
    rw [hget] at hfst
    simp only [hget] at h
    subst hcache
    cases found with
    | some e =>
      simp only at h
      split_ifs at h with hclient
      · obtain ⟨rfl, rfl⟩ := ends_eq_some h
        exact .unavailable _ hc (by rw [← hfst]; exact hclient)
      · obtain ⟨rfl, rfl⟩ := goesOn_eq_some h
        exact .hit hc hfst.symm (not_not.1 hclient)
    | none =>
      simp only at h
      split at h
      · rename_i hs
        obtain ⟨rfl, rfl⟩ := ends_eq_some h
        exact .unavailable _ hc (by rw [← hfst]; exact fun s he => by cases hs.symm.trans he)
      · rename_i hs
        obtain ⟨rfl, rfl⟩ := goesOn_eq_some h
        exact .miss hc hfst.symm hs

theorem returned_moves {g : ℕ} {d : DispatchState} (hc : c.phase = .holding g (.running d))
    (h : c.returned S g d = some (S', o)) : c.Moves R nodeId S k S' o := by
  rw [returned] at h
  split at h
  · rename_i ho
    obtain ⟨rfl, rfl⟩ := ends_eq_some h
    exact .reply hc ho
  · obtain ⟨rfl, rfl⟩ := ends_eq_some h
    exact .fail _ hc trivial
  · exact absurd h (Option.some_ne_none _).symm

/-- What the next step of a request does. -/
theorem step_moves {e : ChatEvent ω} (h : c.step R nodeId S k e = some (S', o)) :
    c.Moves R nodeId S k S' o := by
  simp only [step] at h
  split at h
  -- one case a phase, in the order in which a request goes through them
  · rename_i hc
    obtain ⟨rfl, rfl⟩ := goesOn_eq_some h
    exact .enter hc
  · rename_i hc
    split at h
    · obtain ⟨rfl, rfl⟩ := Prod.mk.inj (Option.some.inj h)
      exact .reject _ hc
    · rename_i hprep
      obtain ⟨rfl, rfl⟩ := goesOn_eq_some h
      exact .prepare hc (owned_of_prepareDispatch hprep)
  · rename_i hc
    obtain ⟨hfree, h⟩ := Option.ite_none_left_eq_some.1 h
    obtain ⟨rfl, rfl⟩ := goesOn_eq_some h
    exact .lock hc hfree
  · rename_i hc
    obtain ⟨-, h⟩ := Option.ite_none_left_eq_some.1 h
    obtain ⟨rfl, rfl⟩ := goesOn_eq_some h
    exact .permit hc
  · rename_i hc
    exact loadState_moves hc h
  · rename_i hc
    obtain ⟨rfl, rfl⟩ := goesOn_eq_some h
    exact .cache hc
  · rename_i hc
    obtain ⟨rfl, rfl⟩ := goesOn_eq_some h
    exact .start hc rfl
  · rename_i hc
    split at h
    · obtain ⟨rfl, rfl⟩ := ends_eq_some h
      exact .fail _ hc trivial
    · exact absurd h (Option.some_ne_none _).symm
  · rename_i hc
    obtain ⟨d', hd, h⟩ := Option.bind_eq_some_iff.1 h
    obtain ⟨rfl, rfl⟩ := goesOn_eq_some h
    exact .act hc hd
  · rename_i hc
    exact returned_moves hc h
  · exact absurd h (Option.some_ne_none _).symm

end Chat

end N3ur0n
