import N3ur0n.Client
import N3ur0n.Planner.Safety

/-!
# Remote steps

A step whose tool has an endpoint is invoked there with a signed request
(`invokeStep`). The request is addressed to whoever answers at the endpoint
(see `sendSigned`), while the trace and the audit journal name the peer of the
catalogue.

* `remote_routed`: in any execution, the results recorded for remote steps are
  taken from replies signed by the peer they are attributed to exactly when the
  endpoints of the successful calls announced that peer;
* `stand_in_attributed`: otherwise, a result is attributed to a peer which did
  not sign it.
-/

namespace N3ur0n

/-- What the invocation of a step finds outside: the capabilities of this node,
    the network, and the transfers of the blobs in its arguments and its result
    (the hashes of the blobs fetched, or the error of a transfer). -/
structure StepWorld where
  localCall : String → Value → Except String Value
  upload : String → Value → Except String Unit
  exchange : String → Exchange
  fetched : String → Value → Except String (List String)

variable (C : Crypto) (W : Wire) (self : Caller)

/-- The payload of an invocation without a token. -/
def invocation (name : String) (args : Value) : Value :=
  .object [("args", args), ("capability", .string name)]

/-- The result in a reply. -/
def rawResult (reply : SignedMessage) : Value :=
  (reply.envelope.payload.get "result").getD reply.envelope.payload

/-- `fetch_output_blobs`. -/
def fetchOutputBlobs (o : StepWorld) (endpoint : String) (value : Value) : Except String Value :=
  (o.fetched endpoint value).map fun hashes =>
    hashes.foldl (fun v hash => v.stripFetchUrl hash) value

/-- The invocation of a step. -/
def invokeStep (o : StepWorld) (tool : ToolDef) (args : Value) : Except String Value :=
  match tool.peerEndpoint with
  | none => o.localCall tool.cap.name args
  | some endpoint => do
    o.upload endpoint args
    let reply ← (sendSigned C W self .invoke (invocation tool.cap.name args)
      (o.exchange endpoint)).mapError (·.text)
    fetchOutputBlobs o endpoint (rawResult reply)

/-- The runtime of a node. -/
def nodeRuntime (callId : ℕ → String) (compile : SchemaCompiler) : Runtime StepWorld where
  callId := callId
  compile := compile
  invoke := invokeStep C W self

inductive Direction
  | out
  | loc
  deriving DecidableEq

structure AuditEntry where
  direction : Direction
  peerId : String
  capability : String
  status : String
  deriving DecidableEq

/-- The journal entry of an invocation. -/
def journal (tool : ToolDef) (result : Except String Value) : AuditEntry where
  direction := if tool.peerEndpoint.isSome then .out else .loc
  peerId := tool.peerId
  capability := tool.cap.name
  status := if result.isOk then "ok" else "call_failed"

variable {C W self}

theorem invokeStep_remote {o : StepWorld} {tool : ToolDef} {args value : Value} {endpoint : String}
    (he : tool.peerEndpoint = some endpoint) :
    invokeStep C W self o tool args = .ok value ↔ o.upload endpoint args = .ok () ∧
      ∃ reply, sendSigned C W self .invoke (invocation tool.cap.name args) (o.exchange endpoint) =
        .ok reply ∧ fetchOutputBlobs o endpoint (rawResult reply) = .ok value := by
  simp only [invokeStep, he]
  refine Except.check_eq_ok.trans (and_congr_right fun _ => Except.bind_eq_ok.trans ?_)
  exact exists_congr fun reply => and_congr_left fun _ => Except.mapError_eq_ok

namespace ExecState

variable {callId : ℕ → String} {compile : SchemaCompiler} {catalog : Catalog} {p : Plan}

variable (catalog) in
/-- The step is invoked at `endpoint`, where `tool` is. -/
def RemoteAt (s : PlanStep) (tool : ToolDef) (endpoint : String) : Prop :=
  catalog.find s.toolName = some tool ∧ tool.peerEndpoint = some endpoint

variable (C W self catalog p) in
/-- A result recorded for a remote step is taken from a reply to its invocation,
    signed by the peer it is attributed to in the trace and the journal. -/
def Routed (as : List (Action StepWorld)) (σ : ExecState) : Prop :=
  ∀ s ∈ p.plan, ∀ tool endpoint, RemoteAt catalog s tool endpoint →
    ∀ entry value, σ.traceById.lookup s.id = some entry → entry.result = some value →
      (journal tool (.ok value)).peerId = entry.peerId ∧
        ∃ o reply, .returned s.id o ∈ as ∧
          sendSigned C W self .invoke (invocation tool.cap.name entry.args) (o.exchange endpoint) =
            .ok reply ∧
          fetchOutputBlobs o endpoint (rawResult reply) = .ok value ∧
          SignedBy C reply entry.peerId

variable (C W self catalog p) in
/-- The endpoints of the successful invocations announced the peer of the
    catalogue. -/
def Announced (as : List (Action StepWorld)) (σ : ExecState) : Prop :=
  ∀ s ∈ p.plan, ∀ tool endpoint, RemoteAt catalog s tool endpoint →
    ∀ entry o, σ.traceById.lookup s.id = some entry → .returned s.id o ∈ as →
      (invokeStep C W self o tool entry.args).isOk →
        discoverRecipient W (o.exchange endpoint).health = .ok tool.peerId

/-- In any execution of an accepted plan, the results of remote steps are those
    of the peers they are attributed to if and only if the endpoints of the
    successful invocations announced these peers. -/
theorem remote_routed (hv : validatePlan compile p catalog = .ok ())
    {as : List (Action StepWorld)} {σ : ExecState}
    (h : execute (nodeRuntime C W self callId compile) catalog p as = some σ) :
    Routed C W self catalog p as σ ↔ Announced C W self catalog p as σ := by
  have hI := inv_execute (Plan.valid_of_validatePlan hv).nodup h
  constructor
  · intro hr s hs tool endpoint hat entry o hent hret hok
    obtain ⟨value, hval⟩ : ∃ value, invokeStep C W self o tool entry.args = .ok value := by
      cases hi : invokeStep C W self o tool entry.args with
      | error e => simp [hi, Except.isOk, Except.toBool] at hok
      | ok value => exact ⟨value, rfl⟩
    obtain ⟨hpeer, hres⟩ := hI.result_of_returned hs hat.1 hent hret
    obtain ⟨-, o', reply, hret', hsend, -, hby⟩ :=
      hr s hs tool endpoint hat entry value hent (hres value hval)
    -- A step returns once: the reply is the one of this invocation, and it was
    -- checked against the announced peer.
    obtain rfl : o = o' := (Action.returned.inj (hI.completion_inj hret hret' rfl rfl)).2
    obtain ⟨recipient, -, hd, -, -, hacc⟩ := sendSigned_ok.1 hsend
    rw [hd, hacc.signed.1.symm.trans hby.1, hpeer]
  · intro ha s hs tool endpoint hat entry value hent hres
    obtain ⟨tool', o, htool, hpeer, hret, hval⟩ := hI.returned_of_result hs hent hres
    obtain rfl : tool' = tool := Option.some.inj (htool.symm.trans hat.1)
    obtain ⟨-, reply, hsend, hfetch⟩ := (invokeStep_remote hat.2).1 hval
    obtain ⟨recipient, -, hd, -, -, hacc⟩ := sendSigned_ok.1 hsend
    -- The reply is checked against the peer announced, which is that of the tool.
    have hann := ha s hs tool' endpoint hat entry o hent hret (by
      rw [show invokeStep C W self o tool' entry.args = .ok value from hval]; rfl)
    obtain rfl : recipient = tool'.peerId := Except.ok.inj (hd.symm.trans hann)
    exact ⟨hpeer.symm, o, reply, hret, hsend, hfetch, hpeer ▸ hacc.signed⟩

/-! ## A stand-in -/

/-- A capability of `n3:v`, called at its endpoint. -/
def toolOfV : ToolDef := ⟨"n3:v", some "http://v", ⟨"t", .object [], .object []⟩⟩

def callV : PlanStep := ⟨"s1", "v", "t", .object [], []⟩

/-- A reply of the instance `n3:x`, signed by it. -/
def resultOf (x : Char) : SignedMessage := toySigned (asciiBytes [x])
  ⟨String.ofList ['n', '3', ':', x], "n3:a", 0, "x", .invoke, .object [("result", .null)], none⟩

/-- All endpoints call themselves `id`, and answer with the first message. -/
def answeredBy (id : String) : StepWorld where
  localCall _ _ := .error "not local"
  upload _ _ := .ok ()
  exchange _ := toyExchange id 0
  fetched _ _ := .ok []

def callVRun (id : String) : List (Action StepWorld) :=
  [.start "s1", .returned "s1" (answeredBy id)]

def toyRuntime (reply : SignedMessage) : Runtime StepWorld :=
  nodeRuntime toyCrypto (toyWire [reply]) toyCaller (fun _ => "c") observing.compile

theorem find_callV : Catalog.find ⟨[toolOfV]⟩ callV.toolName = some toolOfV := by decide

theorem mem_callVRun {id : String} {o : StepWorld} (h : .returned "s1" o ∈ callVRun id) :
    o = answeredBy id := by
  simpa [callVRun] using h

/-- With `n3:v` at its endpoint, the result is its own. -/
theorem remote_routed_callV : ∃ σ,
    execute (toyRuntime (resultOf 'v')) ⟨[toolOfV]⟩ ⟨[callV]⟩ (callVRun "n3:v") = some σ ∧
      Routed toyCrypto (toyWire [resultOf 'v']) toyCaller ⟨[toolOfV]⟩ ⟨[callV]⟩
        (callVRun "n3:v") σ := by
  have hsome : (execute (toyRuntime (resultOf 'v')) ⟨[toolOfV]⟩ ⟨[callV]⟩
      (callVRun "n3:v")).isSome := by decide
  obtain ⟨σ, hσ⟩ := Option.isSome_iff_exists.1 hsome
  refine ⟨σ, hσ, (remote_routed (by decide) hσ).2 ?_⟩
  intro s hs tool endpoint hat entry o _ ho _
  obtain rfl : s = callV := List.mem_singleton.1 hs
  obtain rfl : toolOfV = tool := Option.some.inj (find_callV.symm.trans hat.1)
  rw [mem_callVRun ho]
  change discoverRecipient (toyWire [resultOf 'v']) (toyExchange "n3:v" 0).health = .ok "n3:v"
  decide

/-- With `n3:m` at the endpoint of `n3:v`, a result that `n3:m` signed is
    attributed to `n3:v`. -/
theorem stand_in_attributed :
    validatePlan observing.compile ⟨[callV]⟩ ⟨[toolOfV]⟩ = .ok () ∧
      SignedBy toyCrypto (resultOf 'm') "n3:m" ∧
      ∃ σ entry, execute (toyRuntime (resultOf 'm')) ⟨[toolOfV]⟩ ⟨[callV]⟩ (callVRun "n3:m") =
          some σ ∧
        σ.traceById.lookup "s1" = some entry ∧ entry.peerId = "n3:v" ∧
        entry.result = some .null ∧
        ¬Routed toyCrypto (toyWire [resultOf 'm']) toyCaller ⟨[toolOfV]⟩ ⟨[callV]⟩
          (callVRun "n3:m") σ := by
  have hend : (execute (toyRuntime (resultOf 'm')) ⟨[toolOfV]⟩ ⟨[callV]⟩ (callVRun "n3:m")).map
      (fun σ => (σ.traceById.lookup "s1").map fun e => (e.peerId, e.args, e.result)) =
        some (some ("n3:v", .object [], some .null)) := by decide
  obtain ⟨σ, hσ, hentry⟩ := Option.map_eq_some_iff.1 hend
  obtain ⟨entry, hent, he⟩ := Option.map_eq_some_iff.1 hentry
  obtain ⟨hpeer, hargs, hres⟩ : entry.peerId = "n3:v" ∧ entry.args = .object [] ∧
      entry.result = some .null := by simpa using he
  have hsend : sendSigned toyCrypto (toyWire [resultOf 'm']) toyCaller .invoke
      (invocation toolOfV.cap.name (.object [])) (toyExchange "n3:m" 0) = .ok (resultOf 'm') := by
    decide
  have hsender : (resultOf 'm').envelope.senderId = "n3:m" := by decide
  refine ⟨by decide, (signedBy_iff_sender hsend).2 hsender, σ, entry, hσ, hent, hpeer, hres,
    fun hr => ?_⟩
  obtain ⟨-, o, reply, ho, hs, -, hby⟩ := hr callV (List.mem_singleton.2 rfl) toolOfV "http://v"
    ⟨find_callV, rfl⟩ entry .null hent hres
  rw [mem_callVRun ho, hargs] at hs
  obtain rfl : resultOf 'm' = reply := Except.ok.inj (hsend.symm.trans hs)
  rw [signedBy_iff_sender hsend, hsender, hpeer] at hby
  exact absurd hby (by decide)

end ExecState

end N3ur0n
