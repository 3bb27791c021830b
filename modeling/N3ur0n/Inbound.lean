import N3ur0n.Blobs.Outputs
import N3ur0n.Bootstrap
import N3ur0n.Manifests.Registry

/-!
# Inbound requests

What a node answers to its peers: to their messages, once they are verified and
their nonces inserted, and to their requests for blobs. The registry is looked
up in three places, to describe the node, to invoke a capability, and when a
blob is put for one. The storage calls of a message are taken to succeed; the code
answers all the same when nonces could not be pruned, or a caller not be filed.

* `private_hidden`: with two registries that differ only in their private
  capabilities, the node does the same, and answers the same except to puts for
  a capability which one of them has and the other has not.
-/

namespace N3ur0n

structure InvokeRequest where
  capability : String
  args : Value
  subscriptionToken : Option String

structure GetKnownPeersRequest where
  limit : ℕ
  capability : Option String

/-- `DescribeSelfResponse`, as it is sent. -/
structure SelfDescriptor where
  instanceId : String
  endpoint : Option String
  aliasName : Option String
  protocolVersion : String
  updatedAt : String
  lobeIds : List String
  capabilities : List CapabilityDescriptor

/-- An error of a handler; that of an adapter stands for all that are internal. -/
inductive HandlerError
  | node (e : NodeError)
  | unknownCapability (capability : String)
  | adapter (message : String)
  deriving DecidableEq

namespace HandlerError

def text : HandlerError → String
  | .node e => e.text
  | .unknownCapability capability => s!"capability not found: {capability}"
  | .adapter message => message

/-- The status, and the kind of the error. -/
def status : HandlerError → ℕ × String
  | .node .replay => (409, "replay")
  | .node (.invalidPayload _) => (400, "invalid_payload")
  | .node (.core .signatureInvalid) => (401, "signature")
  | .node (.core (.recipientMismatch ..)) => (400, "recipient_mismatch")
  | .node (.core .timestampOutOfWindow) => (400, "timestamp_out_of_window")
  | .node (.core _) => (400, "bad_request")
  | .unknownCapability _ => (404, "unknown_capability")
  | .adapter _ => (500, "internal")

end HandlerError

/-- The JSON forms of requests and of descriptors. -/
structure InboundCodec where
  invoke : Value → Except String InvokeRequest
  knownPeers : Value → Except String GetKnownPeersRequest
  /-- A descriptor from the cache. -/
  cached : String → Option SelfDescriptor
  descriptor : SelfDescriptor → Value

/-- The node, as its peers reach it. -/
structure InboundNode where
  receiver : Receiver
  secret : Bytes
  endpoint : Option String
  aliasName : Option String
  lobes : List String
  codec : InboundCodec
  rfc3339 : ℤ → Except String String
  fromUnixTimestamp : ℤ → Option DateTime
  decodeTicketWire : String → Except String SignedMessage
  payloadError : Value → String
  isHeaderValue : String → Bool
  blobsRoot : Option String
  blobsDir : Option String

/-- What a message finds outside: the order in which the hash map of the registry is
    iterated, that of the rows of the peers, what an invocation gives, and a random
    nonce. -/
structure Outside where
  decls : List CapabilityDescriptor
  rows : List (String × PeerRecord)
  run : Option Binding → String → Value → Except HandlerError Value
  nonce : String

structure InboundState where
  blobs : BlobPool
  peers : Directory

inductive InboundReply
  | message (msg : SignedMessage)
  | error (status : ℕ × String) (message : String)
  | blob (r : BlobResponse)
  deriving DecidableEq

/-- `peers::list`, the rows being read in some order. -/
def listPeers (rows : List (String × PeerRecord)) (limit : ℕ) : List PeerRecord :=
  let le (p q : PeerRecord) : Prop := match p.lastSeen, q.lastSeen with
    | some a, some b => b ≤ a
    | _, none => True
    | none, some _ => False
  have : DecidableRel le := fun p q => by
    unfold le
    split <;> infer_instance
  ((rows.map Prod.snd).insertionSort le).take limit

/-- The fields of a value are in the order of their names. -/
def PeerSummary.toValue (p : PeerSummary) : Value :=
  .object ((p.aliasName.map fun a => ("alias", .string a)).toList ++
    (p.endpoint.map fun e => ("endpoint", .string e)).toList ++
    [("instance_id", .string p.instanceId)])

namespace InboundNode

variable (N : InboundNode) (R : CapabilityRegistry)

/-- The node as the routes of blobs know it. -/
def blobNode : BlobNode where
  receiver := N.receiver
  decodeTicketWire := N.decodeTicketWire
  payloadError := N.payloadError
  registry name := (R.get name).map (·.decl.mode)
  isHeaderValue := N.isHeaderValue
  blobsRoot := N.blobsRoot

def invoker : Invoker := ⟨N.receiver.crypto, N.blobsDir, N.receiver.id, N.fromUnixTimestamp⟩

def invalid (message : String) : HandlerError := .node (.invalidPayload message)

def describeSelf (now : ℤ) (decls : List CapabilityDescriptor) : Except HandlerError Value := do
  let updatedAt ← (N.rfc3339 now).mapError invalid
  .ok (N.codec.descriptor {
    instanceId := N.receiver.id
    endpoint := N.endpoint
    aliasName := N.aliasName
    protocolVersion := protocolVersion
    updatedAt := updatedAt
    lobeIds := N.lobes
    capabilities := decls })

def ping (now : ℤ) : Except HandlerError Value := do
  let serverTime ← (N.rfc3339 now).mapError invalid
  .ok (.object [("server_time", .string serverTime)])

/-- Whether the cached descriptor of a peer has a public capability of this name. -/
def hasCapability (p : PeerRecord) (want : String) : Bool :=
  ((p.describeSelfCached.bind N.codec.cached).map fun d =>
    d.capabilities.any fun c => c.name = want && c.mode.isPublic).getD false

/-- The rows that are told of to a peer which asks for them. -/
def summaries (rows : List (String × PeerRecord)) (req : GetKnownPeersRequest) : List PeerSummary :=
  (listPeers rows (min req.limit 1000)).filterMap fun p =>
    match parseInstanceId p.id with
    | .error _ => none
    | .ok id =>
      if req.capability.all (N.hasCapability p) then some ⟨id, some p.endpoint, p.aliasName⟩
      else none

def getKnownPeers (rows : List (String × PeerRecord)) (payload : Value) :
    Except HandlerError Value := do
  let req ← (N.codec.knownPeers payload).mapError fun e => invalid s!"get_known_peers: {e}"
  .ok (.object [("peers", .array ((N.summaries rows req).map PeerSummary.toValue))])

/-- The blobs in the arguments of an invocation have been put. -/
def checkBlobs (store : BlobStore) (args : Value) : Except HandlerError Unit :=
  args.collectBlobRefs.forM fun br =>
    Except.reject (N.invoker.readLocalBytes store br.hash = none) (invalid
      s!"blob {br.hash} was not uploaded to this instance (PUT /n3ur0n/v0/blobs first)")

/-- What an invocation goes on with, once its capability is found. -/
def runEntry (store : BlobStore)
    (run : Option Binding → String → Value → Except HandlerError Value)
    (req : InvokeRequest) (e : RegistryEntry) : Except HandlerError Value := do
  Except.reject (e.decl.mode = .restricted ∧ req.subscriptionToken = none) (invalid
    s!"capability {req.capability} is restricted; subscription_token required")
  N.checkBlobs store req.args
  let result ← run e.binding req.capability req.args
  .ok (.object [("result", result)])

def invoke (store : BlobStore)
    (run : Option Binding → String → Value → Except HandlerError Value) (payload : Value) :
    Except HandlerError Value := do
  let req ← (N.codec.invoke payload).mapError fun e => invalid s!"invoke: {e}"
  let e ← (R.get req.capability).elim (.error (.unknownCapability req.capability)) .ok
  -- Private capabilities are local.
  Except.reject (e.decl.mode = .private) (.unknownCapability req.capability)
  N.runEntry store run req e

/-- The payload of the answer to a verified message; undefined unless the orders are
    those of the tables. -/
def dispatch (σ : InboundState) (msg : SignedMessage) (x : Outside) :
    Option (Except HandlerError Value) :=
  match msg.envelope.verb with
  | .describeSelf => if x.decls.Perm R.publicDecls then
      some (N.describeSelf σ.blobs.shared.clock x.decls) else none
  | .ping => some (N.ping σ.blobs.shared.clock)
  | .getKnownPeers => if Finmap.Enumerates x.rows σ.peers then
      some (N.getKnownPeers x.rows msg.envelope.payload) else none
  | .invoke => some (N.invoke R σ.blobs.shared.store x.run msg.envelope.payload)
  | .blobTicket => some (.error (invalid
      "blob_ticket is not accepted on /messages; use /n3ur0n/v0/blobs"))

/-- The row of a caller that announces where it is. -/
def announced (σ : InboundState) (env : Envelope) : Directory :=
  match env.senderEndpoint with
  | none => σ.peers
  | some endpoint =>
    if env.senderId = N.receiver.id ∨ endpoint = "" then σ.peers
    else σ.peers.upsert ⟨env.senderId, endpoint, none, some σ.blobs.shared.now, none, none, none,
      some "reverse_announce"⟩

def replyTo (σ : InboundState) (env : Envelope) (nonce : String) (payload : Value) :
    Except HandlerError SignedMessage :=
  (N.receiver.crypto.signEnvelope {
    senderId := N.receiver.id
    recipientId := env.senderId
    timestamp := σ.blobs.shared.clock
    nonce := nonce
    verb := env.verb
    payload := payload
    senderEndpoint := N.endpoint } N.secret).mapError fun e => .node (.core e)

def reply : Except HandlerError SignedMessage → InboundReply
  | .ok msg => .message msg
  | .error e => .error e.status e.text

/-- `handle_request`. -/
def handleRequest (σ : InboundState) (msg : SignedMessage) (x : Outside) :
    Option (InboundState × InboundReply) :=
  let shared := σ.blobs.shared
  match admitMessage N.receiver shared.nonces msg shared.clock with
  | .error e => some (σ, reply (.error (.node e)))
  | .ok nonces =>
    let pruned := NonceRow.pruneOlderThan nonces (shared.now - nonceTtlSeconds)
    let σ' := { σ with blobs := { σ.blobs with shared := { shared with nonces := pruned } } }
    (N.dispatch R σ' msg x).map fun
      | .error e => (σ', reply (.error e))
      | .ok payload => ({ σ' with peers := N.announced σ' msg.envelope },
          reply (N.replyTo σ' msg.envelope x.nonce payload))

end InboundNode

/-- A message, an action of the requests for blobs, or another change of the
    directory. -/
inductive InboundAction
  | message (msg : SignedMessage) (x : Outside)
  | blob (a : BlobAction)
  | peers (d : Directory)

namespace InboundNode

variable (N : InboundNode) (R : CapabilityRegistry)

/-- The answer to a request for a blob, if a step ends it. -/
def blobReply (t : BlobPool) : BlobAction → Option InboundReply
  | .act k _ => (t.threads.lookup k).bind fun phase =>
    (((N.blobNode R).step t.shared phase).2.getRight?).map .blob
  | _ => none

/-- What an action does, and what it answers. -/
def handle (σ : InboundState) : InboundAction → Option (InboundState × Option InboundReply)
  | .message msg x => (N.handleRequest R σ msg x).map fun (σ', r) => (σ', some r)
  | .blob a => ((N.blobNode R).program.poolStep σ.blobs a).map fun t =>
    ({ σ with blobs := t }, N.blobReply R σ.blobs a)
  | .peers d => some ({ σ with peers := d }, none)

def step (σ : InboundState) (a : InboundAction) : Option InboundState :=
  (N.handle R σ a).map Prod.fst

def response (σ : InboundState) (a : InboundAction) : Option InboundReply :=
  (N.handle R σ a).bind Prod.snd

end InboundNode

/-! ## Private capabilities -/

namespace CapabilityRegistry

/-- The entry under a name, if the peers may see it. -/
def getPublic (R : CapabilityRegistry) (name : String) : Option RegistryEntry :=
  (R.get name).filter (·.decl.mode.isPublic)

/-- The registries only differ in their private capabilities. -/
def SamePublic (R R' : CapabilityRegistry) : Prop := ∀ name, R.getPublic name = R'.getPublic name

variable {R R' : CapabilityRegistry}

theorem mem_publicEntries {e : RegistryEntry} :
    e ∈ R.entries.filter (·.decl.mode.isPublic) ↔ R.getPublic e.name = some e := by
  rw [List.mem_filter, getPublic, Option.filter_eq_some_iff, get_eq_some, and_iff_left rfl]

theorem SamePublic.publicDecls (h : R.SamePublic R') : R.publicDecls.Perm R'.publicDecls := by
  refine List.Perm.map _ ((List.perm_ext_iff_of_nodup ?_ ?_).2 fun e => ?_)
  · exact R.names_nodup.of_map.filter _
  · exact R'.names_nodup.of_map.filter _
  · rw [mem_publicEntries, mem_publicEntries, h]

/-- A capability that is not public is like one that is not registered. -/
theorem public_or_error {ε α : Type} (name : String) (error : ε) (k : RegistryEntry → Except ε α) :
    (do
      let e ← (R.get name).elim (.error error) .ok
      Except.reject (e.decl.mode = .private) error
      k e) = (R.getPublic name).elim (.error error) k := by
  rw [getPublic]
  cases R.get name with
  | none => rfl
  | some e =>
    rw [Option.filter_some]
    cases hmode : e.decl.mode with
    | «private» => simp [Except.reject, hmode, AccessMode.isPublic, bind, Except.bind]
    | free => simp [Except.reject, hmode, AccessMode.isPublic, bind, Except.bind]
    | restricted => simp [Except.reject, hmode, AccessMode.isPublic, bind, Except.bind]

end CapabilityRegistry

namespace InboundNode

variable {N : InboundNode} {R R' : CapabilityRegistry}

theorem invoke_eq (h : R.SamePublic R') : N.invoke R = N.invoke R' := by
  funext store run payload
  rw [invoke, invoke]
  refine congrArg (Except.bind _) (funext fun req => ?_)
  exact (CapabilityRegistry.public_or_error _ _ _).trans
    ((congrArg (fun o : Option RegistryEntry => o.elim _ _) (h req.capability)).trans
      (CapabilityRegistry.public_or_error _ _ _).symm)

theorem handleRequest_eq (h : R.SamePublic R') : N.handleRequest R = N.handleRequest R' := by
  have hdispatch : N.dispatch R = N.dispatch R' := by
    funext σ msg x
    rw [dispatch, dispatch, invoke_eq h]
    simp only [h.publicDecls.congr_right]
  funext σ msg x
  rw [handleRequest, handleRequest, hdispatch]

/-! ## Blobs that are put -/

/-- The capability whose access mode a put has to check, if its ticket is accepted and
    says what it has to say. -/
def putCapability (N : InboundNode) (σ : BlobState) (hash : String) (header : Option String) :
    Option String := do
  let _ ← N.blobsRoot
  let _ ← (validateHash hash).toOption
  let (_, ticket) ←
    (verifyTicket (N.blobNode .empty) σ.nonces header .put hash σ.clock).2.toOption
  let cap ← ticket.capability
  let _ ← ticket.size
  let _ ← ticket.mime
  return cap

/-- The put goes on with a job, if the access mode of some capability allows it, or
    else it is refused without having looked one up. -/
theorem arrive_put (N : InboundNode) (σ : BlobState) (hash : String) (header : Option String)
    (body : Bytes) :
    (∃ cap σ' job, N.putCapability σ hash header = some cap ∧
      ∀ R, (N.blobNode R).arrive σ (.put hash header body) =
        (σ', answer (((N.blobNode R).capAllowsUpload cap).map fun _ => .putLookup job))) ∨
    (N.putCapability σ hash header = none ∧ ∃ σ' e, ∀ R,
      (N.blobNode R).arrive σ (.put hash header body) = (σ', .inr (.error e))) := by
  have hticket (R : CapabilityRegistry) :
      verifyTicket (N.blobNode R) = verifyTicket (N.blobNode .empty) := rfl
  have hroot (R : CapabilityRegistry) : (N.blobNode R).blobsRoot = N.blobsRoot := rfl
  simp only [putCapability, BlobNode.arrive, BlobNode.accept, hticket, hroot]
  cases N.blobsRoot with
  | none => exact .inr ⟨rfl, σ, _, fun _ => rfl⟩
  | some root =>
    cases validateHash hash with
    | error e => exact .inr ⟨rfl, σ, _, fun _ => rfl⟩
    | ok _ =>
      rcases verifyTicket (N.blobNode .empty) σ.nonces header .put hash σ.clock with
        ⟨nonces, e | ⟨signed, ticket⟩⟩
      · exact .inr ⟨rfl, _, _, fun _ => rfl⟩
      -- The ticket is accepted: what it says is looked at in turn.
      cases hcap : ticket.capability with
      | none =>
        refine .inr ⟨?_, { σ with nonces := nonces }, .error 400 "ticket missing capability",
          fun R => ?_⟩
        · simp [Except.toOption, hcap]
        · simp only [BlobNode.putJob, hcap]
          rfl
      | some cap =>
        cases hsize : ticket.size with
        | none =>
          refine .inr ⟨?_, { σ with nonces := nonces }, .error 400 "ticket missing size",
            fun R => ?_⟩
          · simp [Except.toOption, hsize]
          · simp only [BlobNode.putJob, hcap, hsize]
            rfl
        | some size =>
          cases hmime : ticket.mime with
          | none =>
            refine .inr ⟨?_, { σ with nonces := nonces }, .error 400 "ticket missing mime",
              fun R => ?_⟩
            · simp [Except.toOption, hmime]
            · simp only [BlobNode.putJob, hcap, hsize, hmime]
              rfl
          | some mime =>
            refine .inl ⟨cap, { σ with nonces := nonces },
              ⟨root, hash, body, size, mime, ticket, signed.envelope.senderId⟩, ?_, fun R => ?_⟩
            · simp [Except.toOption, hcap, hsize, hmime]
            · simp only [BlobNode.putJob, hcap, hsize, hmime]
              change (_, answer (((N.blobNode R).capAllowsUpload cap >>= fun _ => .ok _).map _)) = _
              cases (N.blobNode R).capAllowsUpload cap with
              | error e => rfl
              | ok _ => rfl

/-- What the access mode of a capability allows. -/
theorem capAllowsUpload_eq (R : CapabilityRegistry) (cap : String) :
    (N.blobNode R).capAllowsUpload cap = (R.getPublic cap).elim (.error (if (R.get cap).isSome
      then .error 403 "capability refuses upload" else .error 404 "capability not found"))
      fun _ => .ok () := by
  simp only [BlobNode.capAllowsUpload, CapabilityRegistry.getPublic, blobNode]
  cases R.get cap with
  | none => rfl
  | some e =>
    rw [Option.filter_some]
    cases hmode : e.decl.mode with
    | _ => simp [hmode, AccessMode.isPublic]

theorem isSome_of_getPublic {e : RegistryEntry} {cap : String} (h : R.getPublic cap = some e) :
    (R.get cap).isSome :=
  Option.isSome_of_eq_some (Option.filter_eq_some_iff.1 h).1

/-- A step of a request does the same, and answers the same unless it is a put for a
    capability that only one of the registries has. -/
theorem blobStep_eq (h : R.SamePublic R') (σ : BlobState) (phase : BlobPhase)
    (hcap : ∀ hash header body cap, phase = .arrived (.put hash header body) →
      N.putCapability σ hash header = some cap → ((R.get cap).isSome ↔ (R'.get cap).isSome)) :
    (N.blobNode R).step σ phase = (N.blobNode R').step σ phase := by
  cases phase with
  | arrived req =>
    cases req with
    | put hash header body =>
      rw [BlobNode.step, BlobNode.step]
      rcases arrive_put N σ hash header body with ⟨cap, σ', job, hc, hjob⟩ | ⟨-, σ', e, he⟩
      · have hsome := Bool.eq_iff_iff.2 (hcap hash header body cap rfl hc)
        rw [hjob R, hjob R', capAllowsUpload_eq, capAllowsUpload_eq, h cap, hsome]
      · rw [he R, he R']
    | _ => rfl
  | collectFiles paths =>
    cases paths with
    | nil => rfl
    | cons path paths => rfl
  | _ => rfl

/-- How a put is refused for a capability that is not public. -/
def refusal (R : CapabilityRegistry) (cap : String) : HttpError :=
  if (R.get cap).isSome then .error 403 "capability refuses upload"
  else .error 404 "capability not found"

/-- Such a put is refused, from the same state on. -/
theorem blobStep_refused {σ : BlobState} {hash : String} {header : Option String} {cap : String}
    (hcap : N.putCapability σ hash header = some cap) (body : Bytes) :
    ∃ σ', ∀ R : CapabilityRegistry, R.getPublic cap = none →
      (N.blobNode R).step σ (.arrived (.put hash header body)) =
        (σ', .inr (.error (refusal R cap))) := by
  obtain ⟨cap', σ', job, hc, hjob⟩ | ⟨hc, -⟩ := arrive_put N σ hash header body
  · obtain rfl := Option.some.inj (hc.symm.trans hcap)
    refine ⟨σ', fun R hR => ?_⟩
    rw [BlobNode.step, hjob R, capAllowsUpload_eq, hR]
    rfl
  · cases hc.symm.trans hcap

theorem refusal_ne {cap : String} (hne : ¬((R.get cap).isSome ↔ (R'.get cap).isSome)) :
    refusal R cap ≠ refusal R' cap := by
  intro he
  rw [refusal, refusal] at he
  by_cases hR : (R.get cap).isSome
  · by_cases hR' : (R'.get cap).isSome
    · exact hne (iff_of_true hR hR')
    · rw [if_pos hR, if_neg hR'] at he
      cases he
  · by_cases hR' : (R'.get cap).isSome
    · rw [if_neg hR, if_pos hR'] at he
      cases he
    · exact hne (iff_of_false hR hR')

/-! ## Two runs -/

/-- A put for a capability that only one of the registries has. -/
def Probes (N : InboundNode) (R R' : CapabilityRegistry) (σ : InboundState) :
    InboundAction → Prop
  | .blob (.act k _) => ∃ hash header body cap,
    σ.blobs.threads.lookup k = some (.arrived (.put hash header body)) ∧
      N.putCapability σ.blobs.shared hash header = some cap ∧
        ¬((R.get cap).isSome ↔ (R'.get cap).isSome)
  | _ => False

theorem handle_act (R : CapabilityRegistry) {σ : InboundState} {k : ℕ} {e : Unit} :
    N.handle R σ (.blob (.act k e)) = (σ.blobs.threads.lookup k).map fun phase =>
      let (s, o) := (N.blobNode R).step σ.blobs.shared phase
      ({ σ with blobs := σ.blobs.settle k s o }, o.getRight?.map .blob) := by
  rw [handle, Program.poolStep, blobReply]
  cases σ.blobs.threads.lookup k with
  | none => rfl
  | some phase => rfl

/-- A put for a capability that is not public. -/
theorem handle_refused {σ : InboundState} {k : ℕ} {e : Unit} {hash : String}
    {header : Option String} {body : Bytes} {cap : String}
    (hphase : σ.blobs.threads.lookup k = some (.arrived (.put hash header body)))
    (hcap : N.putCapability σ.blobs.shared hash header = some cap) :
    ∃ σ', ∀ R : CapabilityRegistry, R.getPublic cap = none →
      N.handle R σ (.blob (.act k e)) = some (σ', some (.blob (.error (refusal R cap)))) := by
  obtain ⟨s, hs⟩ := blobStep_refused hcap body
  refine ⟨{ σ with blobs := ⟨s, σ.blobs.threads.erase k⟩ }, fun R hR => ?_⟩
  rw [handle_act, hphase, Option.map_some, hs R hR]
  rfl

/-- An action that is not a probe. -/
theorem handle_eq (h : R.SamePublic R') {σ : InboundState} {a : InboundAction}
    (ha : ¬N.Probes R R' σ a) : N.handle R σ a = N.handle R' σ a := by
  cases a with
  | message msg x => rw [handle, handle, handleRequest_eq h]
  | peers d => rfl
  | blob a =>
    cases a with
    | act k e =>
      have hstep (phase : BlobPhase) (hphase : σ.blobs.threads.lookup k = some phase) :
          (N.blobNode R).step σ.blobs.shared phase = (N.blobNode R').step σ.blobs.shared phase :=
        blobStep_eq h _ _ fun hash header body cap he hcap => by
          by_contra hne
          exact ha ⟨hash, header, body, cap, he ▸ hphase, hcap, hne⟩
      rw [handle_act, handle_act]
      refine Option.map_congr fun phase hphase => ?_
      rw [hstep phase hphase]
    | _ => rfl

/-- A probe ends in the same state, and is answered differently. -/
theorem handle_probe (h : R.SamePublic R') {σ : InboundState} {a : InboundAction}
    (ha : N.Probes R R' σ a) : ∃ σ' e e', e ≠ e' ∧
      N.handle R σ a = some (σ', some (.blob (.error e))) ∧
      N.handle R' σ a = some (σ', some (.blob (.error e'))) := by
  cases a with
  | message msg x => exact ha.elim
  | peers d => exact ha.elim
  | blob a =>
    cases a with
    | act k e =>
      obtain ⟨hash, header, body, cap, hphase, hcap, hne⟩ := ha
      -- It is not public, for then both would have it.
      have hnone : R.getPublic cap = none := by
        refine Option.eq_none_iff_forall_ne_some.2 fun e he => hne ?_
        exact iff_of_true (isSome_of_getPublic he) (isSome_of_getPublic ((h cap).symm.trans he))
      obtain ⟨σ', hrefused⟩ := handle_refused hphase hcap
      exact ⟨σ', _, _, refusal_ne hne, hrefused R hnone, hrefused R' ((h cap).symm.trans hnone)⟩
    | _ => exact ha.elim

/-- The states do not depend on the private capabilities. -/
theorem step_eq (h : R.SamePublic R') : N.step R = N.step R' := by
  funext σ a
  rw [step, step]
  by_cases ha : N.Probes R R' σ a
  · obtain ⟨σ', e, e', -, he, he'⟩ := handle_probe h ha
    rw [he, he']
    rfl
  · rw [handle_eq h ha]

theorem response_eq_iff (h : R.SamePublic R') {σ : InboundState} {a : InboundAction} :
    N.response R σ a = N.response R' σ a ↔ ¬N.Probes R R' σ a := by
  rw [response, response]
  constructor
  · intro heq ha
    obtain ⟨σ', e, e', hne, he, he'⟩ := handle_probe h ha
    rw [he, he'] at heq
    exact hne (BlobResponse.error.inj (InboundReply.blob.inj (Option.some.inj heq)))
  · intro ha
    rw [handle_eq h ha]

end InboundNode

/-- With two registries that only differ in their private capabilities, a node goes
    through the same states, whatever its peers send; and it answers the same, if and
    only if no blob is put for a capability that one of them has and the other has not. -/
theorem private_hidden (N : InboundNode) (R R' : CapabilityRegistry) (h : R.SamePublic R')
    (σ : InboundState) (as : List InboundAction) :
    Run.run (N.step R) σ as = Run.run (N.step R') σ as ∧
      (Run.Along (N.step R) (fun t a => N.response R t a = N.response R' t a) σ as ↔
        Run.Along (N.step R) (fun t a => ¬N.Probes R R' t a) σ as) := by
  rw [InboundNode.step_eq h]
  exact ⟨rfl, fun hsame => hsame.imp fun _ _ _ => (InboundNode.response_eq_iff h).1,
    fun hnone => hnone.imp fun _ _ _ => (InboundNode.response_eq_iff h).2⟩

/-! ## A private capability -/

def toyInbound : InboundNode where
  receiver := hexNode.receiver
  secret := asciiBytes ['a']
  endpoint := none
  aliasName := none
  lobes := []
  codec := ⟨fun _ => .error "invalid", fun _ => .error "invalid", fun _ => none,
    fun d => .string d.instanceId⟩
  rfc3339 _ := .ok ""
  fromUnixTimestamp _ := none
  decodeTicketWire := hexNode.decodeTicketWire
  payloadError := hexNode.payloadError
  isHeaderValue := hexNode.isHeaderValue
  blobsRoot := hexNode.blobsRoot
  blobsDir := hexNode.blobsRoot

/-- The capability `c`, which is private. -/
def hiddenEntry : RegistryEntry where
  decl := {
    name := "c"
    schemaIn := .object []
    schemaOut := .object []
    description := ""
    mode := .private
    pricing := none
    tags := []
    lobeIds := []
    examples := []
    disambiguation := none
    negativeExamples := []
    outputSemantic := none
    version := "0.1.0"
    languages := []
    countries := [] }
  binding := none

theorem samePublic_hidden :
    CapabilityRegistry.empty.SamePublic (.fromEntries [hiddenEntry]) := by
  intro name
  rw [CapabilityRegistry.getPublic, CapabilityRegistry.getPublic,
    CapabilityRegistry.get_fromEntries, List.reverse_singleton, List.find?_singleton]
  split
  · rfl
  · rfl

/-- A put for the capability `c` is about to be dealt with. -/
def probing : InboundState := ⟨⟨BlobPool.fresh.shared, (∅ : Table ℕ BlobPhase).insert 0
  (.arrived (toyPut "pm0a"))⟩, ∅⟩

/-- The answer tells whether it is registered. -/
theorem private_probed :
    CapabilityRegistry.empty.SamePublic (.fromEntries [hiddenEntry]) ∧
    toyInbound.response .empty probing (.blob (.act 0 ())) =
      some (.blob (.error (.error 404 "capability not found"))) ∧
    toyInbound.response (.fromEntries [hiddenEntry]) probing (.blob (.act 0 ())) =
      some (.blob (.error (.error 403 "capability refuses upload"))) := by
  have hcap : toyInbound.putCapability probing.blobs.shared (hexCrypto.hashBytes [97])
      (some "pm0a") = some "c" := by
    decide +kernel
  obtain ⟨σ', h⟩ := InboundNode.handle_refused (σ := probing) (k := 0) (e := ()) rfl hcap
  refine ⟨samePublic_hidden, ?_, ?_⟩
  · rw [InboundNode.response, h .empty rfl]
    rfl
  · rw [InboundNode.response, h _ ((samePublic_hidden "c").symm.trans rfl)]
    rfl

/-- A peer asks the node to describe itself. -/
def toyAsking : InboundAction :=
  let env : Envelope := ⟨"n3:m", "n3:a", 0, "x", .describeSelf, .object [], none⟩
  .message ((hexCrypto.signEnvelope env (asciiBytes ['m'])).toOption.getD ⟨env, [], ""⟩)
    ⟨[], [], fun _ _ v => .ok v, "n"⟩

/-- The payload of the message in an answer. -/
def InboundReply.payload? : InboundReply → Option Value
  | .message msg => some msg.envelope.payload
  | _ => none

/-- With both registries, the answer is the descriptor of the node. -/
theorem private_hidden_message :
    (toyInbound.response .empty probing toyAsking).bind InboundReply.payload? =
      some (.string "n3:a") ∧
    toyInbound.response .empty probing toyAsking =
      toyInbound.response (.fromEntries [hiddenEntry]) probing toyAsking := by
  have hsame := (private_hidden toyInbound .empty (.fromEntries [hiddenEntry]) samePublic_hidden
    probing [toyAsking]).2.2 ⟨not_false, fun _ _ => trivial⟩
  exact ⟨by decide +kernel, hsame.1⟩

end N3ur0n
