import N3ur0n.Exchange
import N3ur0n.Planner.Remote

/-!
# Remote capabilities

A step of a plan whose tool is at another node is an exchange with this node, which
runs the capability.

* `invoke_ok`: what a node that is asked for a capability answers with a result;
* `invokeStep_exchange`: over a network that delivers what it is given, the value of a
  remote step is that of the capability, run where it is served.
-/

namespace N3ur0n

open BlobTicketPayload (stringOf)

/-- An invocation has a result if its capability does, which may not be private, nor
    restricted without a token, and the blobs of its arguments were put. -/
theorem InboundNode.invoke_ok {N : InboundNode} {R : CapabilityRegistry} {store : BlobStore}
    {run : Option Binding → String → Value → Except HandlerError Value} {payload v : Value} :
    N.invoke R store run payload = .ok v ↔ ∃ req e result, N.codec.invoke payload = .ok req ∧
      R.get req.capability = some e ∧ e.decl.mode ≠ .private ∧
        ¬(e.decl.mode = .restricted ∧ req.subscriptionToken = none) ∧
          N.checkBlobs store req.args = .ok () ∧
            run e.binding req.capability req.args = .ok result ∧
              .object [("result", result)] = v := by
  rw [invoke]
  constructor
  · intro h
    obtain ⟨req, hreq, h⟩ := Except.bind_eq_ok.1 h
    obtain ⟨e, he, h⟩ := Except.bind_eq_ok.1 h
    obtain ⟨hprivate, h⟩ := Except.check_eq_ok.1 h
    obtain ⟨hrestricted, h⟩ := Except.check_eq_ok.1 h
    obtain ⟨hblobs, h⟩ := Except.check_eq_ok.1 h
    obtain ⟨result, hrun, h⟩ := Except.bind_eq_ok.1 h
    exact ⟨req, e, result, Except.mapError_eq_ok.1 hreq, Except.elim_eq_ok.1 he,
      Except.reject_eq_ok.1 hprivate, Except.reject_eq_ok.1 hrestricted, hblobs,
      hrun, Except.ok.inj h⟩
  · rintro ⟨req, e, result, hreq, he, hprivate, hrestricted, hblobs, hrun, rfl⟩
    exact Except.bind_eq_ok.2 ⟨req, Except.mapError_eq_ok.2 hreq, Except.bind_eq_ok.2 ⟨e,
      Except.elim_eq_ok.2 he, Except.check_eq_ok.2 ⟨Except.reject_eq_ok.2 hprivate,
        Except.check_eq_ok.2 ⟨Except.reject_eq_ok.2 hrestricted, Except.check_eq_ok.2 ⟨hblobs,
          Except.bind_eq_ok.2 ⟨result, hrun, rfl⟩⟩⟩⟩⟩⟩

theorem InvokeRequest.ofValue_invocation {name : String} {args : Value} (hargs : args.Ordered id) :
    ofValue (invocation name args) = some ⟨name, args, none⟩ := by
  have hcollect : args.collect = args := Value.sortBy_of_ordered hargs
  simp [ofValue, invocation, Fields.ofRecord, required, single, stringOf,
    BlobTicketPayload.optional, hcollect]

theorem Value.ordered_pair {k k' : String} {v v' : Value} (hk : k < k') (hv : v.Ordered id)
    (hv' : v'.Ordered id) : (Value.object [(k, v), (k', v')]).Ordered id :=
  ⟨List.pairwise_pair.2 hk, hv, hv', trivial⟩

namespace WireFormat

variable {W : WireFormat} {v v' : Value}

theorem isJson_pair {k k' : String} (hk : k < k') (hv : W.IsJson v) (hv' : W.IsJson v') :
    W.IsJson (.object [(k, v), (k', v')]) := by
  refine ⟨Value.ordered_pair hk hv.1 hv'.1, fun n hn => ?_⟩
  rcases List.mem_append.1 hn with hn | hn
  · exact hv.2 n hn
  · exact hv'.2 n (by simpa [Value.numbersFields] using hn)

theorem isJson_string {s : String} : W.IsJson (.string s) :=
  ⟨trivial, fun _ hn => absurd hn List.not_mem_nil⟩

theorem isJson_result (hv : W.IsJson v) : W.IsJson (.object [("result", v)]) :=
  ⟨⟨List.pairwise_singleton _ _, hv.1, trivial⟩, fun n hn =>
    hv.2 n (by simpa [Value.numbers, Value.numbersFields] using hn)⟩

theorem isJson_invocation {name : String} (hv : W.IsJson v) : W.IsJson (invocation name v) :=
  isJson_pair (by decide) hv isJson_string

end WireFormat

namespace Server

variable {W : WireFormat} {S : Server W} {σ : InboundState} {x : Outside} {self : Caller}
  {now : ℤ} {nonce : String} {signed reply : SignedMessage} {serdeError utf8Lossy : Bytes → String}
  {name : String} {tool : ToolDef} {args v result value : Value} {o : StepWorld} {endpoint : String}

variable (S σ x) in
/-- What a public capability of the server gives for a caller without a token. -/
def Runs (name : String) (args result : Value) : Prop :=
  ∃ e, S.registry.get name = some e ∧ e.decl.mode = .free ∧
    S.node.checkBlobs σ.blobs.shared.store args = .ok () ∧ x.run e.binding name args = .ok result

variable (S σ x) in
/-- The server answers an invocation with this result. -/
structure Returns (caller : Caller) (now : ℤ) (nonce name : String) (args result : Value)
    (reply : SignedMessage) : Prop where
  arrives : ∃ signed, (W.crypto 0).signEnvelope
    (S.envelope caller now nonce .invoke (invocation name args)) caller.secret = .ok signed ∧
      S.Arrives σ signed
  runs : S.Runs σ x name args result
  depth : (Value.object [("result", result)]).depth < Json.recursionLimit
  signs : S.node.replyTo σ (S.envelope caller now nonce .invoke (invocation name args)) x.nonce
    (.object [("result", result)]) = .ok reply

/-- What a server answers to an invocation. -/
theorem dispatch_invocation (hargs : args.Ordered id) (hverb : signed.envelope.verb = .invoke)
    (hpayload : signed.envelope.payload = invocation name args) :
    S.node.dispatch S.registry σ signed x = some (.ok v) ↔
      ∃ result, S.Runs σ x name args result ∧ .object [("result", result)] = v := by
  have hread {req : InvokeRequest} : S.node.codec.invoke (invocation name args) = .ok req ↔
      ⟨name, args, none⟩ = req := by
    rw [S.codec_eq, WireFormat.codec_invoke, InvokeRequest.ofValue_invocation hargs,
      Option.some.injEq]
  rw [InboundNode.dispatch, hverb, hpayload]
  refine (Option.some.injEq _ _).to_iff.trans (InboundNode.invoke_ok.trans ?_)
  constructor
  · rintro ⟨req, e, result, hreq, he, hprivate, hrestricted, hblobs, hrun, hv⟩
    obtain rfl := hread.1 hreq
    refine ⟨result, ⟨e, he, ?_, hblobs, hrun⟩, hv⟩
    -- It is neither private nor restricted.
    rcases hmode : e.decl.mode with _ | _ | _
    · rfl
    · exact absurd ⟨hmode, rfl⟩ hrestricted
    · exact absurd hmode hprivate
  · rintro ⟨result, ⟨e, he, hmode, hblobs, hrun⟩, hv⟩
    refine ⟨_, e, result, hread.2 rfl, he, ?_, ?_, hblobs, hrun, hv⟩
    · rw [hmode]
      decide
    · rw [hmode]
      exact fun h => absurd h.1 (by decide)

theorem sendSigned_invocation (hW : W.Conforms)
    (hsha : ∀ key, W.sha256 key ≠ []) (hargs : W.IsJson args)
    (hrun : ∀ result, S.Runs σ x name args result → W.IsJson result) :
    sendSigned (W.crypto 0) (W.wire serdeError utf8Lossy) self .invoke (invocation name args)
        (S.exchange σ x now nonce) = .ok reply ↔
      ∃ result, S.Returns σ x self now nonce name args result reply := by
  have hdispatch {signed : SignedMessage} {v : Value}
      (henv : signed.envelope = S.envelope self now nonce .invoke (invocation name args)) :
      S.node.dispatch S.registry σ signed x = some (.ok v) ↔
        ∃ result, S.Runs σ x name args result ∧ .object [("result", result)] = v :=
    dispatch_invocation hargs.1 (henv ▸ rfl) (henv ▸ rfl)
  have hanswer (signed : SignedMessage) (v : Value)
      (henv : signed.envelope = S.envelope self now nonce .invoke (invocation name args))
      (hv : S.node.dispatch S.registry σ signed x = some (.ok v)) : W.IsJson v := by
    obtain ⟨result, hresult, rfl⟩ := (hdispatch henv).1 hv
    exact WireFormat.isJson_result (hrun result hresult)
  refine (sendSigned_exchange hW hsha (WireFormat.isJson_invocation hargs) hanswer).trans ?_
  constructor
  · rintro ⟨signed, v, hsign, harrives, hv, hdepth, hreply⟩
    obtain ⟨result, hresult, rfl⟩ := (hdispatch (envelope_of_sign hsign)).1 hv
    exact ⟨result, ⟨signed, hsign, harrives⟩, hresult, hdepth, hreply⟩
  · rintro ⟨result, ⟨signed, hsign, harrives⟩, hresult, hdepth, hreply⟩
    exact ⟨signed, _, hsign, harrives, (hdispatch (envelope_of_sign hsign)).2
      ⟨result, hresult, rfl⟩, hdepth, hreply⟩

/-- The reply has the result. -/
theorem Returns.payload (h : S.Returns σ x self now nonce name args result reply) :
    reply.envelope.payload = .object [("result", result)] :=
  payload_of_replyTo h.signs

/-- Over a network that delivers what it is given, a remote step has the value of its
    capability, run by the server, if its blobs are put and the server answers. -/
theorem invokeStep_exchange (hW : W.Conforms) (hsha : ∀ key, W.sha256 key ≠ [])
    (hat : tool.peerEndpoint = some endpoint)
    (hx : o.exchange endpoint = S.exchange σ x now nonce) (hargs : W.IsJson args)
    (hrun : ∀ result, S.Runs σ x tool.cap.name args result → W.IsJson result) :
    invokeStep (W.crypto 0) (W.wire serdeError utf8Lossy) self o tool args = .ok value ↔
      o.upload endpoint args = .ok () ∧ ∃ result reply,
        S.Returns σ x self now nonce tool.cap.name args result reply ∧
          fetchOutputBlobs o endpoint result = .ok value := by
  have hraw {result : Value} {reply : SignedMessage}
      (h : S.Returns σ x self now nonce tool.cap.name args result reply) :
      rawResult reply = result := by
    rw [rawResult, h.payload]
    rfl
  rw [invokeStep_remote hat, hx]
  refine and_congr_right fun _ => ?_
  constructor
  · rintro ⟨reply, hreply, hvalue⟩
    obtain ⟨result, hreturns⟩ := (sendSigned_invocation hW hsha hargs hrun).1 hreply
    rw [hraw hreturns] at hvalue
    exact ⟨result, reply, hreturns, hvalue⟩
  · rintro ⟨result, reply, hreturns, hvalue⟩
    refine ⟨reply, (sendSigned_invocation hW hsha hargs hrun).2 ⟨result, hreturns⟩, ?_⟩
    rwa [hraw hreturns]

/-! ## An echo -/

def toyWorld : StepWorld where
  localCall _ _ := .error "none"
  upload _ _ := .ok ()
  exchange _ := (toyServer (.fromDecls [toyEcho])).exchange toyState (toyOutside [toyEcho]) 0 "n"
  fetched _ _ := .ok []

theorem get_toyEcho : (CapabilityRegistry.fromDecls [toyEcho]).get "echo" = some ⟨toyEcho, none⟩ :=
  rfl

/-- A step at a node that gives back what it is given. -/
theorem invokeStep_exchange_echo : invokeStep (toyNet.crypto 0)
    (toyNet.wire (fun _ => "invalid") fun _ => "") toySelf toyWorld
    ⟨"n3:b", some "http://b", toyEcho.toCapabilityDecl⟩ (.object []) = .ok (.object []) := by
  obtain ⟨reply, hreply⟩ := toy_replies "m"
  have hjson : toyNet.IsJson (.object []) := ⟨⟨List.Pairwise.nil, trivial⟩, List.forall_mem_nil _⟩
  have hx : toyWorld.exchange "http://b" =
      (toyServer (.fromDecls [toyEcho])).exchange toyState (toyOutside [toyEcho]) 0 "n" := rfl
  have hruns : (toyServer (.fromDecls [toyEcho])).Runs toyState (toyOutside [toyEcho]) "echo"
      (.object []) (.object []) :=
    ⟨⟨toyEcho, none⟩, get_toyEcho, rfl, rfl, rfl⟩
  have hrun (result : Value) (h : (toyServer (.fromDecls [toyEcho])).Runs toyState
      (toyOutside [toyEcho]) "echo" (.object []) result) : toyNet.IsJson result := by
    obtain ⟨e, -, -, -, hresult⟩ := h
    obtain rfl := Except.ok.inj hresult
    exact hjson
  exact (invokeStep_exchange toyNet_conforms sha256_toyNet rfl hx hjson hrun).2 ⟨rfl, .object [],
    reply, ⟨toy_arrives _ _ (by decide) (by decide +kernel), hruns, by decide, hreply⟩, rfl⟩

end Server

end N3ur0n
