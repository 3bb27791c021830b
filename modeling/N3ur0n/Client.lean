import N3ur0n.Message

/-!
# The outbound client

All the calls to other nodes go through `sendSigned`: the recipient is what the
contacted endpoint calls itself (`discoverRecipient`), the request is signed and
posted, and the reply is checked.

* `sendSigned_ok`: an accepted reply was signed by the recipient, and is
  addressed to this node. Nothing else is checked of it: neither its verb, nor
  its timestamp, nor its nonce.

What the call finds outside, i.e., the answers of the network, the clock and
the random nonce, is an `Exchange`.
-/

namespace N3ur0n

structure HttpResponse where
  status : ℕ
  body : Bytes

inductive ClientError
  | http (message : String)
  | status (code : ℕ) (body : String)
  | invalid (message : String)
  | core (e : CoreError)
  | serde (message : String)
  deriving DecidableEq

def ClientError.text : ClientError → String
  | .http message => s!"http transport: {message}"
  | .status code body => s!"non-success status {code}: {body}"
  | .invalid message => s!"invalid response: {message}"
  | .core e => s!"core: {e.text}"
  | .serde message => s!"serde: {message}"

/-- The readers of the bodies of HTTP responses. -/
structure Wire where
  /-- The `instance_id` of a health response. -/
  decodeHealth : Bytes → Except String String
  decodeMessage : Bytes → Except String SignedMessage
  utf8Lossy : Bytes → String

/-- What a call finds outside: the answer to the health request, the clock, a
    random nonce, and the answer to the message posted. -/
structure Exchange where
  health : Except String HttpResponse
  now : ℤ
  nonce : String
  post : SignedMessage → Except String HttpResponse

/-- The caller: its secret, and the endpoint it announces. -/
structure Caller where
  secret : Bytes
  endpoint : Option String

variable (C : Crypto) (W : Wire)

def Caller.id (self : Caller) : String := C.instanceId (C.publicKey self.secret)

/-- The body of a response, if its status is a success. -/
def successBody (resp : HttpResponse) : Except ClientError Bytes :=
  if 200 ≤ resp.status ∧ resp.status < 300 then .ok resp.body
  else .error (.status resp.status (W.utf8Lossy resp.body))

/-- What the contacted endpoint calls itself. -/
def discoverRecipient (health : Except String HttpResponse) : Except ClientError String := do
  let resp ← health.mapError .http
  let bytes ← successBody W resp
  let id ← (W.decodeHealth bytes).mapError .serde
  (parseInstanceId id).mapError .core

/-- The message received in answer to a request. -/
def receive (reply : Except String HttpResponse) : Except ClientError SignedMessage := do
  let resp ← reply.mapError .http
  let bytes ← successBody W resp
  (W.decodeMessage bytes).mapError .serde

/-- What is checked of a reply. -/
def checkReply (self recipient : String) (reply : SignedMessage) : Except ClientError Unit := do
  (C.verifySignature reply).mapError .core
  Except.reject (reply.envelope.recipientId ≠ self) (.invalid "reply not addressed to us")
  Except.reject (reply.envelope.senderId ≠ recipient)
    (.invalid "reply sender_id does not match contacted peer")

/-- The request of a call. -/
def request (self : Caller) (recipient : String) (x : Exchange) (verb : ProtocolVerb)
    (payload : Value) : Envelope where
  senderId := self.id C
  recipientId := recipient
  timestamp := x.now
  nonce := x.nonce
  verb := verb
  payload := payload
  senderEndpoint := self.endpoint

def sendSigned (self : Caller) (verb : ProtocolVerb) (payload : Value) (x : Exchange) :
    Except ClientError SignedMessage := do
  let recipient ← discoverRecipient W x.health
  let signed ← (C.signEnvelope (request C self recipient x verb payload) self.secret).mapError .core
  let reply ← receive W (x.post signed)
  checkReply C (self.id C) recipient reply
  .ok reply

variable {C W}

/-- What `checkReply` accepts. -/
structure Acceptable (C : Crypto) (own recipient : String) (reply : SignedMessage) : Prop where
  signed : SignedBy C reply recipient
  addressed : reply.envelope.recipientId = own
  sender : reply.envelope.senderId = recipient

theorem checkReply_ok {self recipient : String} {reply : SignedMessage} :
    checkReply C self recipient reply = .ok () ↔ Acceptable C self recipient reply := by
  have h : checkReply C self recipient reply = .ok () ↔
      SignedBy C reply reply.envelope.senderId ∧ reply.envelope.recipientId = self ∧
        reply.envelope.senderId = recipient :=
    Except.check_eq_ok.trans (and_congr (Except.mapError_eq_ok.trans verifySignature_ok)
      (Except.check_eq_ok.trans (and_congr (Except.reject_eq_ok.trans not_not)
        (Except.reject_eq_ok.trans not_not))))
  exact h.trans ⟨fun ⟨hs, ha, hr⟩ => ⟨hr ▸ hs, ha, hr⟩, fun ⟨hs, ha, hr⟩ => ⟨hr ▸ hs, ha, hr⟩⟩

/-- The reply of a call is the message received, if it is acceptable from the
    recipient announced. -/
theorem sendSigned_ok {self : Caller} {verb : ProtocolVerb} {payload : Value} {x : Exchange}
    {reply : SignedMessage} : sendSigned C W self verb payload x = .ok reply ↔
      ∃ recipient signed, discoverRecipient W x.health = .ok recipient ∧
        C.signEnvelope (request C self recipient x verb payload) self.secret = .ok signed ∧
        receive W (x.post signed) = .ok reply ∧ Acceptable C (self.id C) recipient reply := by
  constructor
  · intro h
    obtain ⟨recipient, hd, h⟩ := Except.bind_eq_ok.1 h
    obtain ⟨signed, hs, h⟩ := Except.bind_eq_ok.1 h
    obtain ⟨m, hm, h⟩ := Except.bind_eq_ok.1 h
    obtain ⟨hc, h⟩ := Except.check_eq_ok.1 h
    obtain rfl : m = reply := Except.ok.inj h
    exact ⟨recipient, signed, hd, Except.mapError_eq_ok.1 hs, hm, checkReply_ok.1 hc⟩
  · rintro ⟨recipient, signed, hd, hs, hm, hc⟩
    exact Except.bind_eq_ok.2 ⟨recipient, hd, Except.bind_eq_ok.2 ⟨signed,
      Except.mapError_eq_ok.2 hs, Except.bind_eq_ok.2 ⟨reply, hm,
        Except.check_eq_ok.2 ⟨checkReply_ok.2 hc, rfl⟩⟩⟩⟩

/-- The signer of an accepted reply is its sender. -/
theorem signedBy_iff_sender {self : Caller} {verb : ProtocolVerb} {payload : Value} {x : Exchange}
    {reply : SignedMessage} (h : sendSigned C W self verb payload x = .ok reply) {id : String} :
    SignedBy C reply id ↔ reply.envelope.senderId = id := by
  obtain ⟨recipient, -, -, -, -, hs, -, hr⟩ := sendSigned_ok.1 h
  rw [hr]
  exact ⟨fun hid => hs.1.symm.trans hid.1, fun e => e ▸ hs⟩

/-! ## A toy network -/

/-- Bodies to run examples with: an id is read as it is, and the byte `i` stands
    for the `i`-th message of a list. -/
def toyWire (messages : List SignedMessage) : Wire where
  decodeHealth body := .ok (String.ofList (body.map fun b => Char.ofNat b.toNat))
  decodeMessage body :=
    match (body.head?.bind fun b => messages[b.toNat]?) with
    | some msg => .ok msg
    | none => .error "expected value"
  utf8Lossy body := String.ofList (body.map fun b => Char.ofNat b.toNat)

/-- An endpoint which calls itself `id`, and answers with the `i`-th message. -/
def toyExchange (id : String) (i : UInt8) : Exchange where
  health := .ok ⟨200, asciiBytes id.toList⟩
  now := 0
  nonce := "n"
  post _ := .ok ⟨200, [i]⟩

/-- The caller `n3:a` of the examples. -/
def toyCaller : Caller := ⟨asciiBytes ['a'], none⟩

end N3ur0n
