import N3ur0n.Protocol

/-!
# Exchanges

A node that calls another one asks who is there, signs a request for them, posts its
JSON text, and checks the reply. The other node serves both requests over HTTP.

* `Server.call_iff`: over a network that delivers what it is given, a caller gets an
  answer exactly if its request is new to the server, on time, and neither too long nor
  nested too deep, and the answer is that of the server, and is not nested too deep
  either.
-/

namespace N3ur0n

open BlobTicketPayload (stringOf)

namespace WireFormat

variable (W : WireFormat)

/-- The id of the instance with this secret. -/
def idOf (secret : Bytes) : String := (W.crypto 0).instanceId (W.publicKey secret)

/-- `PublicHealth`. -/
def healthId : Value → Option String
  | .object fs => required fs "instance_id" stringOf
  | .array [id] => stringOf id
  | _ => none

/-- The message in a body, if its timestamp is in UTC, as nodes write it. -/
def messageOf (body : Bytes) : Option SignedMessage := do
  let text ← ofUtf8 body
  let m ← W.ofJson text
  if m.offset = 0 then some m.message else none

/-- The readers of the bodies of responses, with the texts of their errors. -/
def wire (serdeError utf8Lossy : Bytes → String) : Wire where
  decodeHealth body := ((ofUtf8 body).bind fun text =>
    (Json.readText (Json.numberOf W.nearest) Json.recursionLimit text).bind healthId).elim
      (.error (serdeError body)) .ok
  decodeMessage body := (W.messageOf body).elim (.error (serdeError body)) .ok
  utf8Lossy := utf8Lossy

end WireFormat

/-- The longest body of a message. -/
def invokeLimit : ℕ := 1024 * 1024

/-- A node that is served over HTTP, under the id of its key; `rejection` is what is
    answered to a body that is no message. -/
structure Server (W : WireFormat) where
  node : InboundNode
  registry : CapabilityRegistry
  version : String
  rejection : Bytes → HttpResponse
  serdeError : Value → String
  crypto_eq : node.receiver.crypto = W.crypto 0
  id_eq : node.receiver.id = W.idOf node.secret
  codec_eq : node.codec = W.codec serdeError
  rejected : ∀ body, 400 ≤ (rejection body).status

namespace Server

variable {W : WireFormat} (S : Server W)

def healthBody : Value :=
  .object [("instance_id", .string S.node.receiver.id),
    ("protocol_version", .string protocolVersion), ("status", .string "ok"),
    ("version", .string S.version)]

/-- `public_health`. -/
def health : HttpResponse := ⟨200, utf8 S.healthBody.render⟩

/-- The response of an answer, `http_error` for an error. -/
def respond : InboundReply → HttpResponse
  | .message msg =>
    match W.toJson ⟨msg, 0⟩ with
    | .ok text => ⟨200, utf8 text⟩
    | .error e => ⟨500, utf8 e.toList⟩
  | .error (status, kind) message =>
    ⟨status, utf8 (Value.object [("error", .string kind), ("message", .string message)]).render⟩
  -- The routes of blobs answer by themselves.
  | .blob _ => ⟨500, []⟩

/-- `post_message`; undefined if `x` is not what the message finds. A message whose
    timestamp is not in UTC is rejected here; the route takes it, and verifies it over
    the timestamp as it is written. -/
def postMessage (σ : InboundState) (body : Bytes) (x : Outside) :
    Option (InboundState × HttpResponse) :=
  if invokeLimit < body.length then some (σ, S.rejection body)
  else
    match W.messageOf body with
    | none => some (σ, S.rejection body)
    | some msg =>
      (S.node.handleRequest S.registry σ msg x).map fun (σ', r) => (σ', respond (W := W) r)

/-- What a caller finds at the server, over a network that delivers what it is given. -/
def exchange (σ : InboundState) (x : Outside) (now : ℤ) (nonce : String) : Exchange where
  health := .ok S.health
  now := now
  nonce := nonce
  post signed := do
    let text ← W.toJson ⟨signed, 0⟩
    (S.postMessage σ (utf8 text) x).elim (.error "no answer") fun (_, resp) => .ok resp

/-- The request that a caller signs. -/
def envelope (self : Caller) (now : ℤ) (nonce : String) (verb : ProtocolVerb) (payload : Value) :
    Envelope where
  senderId := self.id (W.crypto 0)
  recipientId := S.node.receiver.id
  timestamp := now
  nonce := nonce
  verb := verb
  payload := payload
  senderEndpoint := self.endpoint

/-- The message gets to the server, which does not know its nonce. -/
structure Arrives (σ : InboundState) (signed : SignedMessage) : Prop where
  length : ∀ text, W.toJson ⟨signed, 0⟩ = .ok text → (utf8 text).length ≤ invokeLimit
  depth : signed.envelope.payload.depth < Json.recursionLimit
  window : WithinWindow S.node.receiver.clockSkew σ.blobs.shared.clock signed.envelope.timestamp
  fresh : ¬NonceRow.Seen σ.blobs.shared.nonces signed.envelope.senderId signed.envelope.nonce

variable {S} {σ : InboundState} {x : Outside} {self : Caller} {verb : ProtocolVerb}
  {payload : Value} {now : ℤ} {nonce : String} {signed : SignedMessage} {env : Envelope}
  {secret : Bytes} {serdeError utf8Lossy : Bytes → String}

/-! ## Responses -/

theorem successBody_ok {V : Wire} {body : Bytes} : successBody V ⟨200, body⟩ = .ok body := rfl

/-- An error is no success. -/
theorem successBody_error {V : Wire} {resp : HttpResponse} {body : Bytes} (h : 400 ≤ resp.status) :
    successBody V resp ≠ .ok body := by
  rw [successBody, if_neg (by omega)]
  exact nofun

theorem not_success {V : Wire} {resp : HttpResponse} {body : Bytes} (h : 400 ≤ resp.status) :
    ¬∃ resp', some resp = some resp' ∧ successBody V resp' = .ok body := by
  rintro ⟨resp', hresp, hbody⟩
  obtain rfl := Option.some.inj hresp
  exact successBody_error h hbody

/-! ## The id of the server -/

theorem parseInstanceId_instanceId {key : Bytes} (hsha : W.sha256 key ≠ []) :
    parseInstanceId ((W.crypto 0).instanceId key) = .ok ((W.crypto 0).instanceId key) := by
  let digits := (Radix.base32.encode ((W.sha256 key).take idHashBytes)).map Char.toLower
  have hid : ((W.crypto 0).instanceId key).toList = idPrefix.toList ++ digits := by
    simp only [Crypto.instanceId, WireFormat.crypto, String.toList_append, String.toList_ofList,
      digits]
  have hdrop : ((W.crypto 0).instanceId key).toList.drop idPrefix.length = digits := by
    rw [hid]
    exact List.drop_left
  have hne : digits ≠ [] := by
    intro hnil
    have hdecode := Radix.base32.decode_encode ((W.sha256 key).take idHashBytes)
    rw [List.map_eq_nil_iff.1 hnil] at hdecode
    have htake : [] = (W.sha256 key).take idHashBytes := Option.some.inj hdecode
    exact (List.take_eq_nil_iff.1 htake.symm).elim (by decide) hsha
  have hall : digits.all Char.isAlphanum := by
    have hchar : ∀ c ∈ Radix.base32.alphabet, c.toLower.isAlphanum := by decide +kernel
    refine List.all_eq_true.2 fun c hc => ?_
    obtain ⟨d, hd, rfl⟩ := List.mem_map.1 hc
    exact hchar d (Radix.mem_alphabet_of_mem_encode hd)
  have hprefix : idPrefix.toList.isPrefixOf ((W.crypto 0).instanceId key).toList := by
    rw [hid]
    exact List.isPrefixOf_iff_prefix.2 (List.prefix_append _ _)
  rw [parseInstanceId]
  simp only [hdrop, hprefix, hne, hall, ne_eq, not_false_eq_true, and_self, if_true]

theorem discoverRecipient_health (hsha : W.sha256 (W.publicKey S.node.secret) ≠ []) :
    discoverRecipient (W.wire serdeError utf8Lossy) (.ok S.health) = .ok S.node.receiver.id := by
  have hid : parseInstanceId S.node.receiver.id = .ok S.node.receiver.id := by
    rw [S.id_eq]
    exact parseInstanceId_instanceId hsha
  have hnumbers : S.healthBody.numbers = [] := rfl
  have hread : Json.readText (Json.numberOf W.nearest) Json.recursionLimit S.healthBody.render =
      some S.healthBody := by
    rw [Value.readText_render (by rw [hnumbers]; simp)]
    rfl
  have hdecode {body : Bytes} {id : String} :
      (W.wire serdeError utf8Lossy).decodeHealth body = .ok id ↔
        ((ofUtf8 body).bind fun text => (Json.readText (Json.numberOf W.nearest)
          Json.recursionLimit text).bind WireFormat.healthId) = some id :=
    Except.elim_eq_ok
  have hhealth : (W.wire serdeError utf8Lossy).decodeHealth (utf8 S.healthBody.render) =
      .ok S.node.receiver.id := by
    rw [hdecode, ofUtf8_utf8, Option.bind_some, hread]
    simp [healthBody, WireFormat.healthId, required, single, stringOf]
  have hbody : successBody (W.wire serdeError utf8Lossy) S.health =
      .ok (utf8 S.healthBody.render) :=
    successBody_ok
  simp only [discoverRecipient, Except.mapError, bind, Except.bind, hbody, hhealth, hid]

/-! ## Messages on the wire -/

theorem signAt_of_sign (h : (W.crypto 0).signEnvelope env secret = .ok signed) :
    W.signAt 0 env secret = .ok ⟨signed, 0⟩ := by
  rw [WireFormat.signAt, h]
  rfl

/-- A message that is signed is read from its body, if it is not nested too deep. -/
theorem messageOf_text (hW : W.Conforms) (hjson : W.IsJson env.payload)
    (h : (W.crypto 0).signEnvelope env secret = .ok signed) :
    ∃ text, W.toJson ⟨signed, 0⟩ = .ok text ∧ W.messageOf (utf8 text) =
      if env.payload.depth < Json.recursionLimit then some signed else none := by
  obtain ⟨text, htext, hread⟩ := WireFormat.ofJson_of_signAt hW hjson (signAt_of_sign h)
  refine ⟨text, htext, ?_⟩
  rw [WireFormat.messageOf, ofUtf8_utf8, Option.bind_eq_bind, Option.bind_some, hread]
  split
  · rfl
  · rfl

theorem envelope_of_sign (h : (W.crypto 0).signEnvelope env secret = .ok signed) :
    signed.envelope = env := by
  obtain ⟨bytes, -, -, hmsg⟩ := WireFormat.signAt_eq_ok.1 (signAt_of_sign h)
  exact (congrArg (fun m : WireMessage => m.message.envelope) hmsg).symm

theorem signedBy_of_sign (hW : W.Conforms)
    (h : (W.crypto 0).signEnvelope env secret = .ok signed) :
    SignedBy (W.crypto 0) signed signed.envelope.senderId := by
  have hverify := WireFormat.verifySignature_of_signAt hW (signAt_of_sign h)
  rw [WireFormat.verifySignature] at hverify
  exact verifySignature_ok.1 hverify

theorem le_status (e : HandlerError) : 400 ≤ e.status.1 := by
  rcases e with (_ | _ | (_ | _ | _ | _ | _ | _)) | _ | _
  all_goals simp [HandlerError.status]

/-! ## The server -/

/-- What the server answers to a request, once it is admitted. -/
theorem handleRequest_eq (hpassed : ∃ rows, admitMessage S.node.receiver
      σ.blobs.shared.nonces signed σ.blobs.shared.clock = .ok rows) :
    (S.node.handleRequest S.registry σ signed x).map Prod.snd =
      (S.node.dispatch S.registry σ signed x).map fun answer =>
        InboundNode.reply (answer.bind (S.node.replyTo σ signed.envelope x.nonce)) := by
  obtain ⟨rows, hrows⟩ := hpassed
  rw [InboundNode.handleRequest, hrows]
  refine (Option.map_map ..).trans ?_
  change Option.map _ (S.node.dispatch S.registry σ signed x) = _
  refine congrArg (Option.map · _) (funext fun answer => ?_)
  rcases answer with e | payload
  · rfl
  · rfl

theorem admitMessage_iff (hW : W.Conforms) (hrecipient : env.recipientId = S.node.receiver.id)
    (hsign : (W.crypto 0).signEnvelope env secret = .ok signed) :
    (∃ rows, admitMessage S.node.receiver σ.blobs.shared.nonces signed σ.blobs.shared.clock =
      .ok rows) ↔
      WithinWindow S.node.receiver.clockSkew σ.blobs.shared.clock env.timestamp ∧
        ¬NonceRow.Seen σ.blobs.shared.nonces env.senderId env.nonce := by
  have henv := envelope_of_sign hsign
  have hsigned : SignedBy S.node.receiver.crypto signed signed.envelope.senderId := by
    rw [S.crypto_eq]
    exact signedBy_of_sign hW hsign
  constructor
  · rintro ⟨rows, hrows⟩
    have hadmitted := ReplayState.admitMessage_ok hrows
    exact henv ▸ ⟨hadmitted.window, hadmitted.unseen⟩
  · rintro ⟨hwindow, hfresh⟩
    rw [← henv] at hrecipient hwindow hfresh
    exact ⟨_, Except.check_eq_ok.2 ⟨Except.mapError_eq_ok.2 (verifyEnvelope_ok.2
      ⟨hrecipient, hwindow, hsigned⟩), ReplayState.insertIfAbsent_ok.2 ⟨hfresh, rfl⟩⟩⟩

theorem successBody_respond {V : Wire} {answer : Except HandlerError SignedMessage} {body : Bytes} :
    successBody V (respond (W := W) (InboundNode.reply answer)) = .ok body ↔
      ∃ msg text, answer = .ok msg ∧ W.toJson ⟨msg, 0⟩ = .ok text ∧ utf8 text = body := by
  rcases answer with e | msg
  · exact iff_of_false (successBody_error (le_status e)) nofun
  · rcases htext : W.toJson ⟨msg, 0⟩ with e | text
    · have hresp : respond (W := W) (InboundNode.reply (.ok msg)) = ⟨500, utf8 e.toList⟩ := by
        simp only [InboundNode.reply, respond, htext]
      rw [hresp]
      refine iff_of_false (successBody_error (show 400 ≤ 500 by decide)) ?_
      rintro ⟨msg', text, hmsg, htext', -⟩
      obtain rfl := Except.ok.inj hmsg
      exact nomatch htext.symm.trans htext'
    · have hresp : respond (W := W) (InboundNode.reply (.ok msg)) = ⟨200, utf8 text⟩ := by
        simp only [InboundNode.reply, respond, htext]
      rw [hresp]
      constructor
      · intro h
        exact ⟨msg, text, rfl, htext, Except.ok.inj h⟩
      · rintro ⟨msg', text', hmsg, htext', rfl⟩
        obtain rfl := Except.ok.inj hmsg
        rw [Except.ok.inj (htext.symm.trans htext')]
        rfl

/-- A success of the server is the text of a message that it answers. -/
theorem postMessage_success {V : Wire} {body body' : Bytes} :
    (∃ resp, (S.postMessage σ body x).map Prod.snd = some resp ∧ successBody V resp = .ok body') ↔
      body.length ≤ invokeLimit ∧ ∃ signed, W.messageOf body = some signed ∧
        (∃ rows, admitMessage S.node.receiver σ.blobs.shared.nonces signed σ.blobs.shared.clock =
          .ok rows) ∧
        ∃ v reply text, S.node.dispatch S.registry σ signed x = some (.ok v) ∧
          S.node.replyTo σ signed.envelope x.nonce v = .ok reply ∧
          W.toJson ⟨reply, 0⟩ = .ok text ∧ utf8 text = body' := by
  rw [postMessage]
  split
  · next hlimit =>
    exact iff_of_false (not_success (S.rejected body)) fun h => absurd h.1 (not_le.2 hlimit)
  · next hlimit =>
    rw [and_iff_right (not_lt.1 hlimit)]
    rcases hmsg : W.messageOf body with _ | signed
    · refine iff_of_false (not_success (S.rejected body)) ?_
      rintro ⟨signed, hsigned, -⟩
      cases hsigned
    · have hmap : (((S.node.handleRequest S.registry σ signed x).map fun (σ', r) =>
          (σ', respond (W := W) r)).map Prod.snd) =
            ((S.node.handleRequest S.registry σ signed x).map Prod.snd).map (respond (W := W)) := by
        rw [Option.map_map, Option.map_map]
        rfl
      simp only [hmap, Option.some.injEq, exists_eq_left']
      -- admitted or refused: a refusal is an answer, but never a success
      rcases hpassed : admitMessage S.node.receiver σ.blobs.shared.nonces signed
        σ.blobs.shared.clock with e | rows
      · have hreply : (S.node.handleRequest S.registry σ signed x).map Prod.snd =
            some (InboundNode.reply (.error (.node e))) := by
          rw [InboundNode.handleRequest, hpassed]
          rfl
        rw [hreply]
        refine iff_of_false (not_success (le_status _)) ?_
        rintro ⟨⟨rows, hrows⟩, -⟩
        cases hrows
      · rw [handleRequest_eq ⟨rows, hpassed⟩, and_iff_right ⟨rows, rfl⟩]
        rcases S.node.dispatch S.registry σ signed x with _ | e | v
        · refine iff_of_false ?_ ?_
          · rintro ⟨resp, hresp, -⟩
            cases hresp
          · rintro ⟨v, reply, text, hv, -⟩
            cases hv
        · refine iff_of_false (not_success (le_status e)) ?_
          rintro ⟨v, reply, text, hv, -⟩
          cases hv
        · constructor
          · rintro ⟨resp, hresp, hbody⟩
            obtain rfl := Option.some.inj hresp
            obtain ⟨reply, text, hreply, htext, hbody⟩ := successBody_respond.1 hbody
            exact ⟨v, reply, text, rfl, hreply, htext, hbody⟩
          · rintro ⟨v', reply, text, hv, hreply, htext, hbody⟩
            obtain rfl := Except.ok.inj (Option.some.inj hv)
            exact ⟨_, rfl, successBody_respond.2 ⟨reply, text, hreply, htext, hbody⟩⟩

/-! ## Calls -/

theorem receive_ok {V : Wire} {r : Except String HttpResponse} {msg : SignedMessage} :
    receive V r = .ok msg ↔ ∃ resp body, r = .ok resp ∧ successBody V resp = .ok body ∧
      V.decodeMessage body = .ok msg := by
  constructor
  · intro h
    obtain ⟨resp, hresp, h⟩ := Except.bind_eq_ok.1 h
    obtain ⟨body, hbody, h⟩ := Except.bind_eq_ok.1 h
    exact ⟨resp, body, Except.mapError_eq_ok.1 hresp, hbody, Except.mapError_eq_ok.1 h⟩
  · rintro ⟨resp, body, hresp, hbody, h⟩
    exact Except.bind_eq_ok.2 ⟨resp, Except.mapError_eq_ok.2 hresp, Except.bind_eq_ok.2
      ⟨body, hbody, Except.mapError_eq_ok.2 h⟩⟩

/-- What the caller reads of the answer to a request that it signed. -/
theorem receive_exchange (hW : W.Conforms) (hrecipient : env.recipientId = S.node.receiver.id)
    (hjson : W.IsJson env.payload) (hsign : (W.crypto 0).signEnvelope env secret = .ok signed)
    (hanswer : ∀ v, S.node.dispatch S.registry σ signed x = some (.ok v) → W.IsJson v)
    {reply : SignedMessage} :
    receive (W.wire serdeError utf8Lossy) ((S.exchange σ x now nonce).post signed) = .ok reply ↔
      S.Arrives σ signed ∧ ∃ v, S.node.dispatch S.registry σ signed x = some (.ok v) ∧
        v.depth < Json.recursionLimit ∧ S.node.replyTo σ env x.nonce v = .ok reply := by
  obtain ⟨text, htext, hread⟩ := messageOf_text hW hjson hsign
  have henv := envelope_of_sign hsign
  have hpassed := admitMessage_iff (σ := σ) hW hrecipient hsign
  have hpost {resp : HttpResponse} : (S.exchange σ x now nonce).post signed = .ok resp ↔
      (S.postMessage σ (utf8 text) x).map Prod.snd = some resp := by
    have heq : (S.exchange σ x now nonce).post signed =
        (S.postMessage σ (utf8 text) x).elim (.error "no answer") fun (_, resp) => .ok resp := by
      simp only [exchange, htext]
      rfl
    rw [heq]
    rcases S.postMessage σ (utf8 text) x with _ | ⟨σ', resp'⟩
    · exact iff_of_false nofun nofun
    · exact ⟨fun h => congrArg some (Except.ok.inj h),
        fun h => congrArg Except.ok (Option.some.inj h)⟩
  -- The reply is read as it was signed, if it is not nested too deep.
  have hreply {v : Value} {reply' : SignedMessage} {text' : List Char} (hv : W.IsJson v)
      (hreply : S.node.replyTo σ env x.nonce v = .ok reply')
      (htext' : W.toJson ⟨reply', 0⟩ = .ok text') :
      W.messageOf (utf8 text') = if v.depth < Json.recursionLimit then some reply' else none := by
    rw [InboundNode.replyTo, S.crypto_eq] at hreply
    obtain ⟨text'', h, hread'⟩ := messageOf_text hW hv (Except.mapError_eq_ok.1 hreply)
    obtain rfl := Except.ok.inj (h.symm.trans htext')
    exact hread'
  have hdecode {body : Bytes} {msg : SignedMessage} :
      (W.wire serdeError utf8Lossy).decodeMessage body = .ok msg ↔ W.messageOf body = some msg :=
    Except.elim_eq_ok
  constructor
  · intro h
    obtain ⟨resp, body, hresp, hbody, hmsg⟩ := receive_ok.1 h
    obtain ⟨hlength, signed', hsigned', hrows, v, reply', text', hv, hreply', htext', rfl⟩ :=
      postMessage_success.1 ⟨resp, hpost.1 hresp, hbody⟩
    rw [hread] at hsigned'
    split at hsigned'
    · next hdepth =>
      obtain rfl := Option.some.inj hsigned'
      rw [henv] at hreply'
      rw [hdecode, hreply (hanswer v hv) hreply' htext'] at hmsg
      split at hmsg
      · next hvdepth =>
        obtain rfl := Option.some.inj hmsg
        obtain ⟨hwindow, hfresh⟩ := hpassed.1 hrows
        rw [← henv] at hdepth hwindow hfresh
        refine ⟨⟨fun t ht => ?_, hdepth, hwindow, hfresh⟩, v, hv, hvdepth, hreply'⟩
        rwa [Except.ok.inj (ht.symm.trans htext)]
      · exact nomatch hmsg
    · exact nomatch hsigned'
  · rintro ⟨harrives, v, hv, hvdepth, hreply'⟩
    obtain ⟨text', htext'⟩ : ∃ text', W.toJson ⟨reply, 0⟩ = .ok text' := by
      rw [InboundNode.replyTo, S.crypto_eq] at hreply'
      obtain ⟨text', htext', -⟩ :=
        messageOf_text hW (hanswer v hv) (Except.mapError_eq_ok.1 hreply')
      exact ⟨text', htext'⟩
    have hdepth := harrives.depth
    have hrows := hpassed.2 ⟨henv ▸ harrives.window, henv ▸ harrives.fresh⟩
    rw [henv] at hdepth
    rw [if_pos hdepth] at hread
    obtain ⟨resp, hresp, hbody⟩ := postMessage_success (V := W.wire serdeError utf8Lossy).2
      ⟨harrives.length text htext, signed, hread, hrows, v, reply, text', hv, by rwa [henv], htext',
        rfl⟩
    refine receive_ok.2 ⟨resp, _, hpost.2 hresp, hbody, hdecode.2 ?_⟩
    rw [hreply (hanswer v hv) hreply' htext', if_pos hvdepth]

/-- A call succeeds if its request arrives, and the server has an answer to it that is not
    nested too deep; the reply is this answer, signed by the server. -/
theorem sendSigned_exchange (hW : W.Conforms) (hsha : ∀ key, W.sha256 key ≠ [])
    (hjson : W.IsJson payload)
    (hanswer : ∀ signed v, signed.envelope = S.envelope self now nonce verb payload →
      S.node.dispatch S.registry σ signed x = some (.ok v) → W.IsJson v)
    {reply : SignedMessage} :
    sendSigned (W.crypto 0) (W.wire serdeError utf8Lossy) self verb payload
        (S.exchange σ x now nonce) = .ok reply ↔
      ∃ signed v, (W.crypto 0).signEnvelope (S.envelope self now nonce verb payload) self.secret =
          .ok signed ∧
        S.Arrives σ signed ∧ S.node.dispatch S.registry σ signed x = some (.ok v) ∧
          v.depth < Json.recursionLimit ∧
            S.node.replyTo σ (S.envelope self now nonce verb payload) x.nonce v = .ok reply := by
  have hid : discoverRecipient (W.wire serdeError utf8Lossy) (.ok S.health) =
      .ok S.node.receiver.id :=
    discoverRecipient_health (hsha _)
  have henv : request (W.crypto 0) self S.node.receiver.id (S.exchange σ x now nonce) verb payload =
      S.envelope self now nonce verb payload := rfl
  constructor
  · intro h
    obtain ⟨recipient, signed, hd, hsign, hreceive, -⟩ := sendSigned_ok.1 h
    obtain rfl : S.node.receiver.id = recipient := Except.ok.inj (hid.symm.trans hd)
    rw [henv] at hsign
    obtain ⟨harrives, v, hv, hdepth, hreply⟩ :=
      (receive_exchange hW rfl hjson hsign fun v =>
        hanswer signed v (envelope_of_sign hsign)).1 hreceive
    exact ⟨signed, v, hsign, harrives, hv, hdepth, hreply⟩
  · rintro ⟨signed, v, hsign, harrives, hv, hdepth, hreply⟩
    -- the reply is signed by the server, so the checks of the sender pass
    have hsignReply := hreply
    rw [InboundNode.replyTo, S.crypto_eq] at hsignReply
    have hsignReply := Except.mapError_eq_ok.1 hsignReply
    have hreplyEnv := envelope_of_sign hsignReply
    have hsigned := signedBy_of_sign hW hsignReply
    rw [hreplyEnv] at hsigned
    refine sendSigned_ok.2 ⟨S.node.receiver.id, signed, hid, hsign,
      (receive_exchange hW rfl hjson hsign fun v =>
        hanswer signed v (envelope_of_sign hsign)).2 ⟨harrives, v, hv, hdepth, hreply⟩,
      hsigned, ?_, ?_⟩
    · rw [hreplyEnv]
      rfl
    · rw [hreplyEnv]

/-- The reply to a request carries the answer. -/
theorem payload_of_replyTo {reply : SignedMessage} {v : Value}
    (h : S.node.replyTo σ env x.nonce v = .ok reply) : reply.envelope.payload = v := by
  rw [InboundNode.replyTo, S.crypto_eq] at h
  rw [envelope_of_sign (Except.mapError_eq_ok.1 h)]

/-- Over a network that delivers what it is given, a caller gets an answer exactly if it
    can sign its request, which arrives, this is what the server answers, and it is
    not nested too deep and can be signed. -/
theorem call_iff (hW : W.Conforms) (hsha : ∀ key, W.sha256 key ≠ []) (hjson : W.IsJson payload)
    (hanswer : ∀ signed v, signed.envelope = S.envelope self now nonce verb payload →
      S.node.dispatch S.registry σ signed x = some (.ok v) → W.IsJson v) {v : Value} :
    (∃ reply, sendSigned (W.crypto 0) (W.wire serdeError utf8Lossy) self verb payload
        (S.exchange σ x now nonce) = .ok reply ∧ reply.envelope.payload = v) ↔
      ∃ signed reply,
        (W.crypto 0).signEnvelope (S.envelope self now nonce verb payload) self.secret =
          .ok signed ∧
        S.Arrives σ signed ∧ S.node.dispatch S.registry σ signed x = some (.ok v) ∧
          v.depth < Json.recursionLimit ∧
            S.node.replyTo σ (S.envelope self now nonce verb payload) x.nonce v = .ok reply := by
  constructor
  · rintro ⟨reply, hreply, rfl⟩
    obtain ⟨signed, v, hsign, harrives, hv, hdepth, hreply⟩ :=
      (sendSigned_exchange hW hsha hjson hanswer).1 hreply
    rw [payload_of_replyTo hreply]
    exact ⟨signed, reply, hsign, harrives, hv, hdepth, hreply⟩
  · rintro ⟨signed, reply, hsign, harrives, hv, hdepth, hreply⟩
    exact ⟨reply, (sendSigned_exchange hW hsha hjson hanswer).2
      ⟨signed, v, hsign, harrives, hv, hdepth, hreply⟩, payload_of_replyTo hreply⟩

/-! ## A small network -/

/-- A format with one signature, where the first byte of a key is its hash. -/
def toyNet : WireFormat :=
  { WireFormat.toyFormat with
    sha256 := fun key => [key.headD 0]
    sign := fun _ _ => List.replicate signatureBytes 0
    verify := fun _ _ _ => true }

theorem toyNet_conforms : toyNet.Conforms where
  isKey := WireFormat.toyFormat_conforms.isKey
  length_sign _ _ := List.length_replicate
  verify _ _ := rfl
  parseTime := WireFormat.toyFormat_conforms.parseTime
  jcs := WireFormat.toyFormat_conforms.jcs

theorem sha256_toyNet (key : Bytes) : toyNet.sha256 key ≠ [] := List.cons_ne_nil _ _

/-- A node at the first instant, which has seen no nonce. -/
def toyServer (registry : CapabilityRegistry) : Server toyNet where
  node := {
    receiver := ⟨toyNet.crypto 0, toyNet.idOf [2], 0⟩
    secret := [2]
    endpoint := none
    aliasName := none
    lobes := []
    codec := toyNet.codec fun _ => "invalid"
    rfc3339 := fun _ => .ok "1970-01-01T00:00:00Z"
    fromUnixTimestamp := fun _ => none
    decodeTicketWire := fun _ => .error "invalid"
    payloadError := fun _ => "invalid"
    isHeaderValue := hexNode.isHeaderValue
    blobsRoot := none
    blobsDir := none }
  registry := registry
  version := "0.3.0"
  rejection _ := ⟨400, []⟩
  serdeError _ := "invalid"
  crypto_eq := rfl
  id_eq := rfl
  codec_eq := rfl
  rejected _ := le_rfl

def toyState : InboundState := ⟨BlobPool.fresh, ∅⟩

/-- A node that calls it. -/
def toySelf : Caller := ⟨[1], none⟩

def toyEcho : CapabilityDescriptor where
  name := "echo"
  schemaIn := .object []
  schemaOut := .object []
  description := ""
  mode := .free
  pricing := none
  tags := []
  lobeIds := []
  examples := [⟨"", .object [], .object []⟩]
  disambiguation := none
  negativeExamples := []
  outputSemantic := none
  version := "0.1.0"
  languages := []
  countries := []

/-- What a message finds at a node whose capabilities give back their arguments. -/
def toyOutside (decls : List CapabilityDescriptor) : Outside :=
  ⟨decls, [], fun _ _ args => .ok args, "m"⟩

variable {registry : CapabilityRegistry} {verb : ProtocolVerb} {payload v : Value}

theorem toyNet_sign {env : Envelope} {secret : Bytes} (hid : env.senderId = toyNet.idOf secret)
    (htime : env.timestamp = 0) : (toyNet.crypto 0).signEnvelope env secret =
      .ok ⟨env, toyNet.publicKey secret,
        String.ofList (Radix.hexLower.encode (List.replicate signatureBytes 0))⟩ := by
  have hbytes : toyNet.canonicalBytes 0 env =
      .ok (utf8 (toyNet.jcs.toText (.object (env.fields "1970-01-01T00:00:00Z")))) := by
    rw [WireFormat.canonicalBytes, htime]
    rfl
  obtain ⟨signed, hsigned, h⟩ :=
    Except.map_eq_ok.1 (WireFormat.signAt_eq_ok.2 ⟨_, hbytes, hid, rfl⟩)
  exact hsigned.trans (congrArg (fun m : WireMessage => Except.ok m.message) h)

theorem length_utf8_le (cs : List Char) : (utf8 cs).length ≤ 4 * cs.length := by
  have hsize : (utf8 cs).length = cs.utf8Encode.size := by
    rw [utf8, String.toByteArray_ofList]
    rfl
  rw [hsize]
  clear hsize
  induction cs with
  | nil => exact Nat.le_refl _
  | cons c cs ih =>
    have hc : (String.utf8EncodeChar c).length ≤ 4 := by
      rw [String.length_utf8EncodeChar]
      exact c.utf8Size_le_four
    rw [List.utf8Encode_cons, ByteArray.size_append, List.utf8Encode_singleton,
      List.size_toByteArray, List.length_cons]
    omega

theorem length_quote_le (s : String) : (Value.quote s).length ≤ 6 * s.toList.length + 2 := by
  have hescape : ∀ c, (Value.escape c).length ≤ 6 := by
    intro c
    rw [Value.escape]
    split
    case h_8 =>
      split
      all_goals exact Nat.le_of_ble_eq_true rfl
    all_goals exact Nat.le_of_ble_eq_true rfl
  have hflat : ∀ cs : List Char, (cs.flatMap Value.escape).length ≤ 6 * cs.length := by
    intro cs
    induction cs with
    | nil => exact Nat.le_refl _
    | cons c cs ih =>
      have hc := hescape c
      rw [List.flatMap_cons, List.length_append, List.length_cons]
      omega
  have hs := hflat s.toList
  rw [Value.quote, List.length_append, List.length_cons, List.length_singleton]
  omega

theorem length_renderFields_le {l : List (String × Value)} {a b : ℕ}
    (h : ∀ x ∈ l, (Value.quote x.1).length ≤ a ∧ x.2.render.length ≤ b) :
    (Value.renderFields l).length ≤ l.length * (a + b + 2) := by
  induction l with
  | nil => exact Nat.zero_le _
  | cons x l ih =>
    obtain ⟨⟨hk, hv⟩, hl⟩ := List.forall_mem_cons.1 h
    have hrest := ih hl
    obtain ⟨k, v⟩ := x
    simp only at hk hv
    rcases l with _ | ⟨y, l⟩
    · simp only [Value.renderFields, List.length_append, List.length_cons, List.length_nil]
      omega
    · have hrender : Value.renderFields ((k, v) :: y :: l) =
          Value.quote k ++ ':' :: v.render ++ ',' :: Value.renderFields (y :: l) := rfl
      rw [hrender, List.length_cons, Nat.add_mul]
      simp only [List.length_append, List.length_cons] at hrest ⊢
      omega

/-- A short request arrives. -/
theorem toy_arrives (registry : CapabilityRegistry) (verb : ProtocolVerb)
    (hdepth : payload.depth < Json.recursionLimit) (hpayload : payload.render.length ≤ 1000) :
    ∃ signed, (toyNet.crypto 0).signEnvelope
      ((toyServer registry).envelope toySelf 0 "n" verb payload) toySelf.secret = .ok signed ∧
        (toyServer registry).Arrives toyState signed := by
  -- every field is short, so that the whole text stays below the limit of the body
  have hquote {s : String} (hs : s.toList.length ≤ 128) : (Value.quote s).length ≤ 1000 :=
    (length_quote_le s).trans (by omega)
  have hid {b : UInt8} (hb : (Radix.base32.encode [b]).length ≤ 2) :
      (toyNet.idOf [b]).toList.length ≤ 128 := by
    have htake : (toyNet.sha256 (toyNet.publicKey [b])).take idHashBytes = [b] := rfl
    rw [WireFormat.idOf, Crypto.instanceId, String.toList_append, List.length_append]
    simp only [WireFormat.crypto, String.toList_ofList, List.length_map, htake]
    exact (Nat.add_le_add (show idPrefix.toList.length ≤ 3 by decide) hb).trans (by decide)
  have hkey : (keyText (toyNet.publicKey [1])).toList.length ≤ 128 := by
    rw [keyText, String.toList_ofList, List.length_map]
    decide +kernel
  have hsignature : (String.ofList (Radix.hexLower.encode
      (List.replicate signatureBytes 0))).toList.length ≤ 128 := by
    rw [String.toList_ofList]
    decide +kernel
  have hverb : verb.text.toList.length ≤ 128 := by
    cases verb
    all_goals decide
  refine ⟨_, toyNet_sign rfl rfl, fun text htext => ?_, hdepth, ?_, ?_⟩
  · have hfields := length_renderFields_le (a := 1000) (b := 1000) (l := WireFormat.fields
      ⟨(toyServer registry).envelope toySelf 0 "n" verb payload, toyNet.publicKey [1],
        String.ofList (Radix.hexLower.encode (List.replicate signatureBytes 0))⟩
      "1970-01-01T00:00:00Z") (by
        simp only [WireFormat.fields, Envelope.fields, envelope, toySelf, Option.map_none,
          Option.toList_none, List.append_nil, List.cons_append, List.nil_append,
          List.forall_mem_cons, Value.render]
        exact ⟨⟨hquote (by decide), hquote (hid (by decide +kernel))⟩,
          ⟨hquote (by decide), hquote (hid (by decide +kernel))⟩,
          ⟨hquote (by decide), hquote (by decide)⟩, ⟨hquote (by decide), hquote (by decide)⟩,
          ⟨hquote (by decide), hquote hverb⟩, ⟨hquote (by decide), hpayload⟩,
          ⟨hquote (by decide), hquote hkey⟩, ⟨hquote (by decide), hquote hsignature⟩,
          List.forall_mem_nil _⟩)
    refine (length_utf8_le text).trans ?_
    obtain rfl := Except.ok.inj htext
    change 4 * ('{' :: Value.renderFields _ ++ ['}']).length ≤ 1024 * 1024
    rw [List.length_append, List.length_cons, List.length_singleton]
    exact (Nat.mul_le_mul_left 4 (Nat.add_le_add_right (Nat.succ_le_succ hfields) 1)).trans
      (show 4 * ((8 * (1000 + 1000 + 2)).succ + 1) ≤ 1024 * 1024 by decide)
  · change WithinWindow 0 0 0
    decide
  · rintro ⟨row, hrow, -⟩
    exact absurd hrow List.not_mem_nil

theorem toy_replies {env : Envelope} {v : Value} (nonce : String) :
    ∃ reply, (toyServer registry).node.replyTo toyState env nonce v = .ok reply :=
  ⟨_, Except.mapError_eq_ok.2 (toyNet_sign rfl rfl)⟩

/-- A first ping is answered. -/
theorem call_iff_ping : ∃ reply, sendSigned (toyNet.crypto 0)
    (toyNet.wire (fun _ => "invalid") fun _ => "") toySelf .ping (.object [])
    ((toyServer .empty).exchange toyState ⟨[], [], fun _ _ _ => .error (.adapter "none"), "m"⟩ 0
      "n") = .ok reply ∧
    reply.envelope.payload = .object [("server_time", .string "1970-01-01T00:00:00Z")] := by
  obtain ⟨signed, hsign, harrives⟩ := toy_arrives .empty .ping
    (show (Value.object []).depth < Json.recursionLimit by decide) (by decide)
  obtain ⟨reply, hreply⟩ := toy_replies "m"
  refine (call_iff toyNet_conforms sha256_toyNet ?_ ?_).2
    ⟨signed, reply, hsign, harrives, ?_, by decide, hreply⟩
  · exact ⟨⟨List.Pairwise.nil, trivial⟩, List.forall_mem_nil _⟩
  · intro signed v henv hv
    rw [InboundNode.dispatch, henv] at hv
    obtain rfl := Except.ok.inj (Option.some.inj hv)
    exact ⟨⟨List.pairwise_singleton _ _, trivial, trivial⟩, List.forall_mem_nil _⟩
  · rw [InboundNode.dispatch, envelope_of_sign hsign]
    rfl

end Server

end N3ur0n
