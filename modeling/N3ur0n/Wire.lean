import N3ur0n.Blobs.Ticket
import N3ur0n.Canonical
import N3ur0n.Lib.Cut
import N3ur0n.Lib.Radix

/-!
# Messages on the wire

A signed message is a JSON object: the fields of its envelope, the endpoint of
the sender only if it is given, then the key of the sender, in Base32, and the
signature, in hexadecimal. A ticket travels in a header, as the Base64 of this
text. What is signed are the canonical bytes of the envelope, which a receiver
works out anew from what it read.

* `readBack`: a message that its sender signed is read back, from its text and
  from a header, and its signature is accepted, exactly if the payload is not
  nested deeper than `serde_json` reads;
* `same_of_canonicalBytes`: envelopes with the same signed bytes are the same,
  if their numbers are written exactly, up to numbers that are kept as integers
  in one and as doubles in the other.

The primitives, the doubles and the calendar are parameters (`WireFormat`).
-/

namespace N3ur0n

/-! ## Bytes of texts -/

/-- The bytes of a text, in UTF-8. -/
def utf8 (cs : List Char) : Bytes := (String.ofList cs).toByteArray.data.toList

/-- The text of some bytes, if they are one. -/
def ofUtf8 (bytes : Bytes) : Option (List Char) :=
  (ByteArray.mk bytes.toArray).utf8Decode?.map Array.toList

theorem ofUtf8_utf8 (cs : List Char) : ofUtf8 (utf8 cs) = some cs := by
  have hdecode : cs.utf8Encode.utf8Decode? = some cs.toArray := List.utf8Decode?_utf8Encode
  rw [ofUtf8, utf8, Array.toArray_toList, String.toByteArray_ofList, hdecode, Option.map_some]

theorem utf8_injective : Function.Injective utf8 := by
  intro s t h
  have hs := ofUtf8_utf8 s
  rw [h, ofUtf8_utf8] at hs
  exact (Option.some.inj hs).symm

/-! ## Fields -/

/-- The values under a name: a field that occurs twice is an error. -/
def single (fields : List (String × Value)) (name : String) : Option (Option Value) :=
  match fields.filter fun x => x.1 = name with
  | [] => some none
  | [x] => some (some x.2)
  | _ => none

def required {α : Type} (fields : List (String × Value)) (name : String)
    (parse : Value → Option α) : Option α :=
  (single fields name).bind fun v => v.bind parse

/-- The value under a name is that of the first field of this name. -/
theorem lookup_of_single {fs : List (String × Value)} {name : String} {o : Option Value}
    (h : single fs name = some o) : fs.lookup name = o := by
  induction fs with
  | nil => exact Option.some.inj h
  | cons x fs ih =>
    obtain ⟨k, v⟩ := x
    rw [single] at h
    by_cases hname : k = name
    · subst hname
      rw [List.filter_cons_of_pos (by simp)] at h
      rw [List.lookup_cons_self]
      generalize (fs.filter fun x => x.1 = k) = l at h
      rcases l with _ | ⟨y, l⟩
      · exact Option.some.inj h
      · exact absurd h (Option.some_ne_none o).symm
    · rw [List.filter_cons_of_neg (by simpa using hname)] at h
      rw [List.lookup_cons, beq_false_of_ne (Ne.symm hname)]
      exact ih h

def ProtocolVerb.text : ProtocolVerb → String
  | .describeSelf => "describe_self"
  | .getKnownPeers => "get_known_peers"
  | .ping => "ping"
  | .invoke => "invoke"
  | .blobTicket => "blob_ticket"

def ProtocolVerb.ofValue (v : Value) : Option ProtocolVerb :=
  match BlobTicketPayload.tag v with
  | some "describe_self" => some .describeSelf
  | some "get_known_peers" => some .getKnownPeers
  | some "ping" => some .ping
  | some "invoke" => some .invoke
  | some "blob_ticket" => some .blobTicket
  | _ => none

/-- The fields of an envelope, whose timestamp has the text `ts`. -/
def Envelope.fields (env : Envelope) (ts : String) : List (String × Value) :=
  [("sender_id", .string env.senderId), ("recipient_id", .string env.recipientId),
    ("timestamp", .string ts), ("nonce", .string env.nonce), ("verb", .string env.verb.text),
    ("payload", env.payload)] ++
    (env.senderEndpoint.map fun e => ("sender_endpoint", .string e)).toList

/-! ## Keys -/

/-- The upper case of a character, among those that it matters for here: a few
    letters outside of ASCII have an upper case in it. -/
def uppercase (c : Char) : List Char :=
  match c.toNat with
  | 0xDF => ['S', 'S']
  | 0x131 => ['I']
  | 0x17F => ['S']
  | 0xFB00 => ['F', 'F']
  | 0xFB01 => ['F', 'I']
  | 0xFB02 => ['F', 'L']
  | 0xFB03 => ['F', 'F', 'I']
  | 0xFB04 => ['F', 'F', 'L']
  | 0xFB05 => ['S', 'T']
  | 0xFB06 => ['S', 'T']
  | _ => [c.toUpper]

def publicKeyBytes : ℕ := 32

/-- `verifying_key_bytes::serialize`. -/
def keyText (key : Bytes) : String := String.ofList ((Radix.base32.encode key).map Char.toLower)

/-- What the messages are made with: SHA-256, Ed25519 and its keys, the numbers
    of canonical texts, the text of the double next to a number, the texts of
    RFC 3339 for an instant at an offset to UTC (in nanoseconds and seconds), and
    the text of an error in hexadecimal digits. -/
structure WireFormat where
  sha256 : Bytes → Bytes
  publicKey : Bytes → Bytes
  sign : Bytes → Bytes → Bytes
  verify : Bytes → Bytes → Bytes → Bool
  isKey : Bytes → Bool
  jcs : Jcs
  nearest : String → Option String
  formatTime : ℤ → ℤ → Except String String
  parseTime : String → Option (ℤ × ℤ)
  hexError : String → String

/-- A message, and the offset of its timestamp to UTC. -/
structure WireMessage where
  message : SignedMessage
  offset : ℤ

namespace WireFormat

variable (W : WireFormat)

/-- `verifying_key_bytes::deserialize`. -/
def keyOf (v : Value) : Option Bytes := do
  let encoded ← BlobTicketPayload.stringOf v
  let bytes ← Radix.base32.decode (encoded.toList.flatMap uppercase)
  if bytes.length = publicKeyBytes ∧ W.isKey bytes then some bytes else none

/-- `Envelope::canonical_bytes`, of an envelope with its timestamp at an offset. -/
def canonicalBytes (offset : ℤ) (env : Envelope) : Except String Bytes :=
  (W.formatTime env.timestamp offset).map fun ts => utf8 (W.jcs.toText (.object (env.fields ts)))

def crypto (offset : ℤ) : Crypto where
  sha256 := W.sha256
  base32 bytes := String.ofList (Radix.base32.encode bytes)
  encodeHex bytes := String.ofList (Radix.hexLower.encode bytes)
  decodeHex s := (Radix.hexLower.decode s.toList).elim (.error (W.hexError s)) .ok
  publicKey := W.publicKey
  sign := W.sign
  verify := W.verify
  canonicalBytes := W.canonicalBytes offset

/-- `Envelope::sign`. -/
def signAt (offset : ℤ) (env : Envelope) (secret : Bytes) : Except CoreError WireMessage :=
  ((W.crypto offset).signEnvelope env secret).map fun msg => ⟨msg, offset⟩

/-- `SignedMessage::verify_signature`. -/
def verifySignature (m : WireMessage) : Except CoreError Unit :=
  (W.crypto m.offset).verifySignature m.message

/-! ## Texts -/

/-- The fields of a message, whose timestamp has the text `ts`. -/
def fields (msg : SignedMessage) (ts : String) : List (String × Value) :=
  msg.envelope.fields ts ++ [("sender_public_key", .string (keyText msg.senderPublicKey)),
    ("signature", .string msg.signature)]

/-- The JSON text of a message. -/
def toJson (m : WireMessage) : Except String (List Char) :=
  (W.formatTime m.message.envelope.timestamp m.offset).map fun ts =>
    (Value.object (fields m.message ts)).render

def ofFields (fs : List (String × Value)) : Option WireMessage := do
  let senderId ← required fs "sender_id" BlobTicketPayload.stringOf
  let recipientId ← required fs "recipient_id" BlobTicketPayload.stringOf
  let (timestamp, offset) ← required fs "timestamp" fun v =>
    (BlobTicketPayload.stringOf v).bind W.parseTime
  let nonce ← required fs "nonce" BlobTicketPayload.stringOf
  let verb ← required fs "verb" ProtocolVerb.ofValue
  let payload ← required fs "payload" some
  let endpoint ← (single fs "sender_endpoint").bind
    (BlobTicketPayload.optional BlobTicketPayload.stringOf)
  let key ← required fs "sender_public_key" W.keyOf
  let signature ← required fs "signature" BlobTicketPayload.stringOf
  return ⟨⟨⟨senderId, recipientId, timestamp, nonce, verb, payload.collect, endpoint⟩, key,
    signature⟩, offset⟩

/-- The message of a JSON text, if it is one. -/
def ofJson (text : List Char) : Option WireMessage :=
  (Json.readText (Json.numberOf W.nearest) Json.recursionLimit text).bind fun
    | .object fs => W.ofFields fs
    | _ => none

def encodeTicketWire (m : WireMessage) : Except CoreError String :=
  ((W.toJson m).mapError .canonical).map fun text =>
    String.ofList (Radix.base64Url.encode (utf8 text))

def decodeTicketWire (header : String) : Option WireMessage := do
  let bytes ← Radix.base64Url.decode (Cut.trim isWhitespace header.toList)
  let text ← ofUtf8 bytes
  W.ofJson text

/-- What is relied on: keys are of 32 bytes and signatures of 64, a signature is
    verified with the key of the secret that made it, and a time is read from its
    text; and the numbers of canonical texts are as they should. -/
structure Conforms : Prop where
  isKey : ∀ secret, (W.publicKey secret).length = publicKeyBytes ∧ W.isKey (W.publicKey secret)
  length_sign : ∀ secret bytes, (W.sign secret bytes).length = signatureBytes
  verify : ∀ secret bytes, W.verify (W.publicKey secret) bytes (W.sign secret bytes)
  parseTime : ∀ t o s, W.formatTime t o = .ok s → W.parseTime s = some (t, o)
  jcs : W.jcs.Conforms

variable {W} {m : WireMessage} {msg : SignedMessage} {env : Envelope} {ts : String} {offset : ℤ}
  {secret : Bytes}

/-! ## Reading back -/

theorem flatMap_uppercase {cs : List Char} (h : ∀ c ∈ cs, c ∈ Radix.base32.alphabet) :
    (cs.map Char.toLower).flatMap uppercase = cs := by
  have hchar : ∀ c ∈ Radix.base32.alphabet, uppercase c.toLower = [c] := by decide +kernel
  induction cs with
  | nil => rfl
  | cons c cs ih =>
    obtain ⟨hc, hcs⟩ := List.forall_mem_cons.1 h
    rw [List.map_cons, List.flatMap_cons, hchar c hc, ih hcs, List.singleton_append]

theorem keyOf_keyText {key : Bytes} (hlength : key.length = publicKeyBytes) (hkey : W.isKey key) :
    W.keyOf (.string (keyText key)) = some key := by
  have hupper : ((Radix.base32.encode key).map Char.toLower).flatMap uppercase =
      Radix.base32.encode key :=
    flatMap_uppercase fun c hc => Radix.mem_alphabet_of_mem_encode hc
  simp only [keyOf, BlobTicketPayload.stringOf, Option.bind_eq_bind, Option.bind_some, keyText,
    String.toList_ofList, hupper, Radix.decode_encode]
  exact if_pos ⟨hlength, hkey⟩

theorem ofValue_text (verb : ProtocolVerb) : ProtocolVerb.ofValue (.string verb.text) = some verb := by
  cases verb
  all_goals rfl

/-- The fields of a message are those that are read. -/
theorem ofFields_fields (hts : W.parseTime ts = some (msg.envelope.timestamp, offset))
    (hkey : W.keyOf (.string (keyText msg.senderPublicKey)) = some msg.senderPublicKey)
    (hpayload : msg.envelope.payload.collect = msg.envelope.payload) :
    W.ofFields (fields msg ts) = some ⟨msg, offset⟩ := by
  obtain ⟨⟨senderId, recipientId, timestamp, nonce, verb, payload, endpoint⟩, key, signature⟩ := msg
  rcases endpoint with _ | e
  all_goals
    simp [ofFields, required, single, fields, Envelope.fields, BlobTicketPayload.stringOf,
      BlobTicketPayload.optional, hts, hkey, hpayload, ofValue_text]

theorem numbers_fields : Value.numbersFields (fields msg ts) = msg.envelope.payload.numbers := by
  obtain ⟨⟨_, _, _, _, _, _, _ | e⟩, _, _⟩ := msg
  all_goals simp [fields, Envelope.fields, Value.numbersFields, Value.numbers]

theorem depth_fields : Value.depthFields (fields msg ts) = msg.envelope.payload.depth := by
  obtain ⟨⟨_, _, _, _, _, _, _ | e⟩, _, _⟩ := msg
  all_goals simp [fields, Envelope.fields, Value.depthFields, Value.depth]

/-- A payload of `serde_json`: the keys of its objects are in order, and its
    numbers are those that are read from a text. -/
def IsJson (W : WireFormat) (v : Value) : Prop :=
  v.Ordered id ∧ ∀ n ∈ v.numbers, n.Valid W.nearest

theorem toJson_eq_ok (hts : W.formatTime m.message.envelope.timestamp m.offset = .ok ts) :
    W.toJson m = .ok (Value.object (fields m.message ts)).render := by
  rw [toJson, hts]
  rfl

/-- The text of a message is read as the message, exactly if the payload is not
    nested too deep. -/
theorem ofJson_toJson (hW : W.Conforms) {text : List Char} (h : W.toJson m = .ok text)
    (hjson : W.IsJson m.message.envelope.payload)
    (hkey : W.keyOf (.string (keyText m.message.senderPublicKey)) = some m.message.senderPublicKey) :
    W.ofJson text =
      if m.message.envelope.payload.depth < Json.recursionLimit then some m else none := by
  obtain ⟨msg, offset⟩ := m
  obtain ⟨ts, hts, rfl⟩ := Except.map_eq_ok.1 h
  obtain ⟨hordered, hvalid⟩ := hjson
  have hnumbers : ∀ n ∈ (Value.object (fields msg ts)).numbers,
      Value.ReadsNumber (Json.numberOf W.nearest) n := by
    intro n hn
    rw [Value.numbers, numbers_fields] at hn
    exact (hvalid n hn).readsNumber
  rw [ofJson, Value.readText_render hnumbers, Value.within, Value.depth, depth_fields]
  change Option.bind (if msg.envelope.payload.depth < _ then _ else _) _ = _
  split
  · exact ofFields_fields (hW.parseTime _ _ _ hts) hkey (Value.sortBy_of_ordered hordered)
  · rfl

/-- A ticket is read from its header as from its text. -/
theorem decodeTicketWire_of_encode {header : String} (h : W.encodeTicketWire m = .ok header) :
    ∃ text, W.toJson m = .ok text ∧ W.decodeTicketWire header = W.ofJson text := by
  obtain ⟨text, htext, rfl⟩ := Except.map_eq_ok.1 h
  have htrim : Cut.trim isWhitespace (Radix.base64Url.encode (utf8 text)) =
      Radix.base64Url.encode (utf8 text) := by
    have hchar : ∀ c ∈ Radix.base64Url.alphabet, isWhitespace c = false := by decide +kernel
    exact Cut.trim_of_forall fun c hc => hchar c (Radix.mem_alphabet_of_mem_encode hc)
  refine ⟨text, Except.mapError_eq_ok.1 htext, ?_⟩
  rw [decodeTicketWire, String.toList_ofList, htrim, Radix.decode_encode]
  simp only [Option.bind_eq_bind, Option.bind_some, ofUtf8_utf8]

/-! ## Signing -/

/-- What a message is that its sender signed. -/
theorem signAt_eq_ok : W.signAt offset env secret = .ok m ↔
    ∃ bytes, W.canonicalBytes offset env = .ok bytes ∧
      env.senderId = (W.crypto offset).instanceId (W.publicKey secret) ∧
      ⟨⟨env, W.publicKey secret, (W.crypto offset).encodeHex (W.sign secret bytes)⟩, offset⟩ = m := by
  constructor
  · intro h
    obtain ⟨msg, hmsg, rfl⟩ := Except.map_eq_ok.1 h
    obtain ⟨hid, hmsg⟩ := Except.check_eq_ok.1 hmsg
    obtain ⟨bytes, hbytes, hmsg⟩ := Except.bind_eq_ok.1 hmsg
    obtain rfl := Except.ok.inj hmsg
    exact ⟨bytes, Except.mapError_eq_ok.1 hbytes, not_not.1 (Except.reject_eq_ok.1 hid), rfl⟩
  · rintro ⟨bytes, hbytes, hid, rfl⟩
    refine Except.map_eq_ok.2 ⟨_, Except.check_eq_ok.2 ⟨?_, ?_⟩, rfl⟩
    · exact Except.reject_eq_ok.2 (not_not.2 hid)
    · exact Except.bind_eq_ok.2 ⟨bytes, Except.mapError_eq_ok.2 hbytes, rfl⟩

theorem decodeSignature_encodeHex {sig : Bytes} (h : sig.length = signatureBytes) :
    (W.crypto offset).decodeSignature ((W.crypto offset).encodeHex sig) = .ok sig := by
  have hdecode : (W.crypto offset).decodeHex ((W.crypto offset).encodeHex sig) = .ok sig := by
    simp only [crypto, String.toList_ofList, Radix.decode_encode, Option.elim_some]
  refine Except.bind_eq_ok.2 ⟨sig, Except.mapError_eq_ok.2 hdecode, ?_⟩
  exact if_pos h

/-- The signature of a message is accepted. -/
theorem verifySignature_of_signAt (hW : W.Conforms) (h : W.signAt offset env secret = .ok m) :
    W.verifySignature m = .ok () := by
  obtain ⟨bytes, hbytes, hid, rfl⟩ := signAt_eq_ok.1 h
  refine verifySignature_ok.2 ⟨hid.symm, bytes, W.sign secret bytes, ?_, ?_, hW.verify secret bytes⟩
  · exact Except.mapError_eq_ok.2 hbytes
  · exact decodeSignature_encodeHex (hW.length_sign secret bytes)

/-- A message that its sender signed has a text, which is read as the message,
    exactly if the payload is not nested too deep. -/
theorem ofJson_of_signAt (hW : W.Conforms) (hjson : W.IsJson env.payload)
    (h : W.signAt offset env secret = .ok m) : ∃ text, W.toJson m = .ok text ∧
      W.ofJson text = if env.payload.depth < Json.recursionLimit then some m else none := by
  obtain ⟨bytes, hbytes, -, rfl⟩ := signAt_eq_ok.1 h
  obtain ⟨ts, hts, -⟩ := Except.map_eq_ok.1 hbytes
  obtain ⟨hlength, hkey⟩ := hW.isKey secret
  have htext := toJson_eq_ok (m := ⟨⟨env, W.publicKey secret,
    (W.crypto offset).encodeHex (W.sign secret bytes)⟩, offset⟩) hts
  exact ⟨_, htext, ofJson_toJson hW htext hjson (keyOf_keyText hlength hkey)⟩

/-! ## The signed bytes -/

/-- The fields of an envelope, in the order of their names. -/
def orderedFields (env : Envelope) (ts : String) : List (String × Value) :=
  [("nonce", .string env.nonce), ("payload", env.payload),
    ("recipient_id", .string env.recipientId)] ++
    (env.senderEndpoint.map fun e => ("sender_endpoint", .string e)).toList ++
    [("sender_id", .string env.senderId), ("timestamp", .string ts), ("verb", .string env.verb.text)]

theorem nodup_fields : (env.fields ts).Nodup := by
  have hnames : (env.fields ts).map Prod.fst =
      ["sender_id", "recipient_id", "timestamp", "nonce", "verb", "payload"] ++
        (env.senderEndpoint.map fun _ => "sender_endpoint").toList := by
    obtain ⟨_, _, _, _, _, _, _ | e⟩ := env
    all_goals rfl
  refine List.Nodup.of_map Prod.fst ?_
  rw [hnames]
  rcases env.senderEndpoint with _ | e
  · decide
  · rw [Option.map_some]
    decide

theorem inOrder_orderedFields : Sorted.InOrder id (orderedFields env ts) := by
  have hnames : (orderedFields env ts).map Prod.fst = ["nonce", "payload", "recipient_id"] ++
      (env.senderEndpoint.map fun _ => "sender_endpoint").toList ++
        ["sender_id", "timestamp", "verb"] := by
    obtain ⟨_, _, _, _, _, _, _ | e⟩ := env
    all_goals rfl
  have hpairs : ((orderedFields env ts).map Prod.fst).Pairwise (· < ·) := by
    rw [hnames]
    rcases env.senderEndpoint with _ | e
    · decide
    · rw [Option.map_some]
      decide
  exact List.pairwise_map.1 hpairs

theorem orderedFields_perm : (env.fields ts).Perm (orderedFields env ts) := by
  have hnodup : (orderedFields env ts).Nodup :=
    List.Nodup.of_map Prod.fst inOrder_orderedFields.nodup
  refine (List.perm_ext_iff_of_nodup nodup_fields hnodup).2 fun x => ?_
  obtain ⟨_, _, _, _, _, _, _ | e⟩ := env
  all_goals
    simp only [Envelope.fields, orderedFields, Option.map_none, Option.map_some, Option.toList_none,
      Option.toList_some, List.append_nil, List.cons_append, List.nil_append, List.mem_cons,
      List.not_mem_nil]
    tauto

theorem ordered_orderedFields (h : env.payload.Ordered id) :
    (Value.object (orderedFields env ts)).Ordered id := by
  refine ⟨inOrder_orderedFields, ?_⟩
  obtain ⟨_, _, _, _, _, _, _ | e⟩ := env
  all_goals
    simp only [orderedFields, Value.OrderedFields, Value.Ordered, Option.map_none, Option.map_some,
      Option.toList_none, Option.toList_some, List.cons_append, List.nil_append, true_and, and_true]
    exact h

theorem text_injective : Function.Injective ProtocolVerb.text := by
  intro v w h
  have hv := ofValue_text v
  rw [h, ofValue_text] at hv
  exact (Option.some.inj hv).symm

/-- The envelopes are the same, up to numbers of the payload that are kept as
    integers in one and as doubles in the other. -/
structure Same (W : WireFormat) (offset offset' : ℤ) (env env' : Envelope) : Prop where
  senderId : env.senderId = env'.senderId
  recipientId : env.recipientId = env'.recipientId
  timestamp : (env.timestamp, offset) = (env'.timestamp, offset')
  nonce : env.nonce = env'.nonce
  verb : env.verb = env'.verb
  payload : W.jcs.Same env.payload env'.payload
  senderEndpoint : env.senderEndpoint = env'.senderEndpoint

/-- A payload whose canonical text is faithful: the keys of its objects are in
    order, and its numbers are written exactly. -/
def IsExact (W : WireFormat) (v : Value) : Prop := v.Ordered id ∧ ∀ n ∈ v.numbers, W.jcs.Exact n

theorem numbers_orderedFields :
    Value.numbersFields (orderedFields env ts) = env.payload.numbers := by
  obtain ⟨_, _, _, _, _, _, _ | e⟩ := env
  all_goals simp [orderedFields, Value.numbersFields, Value.numbers]

/-- Envelopes with the same signed bytes are the same. -/
theorem same_of_canonicalBytes (hW : W.Conforms) {env' : Envelope} {offset' : ℤ} {bytes : Bytes}
    (hexact : W.IsExact env.payload) (hexact' : W.IsExact env'.payload)
    (h : W.canonicalBytes offset env = .ok bytes) (h' : W.canonicalBytes offset' env' = .ok bytes) :
    W.Same offset offset' env env' := by
  obtain ⟨ts, hts, rfl⟩ := Except.map_eq_ok.1 h
  obtain ⟨ts', hts', he⟩ := Except.map_eq_ok.1 h'
  have htext : W.jcs.toText (.object (orderedFields env ts)) =
      W.jcs.toText (.object (orderedFields env' ts')) := by
    rw [← Jcs.toText_perm orderedFields_perm inOrder_orderedFields,
      ← Jcs.toText_perm orderedFields_perm inOrder_orderedFields]
    exact (utf8_injective he).symm
  have hnumbers : ∀ {env : Envelope} {ts : String}, W.IsExact env.payload →
      ∀ n ∈ (Value.object (orderedFields env ts)).numbers, W.jcs.Exact n := by
    intro env ts hexact n hn
    rw [Value.numbers, numbers_orderedFields] at hn
    exact hexact.2 n hn
  have hsame := Jcs.same_of_toText_eq hW.jcs (ordered_orderedFields hexact.1)
    (ordered_orderedFields hexact'.1) (hnumbers hexact) (hnumbers hexact') htext
  obtain ⟨senderId, recipientId, timestamp, nonce, verb, payload, endpoint⟩ := env
  obtain ⟨senderId', recipientId', timestamp', nonce', verb', payload', endpoint'⟩ := env'
  -- The endpoint comes right before the id of the sender, if it is there.
  have hparts : (nonce = nonce' ∧ W.jcs.Same payload payload' ∧ recipientId = recipientId' ∧
      endpoint = endpoint') ∧ senderId = senderId' ∧ ts = ts' ∧ verb.text = verb'.text := by
    rcases endpoint with _ | e
    · rcases endpoint' with _ | e'
      · simpa [orderedFields, Jcs.Same, Jcs.SameFields, and_assoc] using hsame
      · simp [orderedFields, Jcs.Same, Jcs.SameFields] at hsame
    · rcases endpoint' with _ | e'
      · simp [orderedFields, Jcs.Same, Jcs.SameFields] at hsame
      · simpa [orderedFields, Jcs.Same, Jcs.SameFields, and_assoc] using hsame
  obtain ⟨⟨hnonce, hpayload, hrecipient, hendpoint⟩, hsender, rfl, hverb⟩ := hparts
  have htime : (timestamp, offset) = (timestamp', offset') :=
    Option.some.inj ((hW.parseTime _ _ _ hts).symm.trans (hW.parseTime _ _ _ hts'))
  exact ⟨hsender, hrecipient, htime, hnonce, text_injective hverb, hpayload, hendpoint⟩

/-- Messages that their sender signed, of a payload that is not nested too deep,
    are read back from their text and from the header of a ticket, and accepted;
    and an accepted message has signed bytes that no other envelope has, up to
    numbers that are kept as integers in one and as doubles in the other. -/
theorem signed_messages (hW : W.Conforms) :
    (∀ (offset : ℤ) (env : Envelope) (secret : Bytes) (m : WireMessage), W.IsJson env.payload →
      env.payload.depth < Json.recursionLimit → W.signAt offset env secret = .ok m →
        (∃ text, W.toJson m = .ok text ∧ W.ofJson text = some m) ∧
          (∃ header, W.encodeTicketWire m = .ok header ∧ W.decodeTicketWire header = some m) ∧
            W.verifySignature m = .ok ()) ∧
      ∀ (m : WireMessage) (offset : ℤ) (env : Envelope), W.IsExact m.message.envelope.payload →
        W.IsExact env.payload → W.verifySignature m = .ok () →
          ∃ bytes, W.canonicalBytes m.offset m.message.envelope = .ok bytes ∧
            (W.canonicalBytes offset env = .ok bytes →
              W.Same m.offset offset m.message.envelope env) := by
  refine ⟨fun offset env secret m hjson hdepth hsign => ?_, fun m offset env hm henv hverify => ?_⟩
  · obtain ⟨text, htext, hread⟩ := ofJson_of_signAt hW hjson hsign
    rw [if_pos hdepth] at hread
    have hheader : W.encodeTicketWire m =
        .ok (String.ofList (Radix.base64Url.encode (utf8 text))) :=
      Except.map_eq_ok.2 ⟨text, Except.mapError_eq_ok.2 htext, rfl⟩
    obtain ⟨text', htext', hdecode⟩ := decodeTicketWire_of_encode hheader
    obtain rfl := Except.ok.inj (htext.symm.trans htext')
    exact ⟨⟨text, htext, hread⟩, ⟨_, hheader, hdecode.trans hread⟩,
      verifySignature_of_signAt hW hsign⟩
  · obtain ⟨-, bytes, -, hbytes, -⟩ := verifySignature_ok.1 hverify
    have hbytes := Except.mapError_eq_ok.1 hbytes
    exact ⟨bytes, hbytes, fun h => same_of_canonicalBytes hW hm henv hbytes h⟩

/-! ## Examples -/

/-- The numbers of canonical texts, for the number one. -/
def toyJcs : Jcs where
  double n := if n = .int 1 ∨ n = .float "1.0" then 1 else 0
  text q := if q = 1 then "1" else "0"

theorem toyJcs_double : toyJcs.double (.int 1) = 1 ∧ toyJcs.double (.float "1.0") = 1 := by
  simp [toyJcs]

theorem toyJcs_conforms : toyJcs.Conforms where
  isNumber n := by
    change (if toyJcs.double n = 1 then "1" else "0") ≠ "" ∧
      ∀ c ∈ (if toyJcs.double n = 1 then "1" else "0").toList, Json.isNumberChar c
    split
    · decide
    · decide
  injective m n h := by
    change (if toyJcs.double m = 1 then "1" else "0") =
      if toyJcs.double n = 1 then "1" else "0" at h
    have hvalues : ∀ k, toyJcs.double k = 1 ∨ toyJcs.double k = 0 := fun k =>
      (em (k = .int 1 ∨ k = .float "1.0")).imp (fun hk => if_pos hk) fun hk => if_neg hk
    rcases hvalues m with hm | hm
    · rcases hvalues n with hn | hn
      · rw [hm, hn]
      · rw [hm, hn] at h
        exact absurd h (by decide)
    · rcases hvalues n with hn | hn
      · rw [hm, hn] at h
        exact absurd h (by decide)
      · rw [hm, hn]

/-- A format for messages of the first instant, where a key is its own hash, and
    its own secret. -/
def toyFormat : WireFormat where
  sha256 key := key
  publicKey secret := (secret ++ List.replicate publicKeyBytes 0).take publicKeyBytes
  sign secret bytes :=
    checksum ((secret ++ List.replicate publicKeyBytes 0).take publicKeyBytes ++ bytes)
  verify key bytes sig := decide (sig = checksum (key ++ bytes))
  isKey _ := true
  jcs := toyJcs
  nearest text := if text = "1.0" then some text else none
  formatTime t offset :=
    if (t, offset) = (0, 0) then .ok "1970-01-01T00:00:00Z" else .error "out of range"
  parseTime s := if s = "1970-01-01T00:00:00Z" then some (0, 0) else none
  hexError s := s

theorem toyFormat_conforms : toyFormat.Conforms where
  isKey secret := ⟨by simp [toyFormat, publicKeyBytes], rfl⟩
  length_sign secret bytes := List.length_replicate
  verify secret bytes := decide_eq_true rfl
  parseTime t o s h := by
    by_cases hto : (t, o) = (0, 0)
    · obtain rfl := Except.ok.inj ((if_pos hto).symm.trans h)
      rw [hto]
      rfl
    · exact nomatch (if_neg hto).symm.trans h
  jcs := toyJcs_conforms

/-- A message with this payload. -/
def toyEnvelope (payload : Value) : Envelope :=
  ⟨(toyFormat.crypto 0).instanceId (toyFormat.publicKey []), "n3:b", 0, "n", .ping, payload, none⟩

/-- The signed bytes of an envelope depend on how its numbers are written. -/
theorem canonicalBytes_congr {v w : Value}
    (h : v.mapNumbers toyJcs.number = w.mapNumbers toyJcs.number) :
    toyFormat.canonicalBytes 0 (toyEnvelope v) = toyFormat.canonicalBytes 0 (toyEnvelope w) := by
  have htext : ∀ ts, toyJcs.toText (.object ((toyEnvelope v).fields ts)) =
      toyJcs.toText (.object ((toyEnvelope w).fields ts)) := by
    intro ts
    simp only [Jcs.toText, Value.mapNumbers, Envelope.fields, toyEnvelope, Value.mapNumbersFields,
      Option.map_none, Option.toList_none, List.append_nil, h]
  simp only [canonicalBytes]
  exact congrArg (fun f => Except.map f _) (funext fun ts => congrArg utf8 (htext ts))

theorem signAt_toy (payload : Value) :
    ∃ m, toyFormat.signAt 0 (toyEnvelope payload) [] = .ok m ∧
      (m.message.envelope = toyEnvelope payload ∧ m.offset = 0) :=
  ⟨_, signAt_eq_ok.2 ⟨_, rfl, rfl, rfl⟩, rfl, rfl⟩

/-- Arrays that are nested in one another. -/
def nested : ℕ → Value
  | 0 => .array []
  | n + 1 => .array [nested n]

theorem nested_spec (n : ℕ) : (nested n).depth = n + 1 ∧ (nested n).numbers = [] ∧
    (nested n).Ordered id := by
  induction n with
  | zero => exact ⟨rfl, rfl, trivial⟩
  | succ n ih =>
    obtain ⟨hdepth, hnumbers, hordered⟩ := ih
    refine ⟨?_, ?_, hordered, trivial⟩
    · rw [nested, Value.depth, Value.depthList, Value.depthList, hdepth, Nat.max_zero]
    · rw [nested, Value.numbers, Value.numbersList, hnumbers]
      rfl

/-- The double next to `1/11` is read from its text. -/
def misreading : WireFormat := { toyFormat with
  nearest := fun text =>
    if text = "0.09090909090909091" then some "0.09090909090909093" else toyFormat.nearest text }

theorem misreading_conforms : misreading.Conforms where
  isKey := toyFormat_conforms.isKey
  length_sign := toyFormat_conforms.length_sign
  verify := toyFormat_conforms.verify
  parseTime := toyFormat_conforms.parseTime
  jcs := toyFormat_conforms.jcs

/-- The double closest to `1/11`. -/
def eleventh : Value := .number (.float "0.09090909090909091")

/-- A message with this payload is read back as one with its neighbour. -/
theorem ofJson_eleventh : ∃ m text m', misreading.signAt 0 (toyEnvelope eleventh) [] = .ok m ∧
    misreading.toJson m = .ok text ∧ misreading.ofJson text = some m' ∧
      m'.message.envelope.payload = .number (.float "0.09090909090909093") := by
  have h : (misreading.signAt 0 (toyEnvelope eleventh) []).toOption.any fun m =>
      (misreading.toJson m).toOption.any fun text => (misreading.ofJson text).any fun m' =>
        m'.message.envelope.payload = .number (.float "0.09090909090909093") := by
    decide +kernel
  obtain ⟨m, hm, h⟩ := (Option.any_eq_true _ _).1 h
  obtain ⟨text, htext, h⟩ := (Option.any_eq_true _ _).1 h
  obtain ⟨m', hm', h⟩ := (Option.any_eq_true _ _).1 h
  exact ⟨m, text, m', Except.toOption_eq_some.1 hm, Except.toOption_eq_some.1 htext, hm',
    of_decide_eq_true h⟩

/-- A message that its sender signed is not read back, if its payload is 127
    arrays that are nested in one another, or a double that is read from its text as
    another one; and the numbers 1 and 1.0 are both written exactly, but the signature
    of a message with one of them covers that with the other. -/
theorem signed_messages_deep : toyFormat.Conforms ∧ misreading.Conforms ∧
    (∃ m text, toyFormat.signAt 0 (toyEnvelope (nested 126)) [] = .ok m ∧
      (toyFormat.IsJson (nested 126) ∧ toyFormat.IsExact (nested 126)) ∧
        toyFormat.toJson m = .ok text ∧ toyFormat.ofJson text = none) ∧
    (∃ m text, misreading.signAt 0 (toyEnvelope eleventh) [] = .ok m ∧
      misreading.IsExact eleventh ∧ misreading.toJson m = .ok text ∧
        misreading.ofJson text ≠ some m) ∧
    ∃ m bytes, toyFormat.verifySignature m = .ok () ∧
      m.message.envelope = toyEnvelope (.number (.int 1)) ∧
        (toyFormat.IsExact (.number (.int 1)) ∧ toyFormat.IsExact (.number (.float "1.0"))) ∧
          toyFormat.canonicalBytes m.offset m.message.envelope = .ok bytes ∧
            toyFormat.canonicalBytes m.offset (toyEnvelope (.number (.float "1.0"))) = .ok bytes := by
  refine ⟨toyFormat_conforms, misreading_conforms, ?_, ?_, ?_⟩
  -- 127 arrays: written, and not read
  · obtain ⟨hdepth, hnumbers, hordered⟩ := nested_spec 126
    obtain ⟨m, hsign, -⟩ := signAt_toy (nested 126)
    have hnone : ∀ n, n ∉ (nested 126).numbers := fun n => by
      rw [hnumbers]
      exact List.not_mem_nil
    have hjson : toyFormat.IsJson (nested 126) := ⟨hordered, fun n hn => absurd hn (hnone n)⟩
    obtain ⟨text, htext, hread⟩ := ofJson_of_signAt toyFormat_conforms hjson hsign
    refine ⟨m, text, hsign, ⟨hjson, hordered, fun n hn => absurd hn (hnone n)⟩, htext, ?_⟩
    rw [hread]
    exact if_neg (by rw [toyEnvelope, hdepth]; decide)
  -- a double that is read as its neighbour
  · obtain ⟨m, text, m', hsign, htext, hread, hpayload⟩ := ofJson_eleventh
    refine ⟨m, text, hsign, ⟨trivial, fun n hn => List.mem_singleton.1 hn ▸ rfl⟩, htext, ?_⟩
    rw [hread]
    rintro hm
    obtain rfl := Option.some.inj hm
    obtain ⟨bytes, -, -, rfl⟩ := signAt_eq_ok.1 hsign
    have hne : eleventh ≠ .number (.float "0.09090909090909093") := by decide
    exact hne hpayload
  -- 1 and 1.0: the bytes that are signed are the same
  · obtain ⟨m, hsign, hm, hoffset⟩ := signAt_toy (.number (.int 1))
    have hexact : ∀ n, toyJcs.Exact n → toyFormat.IsExact (.number n) := fun n hn =>
      ⟨trivial, fun k hk => List.mem_singleton.1 hk ▸ hn⟩
    obtain ⟨hint, hfloat⟩ := toyJcs_double
    have hone : toyJcs.Exact (.int 1) := hint.trans Int.cast_one.symm
    have hsame : toyJcs.number (.int 1) = toyJcs.number (.float "1.0") := by
      rw [Jcs.number, Jcs.number, hint, hfloat]
    have hbytes : toyFormat.canonicalBytes 0 (toyEnvelope (.number (.float "1.0"))) =
        toyFormat.canonicalBytes 0 (toyEnvelope (.number (.int 1))) := by
      refine canonicalBytes_congr ?_
      change Value.number (toyJcs.number _) = .number (toyJcs.number _)
      rw [hsame]
    refine ⟨m, utf8 (toyJcs.toText (.object ((toyEnvelope (.number (.int 1))).fields
      "1970-01-01T00:00:00Z"))), verifySignature_of_signAt toyFormat_conforms hsign, hm,
      ⟨hexact _ hone, hexact _ rfl⟩, ?_, ?_⟩
    · rw [hm, hoffset]
      rfl
    · rw [hoffset, hbytes]
      rfl

/-- A message with the number one is read back. -/
theorem signed_messages_one : ∃ m, toyFormat.signAt 0 (toyEnvelope (.number (.int 1))) [] = .ok m ∧
    (∃ text, toyFormat.toJson m = .ok text ∧ toyFormat.ofJson text = some m) ∧
      toyFormat.verifySignature m = .ok () := by
  obtain ⟨m, hsign, -⟩ := signAt_toy (.number (.int 1))
  have hjson : toyFormat.IsJson (toyEnvelope (.number (.int 1))).payload := by
    refine ⟨trivial, fun n hn => ?_⟩
    obtain rfl := List.mem_singleton.1 hn
    rfl
  obtain ⟨htext, -, hverify⟩ :=
    (signed_messages toyFormat_conforms).1 0 _ [] m hjson (by decide) hsign
  exact ⟨m, hsign, htext, hverify⟩

end WireFormat
end N3ur0n
