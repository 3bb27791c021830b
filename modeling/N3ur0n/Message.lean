import N3ur0n.Lib.Fallible
import N3ur0n.Planner.Catalog

/-!
# Identities and signed messages

An instance is named by its public key: its id is the prefix `n3:` and the
Base32 text of a truncated hash of the key. Messages carry an envelope, the key
of their sender, and a signature of the canonical bytes of the envelope.

* `verifySignature_ok`: an accepted signature is one by the key whose hash is
  the sender's id;
* `verifyEnvelope_ok`: a verified envelope is, besides, addressed to the
  receiver, and fresh: its timestamp is in the window around the receiver's
  clock.

The primitives (hash, signature scheme, canonical bytes, text encodings) are
parameters (`Crypto`).
-/

namespace N3ur0n

abbrev Bytes := List UInt8

inductive ProtocolVerb
  | describeSelf
  | getKnownPeers
  | ping
  | invoke
  | blobTicket
  deriving DecidableEq

/-- The authenticated part of a message. The timestamp is in nanoseconds. -/
structure Envelope where
  senderId : String
  recipientId : String
  timestamp : ℤ
  nonce : String
  verb : ProtocolVerb
  payload : Value
  senderEndpoint : Option String
  deriving DecidableEq

/-- An envelope with the public key and the signature of its sender. -/
structure SignedMessage where
  envelope : Envelope
  senderPublicKey : Bytes
  signature : String
  deriving DecidableEq

inductive CoreError
  | invalidIdentifier (id : String)
  | signatureInvalid
  | recipientMismatch (expected actual : String)
  | timestampOutOfWindow
  | canonical (message : String)
  | crypto (message : String)
  deriving DecidableEq

def CoreError.text : CoreError → String
  | .invalidIdentifier id => s!"invalid identifier format: {id}"
  | .signatureInvalid => "signature verification failed"
  | .recipientMismatch expected actual => s!"recipient mismatch: expected {expected}, got {actual}"
  | .timestampOutOfWindow => "timestamp out of acceptable window"
  | .canonical message => s!"canonical serialization failed: {message}"
  | .crypto message => s!"crypto error: {message}"

/-- The primitives: SHA-256, Base32 and hexadecimal texts, Ed25519, and the
    canonical JSON bytes of an envelope. -/
structure Crypto where
  sha256 : Bytes → Bytes
  base32 : Bytes → String
  encodeHex : Bytes → String
  decodeHex : String → Except String Bytes
  /-- The public key of a secret. -/
  publicKey : Bytes → Bytes
  /-- The signature by a secret of some bytes. -/
  sign : Bytes → Bytes → Bytes
  /-- Whether a signature of some bytes is one by the secret of a public key. -/
  verify : Bytes → Bytes → Bytes → Bool
  canonicalBytes : Envelope → Except String Bytes

/-- Number of leading hash bytes kept when deriving an instance id. -/
def idHashBytes : ℕ := 20

def signatureBytes : ℕ := 64

/-- `InstanceId::parse`: the prefix and the charset are checked, nothing else. -/
def parseInstanceId (s : String) : Except CoreError String :=
  let payload := s.toList.drop idPrefix.length
  if idPrefix.toList.isPrefixOf s.toList ∧ payload ≠ [] ∧ payload.all Char.isAlphanum then .ok s
  else .error (.invalidIdentifier s)

/-- An instance id is its prefix, and letters and digits. -/
theorem parseInstanceId_payload {id : String} (h : parseInstanceId id = .ok id) :
    ∃ payload, id.toList = idPrefix.toList ++ payload ∧ ∀ c ∈ payload, c.isAlphanum := by
  rw [parseInstanceId] at h
  split_ifs at h with hok
  obtain ⟨hstart, -, hall⟩ := hok
  obtain ⟨payload, hid⟩ := List.isPrefixOf_iff_prefix.1 hstart
  refine ⟨payload, hid.symm, fun c hc => List.all_eq_true.1 hall c ?_⟩
  rwa [← hid, show idPrefix.length = idPrefix.toList.length from rfl, List.drop_left]

namespace Crypto

variable (C : Crypto)

/-- The id of the instance with this public key. -/
def instanceId (key : Bytes) : String :=
  idPrefix ++ String.ofList ((C.base32 ((C.sha256 key).take idHashBytes)).toList.map Char.toLower)

def canonical (env : Envelope) : Except CoreError Bytes :=
  (C.canonicalBytes env).mapError .canonical

def decodeSignature (s : String) : Except CoreError Bytes := do
  let bytes ← (C.decodeHex s).mapError fun e => .crypto s!"hex decode: {e}"
  if bytes.length = signatureBytes then .ok bytes
  else .error (.crypto s!"signature must be {signatureBytes} bytes, got {bytes.length}")

/-- `Envelope::sign`, with the secret of the sender. -/
def signEnvelope (env : Envelope) (secret : Bytes) : Except CoreError SignedMessage := do
  let id := C.instanceId (C.publicKey secret)
  Except.reject (env.senderId ≠ id) (.invalidIdentifier
    s!"envelope sender_id {env.senderId} does not match keypair {id}")
  let bytes ← C.canonical env
  .ok ⟨env, C.publicKey secret, C.encodeHex (C.sign secret bytes)⟩

/-- Whether the signature of a message is one of its canonical bytes by the key
    whose hash is the id of its sender. -/
def verifySignature (msg : SignedMessage) : Except CoreError Unit := do
  Except.reject (C.instanceId msg.senderPublicKey ≠ msg.envelope.senderId) .signatureInvalid
  let bytes ← C.canonical msg.envelope
  let sig ← C.decodeSignature msg.signature
  Except.reject (¬C.verify msg.senderPublicKey bytes sig) .signatureInvalid

end Crypto

/-! ## Time -/

/-- The nanoseconds of a second. -/
def nanos : ℕ := 10 ^ 9

/-- The Unix time of a clock reading, in whole seconds. -/
def unixTimestamp (now : ℤ) : ℤ := now / nanos

/-- The distance of a timestamp to the clock, in whole seconds, is within the
    allowed skew (in nanoseconds). -/
def WithinWindow (clockSkew : ℕ) (now timestamp : ℤ) : Prop :=
  (now - timestamp).natAbs / nanos * nanos ≤ clockSkew

instance (clockSkew : ℕ) (now timestamp : ℤ) : Decidable (WithinWindow clockSkew now timestamp) :=
  inferInstanceAs (Decidable (_ ≤ _))

/-- The distance itself is less than one second beyond the skew. -/
theorem WithinWindow.natAbs_lt {clockSkew : ℕ} {now timestamp : ℤ}
    (h : WithinWindow clockSkew now timestamp) :
    (now - timestamp).natAbs < clockSkew + nanos := by
  have hmod := Nat.mod_lt (now - timestamp).natAbs (show 0 < nanos by decide)
  have hdiv := Nat.div_add_mod (now - timestamp).natAbs nanos
  rw [Nat.mul_comm] at hdiv
  rw [WithinWindow] at h
  omega

/-! ## Verification -/

/-- `verify_envelope`: recipient, clock, then signature. -/
def verifyEnvelope (C : Crypto) (msg : SignedMessage) (expectedRecipient : String) (now : ℤ)
    (clockSkew : ℕ) : Except CoreError Unit := do
  Except.reject (msg.envelope.recipientId ≠ expectedRecipient)
    (.recipientMismatch expectedRecipient msg.envelope.recipientId)
  Except.reject (¬WithinWindow clockSkew now msg.envelope.timestamp) .timestampOutOfWindow
  C.verifySignature msg

/-- The message was signed by the secret of its key, the hash of which is the
    id of its sender. -/
def SignedBy (C : Crypto) (msg : SignedMessage) (id : String) : Prop :=
  C.instanceId msg.senderPublicKey = id ∧ ∃ bytes sig, C.canonical msg.envelope = .ok bytes ∧
    C.decodeSignature msg.signature = .ok sig ∧ C.verify msg.senderPublicKey bytes sig

variable {C : Crypto} {msg : SignedMessage}

theorem verifySignature_ok :
    C.verifySignature msg = .ok () ↔ SignedBy C msg msg.envelope.senderId := by
  refine Except.check_eq_ok.trans (and_congr (Except.reject_eq_ok.trans not_not) ?_)
  refine Except.bind_eq_ok.trans (exists_congr fun bytes => ?_)
  rw [exists_and_left]
  refine and_congr_right fun _ => Except.bind_eq_ok.trans (exists_congr fun sig => ?_)
  exact and_congr_right fun _ => Except.reject_eq_ok.trans not_not

theorem verifyEnvelope_ok {expectedRecipient : String} {now : ℤ} {clockSkew : ℕ} :
    verifyEnvelope C msg expectedRecipient now clockSkew = .ok () ↔
      msg.envelope.recipientId = expectedRecipient ∧
        WithinWindow clockSkew now msg.envelope.timestamp ∧
        SignedBy C msg msg.envelope.senderId := by
  refine Except.check_eq_ok.trans (and_congr (Except.reject_eq_ok.trans not_not) ?_)
  exact Except.check_eq_ok.trans
    (and_congr (Except.reject_eq_ok.trans not_not) verifySignature_ok)

/-! ## Toy primitives -/

/-- The bytes of a text of ASCII characters. -/
def asciiBytes (s : List Char) : Bytes := s.map fun c => UInt8.ofNat c.toNat

/-- A checksum, in the place of a signature. -/
def checksum (bytes : Bytes) : Bytes :=
  List.replicate signatureBytes (bytes.foldl (fun a b => a + 3 * b) 1)

/-- Primitives to run examples with, on short texts: a key is its own secret and
    its own hash, and the equal bytes of a signature are written as one. -/
def toyCrypto : Crypto where
  sha256 key := key
  base32 bytes := String.ofList (bytes.map fun b => Char.ofNat b.toNat)
  encodeHex bytes := String.ofList ((bytes.take 1).map fun b => Char.ofNat b.toNat)
  decodeHex s := .ok ((asciiBytes s.toList).flatMap (List.replicate signatureBytes))
  publicKey secret := secret
  sign secret bytes := checksum (secret ++ bytes)
  verify key bytes sig := decide (sig = checksum (key ++ bytes))
  canonicalBytes env := .ok (asciiBytes (env.nonce.toList ++ env.payload.render))

/-- The message a secret signs (without a signature if it cannot). -/
def toySigned (secret : Bytes) (env : Envelope) : SignedMessage :=
  (toyCrypto.signEnvelope env secret).toOption.getD ⟨env, [], ""⟩

end N3ur0n
