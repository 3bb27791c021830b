import N3ur0n.Client
import N3ur0n.Lib.Table

/-!
# The peer directory

A node keeps a directory of its peers, one row for each instance id: the
endpoint to call it at, its alias, and its cached descriptor. `refreshPeer` asks
an endpoint to describe itself and writes the row of the instance it describes.

The row is keyed by the id in the descriptor, while what is checked of the reply
binds the sender of the envelope. The two are the same when the descriptor names
the sender (`NamesSender`), as the protocol asks for.

* `refresh_authentic`: the rows written are those of the instances which signed
  the replies exactly when all the descriptors name the sender of their
  envelope; then, refreshes never change the row of an instance which signed no
  reply;
* `impostor_overwrites`: otherwise, an instance may overwrite any row.
-/

namespace N3ur0n

/-- `PROTOCOL_VERSION`, which a node gives when it describes itself. -/
def protocolVersion : String := "n3ur0n/0.3"

structure DescribeSelfResponse where
  instanceId : String
  endpoint : Option String
  aliasName : Option String
  protocolVersion : String
  updatedAt : String
  lobeIds : List String
  capabilities : List CapabilityDecl
  deriving DecidableEq

structure PeerRecord where
  id : String
  endpoint : String
  aliasName : Option String
  lastSeen : Option ℤ
  tlsFingerprint : Option String
  describeSelfCached : Option String
  describeSelfFetchedAt : Option ℤ
  source : Option String
  deriving DecidableEq

/-- The table `peers`, by instance id. -/
abbrev Directory := Table String PeerRecord

namespace Directory

/-- A new row, or the row under the same id with what the new one knows. -/
def upsert (d : Directory) (record : PeerRecord) : Directory :=
  match d.lookup record.id with
  | none => d.insert record.id record
  | some old => d.insert record.id {
      id := record.id
      endpoint := record.endpoint
      aliasName := record.aliasName.or old.aliasName
      lastSeen := record.lastSeen.or old.lastSeen
      tlsFingerprint := record.tlsFingerprint.or old.tlsFingerprint
      describeSelfCached := record.describeSelfCached.or old.describeSelfCached
      describeSelfFetchedAt := record.describeSelfFetchedAt.or old.describeSelfFetchedAt
      source := record.source.or old.source }

def setAlias (d : Directory) (id : String) (aliasName : Option String) : Directory :=
  d.modify id ({ · with aliasName })

theorem lookup_upsert_ne (d : Directory) {record : PeerRecord} {id : String} (h : id ≠ record.id) :
    (d.upsert record).lookup id = d.lookup id := by
  rw [upsert]
  split
  · exact Finmap.lookup_insert_of_ne _ h
  · exact Finmap.lookup_insert_of_ne _ h

theorem lookup_setAlias_ne (d : Directory) {id id' : String} (h : id' ≠ id) (a : Option String) :
    (d.setAlias id a).lookup id' = d.lookup id' :=
  (Finmap.lookup_modify _ _ _ _).trans (if_neg h)

theorem isSome_lookup_upsert (d : Directory) {record : PeerRecord} {id : String} :
    ((d.upsert record).lookup id).isSome ↔ (d.lookup id).isSome ∨ id = record.id := by
  by_cases h : id = record.id
  · refine iff_of_true ?_ (.inr h)
    rw [h, upsert]
    split
    · rw [Finmap.lookup_insert, Option.isSome_some]
    · rw [Finmap.lookup_insert, Option.isSome_some]
  · rw [lookup_upsert_ne d h, or_iff_left h]

theorem isSome_lookup_setAlias (d : Directory) {id id' : String} (a : Option String) :
    ((d.setAlias id a).lookup id').isSome ↔ (d.lookup id').isSome := by
  rw [setAlias, Finmap.lookup_modify]
  split
  · next h => rw [h, Option.isSome_map]
  · rfl

end Directory

inductive NodeError
  | invalidPayload (message : String)
  | replay
  | core (e : CoreError)
  deriving DecidableEq

/-- The JSON form of a descriptor. -/
structure DescriptorCodec where
  decode : Value → Except String DescribeSelfResponse
  encode : DescribeSelfResponse → String

/-- A refresh: the endpoint to ask, what the call finds outside, and the clock of
    the node. -/
structure Refresh where
  endpoint : String
  exchange : Exchange
  clock : ℤ

/-- What a refresh fetched, and the row it writes, unless it is the node itself. -/
structure Refreshed where
  descriptor : DescribeSelfResponse
  record : Option PeerRecord
  deriving DecidableEq

variable (C : Crypto) (W : Wire) (D : DescriptorCodec) (self : Caller)

def describeSelf (x : Exchange) : Except ClientError DescribeSelfResponse := do
  let reply ← sendSigned C W self .describeSelf (.object []) x
  (D.decode reply.envelope.payload).mapError .serde

/-- The row of a descriptor fetched at an endpoint. -/
def peerRecord (endpoint : String) (clock : ℤ) (descriptor : DescribeSelfResponse) :
    PeerRecord where
  id := descriptor.instanceId
  endpoint := endpoint
  aliasName := descriptor.aliasName
  lastSeen := some (unixTimestamp clock)
  tlsFingerprint := none
  describeSelfCached := some (D.encode descriptor)
  describeSelfFetchedAt := some (unixTimestamp clock)
  source := some "bootstrap"

def refreshPeer (a : Refresh) : Except NodeError Refreshed := do
  let descriptor ← (describeSelf C W D self a.exchange).mapError fun e =>
    .invalidPayload s!"describe_self {a.endpoint}: {e.text}"
  .ok {
    descriptor
    record := if descriptor.instanceId = self.id C then none
      else some (peerRecord D a.endpoint a.clock descriptor) }

/-- The writes of a refresh: the row, then the alias, even if it has none. -/
def Directory.store (d : Directory) (r : Refreshed) : Directory :=
  match r.record with
  | none => d
  | some record => (d.upsert record).setAlias record.id r.descriptor.aliasName

/-- The directory after a refresh. -/
def refreshDirectory (d : Directory) (a : Refresh) : Directory :=
  match refreshPeer C W D self a with
  | .ok r => d.store r
  | .error _ => d

/-- The refresh accepted a reply signed by this instance. -/
def RepliedBy (a : Refresh) (id : String) : Prop :=
  ∃ reply, sendSigned C W self .describeSelf (.object []) a.exchange = .ok reply ∧
    SignedBy C reply id

/-- The row written is that of the instance which signed the reply. -/
def Keyed (a : Refresh) : Prop :=
  ∀ r record, refreshPeer C W D self a = .ok r → r.record = some record →
    RepliedBy C W self a record.id

/-- The descriptor in an accepted reply names the sender of the envelope (or the
    node itself, which it does not file). -/
def NamesSender (a : Refresh) : Prop :=
  ∀ reply descriptor, sendSigned C W self .describeSelf (.object []) a.exchange = .ok reply →
    D.decode reply.envelope.payload = .ok descriptor →
    descriptor.instanceId = reply.envelope.senderId ∨ descriptor.instanceId = self.id C

variable {C W D self}

/-- What a refresh returns. -/
theorem refreshPeer_ok {a : Refresh} {r : Refreshed} :
    refreshPeer C W D self a = .ok r ↔ ∃ reply descriptor,
      sendSigned C W self .describeSelf (.object []) a.exchange = .ok reply ∧
        D.decode reply.envelope.payload = .ok descriptor ∧
        r = ⟨descriptor, if descriptor.instanceId = self.id C then none
          else some (peerRecord D a.endpoint a.clock descriptor)⟩ := by
  constructor
  · intro h
    obtain ⟨descriptor, hd, h⟩ := Except.bind_eq_ok.1 h
    obtain ⟨reply, hs, hd⟩ := Except.bind_eq_ok.1 (Except.mapError_eq_ok.1 hd)
    exact ⟨reply, descriptor, hs, Except.mapError_eq_ok.1 hd, (Except.ok.inj h).symm⟩
  · rintro ⟨reply, descriptor, hs, hd, rfl⟩
    exact Except.bind_eq_ok.2 ⟨descriptor, Except.mapError_eq_ok.2 (Except.bind_eq_ok.2
      ⟨reply, hs, Except.mapError_eq_ok.2 hd⟩), rfl⟩

/-- The instances that the directory knows, after the writes of a refresh. -/
theorem Directory.isSome_lookup_store (d : Directory) {a : Refresh} {r : Refreshed}
    (h : refreshPeer C W D self a = .ok r) {id : String} : ((d.store r).lookup id).isSome ↔
      (d.lookup id).isSome ∨ id ≠ self.id C ∧ r.descriptor.instanceId = id := by
  obtain ⟨reply, descriptor, -, -, rfl⟩ := refreshPeer_ok.1 h
  rw [Directory.store]
  by_cases hself : descriptor.instanceId = self.id C
  · simp only [if_pos hself]
    exact ⟨.inl, fun h => h.resolve_right fun h => h.1 (h.2.symm.trans hself)⟩
  · simp only [if_neg hself, peerRecord]
    rw [Directory.isSome_lookup_setAlias, Directory.isSome_lookup_upsert]
    refine or_congr_right ⟨fun h => ⟨fun hid => hself (h.symm.trans hid), h.symm⟩, fun h => h.2.symm⟩

theorem keyed_iff_namesSender (a : Refresh) :
    Keyed C W D self a ↔ NamesSender C W D self a := by
  constructor
  · intro h reply descriptor hs hd
    by_cases hself : descriptor.instanceId = self.id C
    · exact .inr hself
    · obtain ⟨reply', hs', hby⟩ := h _ _ (refreshPeer_ok.2 ⟨reply, descriptor, hs, hd, rfl⟩)
        (if_neg hself)
      obtain rfl : reply = reply' := Except.ok.inj (hs.symm.trans hs')
      exact .inl ((signedBy_iff_sender hs).1 hby).symm
  · rintro h r record hr hrec
    obtain ⟨reply, descriptor, hs, hd, rfl⟩ := refreshPeer_ok.1 hr
    obtain ⟨hself, rfl⟩ : ¬descriptor.instanceId = self.id C ∧
        peerRecord D a.endpoint a.clock descriptor = record := by
      simpa only [Option.ite_none_left_eq_some, Option.some.injEq] using hrec
    exact ⟨reply, hs, (signedBy_iff_sender hs).2 ((h reply descriptor hs hd).resolve_right
      hself).symm⟩

/-- A refresh only changes the row it writes. -/
theorem lookup_refreshDirectory (d : Directory) {a : Refresh} {id : String}
    (h : ∀ r record, refreshPeer C W D self a = .ok r → r.record = some record →
      id ≠ record.id) : (refreshDirectory C W D self d a).lookup id = d.lookup id := by
  rw [refreshDirectory]
  cases hr : refreshPeer C W D self a with
  | error e => rfl
  | ok r =>
    simp only [Directory.store]
    cases hrec : r.record with
    | none => rfl
    | some record =>
      have hne := h r record hr hrec
      exact (Directory.lookup_setAlias_ne _ hne _).trans (Directory.lookup_upsert_ne _ hne)

/-- Over any sequence of refreshes, from any directory: the rows written are
    those of the signers if and only if the descriptors name the senders; and
    then, the row of an instance which signed no reply does not change. -/
theorem refresh_authentic (as : List Refresh) :
    ((∀ a ∈ as, Keyed C W D self a) ↔ ∀ a ∈ as, NamesSender C W D self a) ∧
      ((∀ a ∈ as, NamesSender C W D self a) → ∀ (d : Directory) (id : String),
        (∀ a ∈ as, ¬RepliedBy C W self a id) →
          (as.foldl (refreshDirectory C W D self) d).lookup id = d.lookup id) := by
  refine ⟨forall₂_congr fun a _ => keyed_iff_namesSender a, fun hnames d id hid => ?_⟩
  induction as generalizing d with
  | nil => rfl
  | cons a as ih =>
    rw [List.forall_mem_cons] at hnames hid
    rw [List.foldl_cons, ih hnames.2 _ hid.2]
    refine lookup_refreshDirectory d fun r record hr hrec he => hid.1 ?_
    exact he ▸ (keyed_iff_namesSender a).2 hnames.1 r record hr hrec

/-! ## An impostor -/

/-- Descriptors reduced to their instance id. -/
def toyCodec : DescriptorCodec where
  decode v :=
    match v.get "instance_id" with
    | some (.string id) => .ok ⟨id, none, none, protocolVersion, "", [], []⟩
    | _ => .error "missing field"
  encode d := String.ofList (Value.object [("instance_id", .string d.instanceId)]).render

/-- A reply of `n3:m`, signed by it, with the descriptor of `n3:v`. -/
def impostorReply : SignedMessage := toySigned (asciiBytes ['m'])
  ⟨"n3:m", "n3:a", 0, "x", .describeSelf, .object [("instance_id", .string "n3:v")], none⟩

def impostorRefresh : Refresh := ⟨"http://m", toyExchange "n3:m" 0, 0⟩

/-- A directory with the row of `n3:v`. -/
def victimDirectory : Directory := Finmap.insert "n3:v"
  ⟨"n3:v", "http://v", none, none, none, none, none, none⟩ ∅

/-- The endpoint of `n3:v` is overwritten by a reply that `n3:m` signed, though
    `n3:v` signed none. -/
theorem impostor_overwrites :
    sendSigned toyCrypto (toyWire [impostorReply]) toyCaller .describeSelf (.object [])
        impostorRefresh.exchange = .ok impostorReply ∧
      SignedBy toyCrypto impostorReply "n3:m" ∧
      ¬RepliedBy toyCrypto (toyWire [impostorReply]) toyCaller impostorRefresh "n3:v" ∧
      (victimDirectory.lookup "n3:v").map (·.endpoint) = some "http://v" ∧
      ((refreshDirectory toyCrypto (toyWire [impostorReply]) toyCodec toyCaller victimDirectory
        impostorRefresh).lookup "n3:v").map (·.endpoint) = some "http://m" := by
  have hs : sendSigned toyCrypto (toyWire [impostorReply]) toyCaller .describeSelf (.object [])
      impostorRefresh.exchange = .ok impostorReply := by decide
  have hsender : impostorReply.envelope.senderId = "n3:m" := by decide
  refine ⟨hs, (signedBy_iff_sender hs).2 hsender, ?_, by decide, by decide⟩
  rintro ⟨reply, hr, hby⟩
  obtain rfl : impostorReply = reply := Except.ok.inj (hs.symm.trans hr)
  rw [signedBy_iff_sender hs, hsender] at hby
  exact absurd hby (by decide)

end N3ur0n
