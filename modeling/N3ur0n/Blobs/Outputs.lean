import N3ur0n.Blobs.Classes
import N3ur0n.Blobs.Names
import N3ur0n.Blobs.Routes
import N3ur0n.Lib.Run

/-!
# Blobs in arguments and in results

Before a capability of a peer is invoked, the local blobs in its arguments are
put at the peer (`prepareInvokeArgs`); after it, those in its result are fetched
from the peer (`fetchOutputBlobs`) for the client that owns the conversation.
Both of them write the row of each blob, which may be there already: that row is
found by its hash alone, whoever owns it.

* `willList_fetchRef`, `untouched_fetchRef`, `untouched_sendRef`: what dealing
  with one blob does to the rows;
* `outputs_owned`: the blobs of a result are listed for their owner exactly when
  they are his, or else new to the node; and the rows of others are as they
  were exactly when there was nothing left to relabel in them.
-/

namespace N3ur0n

/-! ## Blobs inside values -/

namespace Value

/-- The number, if it is a `u64`. -/
def asU64 : Value → Option ℕ
  | .number (.int i) => if 0 ≤ i ∧ i < 2 ^ 64 then some i.toNat else none
  | _ => none

/-- The reference to a blob that a value is. -/
def parseBlobRef (value : Value) : Option BlobRef := do
  let hash ← (← value.get "hash").asStr
  if (validateHash hash).isOk then
    let size ← (← value.get "size").asU64
    let mime ← (← value.get "mime").asStr
    some ⟨hash, size, mime, (value.get "fetch_url").bind asStr, (value.get "name").bind asStr⟩
  else none

mutual

/-- The references to blobs in a value, in order. -/
def collectBlobRefs (value : Value) : List BlobRef :=
  match value.parseBlobRef with
  | some br => [br]
  | none =>
    match value with
    | .object fields => collectFields fields
    | .array xs => collectList xs
    | _ => []

def collectList : List Value → List BlobRef
  | [] => []
  | x :: xs => collectBlobRefs x ++ collectList xs

def collectFields : List (String × Value) → List BlobRef
  | [] => []
  | (_, x) :: fields => collectBlobRefs x ++ collectFields fields

end

end Value

/-! ## The two ways of a blob -/

/-- Who a downloaded output blob belongs to. -/
structure BlobOwner where
  /-- The client that owns the conversation. -/
  clientId : Option String

/-- The node that invokes; `fromUnixTimestamp` is the calendar. -/
structure Invoker where
  crypto : Crypto
  blobsDir : Option String
  instanceId : String
  fromUnixTimestamp : ℤ → Option DateTime

namespace Invoker

variable (N : Invoker)

/-- The bytes of a blob, from the path in the index, or else from the directory
    of blobs. -/
def readLocalBytes (store : BlobStore) (hash : String) : Option Bytes :=
  let read (path : String) := (store.files.lookup path).filter (N.crypto.hashBytes · = hash)
  ((store.index.get hash).bind fun r => read r.storagePath) <|>
    N.blobsDir.bind fun root => read (storagePath root hash)

/-- The row of a blob that was put without having been stored locally. -/
def outboundInsert (now : ℤ) (hash : String) (size : ℕ) (mime path : String)
    (localUserId : Option ℤ) (clientId : Option String) : BlobInsert where
  hash := hash
  size := size
  mime := mime
  path := none
  expiresAt := now + defaultTtlSecs .input
  storagePath := path
  provenance := .outbound
  role := .input
  anchorKind := .userSession
  processingStatus := .referenced
  localUserId := localUserId
  clientId := clientId
  userVisible := classifyOutboundUpload.userVisible
  userDeletable := classifyOutboundUpload.userDeletable
  uploaderId := some N.instanceId
  recipientsWhitelist := none

/-- A row that is there is promoted, else one is inserted. -/
def recordOutboundUpload (now : ℤ) (index : BlobIndex) (hash : String) (size : ℕ)
    (mime path : String) (localUserId : Option ℤ) (clientId : Option String) : BlobIndex :=
  if (index.get hash).isSome then (index.markOutbound hash (now + defaultTtlSecs .input)).1
  else index.upsert (N.outboundInsert now hash size mime path localUserId clientId) now

/-- The name of a result: the one that its producer chose, or a provisional one. -/
def outputPath (now : ℤ) (br : BlobRef) (capability : String) : Option String :=
  br.name.bind sanitizeBlobPath <|>
    sanitizeBlobPath (deriveOutputPath capability br.mime (N.fromUnixTimestamp now))

/-- The row of a result that was downloaded. -/
def inboundInsert (now : ℤ) (br : BlobRef) (path capability : String) (owner : BlobOwner) :
    BlobInsert where
  hash := br.hash
  size := br.size
  mime := br.mime
  path := N.outputPath now br capability
  expiresAt := now + defaultTtlSecs .output
  storagePath := path
  provenance := .inbound
  role := .output
  anchorKind := .userSession
  processingStatus := .ready
  localUserId := none
  clientId := owner.clientId
  userVisible := classifyInboundOutput.userVisible
  userDeletable := classifyInboundOutput.userDeletable
  uploaderId := none
  recipientsWhitelist := none

def recordInboundOutput (now : ℤ) (index : BlobIndex) (br : BlobRef) (path capability : String)
    (owner : BlobOwner) : BlobIndex :=
  index.upsert (N.inboundInsert now br path capability owner) now

/-- A blob of the arguments is put at the peer, who answers `uploaded`. -/
def sendRef (store : BlobStore) (br : BlobRef) (now : ℤ) (uploaded : Except String Unit) :
    Except String BlobStore :=
  match N.readLocalBytes store br.hash with
  | none => .error s!"blob `{br.hash}` not found locally; upload via Files panel first"
  | some _ => do
    uploaded
    match N.blobsDir with
    | none => .ok store
    | some root => .ok { store with
        index := N.recordOutboundUpload now store.index br.hash br.size br.mime
          (storagePath root br.hash) none none }

/-- A blob of the result is fetched from the peer, who answers `downloaded`,
    unless its bytes are there. -/
def fetchRef (capability : String) (owner : BlobOwner) (store : BlobStore) (br : BlobRef) (now : ℤ)
    (downloaded : Except String Bytes) : Except String BlobStore :=
  match N.readLocalBytes store br.hash with
  | some _ => .ok { store with
      index := (store.index.markInboundOutput br.hash (br.name.bind sanitizeBlobPath)
        (now + defaultTtlSecs .output)).1 }
  | none => do
    let bytes ← downloaded
    Except.reject (N.crypto.hashBytes bytes ≠ br.hash)
      s!"downloaded blob hash mismatch for {br.hash}"
    match N.blobsDir with
    | none => .error "blobs_dir not configured"
    | some root => .ok {
        index := N.recordInboundOutput now store.index br (storagePath root br.hash) capability owner
        files := store.files.insert (storagePath root br.hash) bytes }

/-- The blobs of the arguments are put in turn, each at its time. -/
def sendRefs (store : BlobStore) :
    List (BlobRef × ℤ × Except String Unit) → BlobStore × Except String Unit
  | [] => (store, .ok ())
  | (br, now, uploaded) :: refs =>
    match N.sendRef store br now uploaded with
    | .error e => (store, .error e)
    | .ok store' => sendRefs store' refs

/-- The local blobs of the arguments are put at the peer before the invoke;
    `answers` has the time and the answer for each. -/
def prepareInvokeArgs (store : BlobStore) (recipient : Except String String)
    (answers : ℕ → ℤ × Except String Unit) (args : Value) : BlobStore × Except String Value :=
  let refs := args.collectBlobRefs
  if refs = [] then (store, .ok args) else
    match recipient with
    | .error e => (store, .error e)
    | .ok _ =>
      let (store', result) := N.sendRefs store (refs.mapIdx fun i br => (br, answers i))
      (store', result.map fun _ => args)

/-- The blobs of the result are fetched in turn, each at its time. -/
def fetchRefs (capability : String) (owner : BlobOwner) (store : BlobStore) (out : Value) :
    List (BlobRef × ℤ × Except String Bytes) → BlobStore × Except String Value
  | [] => (store, .ok out)
  | (br, now, downloaded) :: refs =>
    match N.fetchRef capability owner store br now downloaded with
    | .error e => (store, .error e)
    | .ok store' => fetchRefs capability owner store' (out.stripFetchUrl br.hash) refs

/-- The blobs of the result are stored locally; `answers` has the time and the
    answer for each. -/
def fetchOutputBlobs (capability : String) (owner : BlobOwner) (store : BlobStore)
    (recipient : Except String String) (answers : ℕ → ℤ × Except String Bytes) (value : Value) :
    BlobStore × Except String Value :=
  let refs := value.collectBlobRefs
  if refs = [] then (store, .ok value) else
    match recipient with
    | .error e => (store, .error e)
    | .ok _ =>
      N.fetchRefs capability owner store value (refs.mapIdx fun i br => (br, answers i))

end Invoker

/-! ## Owners -/

/-- The row is one of the client's. -/
def BlobRecord.OwnedBy (r : BlobRecord) (owner : BlobOwner) : Prop :=
  owner.clientId.isSome ∧ r.clientId = owner.clientId

/-- The row is one of a user's, of a client's or of a peer's, but not of this
    client's. -/
def BlobRecord.OwnedByAnother (r : BlobRecord) (owner : BlobOwner) : Prop :=
  (r.localUserId.isSome ∨ r.clientId.isSome ∨ r.uploaderId.isSome) ∧ ¬r.OwnedBy owner

/-- The rows have the same owners, path, class and visibility. -/
structure BlobRecord.SameLabel (r' r : BlobRecord) : Prop where
  localUserId : r'.localUserId = r.localUserId
  clientId : r'.clientId = r.clientId
  uploaderId : r'.uploaderId = r.uploaderId
  path : r'.path = r.path
  columns : r'.columns = r.columns

theorem BlobRecord.SameLabel.refl (r : BlobRecord) : r.SameLabel r := ⟨rfl, rfl, rfl, rfl, rfl⟩

instance (r : BlobRecord) (owner : BlobOwner) : Decidable (r.OwnedBy owner) :=
  inferInstanceAs (Decidable (_ ∧ _))

instance (r : BlobRecord) (owner : BlobOwner) : Decidable (r.OwnedByAnother owner) :=
  inferInstanceAs (Decidable (_ ∧ _))

namespace BlobIndex

variable {idx idx' : BlobIndex} {owner : BlobOwner} {hash : String}

/-- The blob is listed for the client, whenever there is room for all that he
    owns. -/
def ListedFor (idx : BlobIndex) (owner : BlobOwner) (hash : String) : Prop :=
  ∀ limit : ℤ, limit < 0 ∨ (idx.ownedVisible none owner.clientId).length ≤ limit →
    idx.Listed none owner.clientId limit hash

/-- The rows of others stay theirs, and keep their path, their class and their
    visibility. -/
def Untouched (idx idx' : BlobIndex) (owner : BlobOwner) : Prop :=
  ∀ hash r, idx.get hash = some r → r.OwnedByAnother owner →
    ∃ r', idx'.get hash = some r' ∧ r'.SameLabel r

theorem mem_ownedVisible {r : BlobRecord} : r ∈ idx.ownedVisible none owner.clientId ↔
    r ∈ idx.rows ∧ r.userVisible ∧ r.OwnedBy owner := by
  simp [ownedVisible, BlobRecord.OwnedBy]

theorem listedFor_iff : idx.ListedFor owner hash ↔
    ∃ r, idx.get hash = some r ∧ r.userVisible ∧ r.OwnedBy owner := by
  constructor
  · intro h
    obtain ⟨r, hr, hmem, -⟩ := listed_iff.1 (h (-1) (.inl (by decide)))
    exact ⟨r, hr, (mem_ownedVisible.1 hmem).2⟩
  · rintro ⟨r, hr, hshown⟩ limit hlimit
    refine listed_iff.2 ⟨r, hr, mem_ownedVisible.2 ⟨(get_eq_some.1 hr).1, hshown⟩, fun h0 => ?_⟩
    rcases hlimit with hneg | hroom
    · exact absurd h0 (not_le.2 hneg)
    · exact (Int.ofNat_le.2 List.countP_le_length).trans hroom

/-- Only one row is looked at, when the others stay as they are. -/
theorem untouched_iff (hother : ∀ hash', hash' ≠ hash → idx'.get hash' = idx.get hash') :
    idx.Untouched idx' owner ↔ ∀ r, idx.get hash = some r → r.OwnedByAnother owner →
      ∃ r', idx'.get hash = some r' ∧ r'.SameLabel r := by
  refine ⟨fun h => h hash, fun h hash' r hr hanother => ?_⟩
  by_cases hh : hash' = hash
  · subst hh
    exact h r hr hanother
  · exact ⟨r, (hother hash' hh).trans hr, .refl r⟩

theorem untouched_refl : idx.Untouched idx owner := fun _ r hr _ => ⟨r, hr, .refl r⟩

theorem Untouched.trans {idx'' : BlobIndex} (h : idx.Untouched idx' owner)
    (h' : idx'.Untouched idx'' owner) : idx.Untouched idx'' owner := by
  intro hash r hr hanother
  obtain ⟨r', hr', hsame⟩ := h hash r hr hanother
  have hanother' : r'.OwnedByAnother owner := by
    rwa [BlobRecord.OwnedByAnother, BlobRecord.OwnedBy, hsame.localUserId, hsame.clientId,
      hsame.uploaderId]
  obtain ⟨r'', hr'', hsame'⟩ := h' hash r' hr' hanother'
  exact ⟨r'', hr'', hsame'.localUserId.trans hsame.localUserId,
    hsame'.clientId.trans hsame.clientId, hsame'.uploaderId.trans hsame.uploaderId,
    hsame'.path.trans hsame.path, hsame'.columns.trans hsame.columns⟩

end BlobIndex

namespace Invoker

variable {N : Invoker} {capability : String} {owner : BlobOwner} {store store' : BlobStore}
  {br : BlobRef} {now : ℤ} {downloaded : Except String Bytes} {uploaded : Except String Unit}
  {hash : String}

/-! ## One blob of a result -/

/-- What is downloaded is the blob, and can be stored. -/
def Downloads (N : Invoker) (br : BlobRef) (downloaded : Except String Bytes) : Prop :=
  N.blobsDir.isSome ∧ ∃ bytes, downloaded = .ok bytes ∧ N.crypto.hashBytes bytes = br.hash

theorem fetchRef_local (h : (N.readLocalBytes store br.hash).isSome) :
    N.fetchRef capability owner store br now downloaded = .ok { store with
      index := (store.index.markInboundOutput br.hash (br.name.bind sanitizeBlobPath)
        (now + defaultTtlSecs .output)).1 } := by
  obtain ⟨bytes, hbytes⟩ := Option.isSome_iff_exists.1 h
  rw [fetchRef, hbytes]

/-- The bytes are not there: they are downloaded. -/
theorem fetchRef_remote (h : N.readLocalBytes store br.hash = none) :
    N.fetchRef capability owner store br now downloaded = .ok store' ↔
      ∃ root bytes, N.blobsDir = some root ∧ downloaded = .ok bytes ∧
        N.crypto.hashBytes bytes = br.hash ∧ store' = {
          index := N.recordInboundOutput now store.index br (storagePath root br.hash) capability
            owner
          files := store.files.insert (storagePath root br.hash) bytes } := by
  rw [fetchRef, h]
  constructor
  · intro hok
    obtain ⟨bytes, hbytes, hok⟩ := Except.bind_eq_ok.1 hok
    obtain ⟨hhash, hok⟩ := Except.check_eq_ok.1 hok
    cases hroot : N.blobsDir with
    | none =>
      rw [hroot] at hok
      cases hok
    | some root =>
      rw [hroot] at hok
      exact ⟨root, bytes, rfl, hbytes, not_not.1 (Except.reject_eq_ok.1 hhash),
        (Except.ok.inj hok).symm⟩
  · rintro ⟨root, bytes, hroot, rfl, hhash, rfl⟩
    refine Except.bind_eq_ok.2 ⟨bytes, rfl, Except.check_eq_ok.2 ⟨?_, ?_⟩⟩
    · exact Except.reject_eq_ok.2 (not_not.2 hhash)
    · rw [hroot]

theorem classed_fetchRef (hclassed : store.index.Classed)
    (h : N.fetchRef capability owner store br now downloaded = .ok store') :
    store'.index.Classed := by
  cases hlocal : N.readLocalBytes store br.hash with
  | some bytes =>
    rw [fetchRef_local (Option.isSome_of_eq_some hlocal)] at h
    obtain rfl := Except.ok.inj h
    exact @BlobIndex.Classed.perform _ (.markInboundOutput _ _ _) hclassed
  | none =>
    obtain ⟨root, bytes, -, -, -, rfl⟩ := (fetchRef_remote hlocal).1 h
    exact @BlobIndex.Classed.perform _ (.upsert (N.inboundInsert now br (storagePath root br.hash)
      capability owner) ⟨.inboundOutput, rfl⟩ now) hclassed

/-- The row of another blob stays as it is. -/
theorem get_fetchRef_of_ne (h : N.fetchRef capability owner store br now downloaded = .ok store')
    (hne : hash ≠ br.hash) : store'.index.get hash = store.index.get hash := by
  cases hlocal : N.readLocalBytes store br.hash with
  | some bytes =>
    rw [fetchRef_local (Option.isSome_of_eq_some hlocal)] at h
    obtain rfl := Except.ok.inj h
    rw [BlobIndex.get_markInboundOutput]
    simp [hne]
  | none =>
    obtain ⟨root, bytes, -, -, -, rfl⟩ := (fetchRef_remote hlocal).1 h
    rw [recordInboundOutput, BlobIndex.get_upsert]
    exact if_neg hne

/-- Without a row, the bytes can only be in the directory of blobs. -/
theorem readLocalBytes_of_none (h : store.index.get hash = none) :
    N.readLocalBytes store hash = N.blobsDir.bind fun root =>
      (store.files.lookup (storagePath root hash)).filter (N.crypto.hashBytes · = hash) := by
  rw [readLocalBytes, h]
  rfl

/-- So are the bytes of another blob that has no row. -/
theorem readLocalBytes_fetchRef_of_ne (hnone : store.index.get hash = none)
    (h : N.fetchRef capability owner store br now downloaded = .ok store')
    (hne : hash ≠ br.hash) : N.readLocalBytes store' hash = N.readLocalBytes store hash := by
  rw [readLocalBytes_of_none hnone, readLocalBytes_of_none ((get_fetchRef_of_ne h hne).trans hnone)]
  cases hlocal : N.readLocalBytes store br.hash with
  | some bytes =>
    rw [fetchRef_local (Option.isSome_of_eq_some hlocal)] at h
    obtain rfl := Except.ok.inj h
    rfl
  | none =>
    obtain ⟨root, bytes, hroot, -, -, rfl⟩ := (fetchRef_remote hlocal).1 h
    rw [hroot, Option.bind_some, Option.bind_some, Finmap.lookup_insert_ite,
      if_neg fun hp => hne (storagePath_inj hp)]

/-- The blob will be listed for its owner when the result has been dealt with:
    its row is shown to him, or it is new to the node. -/
def WillList (N : Invoker) (store : BlobStore) (owner : BlobOwner) (hash : String) : Prop :=
  match store.index.get hash with
  | some r => r.userVisible ∧ r.OwnedBy owner
  | none => owner.clientId.isSome ∧ N.readLocalBytes store hash = none

theorem willList_of_get {r : BlobRecord} (h : store.index.get hash = some r) :
    N.WillList store owner hash ↔ r.userVisible ∧ r.OwnedBy owner := by
  rw [WillList, h]

theorem willList_of_none (h : store.index.get hash = none) :
    N.WillList store owner hash ↔ owner.clientId.isSome ∧ N.readLocalBytes store hash = none := by
  rw [WillList, h]

/-- A row that is in a class is shown to its owner if its anchor is local. -/
theorem userVisible_of_isAnchoredLocally {r : BlobRecord} (hr : r.Classed)
    (hlocal : r.isAnchoredLocally) : r.userVisible := by
  obtain ⟨k, hk⟩ := hr
  have hanchor : r.anchorKind = k.columns.anchorKind := congrArg BlobColumns.anchorKind hk
  have hvisible : r.userVisible = k.columns.userVisible := congrArg BlobColumns.userVisible hk
  rw [BlobRecord.isAnchoredLocally, hanchor] at hlocal
  rw [hvisible]
  revert hlocal
  cases k <;> decide

/-- Whether a blob will be listed does not change while the result is dealt with. -/
theorem willList_fetchRef (hclassed : store.index.Classed)
    (h : N.fetchRef capability owner store br now downloaded = .ok store') :
    N.WillList store' owner hash ↔ N.WillList store owner hash := by
  -- another hash keeps its row, and its bytes
  by_cases hne : hash ≠ br.hash
  · have hget := get_fetchRef_of_ne h hne
    cases hr : store.index.get hash with
    | some r => rw [willList_of_get hr, willList_of_get (hget.trans hr)]
    | none =>
      rw [willList_of_none hr, willList_of_none (hget.trans hr),
        readLocalBytes_fetchRef_of_ne hr h hne]
  obtain rfl := not_not.1 hne
  -- the blob that is fetched: its bytes are here already, or come with a row
  cases hlocal : N.readLocalBytes store br.hash with
  | some bytes =>
    rw [fetchRef_local (Option.isSome_of_eq_some hlocal)] at h
    obtain rfl := Except.ok.inj h
    cases hr : store.index.get br.hash with
    | some r =>
      rw [willList_of_get hr, willList_of_get (BlobIndex.get_markInboundOutput_of_get hr)]
      split
      · next hguard =>
        have hvisible := userVisible_of_isAnchoredLocally (hclassed _ r hr) hguard
        exact and_congr_left fun _ => iff_of_true rfl hvisible
      · rfl
    | none =>
      have hnone : (store.index.markInboundOutput br.hash (br.name.bind sanitizeBlobPath)
          (now + defaultTtlSecs .output)).1.get br.hash = none := by
        rw [BlobIndex.get_markInboundOutput, hr, Option.map_none]
      rw [willList_of_none hr, willList_of_none hnone, readLocalBytes_of_none hr,
        readLocalBytes_of_none hnone]
  | none =>
    obtain ⟨root, bytes, -, -, -, rfl⟩ := (fetchRef_remote hlocal).1 h
    have hget : (N.recordInboundOutput now store.index br (storagePath root br.hash) capability
        owner).get br.hash = _ := BlobIndex.get_upsert.trans (if_pos rfl)
    rw [willList_of_get hget, BlobIndex.upserted]
    cases hr : store.index.get br.hash with
    | some r =>
      rw [willList_of_get hr, inboundInsert, hr]
      rfl
    | none =>
      rw [willList_of_none hr, inboundInsert, hr]
      exact ⟨fun hrow => ⟨hrow.2.1, hlocal⟩, fun howner => ⟨rfl, howner.1, rfl⟩⟩

/-- The blob has a row, or else its bytes are there without one. -/
def Settled (N : Invoker) (store : BlobStore) (hash : String) : Prop :=
  store.index.get hash = none → N.readLocalBytes store hash ≠ none

/-- A blob that has been dealt with is settled, and stays so. -/
theorem settled_fetchRef (h : N.fetchRef capability owner store br now downloaded = .ok store')
    (hsettled : hash = br.hash ∨ N.Settled store hash) : N.Settled store' hash := by
  intro hnone
  by_cases hne : hash ≠ br.hash
  · have hr := (get_fetchRef_of_ne h hne).symm.trans hnone
    rw [readLocalBytes_fetchRef_of_ne hr h hne]
    exact (hsettled.resolve_left hne) hr
  obtain rfl := not_not.1 hne
  cases hlocal : N.readLocalBytes store br.hash with
  | some bytes =>
    rw [fetchRef_local (Option.isSome_of_eq_some hlocal)] at h
    obtain rfl := Except.ok.inj h
    have hr : store.index.get br.hash = none :=
      Option.map_eq_none_iff.1 (BlobIndex.get_markInboundOutput.symm.trans hnone)
    rw [readLocalBytes_of_none hnone, ← readLocalBytes_of_none hr, hlocal]
    exact Option.some_ne_none bytes
  | none =>
    obtain ⟨root, bytes, -, -, -, rfl⟩ := (fetchRef_remote hlocal).1 h
    rw [recordInboundOutput, BlobIndex.get_upsert, inboundInsert, if_pos rfl] at hnone
    exact absurd hnone (Option.some_ne_none _)

/-- A blob that is settled is listed for the owner if it was going to be. -/
theorem listedFor_of_settled (hsettled : N.Settled store hash) :
    store.index.ListedFor owner hash ↔ N.WillList store owner hash := by
  rw [BlobIndex.listedFor_iff]
  cases hr : store.index.get hash with
  | some r => simp [willList_of_get hr]
  | none => simp [willList_of_none hr, hsettled hr]

/-! ## All blobs of a result -/

theorem fetchRefs_ok {refs : List (BlobRef × ℤ × Except String Bytes)} {value out : Value}
    (hash : String) (hclassed : store.index.Classed)
    (h : N.fetchRefs capability owner store value refs = (store', .ok out)) :
    (N.Settled store hash → N.Settled store' hash) ∧
    (∀ x ∈ refs, x.1.hash = hash → N.Settled store' hash) ∧
    (N.WillList store' owner hash ↔ N.WillList store owner hash) := by
  induction refs generalizing store value with
  | nil =>
    obtain ⟨rfl, -⟩ := Prod.mk.inj h
    exact ⟨id, fun _ hx => absurd hx List.not_mem_nil, Iff.rfl⟩
  | cons x refs ih =>
    obtain ⟨br, now, downloaded⟩ := x
    rw [fetchRefs] at h
    cases hstep : N.fetchRef capability owner store br now downloaded with
    | error e =>
      rw [hstep] at h
      cases h
    | ok store₁ =>
      rw [hstep] at h
      obtain ⟨hkeeps, hlater, hwill⟩ := ih (classed_fetchRef hclassed hstep) h
      refine ⟨fun hs => hkeeps (settled_fetchRef hstep (.inr hs)), fun x hx hhash => ?_,
        hwill.trans (willList_fetchRef hclassed hstep)⟩
      rcases List.mem_cons.1 hx with rfl | hx
      · exact hkeeps (settled_fetchRef hstep (.inl hhash.symm))
      · exact hlater x hx hhash

/-- The blobs of a result that has been dealt with are listed for its owner if
    they were going to be. -/
theorem fetchOutputBlobs_listed {recipient : Except String String}
    {answers : ℕ → ℤ × Except String Bytes} {value out : Value} (hclassed : store.index.Classed)
    (h : N.fetchOutputBlobs capability owner store recipient answers value = (store', .ok out))
    (hbr : br ∈ value.collectBlobRefs) :
    store'.index.ListedFor owner br.hash ↔ N.WillList store owner br.hash := by
  simp only [fetchOutputBlobs, if_neg (List.ne_nil_of_mem hbr)] at h
  cases recipient with
  | error e => cases h
  | ok recipient =>
    obtain ⟨-, hsettled, hwill⟩ := fetchRefs_ok br.hash hclassed h
    obtain ⟨i, hi, rfl⟩ := List.mem_iff_getElem.1 hbr
    have hmem := List.getElem_mem (l := value.collectBlobRefs.mapIdx fun i br => (br, answers i))
      (by rwa [List.length_mapIdx])
    rw [List.getElem_mapIdx] at hmem
    rw [listedFor_of_settled (hsettled _ hmem rfl), hwill]

/-! ## The rows of others -/

/-- When a blob is fetched, nothing is left to relabel in the row of another: it
    is a result already, under the same name if there is one; or its bytes are
    missing, and it has a name. -/
def FetchSpares (N : Invoker) (capability : String) (owner : BlobOwner) (store : BlobStore)
    (x : BlobRef × ℤ × Except String Bytes) : Prop :=
  ∀ r, store.index.get x.1.hash = some r → r.OwnedByAnother owner →
    if (N.readLocalBytes store x.1.hash).isSome then
      r.isAnchoredLocally → r.columns = BlobClass.inboundOutput.columns ∧
        ∀ name, x.1.name.bind sanitizeBlobPath = some name → r.path = some name
    else N.Downloads x.1 x.2.2 → r.path = none → N.outputPath x.2.1 x.1 capability = none

/-- When a blob is put, the row of another is not promoted, or was before. -/
def SendSpares (N : Invoker) (owner : BlobOwner) (store : BlobStore)
    (x : BlobRef × ℤ × Except String Unit) : Prop :=
  ∀ r, store.index.get x.1.hash = some r → r.OwnedByAnother owner →
    (N.readLocalBytes store x.1.hash).isSome → x.2.2 = .ok () → N.blobsDir.isSome →
    r.isOutboundInput → r.columns = BlobClass.outbound.columns

theorem sameLabel_deliver_iff {r : BlobRecord} {name : Option String} {expiresAt : ℤ} :
    (r.deliver name expiresAt).SameLabel r ↔
      r.columns = BlobClass.inboundOutput.columns ∧ ∀ n, name = some n → r.path = some n := by
  have hpath : (name <|> r.path) = r.path ↔ ∀ n, name = some n → r.path = some n := by
    cases name with
    | none => simp
    | some n => simp [eq_comm]
  refine ⟨fun h => ⟨h.columns.symm, hpath.1 h.path⟩, fun h => ?_⟩
  exact ⟨rfl, rfl, rfl, hpath.2 h.2, h.1.symm⟩

theorem sameLabel_promote_iff {r : BlobRecord} {expiresAt : ℤ} (hguard : r.isOutboundInput) :
    (r.promote expiresAt).SameLabel r ↔ r.columns = BlobClass.outbound.columns := by
  have hcolumns : (r.promote expiresAt).columns = _ := BlobIndex.columns_promote hguard
  refine ⟨fun h => h.columns.symm.trans hcolumns, fun h => ?_⟩
  exact ⟨rfl, rfl, rfl, rfl, hcolumns.trans h.symm⟩

theorem sameLabel_renew_iff {r : BlobRecord} {row : BlobInsert} :
    (r.renew row).SameLabel r ↔ (r.path = none → row.path = none) := by
  have hpath : (r.path <|> row.path) = r.path ↔ (r.path = none → row.path = none) := by
    cases r.path with
    | none => simp
    | some n => simp
  exact ⟨fun h => hpath.1 h.path, fun h => ⟨rfl, rfl, rfl, hpath.2 h, rfl⟩⟩

/-- A write that leaves all rows but one as they are touches no row of others
    exactly if that one, when it is one of others, keeps its label. -/
theorem untouched_iff_of_get {idx idx' : BlobIndex} {f : BlobRecord → BlobRecord}
    (hother : ∀ hash', hash' ≠ hash → idx'.get hash' = idx.get hash')
    (hget : ∀ r, idx.get hash = some r → idx'.get hash = some (f r)) :
    idx.Untouched idx' owner ↔
      ∀ r, idx.get hash = some r → r.OwnedByAnother owner → (f r).SameLabel r := by
  rw [BlobIndex.untouched_iff hother]
  refine forall_congr' fun r => imp_congr_right fun hr => imp_congr_right fun _ => ?_
  simp only [hget r hr, Option.some.injEq, exists_eq_left']

theorem untouched_recordInboundOutput {index : BlobIndex} {path : String} :
    index.Untouched (N.recordInboundOutput now index br path capability owner) owner ↔
      ∀ r, index.get br.hash = some r → r.OwnedByAnother owner → r.path = none →
        N.outputPath now br capability = none := by
  have hget : ∀ r, index.get br.hash = some r →
      (N.recordInboundOutput now index br path capability owner).get br.hash =
        some (r.renew (N.inboundInsert now br path capability owner)) := fun r hr => by
    rw [recordInboundOutput, BlobIndex.get_upsert, inboundInsert, if_pos rfl, BlobIndex.upserted, hr]
  have hother : ∀ hash', hash' ≠ br.hash →
      (N.recordInboundOutput now index br path capability owner).get hash' = index.get hash' :=
    fun _ hne => BlobIndex.get_upsert.trans (if_neg hne)
  rw [untouched_iff_of_get hother hget]
  exact forall_congr' fun r => imp_congr_right fun _ => imp_congr_right fun _ => sameLabel_renew_iff

theorem untouched_recordOutboundUpload {index : BlobIndex} {size : ℕ} {mime path : String} :
    index.Untouched (N.recordOutboundUpload now index hash size mime path none none) owner ↔
      ∀ r, index.get hash = some r → r.OwnedByAnother owner → r.isOutboundInput →
        r.columns = BlobClass.outbound.columns := by
  have hget : ∀ r, index.get hash = some r →
      (N.recordOutboundUpload now index hash size mime path none none).get hash =
        some (if r.isOutboundInput then r.promote (now + defaultTtlSecs .input) else r) :=
    fun r hr => by
      rw [recordOutboundUpload, if_pos (Option.isSome_of_eq_some hr),
        BlobIndex.get_markOutbound_of_get hr]
  have hother : ∀ hash', hash' ≠ hash →
      (N.recordOutboundUpload now index hash size mime path none none).get hash' =
        index.get hash' := fun hash' hne => by
    rw [recordOutboundUpload]
    split
    · rw [BlobIndex.get_markOutbound]
      simp [hne]
    · exact BlobIndex.get_upsert.trans (if_neg hne)
  rw [untouched_iff_of_get hother hget]
  refine forall_congr' fun r => imp_congr_right fun _ => imp_congr_right fun _ => ?_
  split
  · next hguard => rw [sameLabel_promote_iff hguard, imp_iff_right hguard]
  · next hguard => exact iff_of_true (.refl r) fun h => absurd h hguard

/-- A blob is fetched without touching the rows of others exactly if they are
    spared. -/
theorem untouched_fetchRef : (∀ store', N.fetchRef capability owner store br now downloaded =
      .ok store' → store.index.Untouched store'.index owner) ↔
    N.FetchSpares capability owner store (br, now, downloaded) := by
  rw [FetchSpares]
  cases hlocal : N.readLocalBytes store br.hash with
  | some bytes =>
    have hok : N.fetchRef capability owner store br now downloaded = .ok _ :=
      fetchRef_local (Option.isSome_of_eq_some hlocal)
    simp only [hok, Except.ok.injEq, forall_eq', Option.isSome_some, if_true]
    rw [untouched_iff_of_get (fun _ hne => get_fetchRef_of_ne hok hne)
      fun r hr => BlobIndex.get_markInboundOutput_of_get hr]
    refine forall_congr' fun r => imp_congr_right fun _ => imp_congr_right fun _ => ?_
    split
    · next hguard => rw [sameLabel_deliver_iff, imp_iff_right hguard]
    · next hguard => exact iff_of_true (.refl r) fun h => absurd h hguard
  | none =>
    simp only [Option.isSome_none, Bool.false_eq_true, if_false]
    constructor
    · rintro h r hr hanother ⟨hdir, bytes, hbytes, hhash⟩
      obtain ⟨root, hroot⟩ := Option.isSome_iff_exists.1 hdir
      have hok := h _ ((fetchRef_remote hlocal).2 ⟨root, bytes, hroot, hbytes, hhash, rfl⟩)
      exact untouched_recordInboundOutput.1 hok r hr hanother
    · intro h store' hok
      obtain ⟨root, bytes, hroot, hbytes, hhash, rfl⟩ := (fetchRef_remote hlocal).1 hok
      have hdownloads : N.Downloads br downloaded :=
        ⟨Option.isSome_of_eq_some hroot, bytes, hbytes, hhash⟩
      exact untouched_recordInboundOutput.2 fun r hr hanother => h r hr hanother hdownloads

/-- What putting a blob does to the index. -/
theorem sendRef_ok : N.sendRef store br now uploaded = .ok store' ↔
    (N.readLocalBytes store br.hash).isSome ∧ uploaded = .ok () ∧ store' = match N.blobsDir with
      | none => store
      | some root => { store with
          index := N.recordOutboundUpload now store.index br.hash br.size br.mime
            (storagePath root br.hash) none none } := by
  rw [sendRef]
  cases N.readLocalBytes store br.hash with
  | none => simp
  | some bytes =>
    refine Except.check_eq_ok.trans ?_
    rw [Option.isSome_some, and_iff_right rfl]
    refine and_congr_right fun _ => ?_
    cases N.blobsDir with
    | none => exact ⟨fun h => (Except.ok.inj h).symm, fun h => congrArg _ h.symm⟩
    | some root => exact ⟨fun h => (Except.ok.inj h).symm, fun h => congrArg _ h.symm⟩

/-- A blob is put without touching the rows of others exactly if they are spared. -/
theorem untouched_sendRef : (∀ store', N.sendRef store br now uploaded = .ok store' →
      store.index.Untouched store'.index owner) ↔ N.SendSpares owner store (br, now, uploaded) := by
  simp only [sendRef_ok, and_imp]
  rw [SendSpares]
  cases hroot : N.blobsDir with
  | none =>
    simp only [Option.isSome_none, Bool.false_eq_true, false_implies, implies_true, iff_true]
    rintro _ - - rfl
    exact BlobIndex.untouched_refl
  | some root =>
    simp only [Option.isSome_some, forall_const]
    constructor
    · intro h r hr hanother hlocal hup
      exact untouched_recordOutboundUpload.1 (h _ hlocal hup rfl) r hr hanother
    · rintro h _ hlocal hup rfl
      exact untouched_recordOutboundUpload.2 fun r hr hanother => h r hr hanother hlocal hup

/-! ## Whole calls -/

section

variable (N) (capability owner)

def fetchStep (store : BlobStore) (x : BlobRef × ℤ × Except String Bytes) : Option BlobStore :=
  (N.fetchRef capability owner store x.1 x.2.1 x.2.2).toOption

def sendStep (store : BlobStore) (x : BlobRef × ℤ × Except String Unit) : Option BlobStore :=
  (N.sendRef store x.1 x.2.1 x.2.2).toOption

/-- A write leaves the rows of others alone: whatever the step does, it does not
    touch them. -/
def Leaves {α : Type} (step : BlobStore → α → Option BlobStore) (owner : BlobOwner)
    (store : BlobStore) (x : α) : Prop :=
  ∀ store', step store x = some store' → store.index.Untouched store'.index owner

end

theorem leaves_fetchStep {x : BlobRef × ℤ × Except String Bytes} :
    Leaves (N.fetchStep capability owner) owner store x ↔
      N.FetchSpares capability owner store x := by
  simp only [Leaves, fetchStep, Except.toOption_eq_some]
  exact untouched_fetchRef

theorem leaves_sendStep {x : BlobRef × ℤ × Except String Unit} :
    Leaves N.sendStep owner store x ↔ N.SendSpares owner store x := by
  simp only [Leaves, sendStep, Except.toOption_eq_some]
  exact untouched_sendRef

/-- When all steps leave the rows of others alone, so does the run. -/
theorem untouched_run {α : Type} {step : BlobStore → α → Option BlobStore} {l : List α}
    (hleaves : Run.Along step (Leaves step owner) store l)
    (h : Run.run step store l = some store') : store.index.Untouched store'.index owner :=
  Run.along_invariant (I := fun t => store.index.Untouched t.index owner)
    (fun _ _ t' ht hx hstep => ht.trans (hx t' hstep)) BlobIndex.untouched_refl hleaves h

/-- The blobs are fetched one step after the other, until one of them fails. -/
theorem run_fetchRefs (refs : List (BlobRef × ℤ × Except String Bytes)) (store : BlobStore)
    (value : Value) :
    ∃ done, done <+: refs ∧ Run.run (N.fetchStep capability owner) store done =
      some (N.fetchRefs capability owner store value refs).1 := by
  induction refs generalizing store value with
  | nil => exact ⟨[], List.prefix_rfl, rfl⟩
  | cons x refs ih =>
    obtain ⟨br, now, downloaded⟩ := x
    rw [fetchRefs]
    cases hstep : N.fetchRef capability owner store br now downloaded with
    | error e => exact ⟨[], List.nil_prefix, rfl⟩
    | ok store₁ =>
      obtain ⟨done, hdone, hrun⟩ := ih store₁ (value.stripFetchUrl br.hash)
      refine ⟨(br, now, downloaded) :: done, List.cons_prefix_cons.2 ⟨rfl, hdone⟩, ?_⟩
      rw [Run.run, fetchStep, hstep]
      exact hrun

theorem run_sendRefs (refs : List (BlobRef × ℤ × Except String Unit)) (store : BlobStore) :
    ∃ done, done <+: refs ∧ Run.run N.sendStep store done = some (N.sendRefs store refs).1 := by
  induction refs generalizing store with
  | nil => exact ⟨[], List.prefix_rfl, rfl⟩
  | cons x refs ih =>
    obtain ⟨br, now, uploaded⟩ := x
    rw [sendRefs]
    cases hstep : N.sendRef store br now uploaded with
    | error e => exact ⟨[], List.nil_prefix, rfl⟩
    | ok store₁ =>
      obtain ⟨done, hdone, hrun⟩ := ih store₁
      refine ⟨(br, now, uploaded) :: done, List.cons_prefix_cons.2 ⟨rfl, hdone⟩, ?_⟩
      rw [Run.run, sendStep, hstep]
      exact hrun

end Invoker

/-- What a call deals with in turn: the blobs of the value, with the answers, once
    it knows its peer. -/
def Value.exchanges {α : Type} (value : Value) (recipient : Except String String)
    (answers : ℕ → α) : List (BlobRef × α) :=
  match recipient with
  | .error _ => []
  | .ok _ => value.collectBlobRefs.mapIdx fun i br => (br, answers i)

namespace Invoker

variable (N : Invoker) (capability : String) (owner : BlobOwner) (store : BlobStore)
  (value : Value) (recipient : Except String String)

theorem run_fetchOutputBlobs (answers : ℕ → ℤ × Except String Bytes) :
    ∃ done, done <+: value.exchanges recipient answers ∧
      Run.run (N.fetchStep capability owner) store done =
        some (N.fetchOutputBlobs capability owner store recipient answers value).1 := by
  simp only [fetchOutputBlobs]
  split
  · exact ⟨[], List.nil_prefix, rfl⟩
  · cases recipient with
    | error e => exact ⟨[], List.nil_prefix, rfl⟩
    | ok recipient => exact run_fetchRefs _ store value

theorem run_prepareInvokeArgs (answers : ℕ → ℤ × Except String Unit) :
    ∃ done, done <+: value.exchanges recipient answers ∧
      Run.run N.sendStep store done =
        some (N.prepareInvokeArgs store recipient answers value).1 := by
  simp only [prepareInvokeArgs]
  split
  · exact ⟨[], List.nil_prefix, rfl⟩
  · cases recipient with
    | error e => exact ⟨[], List.nil_prefix, rfl⟩
    | ok recipient => exact run_sendRefs _ store

end Invoker

/-- Whatever the writes of the index so far, and the files:

    * when the blobs of a result have been fetched for a client, all of them are
      listed for him if and only if each had a row that was shown to him, or had
      neither a row nor a file, and there is a client;
    * every write of the call leaves the rows of others alone if and only if, as
      it deals with each blob, the row of another under its hash is spared; then
      the call has left them alone;
    * so it is when the blobs of arguments are put. -/
theorem outputs_owned (N : Invoker) (ops : List BlobOp) (files : Table String Bytes)
    (capability : String) (owner : BlobOwner) (recipient : Except String String) (value : Value) :
    let store : BlobStore := ⟨BlobIndex.empty.performAll ops, files⟩
    (∀ answers store' out,
      N.fetchOutputBlobs capability owner store recipient answers value = (store', .ok out) →
      ((∀ br ∈ value.collectBlobRefs, store'.index.ListedFor owner br.hash) ↔
        ∀ br ∈ value.collectBlobRefs, N.WillList store owner br.hash)) ∧
    (∀ answers : ℕ → ℤ × Except String Bytes, let calls := value.exchanges recipient answers
      let step := N.fetchStep capability owner
      (Run.Along step (Invoker.Leaves step owner) store calls ↔
        Run.Along step (N.FetchSpares capability owner) store calls) ∧
      (Run.Along step (N.FetchSpares capability owner) store calls → store.index.Untouched
        (N.fetchOutputBlobs capability owner store recipient answers value).1.index owner)) ∧
    ∀ answers : ℕ → ℤ × Except String Unit, let calls := value.exchanges recipient answers
      (Run.Along N.sendStep (Invoker.Leaves N.sendStep owner) store calls ↔
        Run.Along N.sendStep (N.SendSpares owner) store calls) ∧
      (Run.Along N.sendStep (N.SendSpares owner) store calls → store.index.Untouched
        (N.prepareInvokeArgs store recipient answers value).1.index owner) := by
  intro store
  have hclassed : store.index.Classed := BlobIndex.classed_empty.performAll ops
  refine ⟨fun answers store' out h => ?_, fun answers => ⟨?_, fun hspares => ?_⟩,
    fun answers => ⟨?_, fun hspares => ?_⟩⟩
  · exact forall₂_congr fun br hbr => Invoker.fetchOutputBlobs_listed hclassed h hbr
  · exact ⟨fun h => h.imp fun _ _ _ => Invoker.leaves_fetchStep.1,
      fun h => h.imp fun _ _ _ => Invoker.leaves_fetchStep.2⟩
  · obtain ⟨done, hdone, hrun⟩ := N.run_fetchOutputBlobs capability owner store value recipient
      answers
    exact Invoker.untouched_run (Run.along_start hdone
      (hspares.imp fun _ _ _ => Invoker.leaves_fetchStep.2)) hrun
  · exact ⟨fun h => h.imp fun _ _ _ => Invoker.leaves_sendStep.1,
      fun h => h.imp fun _ _ _ => Invoker.leaves_sendStep.2⟩
  · obtain ⟨done, hdone, hrun⟩ := N.run_prepareInvokeArgs store value recipient answers
    exact Invoker.untouched_run (Run.along_start hdone
      (hspares.imp fun _ _ _ => Invoker.leaves_sendStep.2)) hrun

/-- A node with its blobs in a directory. -/
def toyInvoker : Invoker := ⟨hexCrypto, some "blobs", "n3:a", fun _ => none⟩

/-- A result that refers to the byte `a`, under a new name. -/
def renamed : Value :=
  .object [("doc", .object [("hash", .string (hexCrypto.hashBytes [97])),
    ("mime", .string "text/plain"), ("name", .string "mine.txt"), ("size", .number (.int 1))])]

/-- A file of the client `a`, with the byte `a`. -/
def photoRow : BlobInsert :=
  localInsert hexCrypto "blobs" 0 [97] "text/plain" (some "photo.txt") none (some "a")

theorem exists_of_isOk (call : BlobStore × Except String Value) (h : call.2.isOk) :
    ∃ store' out, call = (store', .ok out) := by
  obtain ⟨store', e | out⟩ := call
  · cases h
  · exact ⟨store', out, rfl⟩

/-- When the result comes back to the client `b`, it is not listed for him; and
    the file of the client `a` is renamed, and made a result. -/
theorem outputs_not_owned :
    let store : BlobStore := ⟨BlobIndex.empty.performAll [.upsert photoRow ⟨.localCache, rfl⟩ 0],
      (∅ : Table String Bytes).insert photoRow.storagePath [97]⟩
    ∃ store' out, toyInvoker.fetchOutputBlobs "rename" ⟨some "b"⟩ store (.ok "n3:p")
      (fun _ => (10, .ok [])) renamed = (store', .ok out) ∧
    (∃ br ∈ renamed.collectBlobRefs, ¬store'.index.ListedFor ⟨some "b"⟩ br.hash) ∧
    ¬store.index.Untouched store'.index ⟨some "b"⟩ := by
  intro store
  have hget : store.index.get (hexCrypto.hashBytes [97]) = some ⟨photoRow, 0⟩ := by decide
  have hrow : (toyInvoker.fetchOutputBlobs "rename" ⟨some "b"⟩ store (.ok "n3:p")
      (fun _ => (10, .ok [])) renamed).1.index.get (hexCrypto.hashBytes [97]) =
        some (BlobRecord.deliver ⟨photoRow, 0⟩ (some "mine.txt") 86410) := by decide
  obtain ⟨store', out, hcall⟩ := exists_of_isOk (toyInvoker.fetchOutputBlobs "rename"
    ⟨some "b"⟩ store (.ok "n3:p") (fun _ => (10, .ok [])) renamed) (by decide)
  rw [hcall] at hrow
  refine ⟨store', out, hcall, ⟨⟨hexCrypto.hashBytes [97], 1, "text/plain", none, some "mine.txt"⟩,
    by decide, fun hlisted => ?_⟩, fun huntouched => ?_⟩
  · obtain ⟨r, hr, -, howned⟩ := BlobIndex.listedFor_iff.1 hlisted
    obtain rfl := Option.some.inj (hrow.symm.trans hr)
    exact absurd howned (by decide)
  · obtain ⟨r, hr, hsame⟩ := huntouched _ _ hget (by decide)
    obtain rfl := Option.some.inj (hrow.symm.trans hr)
    exact absurd hsame.path (by decide)

/-- Another file of the client `a`, with the byte `b`. -/
def letterRow : BlobInsert :=
  localInsert hexCrypto "blobs" 0 [98] "text/plain" (some "letter.txt") none (some "a")

/-- A result that is new to the node is downloaded, and listed for its client; the
    file of the client `a` is left alone. -/
theorem outputs_owned_new :
    let store : BlobStore := ⟨BlobIndex.empty.performAll [.upsert letterRow ⟨.localCache, rfl⟩ 0],
      (∅ : Table String Bytes).insert letterRow.storagePath [98]⟩
    (∃ r, store.index.get (hexCrypto.hashBytes [98]) = some r ∧ r.OwnedByAnother ⟨some "b"⟩) ∧
    ∃ store' out, toyInvoker.fetchOutputBlobs "rename" ⟨some "b"⟩ store (.ok "n3:p")
      (fun _ => (10, .ok [97])) renamed = (store', .ok out) ∧
    (∀ br ∈ renamed.collectBlobRefs, store'.index.ListedFor ⟨some "b"⟩ br.hash) ∧
    store.index.Untouched store'.index ⟨some "b"⟩ := by
  intro store
  have howned : store.index.get (hexCrypto.hashBytes [98]) = some ⟨letterRow, 0⟩ := by decide
  have hnew : store.index.get (hexCrypto.hashBytes [97]) = none := by decide
  have hmissing : toyInvoker.readLocalBytes store (hexCrypto.hashBytes [97]) = none := by decide
  obtain ⟨store', out, hcall⟩ := exists_of_isOk (toyInvoker.fetchOutputBlobs "rename"
    ⟨some "b"⟩ store (.ok "n3:p") (fun _ => (10, .ok [97])) renamed) (by decide)
  obtain ⟨hlisted, hfetched, -⟩ := outputs_owned toyInvoker
    [.upsert letterRow ⟨.localCache, rfl⟩ 0] ((∅ : Table String Bytes).insert
      letterRow.storagePath [98]) "rename" ⟨some "b"⟩ (.ok "n3:p") renamed
  have hrefs : renamed.collectBlobRefs =
      [⟨hexCrypto.hashBytes [97], 1, "text/plain", none, some "mine.txt"⟩] := by decide
  have huntouched := (hfetched fun _ => (10, .ok [97])).2 <| by
    rw [Value.exchanges, hrefs]
    refine ⟨fun r hr _ => ?_, fun _ _ => trivial⟩
    exact absurd (hnew.symm.trans hr) (Option.some_ne_none r).symm
  rw [hcall] at huntouched
  refine ⟨⟨_, howned, by decide⟩, store', out, hcall,
    (hlisted _ store' out hcall).2 fun br hbr => ?_, huntouched⟩
  rw [hrefs, List.mem_singleton] at hbr
  rw [hbr]
  exact (Invoker.willList_of_none hnew).2 ⟨rfl, hmissing⟩

end N3ur0n
