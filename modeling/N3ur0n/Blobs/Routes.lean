import N3ur0n.Blobs.Ticket
import N3ur0n.Lib.Threads

/-!
# The routes of blobs

Peers put blobs and get them back, with tickets; users upload files and delete
them; and the blobs whose time is over are collected. All of them write the
index and the files in steps of their own (`BlobPhase`), with those of the
others in between.

* `BlobNode.program`: the steps of the requests and of the collector;
* `BlobWrite`: what a step writes to the index or the files, as data;
  `BlobNode.step_state` says that this is all it does;
* `BlobNode.leadsTo_of_step`: where a step leads, and what it has checked;
* `BlobNode.alone_upload`: an upload step by step does what `uploadFile` does.
-/

namespace N3ur0n

/-! ## Policy -/

/-- Longest retention a ticket may obtain by asking, in seconds. -/
def maxGrantedTtlSecs : ℤ := 7 * 24 * 60 * 60

def defaultPerPeerBytes : ℕ := 100 * 1024 * 1024

def defaultPerPeerBlobs : ℕ := 50

/-- The prefix, and 64 lowercase hexadecimal digits. -/
def validateHash (s : String) : Except CoreError Unit := do
  Except.reject (¬blobHashPrefix.toList.isPrefixOf s.toList)
    (.invalidIdentifier s!"blob hash must start with {blobHashPrefix}")
  let hex := s.toList.drop blobHashPrefix.length
  Except.reject (hex.length ≠ 64 ∨ ¬hex.all fun c => c.isDigit || 'a' ≤ c && c ≤ 'f')
    (.invalidIdentifier "blob hash must be 64 lowercase hex digits")

/-- Until when a blob is kept: its purpose has a time to live, and the ticket may
    ask for more, up to a week. -/
def effectiveExpires (ticket : BlobTicketPayload) (now : ℤ) : ℤ :=
  now + match ticket.requestedTtlSecs with
    | some r => max (defaultTtlSecs ticket.purpose) (min r maxGrantedTtlSecs)
    | none => defaultTtlSecs ticket.purpose

theorem defaultTtlSecs_pos (purpose : BlobPurpose) : 0 < defaultTtlSecs purpose := by
  cases purpose <;> decide

/-- A blob is granted some time, whatever its ticket asks for. -/
theorem lt_effectiveExpires (ticket : BlobTicketPayload) (now : ℤ) :
    now < effectiveExpires ticket now := by
  have hpos := defaultTtlSecs_pos ticket.purpose
  rw [effectiveExpires]
  split
  · exact lt_add_of_pos_right now (hpos.trans_le (le_max_left _ _))
  · exact lt_add_of_pos_right now hpos

/-- The first half of `check_peer_quota`. -/
def checkBytes (idx : BlobIndex) (uploader : String) (addBytes : ℕ) (now : ℤ) :
    Except HttpError Unit :=
  Except.reject (idx.sumBytesForUploader uploader now + addBytes > defaultPerPeerBytes)
    (.error 429 "quota exceeded")

/-- The second half of `check_peer_quota`. -/
def checkCount (idx : BlobIndex) (uploader : String) (now : ℤ) : Except HttpError Unit :=
  Except.reject (idx.countForUploader uploader now ≥ defaultPerPeerBlobs)
    (.error 429 "quota exceeded")

/-- `check_peer_quota`, with nothing between its two queries. -/
def checkPeerQuota (idx : BlobIndex) (uploader : String) (addBytes : ℕ) (now : ℤ) :
    Except HttpError Unit := do
  checkBytes idx uploader addBytes now
  checkCount idx uploader now

theorem checkPeerQuota_ok {idx : BlobIndex} {uploader : String} {addBytes : ℕ} {now : ℤ} :
    checkPeerQuota idx uploader addBytes now = .ok () ↔
      idx.sumBytesForUploader uploader now + addBytes ≤ defaultPerPeerBytes ∧
        idx.countForUploader uploader now < defaultPerPeerBlobs := by
  refine Except.check_eq_ok.trans (and_congr (Except.reject_eq_ok.trans ?_)
    (Except.reject_eq_ok.trans ?_))
  · rw [gt_iff_lt, not_lt]
  · rw [ge_iff_le, not_le]

/-- The sender is the uploader, or in his whitelist. -/
def getAuthorization (record : BlobRecord) (sender : String) : Except HttpError Unit :=
  Except.reject (¬(record.uploaderId = some sender ∨ ∃ ids ∈ record.recipientsWhitelist,
    sender ∈ ids)) (.error 403 "not authorized to download")

def ownsRecord (record : BlobRecord) (userId : ℤ) (clientId : Option String) : Bool :=
  record.localUserId = some userId ∨ clientId.isSome ∧ record.clientId = clientId

/-! ## Requests -/

inductive BlobRequest
  | put (hash : String) (ticket : Option String) (body : Bytes)
  | get (hash : String) (ticket : Option String)
  | head (hash : String)
  | delete (hash : String) (ticket : Option String)
  /-- `upload_file`, the path being sanitized. -/
  | upload (user : AuthedUser) (contentType cookie path : Option String) (body : Bytes)
  /-- `delete_file`. -/
  | deleteFile (user : AuthedUser) (cookie : Option String) (hash : String)
  /-- A pass of the collector. -/
  | collect
  deriving DecidableEq

inductive BlobResponse
  | error (e : HttpError)
  | stored (status : ℕ) (hash : String) (size : ℕ) (expiresAt : ℤ)
  | content (mime : String) (size : ℕ) (hash : String) (bytes : Bytes)
  | found (mime : String) (size : ℕ)
  | uploaded (file : Uploaded)
  | noContent
  /-- The pass of the collector is over. -/
  | collected
  deriving DecidableEq

/-- A put whose ticket was accepted. -/
structure PutJob where
  root : String
  hash : String
  body : Bytes
  size : ℕ
  mime : String
  ticket : BlobTicketPayload
  uploader : String
  deriving DecidableEq

/-- A local upload that was accepted. -/
structure UploadJob where
  root : String
  bytes : Bytes
  mime : String
  path : Option String
  localUserId : Option ℤ
  clientId : Option String
  deriving DecidableEq

/-- Where a request stands: before a statement of the database or an operation
    on a file, with what it remembers. -/
inductive BlobPhase
  | arrived (req : BlobRequest)
  | putLookup (job : PutJob)
  | putSum (job : PutJob)
  | putCount (job : PutJob) (now : ℤ)
  | putWrite (job : PutJob)
  | putInsert (job : PutJob)
  | getLookup (hash sender : String)
  | getRead (record : BlobRecord)
  | deleteLookup (hash sender : String)
  | removeFile (path hash : String)
  | deleteRow (hash : String)
  | uploadWrite (job : UploadJob)
  | uploadInsert (job : UploadJob)
  | uploadReload (job : UploadJob)
  | collectRows (now : ℤ) (paths : List String)
  | collectFiles (paths : List String)
  deriving DecidableEq

/-- What the requests share: the clock, in nanoseconds, the nonces seen, the
    index and the files. -/
structure BlobState where
  clock : ℤ
  nonces : List NonceRow
  store : BlobStore

/-- The Unix time. -/
def BlobState.now (σ : BlobState) : ℤ := unixTimestamp σ.clock

/-- A write to the index or to the files. -/
inductive BlobWrite
  | upsert (row : BlobInsert) (now : ℤ)
  | delete (hash : String)
  | deleteExpired (now : ℤ)
  | writeFile (path : String) (bytes : Bytes)
  | removeFile (path : String)

def BlobStore.write (store : BlobStore) : BlobWrite → BlobStore
  | .upsert row now => { store with index := store.index.upsert row now }
  | .delete hash => { store with index := store.index.delete hash }
  | .deleteExpired now => { store with index := store.index.deleteExpired now }
  | .writeFile path bytes => { store with files := store.files.insert path bytes }
  | .removeFile path => { store with files := store.files.erase path }

def BlobState.write (σ : BlobState) (w : BlobWrite) : BlobState :=
  { σ with store := σ.store.write w }

/-- The file at a path has the bytes with this hash. -/
def BlobStore.HasFile (C : Crypto) (store : BlobStore) (path hash : String) : Prop :=
  ∃ bytes ∈ store.files.lookup path, C.hashBytes bytes = hash

instance (C : Crypto) (store : BlobStore) (path hash : String) :
    Decidable (store.HasFile C path hash) :=
  inferInstanceAs (Decidable (∃ bytes ∈ store.files.lookup path, C.hashBytes bytes = hash))

namespace BlobStore

variable {C : Crypto} {store : BlobStore} {path path' hash : String}

theorem hasFile_writeFile {bytes : Bytes} :
    (store.write (.writeFile path' bytes)).HasFile C path hash ↔
      if path = path' then C.hashBytes bytes = hash else store.HasFile C path hash := by
  rw [HasFile, write, Finmap.lookup_insert_ite]
  split
  · simp
  · rfl

theorem hasFile_removeFile : (store.write (.removeFile path')).HasFile C path hash ↔
    path ≠ path' ∧ store.HasFile C path hash := by
  rw [HasFile, write]
  by_cases hp : path = path'
  · subst hp
    rw [Finmap.lookup_erase]
    simp
  · rw [Finmap.lookup_erase_ne hp, HasFile, and_iff_right hp]

end BlobStore

/-! ## Steps -/

/-- `insert_blob_record`: the row of a blob that is put. -/
def PutJob.row (job : PutJob) (now : ℤ) : BlobInsert where
  hash := job.hash
  size := job.size
  mime := job.mime
  path := none
  expiresAt := effectiveExpires job.ticket now
  storagePath := storagePath job.root job.hash
  provenance := .inbound
  role := .input
  anchorKind := .capJob
  processingStatus := .staged
  localUserId := none
  clientId := none
  userVisible := classifyCapStaging.userVisible
  userDeletable := classifyCapStaging.userDeletable
  uploaderId := some job.uploader
  recipientsWhitelist := job.ticket.recipientsWhitelist

/-- The row of a file that is uploaded. -/
def UploadJob.row (C : Crypto) (job : UploadJob) (now : ℤ) : BlobInsert :=
  localInsert C job.root now job.bytes job.mime job.path job.localUserId job.clientId

/-- What a request goes on with, or its error. -/
def answer : Except HttpError BlobPhase → BlobPhase ⊕ BlobResponse
  | .error e => .inr (.error e)
  | .ok phase => .inl phase

namespace BlobNode

variable (B : BlobNode) (σ : BlobState)

def capAllowsUpload (capName : String) : Except HttpError Unit :=
  match B.registry capName with
  | none => .error (.error 404 "capability not found")
  | some .private => .error (.error 403 "capability refuses upload")
  | some _ => .ok ()

/-- What a ticket has to say for a put. -/
def putJob (root hash : String) (body : Bytes) (signed : SignedMessage)
    (ticket : BlobTicketPayload) : Except HttpError PutJob := do
  let cap ← ticket.capability.elim (.error (.error 400 "ticket missing capability")) .ok
  let size ← ticket.size.elim (.error (.error 400 "ticket missing size")) .ok
  let mime ← ticket.mime.elim (.error (.error 400 "ticket missing mime")) .ok
  B.capAllowsUpload cap
  .ok ⟨root, hash, body, size, mime, ticket, signed.envelope.senderId⟩

/-- A response is built, unless the MIME type cannot be the value of a header. -/
def respond (mime : String) (response : BlobResponse) : BlobResponse :=
  if B.isHeaderValue mime then response else .error (.error 500 "response build failed")

/-- A request with a ticket, up to its first lookup in the index. -/
def accept (hash : String) (header : Option String) (wantOp : BlobOperation)
    (next : SignedMessage → BlobTicketPayload → Except HttpError BlobPhase) :
    BlobState × (BlobPhase ⊕ BlobResponse) :=
  match validateHash hash with
  | .error e => (σ, .inr (.error (.error 400 e.text)))
  | .ok () =>
    match verifyTicket B σ.nonces header wantOp hash σ.clock with
    | (nonces, .error e) => ({ σ with nonces := nonces }, .inr (.error e))
    | (nonces, .ok (signed, ticket)) => ({ σ with nonces := nonces }, answer (next signed ticket))

/-- The first step of a request. -/
def arrive : BlobRequest → BlobState × (BlobPhase ⊕ BlobResponse)
  | .put hash header body =>
    match B.blobsRoot with
    | none => (σ, .inr (.error (.error 503 "blob storage not configured")))
    | some root => accept B σ hash header .put fun signed ticket =>
      (B.putJob root hash body signed ticket).map .putLookup
  | .get hash header => accept B σ hash header .get fun signed _ =>
    .ok (.getLookup hash signed.envelope.senderId)
  | .head hash =>
    match validateHash hash with
    | .error e => (σ, .inr (.error (.error 400 e.text)))
    | .ok () =>
      match σ.store.index.get hash with
      | none => (σ, .inr (.error (.error 404 "blob not found")))
      | some r =>
        if r.expiresAt ≤ σ.now then (σ, .inr (.error (.error 404 "blob not found")))
        else (σ, .inr (B.respond r.mime (.found r.mime r.size)))
  | .delete hash header => accept B σ hash header .delete fun signed _ =>
    .ok (.deleteLookup hash signed.envelope.senderId)
  | .upload user contentType cookie path body => (σ, answer do
      Except.reject (¬hasPermission user.role .filesRead) (.forbidden "forbidden" .filesRead)
      Except.reject (body = []) (.error 400 "empty body")
      let root ← B.blobsRoot.elim (.error (.error 500 "blobs_dir not configured")) .ok
      .ok (.uploadWrite ⟨root, body, mediaType contentType, path, some user.id,
        clientIdFromCookie cookie⟩))
  | .deleteFile user cookie hash => (σ, answer do
      Except.reject (¬hasPermission user.role .filesDelete) (.forbidden "forbidden" .filesDelete)
      let r ← (σ.store.index.get hash).elim (.error (.error 404 "not found")) .ok
      Except.reject (¬r.userDeletable ∨ ¬ownsRecord r user.id (clientIdFromCookie cookie))
        (.error 403 "not deletable")
      .ok (.removeFile r.storagePath hash))
  | .collect =>
    match σ.store.index.selectExpired σ.now with
    | [] => (σ, .inr .collected)
    | expired => (σ, .inl (.collectRows σ.now (expired.map (·.storagePath))))

/-- The next step of a request. -/
def step : BlobPhase → BlobState × (BlobPhase ⊕ BlobResponse)
  | .arrived req => B.arrive σ req
  | .putLookup job =>
    match (σ.store.index.get job.hash).filter fun r => σ.now < r.expiresAt with
    | some r => (σ, .inr (.stored 200 job.hash r.size r.expiresAt))
    | none => (σ, answer do
        Except.reject (job.body.length ≠ job.size) (.error 400 "size mismatch")
        Except.reject (B.receiver.crypto.hashBytes job.body ≠ job.hash) (.error 400 "hash mismatch")
        .ok (.putSum job))
  | .putSum job => (σ, answer do
      checkBytes σ.store.index job.uploader job.size σ.now
      .ok (.putCount job σ.now))
  | .putCount job now => (σ, answer do
      checkCount σ.store.index job.uploader now
      .ok (.putWrite job))
  | .putWrite job => (σ.write (.writeFile (storagePath job.root job.hash) job.body),
      .inl (.putInsert job))
  | .putInsert job => (σ.write (.upsert (job.row σ.now) σ.now),
      .inr (.stored 201 job.hash job.size (effectiveExpires job.ticket σ.now)))
  | .getLookup hash sender => (σ, answer do
      let r ← (σ.store.index.get hash).elim (.error (.error 404 "blob not found")) .ok
      Except.reject (r.expiresAt ≤ σ.now) (.error 404 "blob expired")
      getAuthorization r sender
      .ok (.getRead r))
  | .getRead r =>
    match σ.store.files.lookup r.storagePath with
    | none => (σ, .inr (.error (.error 404 "blob not found")))
    | some bytes => (σ, .inr (B.respond r.mime (.content r.mime r.size r.hash bytes)))
  | .deleteLookup hash sender => (σ, answer do
      let r ← (σ.store.index.get hash).elim (.error (.error 404 "blob not found")) .ok
      Except.reject (r.uploaderId ≠ some sender) (.error 403 "only uploader may delete")
      .ok (.removeFile r.storagePath hash))
  | .removeFile path hash => (σ.write (.removeFile path), .inl (.deleteRow hash))
  | .deleteRow hash => (σ.write (.delete hash), .inr .noContent)
  | .uploadWrite job =>
    let path := storagePath job.root (B.receiver.crypto.hashBytes job.bytes)
    (σ.write (.writeFile path job.bytes), .inl (.uploadInsert job))
  | .uploadInsert job =>
    (σ.write (.upsert (job.row B.receiver.crypto σ.now) σ.now), .inl (.uploadReload job))
  | .uploadReload job =>
    let hash := B.receiver.crypto.hashBytes job.bytes
    (σ, .inr (.uploaded
      ⟨hash, job.bytes.length, job.mime, (σ.store.index.get hash).bind (·.path)⟩))
  | .collectRows now paths => (σ.write (.deleteExpired now), .inl (.collectFiles paths))
  | .collectFiles [] => (σ, .inr .collected)
  | .collectFiles (path :: paths) => (σ.write (.removeFile path), .inl (.collectFiles paths))

end BlobNode

/-- What happens around the requests. -/
inductive BlobEvent
  | tick (clock : ℤ)
  /-- A message comes in, whose nonce is inserted if it is admitted. -/
  | message (msg : SignedMessage)
  | pruneNonces (reading : ℤ)

/-- The clock does not go back, and nonces are pruned at an earlier reading. -/
def BlobNode.env (B : BlobNode) (σ : BlobState) : BlobEvent → Option BlobState
  | .tick clock => if σ.clock ≤ clock then some { σ with clock := clock } else none
  | .message msg => some { σ with
      nonces := (admitMessage B.receiver σ.nonces msg σ.clock).toOption.getD σ.nonces }
  | .pruneNonces reading =>
    if reading ≤ σ.clock then some { σ with
      nonces := NonceRow.pruneOlderThan σ.nonces (unixTimestamp reading - nonceTtlSeconds) }
    else none

/-- How requests are served. The handlers never wait, so that none is given up. -/
def BlobNode.program (B : BlobNode) :
    Program BlobState BlobRequest BlobPhase Unit BlobResponse BlobEvent where
  enter := .arrived
  step σ _ phase _ := some (B.step σ phase)
  abort _ _ _ := none
  env := B.env

/-! ## What a step writes -/

/-- The write of a step at the time `now`, if it makes one. -/
def BlobPhase.write (C : Crypto) (now : ℤ) : BlobPhase → Option BlobWrite
  | .putWrite job => some (.writeFile (storagePath job.root job.hash) job.body)
  | .putInsert job => some (.upsert (job.row now) now)
  | .removeFile path _ => some (.removeFile path)
  | .deleteRow hash => some (.delete hash)
  | .uploadWrite job => some (.writeFile (storagePath job.root (C.hashBytes job.bytes)) job.bytes)
  | .uploadInsert job => some (.upsert (job.row C now) now)
  | .collectRows now _ => some (.deleteExpired now)
  | .collectFiles (path :: _) => some (.removeFile path)
  | _ => none

namespace BlobNode

variable {B : BlobNode} {σ : BlobState}

/-- Before its lookup, a request writes nothing, and leaves the clock. -/
theorem accept_state {hash : String} {header : Option String} {wantOp : BlobOperation}
    {next : SignedMessage → BlobTicketPayload → Except HttpError BlobPhase} :
    (B.accept σ hash header wantOp next).1.clock = σ.clock ∧
      (B.accept σ hash header wantOp next).1.store = σ.store := by
  rw [accept]
  split
  · exact ⟨rfl, rfl⟩
  · split <;> exact ⟨rfl, rfl⟩

theorem arrive_state (req : BlobRequest) : (B.arrive σ req).1.clock = σ.clock ∧
    (B.arrive σ req).1.store = σ.store := by
  cases req with
  | put hash header body =>
    rw [arrive]
    split
    · exact ⟨rfl, rfl⟩
    · exact accept_state
  | get hash header => exact accept_state
  | head hash =>
    rw [arrive]
    split
    · exact ⟨rfl, rfl⟩
    · split
      · exact ⟨rfl, rfl⟩
      · split <;> exact ⟨rfl, rfl⟩
  | delete hash header => exact accept_state
  | upload user contentType cookie path body => exact ⟨rfl, rfl⟩
  | deleteFile user cookie hash => exact ⟨rfl, rfl⟩
  | collect =>
    rw [arrive]
    split <;> exact ⟨rfl, rfl⟩

/-- A step does nothing to the index and the files but its write. -/
theorem step_state (phase : BlobPhase) : (B.step σ phase).1.clock = σ.clock ∧
    (B.step σ phase).1.store =
      ((phase.write B.receiver.crypto σ.now).map σ.store.write).getD σ.store := by
  cases phase with
  | arrived req => exact arrive_state req
  | putLookup job =>
    rw [step]
    split <;> exact ⟨rfl, rfl⟩
  | getRead r =>
    rw [step]
    split <;> exact ⟨rfl, rfl⟩
  | collectFiles paths => cases paths <;> exact ⟨rfl, rfl⟩
  | _ => exact ⟨rfl, rfl⟩

end BlobNode

/-! ## Where a step leads -/

/-- Whom a blob is put for. -/
def BlobPhase.uploader : BlobPhase → Option String
  | .putLookup job | .putSum job | .putCount job _ | .putWrite job | .putInsert job =>
    some job.uploader
  | _ => none

namespace BlobNode

/-- Where a step leads, and what it has checked. -/
inductive LeadsTo (B : BlobNode) (σ : BlobState) : BlobPhase → BlobPhase → Prop
  | put {root hash header body nonces signed ticket job} : B.blobsRoot = some root →
      validateHash hash = .ok () →
      verifyTicket B σ.nonces header .put hash σ.clock = (nonces, .ok (signed, ticket)) →
      B.putJob root hash body signed ticket = .ok job →
      LeadsTo B σ (.arrived (.put hash header body)) (.putLookup job)
  | get {hash header nonces signed ticket} : validateHash hash = .ok () →
      verifyTicket B σ.nonces header .get hash σ.clock = (nonces, .ok (signed, ticket)) →
      LeadsTo B σ (.arrived (.get hash header)) (.getLookup hash signed.envelope.senderId)
  | delete {hash header nonces signed ticket} : validateHash hash = .ok () →
      verifyTicket B σ.nonces header .delete hash σ.clock = (nonces, .ok (signed, ticket)) →
      LeadsTo B σ (.arrived (.delete hash header)) (.deleteLookup hash signed.envelope.senderId)
  | upload {user contentType cookie path body root} : B.blobsRoot = some root →
      LeadsTo B σ (.arrived (.upload user contentType cookie path body)) (.uploadWrite
        ⟨root, body, mediaType contentType, path, some user.id, clientIdFromCookie cookie⟩)
  | deleteFile {user cookie hash r} : σ.store.index.get hash = some r → r.userDeletable →
      ownsRecord r user.id (clientIdFromCookie cookie) →
      LeadsTo B σ (.arrived (.deleteFile user cookie hash)) (.removeFile r.storagePath hash)
  | collect : LeadsTo B σ (.arrived .collect)
      (.collectRows σ.now ((σ.store.index.selectExpired σ.now).map (·.storagePath)))
  | missed {job} : (∀ r ∈ σ.store.index.get job.hash, r.expiresAt ≤ σ.now) →
      job.body.length = job.size → B.receiver.crypto.hashBytes job.body = job.hash →
      LeadsTo B σ (.putLookup job) (.putSum job)
  | summed {job} : checkBytes σ.store.index job.uploader job.size σ.now = .ok () →
      LeadsTo B σ (.putSum job) (.putCount job σ.now)
  | counted {job now} : checkCount σ.store.index job.uploader now = .ok () →
      LeadsTo B σ (.putCount job now) (.putWrite job)
  | written {job} : LeadsTo B σ (.putWrite job) (.putInsert job)
  | authorized {hash sender r} : σ.store.index.get hash = some r → σ.now < r.expiresAt →
      getAuthorization r sender = .ok () → LeadsTo B σ (.getLookup hash sender) (.getRead r)
  | deletable {hash sender r} : σ.store.index.get hash = some r → r.uploaderId = some sender →
      LeadsTo B σ (.deleteLookup hash sender) (.removeFile r.storagePath hash)
  | removed {path hash} : LeadsTo B σ (.removeFile path hash) (.deleteRow hash)
  | uploadWritten {job} : LeadsTo B σ (.uploadWrite job) (.uploadInsert job)
  | uploadInserted {job} : LeadsTo B σ (.uploadInsert job) (.uploadReload job)
  | rowsCollected {now paths} : LeadsTo B σ (.collectRows now paths) (.collectFiles paths)
  | fileCollected {path paths} : LeadsTo B σ (.collectFiles (path :: paths)) (.collectFiles paths)

variable {B : BlobNode} {σ : BlobState}

theorem answer_eq_inl {x : Except HttpError BlobPhase} {phase : BlobPhase} :
    answer x = .inl phase ↔ x = .ok phase := by
  cases x with
  | error e => exact ⟨nofun, nofun⟩
  | ok phase' => exact ⟨fun h => congrArg Except.ok (Sum.inl.inj h), fun h =>
      congrArg Sum.inl (Except.ok.inj h)⟩

/-- A request goes on if its hash is valid and its ticket accepted. -/
theorem accept_eq_inl {hash : String} {header : Option String} {wantOp : BlobOperation}
    {next : SignedMessage → BlobTicketPayload → Except HttpError BlobPhase} {phase : BlobPhase}
    (h : (B.accept σ hash header wantOp next).2 = .inl phase) :
    validateHash hash = .ok () ∧ ∃ nonces signed ticket,
      verifyTicket B σ.nonces header wantOp hash σ.clock = (nonces, .ok (signed, ticket)) ∧
        next signed ticket = .ok phase := by
  rw [accept] at h
  split at h
  · cases h
  · next hv =>
    split at h
    · cases h
    · next nonces signed ticket ht => exact ⟨hv, nonces, signed, ticket, ht, answer_eq_inl.1 h⟩

theorem leadsTo_of_arrive {req : BlobRequest} {phase : BlobPhase}
    (h : (B.arrive σ req).2 = .inl phase) : LeadsTo B σ (.arrived req) phase := by
  cases req with
  | put hash header body =>
    rw [arrive] at h
    split at h
    · cases h
    · next root hr =>
      obtain ⟨hv, nonces, signed, ticket, ht, hn⟩ := accept_eq_inl h
      obtain ⟨job, hj, rfl⟩ := Except.map_eq_ok.1 hn
      exact .put hr hv ht hj
  | get hash header =>
    obtain ⟨hv, nonces, signed, ticket, ht, hn⟩ := accept_eq_inl h
    exact Except.ok.inj hn ▸ .get hv ht
  | head hash =>
    rw [arrive] at h
    split at h
    · cases h
    -- a HEAD always is answered at once
    · split at h
      · cases h
      · split at h <;> cases h
  | delete hash header =>
    obtain ⟨hv, nonces, signed, ticket, ht, hn⟩ := accept_eq_inl h
    exact Except.ok.inj hn ▸ .delete hv ht
  | upload user contentType cookie path body =>
    obtain ⟨-, h⟩ := Except.check_eq_ok.1 (answer_eq_inl.1 h)
    obtain ⟨-, h⟩ := Except.check_eq_ok.1 h
    obtain ⟨root, hr, h⟩ := Except.bind_eq_ok.1 h
    exact Except.ok.inj h ▸ .upload (Except.elim_eq_ok.1 hr)
  | deleteFile user cookie hash =>
    obtain ⟨-, h⟩ := Except.check_eq_ok.1 (answer_eq_inl.1 h)
    obtain ⟨r, hr, h⟩ := Except.bind_eq_ok.1 h
    obtain ⟨hc, h⟩ := Except.check_eq_ok.1 h
    obtain ⟨hdel, howns⟩ := not_or.1 (Except.reject_eq_ok.1 hc)
    exact Except.ok.inj h ▸ .deleteFile (Except.elim_eq_ok.1 hr) (not_not.1 hdel) (not_not.1 howns)
  | collect =>
    rw [arrive] at h
    split at h
    · cases h
    · exact Sum.inl.inj h ▸ .collect

theorem leadsTo_of_step {phase phase' : BlobPhase} (h : (B.step σ phase).2 = .inl phase') :
    LeadsTo B σ phase phase' := by
  cases phase with
  | arrived req => exact leadsTo_of_arrive h
  | putLookup job =>
    rw [step] at h
    split at h
    · cases h
    · next hmiss =>
      obtain ⟨hsize, h⟩ := Except.check_eq_ok.1 (answer_eq_inl.1 h)
      obtain ⟨hhash, h⟩ := Except.check_eq_ok.1 h
      refine Except.ok.inj h ▸ .missed (fun r hr => ?_) (not_not.1 (Except.reject_eq_ok.1 hsize))
        (not_not.1 (Except.reject_eq_ok.1 hhash))
      rw [Option.mem_def.1 hr, Option.filter_eq_none_iff] at hmiss
      simpa using hmiss r rfl
  | putSum job =>
    obtain ⟨hc, h⟩ := Except.check_eq_ok.1 (answer_eq_inl.1 h)
    exact Except.ok.inj h ▸ .summed hc
  | putCount job now =>
    obtain ⟨hc, h⟩ := Except.check_eq_ok.1 (answer_eq_inl.1 h)
    exact Except.ok.inj h ▸ .counted hc
  | putWrite job => exact Sum.inl.inj h ▸ .written
  | getLookup hash sender =>
    obtain ⟨r, hr, h⟩ := Except.bind_eq_ok.1 (answer_eq_inl.1 h)
    obtain ⟨hexp, h⟩ := Except.check_eq_ok.1 h
    obtain ⟨hauth, h⟩ := Except.check_eq_ok.1 h
    exact Except.ok.inj h ▸ .authorized (Except.elim_eq_ok.1 hr)
      (not_le.1 (Except.reject_eq_ok.1 hexp)) hauth
  | getRead r =>
    rw [step] at h
    split at h <;> cases h
  | deleteLookup hash sender =>
    obtain ⟨r, hr, h⟩ := Except.bind_eq_ok.1 (answer_eq_inl.1 h)
    obtain ⟨hup, h⟩ := Except.check_eq_ok.1 h
    exact Except.ok.inj h ▸ .deletable (Except.elim_eq_ok.1 hr)
      (not_not.1 (Except.reject_eq_ok.1 hup))
  | removeFile path hash => exact Sum.inl.inj h ▸ .removed
  | uploadWrite job => exact Sum.inl.inj h ▸ .uploadWritten
  | uploadInsert job => exact Sum.inl.inj h ▸ .uploadInserted
  | collectRows now paths => exact Sum.inl.inj h ▸ .rowsCollected
  | collectFiles paths =>
    cases paths with
    | nil => cases h
    | cons path paths => exact Sum.inl.inj h ▸ .fileCollected
  | putInsert job | deleteRow hash | uploadReload job => cases h

theorem answer_eq_inr {x : Except HttpError BlobPhase} {r : BlobResponse}
    (h : answer x = .inr r) : ∃ e, r = .error e := by
  cases x with
  | error e => exact ⟨e, (Sum.inr.inj h).symm⟩
  | ok phase => cases h

theorem accept_eq_inr {hash : String} {header : Option String} {wantOp : BlobOperation}
    {next : SignedMessage → BlobTicketPayload → Except HttpError BlobPhase} {r : BlobResponse}
    (h : (B.accept σ hash header wantOp next).2 = .inr r) : ∃ e, r = .error e := by
  rw [accept] at h
  split at h
  · exact ⟨_, (Sum.inr.inj h).symm⟩
  · split at h
    · exact ⟨_, (Sum.inr.inj h).symm⟩
    · exact answer_eq_inr h

/-- The response, or the error that it cannot be built. -/
theorem respond_eq {mime : String} {response r : BlobResponse}
    (h : B.respond mime response = r) :
    (∃ e, r = .error e) ∨ B.isHeaderValue mime ∧ r = response := by
  rw [respond] at h
  split at h
  · next hmime => exact .inr ⟨hmime, h.symm⟩
  · exact .inl ⟨_, h.symm⟩

/-- What the first step of a request may answer. -/
theorem arrive_eq_inr {req : BlobRequest} {r : BlobResponse} (h : (B.arrive σ req).2 = .inr r) :
    (∃ e, r = .error e) ∨ (∃ mime size, r = .found mime size) ∨ r = .collected := by
  cases req with
  | put hash header body =>
    rw [arrive] at h
    split at h
    · exact .inl ⟨_, (Sum.inr.inj h).symm⟩
    · exact .inl (accept_eq_inr h)
  | get hash header => exact .inl (accept_eq_inr h)
  | head hash =>
    rw [arrive] at h
    split at h
    · exact .inl ⟨_, (Sum.inr.inj h).symm⟩
    · split at h
      · exact .inl ⟨_, (Sum.inr.inj h).symm⟩
      · split at h
        · exact .inl ⟨_, (Sum.inr.inj h).symm⟩
        · rcases respond_eq (Sum.inr.inj h) with he | ⟨-, hr⟩
          · exact .inl he
          · exact .inr (.inl ⟨_, _, hr⟩)
  | delete hash header => exact .inl (accept_eq_inr h)
  | upload user contentType cookie path body => exact .inl (answer_eq_inr h)
  | deleteFile user cookie hash => exact .inl (answer_eq_inr h)
  | collect =>
    rw [arrive] at h
    split at h
    · exact .inr (.inr (Sum.inr.inj h).symm)
    · cases h

/-- No blob is stored by the first step of a request. -/
theorem arrive_ne_stored {req : BlobRequest} {status : ℕ} {hash : String} {size : ℕ}
    {expiresAt : ℤ} : (B.arrive σ req).2 ≠ .inr (.stored status hash size expiresAt) := by
  intro h
  rcases arrive_eq_inr h with ⟨e, h⟩ | ⟨mime, size', h⟩ | h
  · cases h
  · cases h
  · cases h

/-- A blob is stored for a peer if it was there already, and unexpired, or when
    its row is written. -/
theorem stored_of_step {phase : BlobPhase} {status : ℕ} {hash : String} {size : ℕ} {expiresAt : ℤ}
    (h : (B.step σ phase).2 = .inr (.stored status hash size expiresAt)) :
    (∃ job r, phase = .putLookup job ∧ job.hash = hash ∧ σ.store.index.get hash = some r ∧
      σ.now < r.expiresAt ∧ r.expiresAt = expiresAt) ∨
    ∃ job, phase = .putInsert job ∧ job.hash = hash ∧
      effectiveExpires job.ticket σ.now = expiresAt := by
  have herror {x : Except HttpError BlobPhase}
      (hx : answer x = .inr (.stored status hash size expiresAt)) : False := by
    obtain ⟨e, he⟩ := answer_eq_inr hx
    cases he
  cases phase with
  | arrived req => exact absurd h arrive_ne_stored
  | putLookup job =>
    rw [step] at h
    split at h
    · next r hr =>
      obtain ⟨hr, hexp⟩ := Option.filter_eq_some_iff.1 hr
      obtain ⟨-, rfl, -, rfl⟩ := BlobResponse.stored.inj (Sum.inr.inj h)
      exact .inl ⟨job, r, rfl, rfl, hr, of_decide_eq_true hexp, rfl⟩
    · exact absurd h herror
  | putInsert job =>
    obtain ⟨-, rfl, -, rfl⟩ := BlobResponse.stored.inj (Sum.inr.inj h)
    exact .inr ⟨job, rfl, rfl, rfl⟩
  | getRead r =>
    rw [step] at h
    split at h
    · cases h
    · rcases respond_eq (Sum.inr.inj h) with ⟨e, he⟩ | ⟨-, he⟩
      · cases he
      · cases he
  | collectFiles paths => cases paths <;> cases h
  | putSum job | putCount job now | getLookup hash sender | deleteLookup hash sender =>
    exact absurd h herror
  | _ => cases h

/-- An upload that nothing comes in between is one in a single step. -/
theorem alone_upload {k : ℕ} {user : AuthedUser} {contentType cookie path : Option String}
    {body : Bytes} {store : BlobStore} {file : Uploaded}
    (h : uploadFile B.receiver.crypto B.blobsRoot σ.now σ.store user contentType cookie path body =
      .ok (store, file)) :
    B.program.alone k σ (.arrived (.upload user contentType cookie path body))
      [(), (), (), ()] = some ({ σ with store := store }, .uploaded file) := by
  obtain ⟨hperm, h⟩ := Except.check_eq_ok.1 h
  obtain ⟨hbody, h⟩ := Except.check_eq_ok.1 h
  obtain ⟨⟨store₁, ref⟩, hs, h⟩ := Except.bind_eq_ok.1 h
  obtain ⟨rfl, rfl⟩ := Prod.mk.inj (Except.ok.inj h)
  have hs := Except.mapError_eq_ok.1 hs
  rw [storeLocalCache.eq_def] at hs
  cases hroot : B.blobsRoot with
  | none =>
    rw [hroot] at hs
    cases hs
  | some root =>
    rw [hroot] at hs
    obtain ⟨rfl, rfl⟩ := Prod.mk.inj (Except.ok.inj hs)
    have hgo : B.step σ (.arrived (.upload user contentType cookie path body)) = (σ, .inl
        (.uploadWrite ⟨root, body, mediaType contentType, path, some user.id,
          clientIdFromCookie cookie⟩)) :=
      Prod.ext rfl (answer_eq_inl.2 (Except.check_eq_ok.2 ⟨hperm, Except.check_eq_ok.2 ⟨hbody,
        Except.bind_eq_ok.2 ⟨root, Except.elim_eq_ok.2 hroot, rfl⟩⟩⟩))
    simp only [Program.alone, program, hgo]
    rfl

end BlobNode

/-! ## Runs -/

/-- The index and the files, and the requests being served. -/
abbrev BlobPool := Pool BlobState BlobPhase

abbrev BlobAction := Pool.Action BlobRequest Unit BlobEvent

namespace BlobPool

variable {B : BlobNode} {t t' : BlobPool} {a : BlobAction}

variable (B) in
/-- The write of an action, if it makes one. -/
def write (t : BlobPool) : BlobAction → Option BlobWrite
  | .act k _ => (t.threads.lookup k).bind fun phase =>
    phase.write B.receiver.crypto t.shared.now
  | .enter _ _ | .abort _ | .env _ => none

/-- The clock after an action. -/
def clock (t : BlobPool) : BlobAction → ℤ
  | .env (.tick clock) => clock
  | _ => t.shared.clock

theorem act_eq_some {k : ℕ} : B.program.poolStep t (.act k ()) = some t' ↔
    ∃ phase, t.threads.lookup k = some phase ∧
      t' = t.settle k (B.step t.shared phase).1 (B.step t.shared phase).2 := by
  rw [Program.act_eq_some]
  constructor
  · rintro ⟨phase, σ, o, hl, hs, rfl⟩
    have hs : B.step t.shared phase = (σ, o) := Option.some.inj hs
    exact ⟨phase, hl, by rw [hs]⟩
  · rintro ⟨phase, hl, rfl⟩
    exact ⟨phase, _, _, hl, rfl, rfl⟩

/-- An action does nothing to the index and the files but its write. -/
theorem step_store (h : B.program.poolStep t a = some t') :
    t'.shared.store = ((write B t a).map t.shared.store.write).getD t.shared.store := by
  cases a with
  | enter k q =>
    obtain ⟨-, rfl⟩ := Program.enter_eq_some.1 h
    rfl
  | act k =>
    obtain ⟨phase, hl, rfl⟩ := act_eq_some.1 h
    rw [Pool.settle_shared, write, hl, (BlobNode.step_state phase).2, Option.bind_some]
  | abort k =>
    obtain ⟨phase, σ, -, hs, -⟩ := Program.abort_eq_some.1 h
    exact absurd hs (Option.some_ne_none σ).symm
  | env v =>
    obtain ⟨σ, hs, rfl⟩ := Program.env_eq_some.1 h
    have hs : B.env t.shared v = some σ := hs
    cases v with
    | tick clock =>
      rw [BlobNode.env, Option.ite_none_right_eq_some] at hs
      rw [← Option.some.inj hs.2]
      rfl
    | message msg =>
      rw [← Option.some.inj hs]
      rfl
    | pruneNonces reading =>
      rw [BlobNode.env, Option.ite_none_right_eq_some] at hs
      rw [← Option.some.inj hs.2]
      rfl

theorem step_clock (h : B.program.poolStep t a = some t') :
    t'.shared.clock = t.clock a ∧ t.shared.clock ≤ t'.shared.clock := by
  cases a with
  | enter k q =>
    obtain ⟨-, rfl⟩ := Program.enter_eq_some.1 h
    exact ⟨rfl, le_rfl⟩
  | act k =>
    obtain ⟨phase, hl, rfl⟩ := act_eq_some.1 h
    rw [Pool.settle_shared, (BlobNode.step_state phase).1]
    exact ⟨rfl, le_rfl⟩
  | abort k =>
    obtain ⟨phase, σ, -, hs, -⟩ := Program.abort_eq_some.1 h
    exact absurd hs (Option.some_ne_none σ).symm
  | env v =>
    obtain ⟨σ, hs, rfl⟩ := Program.env_eq_some.1 h
    have hs : B.env t.shared v = some σ := hs
    cases v with
    | tick clock =>
      rw [BlobNode.env, Option.ite_none_right_eq_some] at hs
      rw [← Option.some.inj hs.2]
      exact ⟨rfl, hs.1⟩
    | message msg =>
      rw [← Option.some.inj hs]
      exact ⟨rfl, le_rfl⟩
    | pruneNonces reading =>
      rw [BlobNode.env, Option.ite_none_right_eq_some] at hs
      rw [← Option.some.inj hs.2]
      exact ⟨rfl, le_rfl⟩

theorem now_le (h : B.program.poolStep t a = some t') : t.shared.now ≤ t'.shared.now :=
  ReplayState.unixTimestamp_mono (step_clock h).2

/-- The time is the same after a write. -/
theorem now_of_write {w : BlobWrite} (h : B.program.poolStep t a = some t')
    (hw : write B t a = some w) : t'.shared.now = t.shared.now := by
  cases a with
  | act k e =>
    rw [BlobState.now, (step_clock h).1]
    rfl
  | _ => cases hw

/-- A row is written at the time it is, and to last. -/
theorem upsert_of_write {row : BlobInsert} {now : ℤ} (h : write B t a = some (.upsert row now)) :
    now = t.shared.now ∧ now < row.expiresAt := by
  cases a with
  | act k =>
    obtain ⟨phase, -, hw⟩ := Option.bind_eq_some_iff.1 h
    cases phase with
    | putInsert job =>
      obtain ⟨rfl, rfl⟩ := BlobWrite.upsert.inj (Option.some.inj hw)
      exact ⟨rfl, lt_effectiveExpires _ _⟩
    | uploadInsert job =>
      obtain ⟨rfl, rfl⟩ := BlobWrite.upsert.inj (Option.some.inj hw)
      exact ⟨rfl, lt_add_of_pos_right _ (defaultTtlSecs_pos .input)⟩
    | collectFiles paths => cases paths <;> cases hw
    | _ => cases hw
  | _ => cases h

end BlobPool

/-- What a request has made sure of when it stands in a phase, at the time `now`. -/
def BlobPhase.Checked (B : BlobNode) (now : ℤ) : BlobPhase → Prop
  | .putLookup job => validateHash job.hash = .ok () ∧ B.blobsRoot = some job.root
  | .putSum job | .putCount job _ | .putWrite job | .putInsert job =>
    (validateHash job.hash = .ok () ∧ B.blobsRoot = some job.root) ∧
      B.receiver.crypto.hashBytes job.body = job.hash
  | .uploadWrite job | .uploadInsert job => B.blobsRoot = some job.root
  | .collectRows reading _ => reading ≤ now
  | _ => True

namespace BlobNode

variable {B : BlobNode} {σ : BlobState}

theorem putJob_ok {root hash : String} {body : Bytes} {signed : SignedMessage}
    {ticket : BlobTicketPayload} {job : PutJob}
    (h : B.putJob root hash body signed ticket = .ok job) :
    job.root = root ∧ job.hash = hash ∧ job.uploader = signed.envelope.senderId := by
  obtain ⟨cap, -, h⟩ := Except.bind_eq_ok.1 h
  obtain ⟨size, -, h⟩ := Except.bind_eq_ok.1 h
  obtain ⟨mime, -, h⟩ := Except.bind_eq_ok.1 h
  obtain ⟨-, h⟩ := Except.check_eq_ok.1 h
  obtain rfl := Except.ok.inj h
  exact ⟨rfl, rfl, rfl⟩

/-- A step leads to a phase whose checks are made. -/
theorem LeadsTo.checked {phase phase' : BlobPhase} (h : LeadsTo B σ phase phase')
    (hc : phase.Checked B σ.now) : phase'.Checked B σ.now := by
  cases h with
  | put hroot hvalid _ hjob =>
    obtain ⟨hr, hh, -⟩ := putJob_ok hjob
    exact ⟨hh ▸ hvalid, hr ▸ hroot⟩
  | missed _ _ hhash => exact ⟨hc, hhash⟩
  | upload hroot => exact hroot
  | collect => exact le_rfl
  | summed _ | counted _ | written | uploadWritten => exact hc
  | _ => trivial

end BlobNode

/-- Time goes on. -/
theorem BlobPhase.Checked.mono {B : BlobNode} {phase : BlobPhase} {now now' : ℤ}
    (h : phase.Checked B now) (hnow : now ≤ now') : phase.Checked B now' := by
  cases phase with
  | collectRows reading paths => exact le_trans (show reading ≤ now from h) hnow
  | _ => exact h

namespace BlobPool

variable {B : BlobNode} {t t' : BlobPool} {a : BlobAction}

variable (B) in
/-- What the requests being served have made sure of. -/
def Checked : BlobPool → Prop :=
  Pool.Holds (fun _ => True) fun σ _ phase => phase.Checked B σ.now

theorem checked_step (h : Checked B t) (hstep : B.program.poolStep t a = some t') :
    Checked B t' := by
  have hnow := now_le hstep
  have hothers {k : ℕ} {phase : BlobPhase} (hl : t.threads.lookup k = some phase) :
      phase.Checked B t'.shared.now := (h.2 k phase hl).mono hnow
  refine h.step hstep (fun k q _ => trivial) (fun k e phase σ o ha hl hs => ?_)
    (fun k phase σ _ _ hs => absurd hs (Option.some_ne_none σ).symm) fun v σ ha hs => ?_
  · subst ha
    obtain ⟨phase', hl', rfl⟩ := act_eq_some.1 hstep
    obtain rfl := Option.some.inj (hl'.symm.trans hl)
    obtain ⟨rfl, rfl⟩ := Prod.mk.inj (Option.some.inj hs)
    rw [Pool.settle_shared] at hnow hothers
    exact ⟨trivial, fun l' ho => ((BlobNode.leadsTo_of_step ho).checked (h.2 k _ hl)).mono hnow,
      fun k' l' _ hl => hothers hl⟩
  · subst ha
    obtain ⟨σ', hs', rfl⟩ := Program.env_eq_some.1 hstep
    obtain rfl := Option.some.inj (hs'.symm.trans hs)
    exact ⟨trivial, fun k phase hl => hothers hl⟩

theorem checked_run {σ : BlobState} {as : List BlobAction}
    (h : Run.run B.program.poolStep (Pool.idle σ) as = some t) : Checked B t :=
  Run.run_invariant (fun _ _ _ => checked_step) (Pool.holds_idle trivial) h

/-- The rows that are deleted have expired. -/
theorem reading_le {now : ℤ} (h : Checked B t) (hw : write B t a = some (.deleteExpired now)) :
    now ≤ t.shared.now := by
  cases a with
  | act k =>
    obtain ⟨phase, hl, hw⟩ := Option.bind_eq_some_iff.1 hw
    have hchecked := h.2 k phase hl
    cases phase with
    | collectRows reading paths =>
      obtain rfl := BlobWrite.deleteExpired.inj (Option.some.inj hw)
      exact hchecked
    | collectFiles paths => cases paths <;> cases hw
    | _ => cases hw
  | _ => cases hw

end BlobPool

/-! ## For trying things -/

def hexDigits (b : UInt8) : List Char :=
  [Nat.digitChar (b.toNat / 16), Nat.digitChar (b.toNat % 16)]

def hexValue (c : Char) : ℕ := if c.isDigit then c.toNat - 48 else c.toNat - 87

/-- Primitives with hashes of full length: the first 32 bytes, with zeros behind
    them. A signature is a checksum of the nonce, read from its first byte. -/
def hexCrypto : Crypto where
  sha256 bytes := (bytes ++ List.replicate 32 0).take 32
  base32 bytes := String.ofList ((bytes.takeWhile (· ≠ 0)).map fun b => Char.ofNat b.toNat)
  encodeHex bytes := String.ofList (bytes.flatMap hexDigits)
  decodeHex s := .ok (List.replicate signatureBytes
    (UInt8.ofNat ((s.toList.take 2).foldl (fun n c => 16 * n + hexValue c) 0)))
  publicKey secret := secret
  sign secret bytes := checksum (secret ++ bytes)
  verify key bytes sig := decide (sig = checksum (key ++ bytes))
  canonicalBytes env := .ok (asciiBytes env.nonce.toList)

/-- The ticket in the header `pm0abc`: to put (or to get, or to delete), for
    `n3:m`, in the first minutes of the hour `0`, the bytes `abc`. -/
def toyTicket (header : String) : SignedMessage :=
  match header.toList with
  | op :: sender :: hour :: content =>
    let now : ℤ := hexValue hour * 3600
    let operation := if op = 'p' then "put" else if op = 'g' then "get" else "delete"
    let env : Envelope := ⟨"n3:" ++ sender.toString, "n3:a", now * nanos, header, .blobTicket,
      .object [("operation", .string operation),
        ("hash", .string (hexCrypto.hashBytes (asciiBytes content))),
        ("size", .number (.int content.length)), ("mime", .string "text/plain"),
        ("capability", .string "c"), ("expires_at", .number (.int (now + 300))),
        ("purpose", .string "input")], none⟩
    (hexCrypto.signEnvelope env (asciiBytes [sender])).toOption.getD ⟨env, [], ""⟩
  | _ => ⟨⟨"", "", 0, "", .ping, .null, none⟩, [], ""⟩

def hexNode : BlobNode where
  receiver := ⟨hexCrypto, "n3:a", defaultClockSkew⟩
  decodeTicketWire header := .ok (toyTicket header)
  payloadError _ := "invalid"
  registry _ := some .free
  isHeaderValue s := s.toList.all fun c => 32 ≤ c.toNat && c.toNat ≠ 127 || c = '\t'
  blobsRoot := some "blobs"

/-- The bytes of the ticket in a header. -/
def toyBytes (header : String) : Bytes := asciiBytes (header.toList.drop 3)

def toyPut (header : String) : BlobRequest :=
  .put (hexCrypto.hashBytes (toyBytes header)) (some header) (toyBytes header)

def toyGet (header : String) : BlobRequest :=
  .get (hexCrypto.hashBytes (toyBytes header)) (some header)

namespace BlobPool

/-- A node without blobs. -/
def fresh : BlobPool := Pool.idle ⟨0, [], ⟨.empty, ∅⟩⟩

/-- `n` steps of the request `k`. -/
def steps (k n : ℕ) : List BlobAction := List.replicate n (.act k ())

end BlobPool

end N3ur0n
