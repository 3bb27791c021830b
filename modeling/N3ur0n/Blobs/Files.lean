import N3ur0n.Auth.Routes
import N3ur0n.Blobs.Index

/-!
# Local files

A user of the node stores a file locally: its bytes are written under their
hash, and indexed as his (`storeLocalCache`). If these bytes had a row already,
it keeps its owner and its class, and the file may not be shown to him.

* `storeLocalCache_listed`: a file stored for a user is listed for him exactly
  when there was no row for its bytes, or one that is shown to him, and there is
  room for it among his newest files.
-/

namespace N3ur0n

/-- An HTTP error, with its JSON body. -/
inductive HttpError
  | error (status : ℕ) (message : String)
  | forbidden (message : String) (required : Perm)
  deriving DecidableEq

/-- Canonical prefix of blob hashes. -/
def blobHashPrefix : String := "sha256:"

/-- `hash_bytes`, the name of a blob. -/
def Crypto.hashBytes (C : Crypto) (data : Bytes) : String :=
  blobHashPrefix ++ C.encodeHex (C.sha256 data)

structure BlobRef where
  hash : String
  size : ℕ
  mime : String
  fetchUrl : Option String
  name : Option String
  deriving DecidableEq

/-- The index, and the files by their paths. -/
structure BlobStore where
  index : BlobIndex
  files : Table String Bytes

/-- The path of a blob in the directory of blobs. -/
def storagePath (root hash : String) : String := root ++ "/" ++ hash

theorem storagePath_inj {root hash hash' : String}
    (h : storagePath root hash = storagePath root hash') : hash = hash' := by
  simpa [storagePath] using h

inductive BlobPurpose
  | input
  | output
  | owned
  deriving DecidableEq

/-- Default time to live of a blob, in seconds. -/
def defaultTtlSecs : BlobPurpose → ℤ
  | .input => 60 * 60
  | .output => 24 * 60 * 60
  | .owned => 60 * 60

/-- The row of a file stored at the time `now`. -/
def localInsert (C : Crypto) (root : String) (now : ℤ) (bytes : Bytes) (mime : String)
    (path : Option String) (localUserId : Option ℤ) (clientId : Option String) : BlobInsert where
  hash := C.hashBytes bytes
  size := bytes.length
  mime := mime
  path := path
  expiresAt := now + defaultTtlSecs .input
  storagePath := storagePath root (C.hashBytes bytes)
  provenance := .outbound
  role := .input
  anchorKind := .localCache
  processingStatus := .staged
  localUserId := localUserId
  clientId := clientId
  userVisible := classifyLocalCache.userVisible
  userDeletable := classifyLocalCache.userDeletable
  uploaderId := none
  recipientsWhitelist := none

/-- A file of a user is stored locally, `blobsDir` being the directory of blobs. -/
def storeLocalCache (C : Crypto) (blobsDir : Option String) (now : ℤ) (store : BlobStore)
    (bytes : Bytes) (mime : String) (path : Option String) (localUserId : Option ℤ)
    (clientId : Option String) : Except String (BlobStore × BlobRef) :=
  match blobsDir with
  | none => .error "blobs_dir not configured"
  | some root =>
    let row := localInsert C root now bytes mime path localUserId clientId
    .ok (⟨store.index.upsert row now, store.files.insert row.storagePath bytes⟩,
      ⟨row.hash, bytes.length, mime, none, path⟩)

/-- The media type of a request, its parameters apart. -/
def mediaType (contentType : Option String) : String :=
  String.ofList (Cut.trim isWhitespace
    ((contentType.getD "application/octet-stream").toList.takeWhile (· ≠ ';')))

/-- The first value under the name of the cookie of clients. -/
def clientIdFromCookie (header : Option String) : Option String :=
  header.bind fun raw => (raw.toList.splitOn ';').findSome? fun part =>
    let name := "n3ur0n_client_id=".toList
    let part := Cut.trim isWhitespace part
    if name.isPrefixOf part then some (String.ofList (part.drop name.length)) else none

/-- The response to an upload; its path is the one in the index. -/
structure Uploaded where
  hash : String
  size : ℕ
  mime : String
  path : Option String
  deriving DecidableEq

/-- A user uploads a file, under a path that is already sanitized. -/
def uploadFile (C : Crypto) (blobsDir : Option String) (now : ℤ) (store : BlobStore)
    (user : AuthedUser) (contentType cookie path : Option String) (body : Bytes) :
    Except HttpError (BlobStore × Uploaded) := do
  Except.reject (¬hasPermission user.role .filesRead) (.forbidden "forbidden" .filesRead)
  Except.reject (body = []) (.error 400 "empty body")
  let (store, ref) ← (storeLocalCache C blobsDir now store body (mediaType contentType) path
    (some user.id) (clientIdFromCookie cookie)).mapError (.error 500)
  .ok (store, ⟨ref.hash, ref.size, ref.mime, (store.index.get ref.hash).bind (·.path)⟩)

namespace BlobIndex

variable {idx : BlobIndex} {row : BlobInsert} {now : ℤ} {localUserId : Option ℤ}
  {clientId : Option String}

/-- Rows that are renewed are still shown to the same owners. -/
theorem ownedVisible_upsert_of_get {r : BlobRecord} (h : idx.get row.hash = some r) :
    (idx.upsert row now).ownedVisible localUserId clientId =
      (idx.ownedVisible localUserId clientId).map fun r =>
        if r.hash = row.hash then r.renew row else r := by
  have hmem : row.hash ∈ idx.rows.map (·.hash) :=
    List.mem_map.2 ⟨r, (get_eq_some.1 h).1, hash_of_get h⟩
  rw [ownedVisible, upsert, dif_pos hmem, List.filter_map, ownedVisible]
  congr 2
  funext r'
  rw [Function.comp_apply]
  split <;> rfl

theorem ownedVisible_upsert_of_none (h : idx.get row.hash = none) :
    (idx.upsert row now).ownedVisible localUserId clientId =
      idx.ownedVisible localUserId clientId ++
        (if row.userVisible ∧ (localUserId.isSome ∧ row.localUserId = localUserId ∨
          clientId.isSome ∧ row.clientId = clientId) then [⟨row, now⟩] else []) := by
  rw [ownedVisible, upsert, dif_neg (get_eq_none.1 h), List.filter_append, ← ownedVisible,
    List.filter_singleton]
  simp only [cond_eq_ite, decide_eq_true_eq]

/-- A file that is stored will be shown to its owner: there is a row for its
    bytes that is shown to him, or else there is an owner, and room for it among
    his files of the time `now` on. -/
def WillShow (idx : BlobIndex) (localUserId : Option ℤ) (clientId : Option String) (limit : ℤ)
    (hash : String) (now : ℤ) : Prop :=
  match idx.get hash with
  | some r => idx.Shown localUserId clientId limit r
  | none => (localUserId.isSome ∨ clientId.isSome) ∧ (0 ≤ limit →
      ((idx.ownedVisible localUserId clientId).countP fun r => now ≤ r.createdAt) < limit)

theorem willShow_of_get {limit : ℤ} {hash : String} {r : BlobRecord} (h : idx.get hash = some r) :
    idx.WillShow localUserId clientId limit hash now ↔ idx.Shown localUserId clientId limit r := by
  rw [WillShow, h]

/-- A row that is renewed is shown as it was. -/
theorem shown_upsert_of_get {limit : ℤ} {r : BlobRecord} (h : idx.get row.hash = some r) :
    (idx.upsert row now).Shown localUserId clientId limit (r.renew row) ↔
      idx.Shown localUserId clientId limit r := by
  have hhash := hash_of_get h
  rw [Shown, Shown, ownedVisible_upsert_of_get h, List.countP_map]
  refine and_congr ⟨fun hr => ?_, fun hr => List.mem_map.2 ⟨r, hr, if_pos hhash⟩⟩ ?_
  · obtain ⟨r', hr', he⟩ := List.mem_map.1 hr
    have hh : r'.hash = row.hash := by
      by_contra hne
      rw [if_neg hne] at he
      exact hne (he ▸ hhash)
    rwa [← Rows.eq_of_key_eq idx.hashes_nodup (List.mem_of_mem_filter hr') (get_eq_some.1 h).1
      (hh.trans hhash.symm)]
  · -- The time of a row does not change when it is renewed.
    refine imp_congr_right fun _ => ?_
    rw [show (fun r' : BlobRecord => decide ((r.renew row).createdAt ≤ r'.createdAt)) ∘
      (fun r' => if r'.hash = row.hash then r'.renew row else r') =
        fun r' => decide (r.createdAt ≤ r'.createdAt) from funext fun r' => by
          rw [Function.comp_apply]
          split <;> rfl]

/-- A new row is shown to its owner if there is room for it. -/
theorem shown_upsert_of_none {limit : ℤ} (h : idx.get row.hash = none)
    (hrow : row.userVisible = true ∧ row.localUserId = localUserId ∧ row.clientId = clientId) :
    (idx.upsert row now).Shown localUserId clientId limit ⟨row, now⟩ ↔
      (localUserId.isSome ∨ clientId.isSome) ∧ (0 ≤ limit →
        ((idx.ownedVisible localUserId clientId).countP fun r => now ≤ r.createdAt) < limit) := by
  obtain ⟨hvisible, huser, hclient⟩ := hrow
  rw [Shown, ownedVisible_upsert_of_none h, List.mem_append, List.countP_append]
  have hnew : (⟨row, now⟩ : BlobRecord) ∉ idx.ownedVisible localUserId clientId := fun hr =>
    get_eq_none.1 h (List.mem_map.2 ⟨_, List.mem_of_mem_filter hr, rfl⟩)
  by_cases howner : localUserId.isSome ∨ clientId.isSome
  · have hshown : row.userVisible ∧ (localUserId.isSome ∧ row.localUserId = localUserId ∨
        clientId.isSome ∧ row.clientId = clientId) :=
      ⟨hvisible, howner.imp (fun h => ⟨h, huser⟩) fun h => ⟨h, hclient⟩⟩
    rw [if_pos hshown, List.countP_singleton, List.mem_singleton, decide_eq_true le_rfl, if_pos rfl,
      and_iff_right howner]
    refine (and_iff_right (.inr rfl)).trans (imp_congr_right fun _ => ?_)
    rw [Int.natCast_add, Int.natCast_one, Int.add_one_le_iff]
  · rw [if_neg fun hs => howner (hs.2.imp And.left And.left)]
    exact iff_of_false (fun hs => hs.1.elim hnew List.not_mem_nil) fun hs => howner hs.1

theorem listed_upsert {limit : ℤ}
    (hrow : row.userVisible = true ∧ row.localUserId = localUserId ∧ row.clientId = clientId) :
    (idx.upsert row now).Listed localUserId clientId limit row.hash ↔
      idx.WillShow localUserId clientId limit row.hash now := by
  rw [listed_iff, get_upsert, if_pos rfl, upserted]
  cases h : idx.get row.hash with
  | some r => simpa [willShow_of_get h] using shown_upsert_of_get h
  | none => simpa [WillShow, h] using shown_upsert_of_none h hrow

end BlobIndex

/-- What a successful upload has done. -/
theorem uploadFile_ok {C : Crypto} {blobsDir : Option String} {now : ℤ} {store store' : BlobStore}
    {user : AuthedUser} {contentType cookie path : Option String} {body : Bytes} {up : Uploaded}
    (h : uploadFile C blobsDir now store user contentType cookie path body = .ok (store', up)) :
    ∃ ref, storeLocalCache C blobsDir now store body (mediaType contentType) path (some user.id)
      (clientIdFromCookie cookie) = .ok (store', ref) ∧ ref.hash = up.hash := by
  obtain ⟨-, h⟩ := Except.check_eq_ok.1 h
  obtain ⟨-, h⟩ := Except.check_eq_ok.1 h
  obtain ⟨⟨store₁, ref⟩, hs, h⟩ := Except.bind_eq_ok.1 h
  obtain ⟨rfl, rfl⟩ := Prod.mk.inj (Except.ok.inj h)
  exact ⟨ref, Except.mapError_eq_ok.1 hs, rfl⟩

theorem storeLocalCache_ok {C : Crypto} {blobsDir : Option String} {now : ℤ}
    {store store' : BlobStore} {bytes : Bytes} {mime : String} {path : Option String}
    {localUserId : Option ℤ} {clientId : Option String} {ref : BlobRef} {limit : ℤ}
    (h : storeLocalCache C blobsDir now store bytes mime path localUserId clientId =
      .ok (store', ref)) :
    store'.index.Listed localUserId clientId limit ref.hash ↔
      store.index.WillShow localUserId clientId limit ref.hash now := by
  cases blobsDir with
  | none => cases h
  | some root =>
    obtain ⟨rfl, rfl⟩ := Prod.mk.inj (Except.ok.inj h)
    exact BlobIndex.listed_upsert ⟨rfl, rfl, rfl⟩

/-- A file stored for a user and a client, whatever the index was, is listed for
    them if and only if it was going to be shown to them: there was no row for
    its bytes, or it was one of theirs, and there is room for it among as many
    of their newest files as are asked for. -/
theorem upload_listed {C : Crypto} {blobsDir : Option String} {now limit : ℤ}
    {store store' : BlobStore} {path : Option String} {bytes : Bytes} :
    (∀ mime localUserId clientId ref,
      storeLocalCache C blobsDir now store bytes mime path localUserId clientId =
        .ok (store', ref) →
      (store'.index.Listed localUserId clientId limit ref.hash ↔
        store.index.WillShow localUserId clientId limit ref.hash now)) ∧
    ∀ user contentType cookie up,
      uploadFile C blobsDir now store user contentType cookie path bytes = .ok (store', up) →
      (store'.index.Listed (some user.id) (clientIdFromCookie cookie) limit up.hash ↔
        store.index.WillShow (some user.id) (clientIdFromCookie cookie) limit up.hash now) := by
  refine ⟨fun mime localUserId clientId ref h => storeLocalCache_ok h,
    fun user contentType cookie up h => ?_⟩
  obtain ⟨ref, hs, hhash⟩ := uploadFile_ok h
  exact hhash ▸ storeLocalCache_ok hs

/-- The first user has stored the byte `a`. -/
def storedBefore : BlobStore where
  index := BlobIndex.empty.upsert
    (localInsert toyCrypto "blobs" 0 [97] "text/plain" none (some 1) none) 0
  files := (∅ : Table String Bytes).insert "blobs/sha256:a" [97]

/-- The second user uploads the same byte: it is stored, and not listed. -/
theorem upload_not_listed : ∃ store up,
    uploadFile toyCrypto (some "blobs") 10 storedBefore ⟨2, "bob", .user, none⟩ none none none [97] =
      .ok (store, up) ∧ up.hash = "sha256:a" ∧ ¬store.index.Listed (some 2) none 200 up.hash := by
  refine ⟨_, _, rfl, by decide, fun h => ?_⟩
  obtain ⟨r, hr, -⟩ := h _ (BlobIndex.isListing_listUserVisible _ _ _)
  revert r
  decide

/-- The first user stores it again: it is still listed for him. -/
theorem upload_listed_again : ∃ store ref,
    storeLocalCache toyCrypto (some "blobs") 10 storedBefore [97] "text/plain" none (some 1) none =
      .ok (store, ref) ∧ store.index.Listed (some 1) none 200 ref.hash := by
  have hget : storedBefore.index.get (toyCrypto.hashBytes [97]) =
      some ⟨localInsert toyCrypto "blobs" 0 [97] "text/plain" none (some 1) none, 0⟩ := by
    decide
  have hstored : storeLocalCache toyCrypto (some "blobs") 10 storedBefore [97] "text/plain" none
      (some 1) none = .ok (_, _) := rfl
  exact ⟨_, _, hstored, (upload_listed.1 _ _ _ _ hstored).2
    ((BlobIndex.willShow_of_get hget).2 (by decide))⟩

end N3ur0n
