import Mathlib.Algebra.BigOperators.Group.List.Basic
import Mathlib.Algebra.GroupWithZero.Nat
import N3ur0n.Lib.Ranking
import N3ur0n.Lib.Rows
import N3ur0n.Message

/-!
# The index of blobs

A *blob* is a file named by the hash of its bytes. The index has a row for each
of them: where its bytes are, whom it was uploaded by or belongs to, and until
when it is kept. There is one row for a hash, whoever stores the bytes: a later
`upsert` renews some columns and keeps the others.

* `get_upsert`, `get_delete`, `get_deleteExpired`: the row under a hash after
  each write;
* `listing_iff`: what is in the answers to `list_user_visible`, which shows the
  newest rows of an owner, in any order when they are of the same time.
-/

namespace N3ur0n

inductive BlobProvenance
  | outbound
  | inbound
  deriving DecidableEq

inductive BlobRole
  | input
  | output
  deriving DecidableEq

inductive AnchorKind
  | userSession
  | capJob
  | localCache
  deriving DecidableEq

inductive ProcessingStatus
  | uploading
  | staged
  | referenced
  | processing
  | ready
  | consumed
  | expired
  | stale
  deriving DecidableEq

/-- The classes of a blob, as its row has them. -/
structure BlobClassification where
  provenance : BlobProvenance
  role : BlobRole
  anchorKind : AnchorKind
  userVisible : Bool
  userDeletable : Bool
  processingStatus : ProcessingStatus

/-- When a remote peer puts a blob for our capability (class C). -/
def classifyCapStaging : BlobClassification := ⟨.inbound, .input, .capJob, false, false, .staged⟩

/-- For a file picked locally (class D). -/
def classifyLocalCache : BlobClassification := ⟨.outbound, .input, .localCache, true, true, .staged⟩

/-- Insert parameters for a new entry. -/
structure BlobInsert where
  hash : String
  size : ℕ
  mime : String
  path : Option String
  expiresAt : ℤ
  storagePath : String
  provenance : BlobProvenance
  role : BlobRole
  anchorKind : AnchorKind
  processingStatus : ProcessingStatus
  localUserId : Option ℤ
  clientId : Option String
  userVisible : Bool
  userDeletable : Bool
  uploaderId : Option String
  recipientsWhitelist : Option (List String)
  deriving DecidableEq

/-- A row of the table `blobs`. -/
structure BlobRecord extends BlobInsert where
  createdAt : ℤ
  deriving DecidableEq

/-- The row when the same bytes are stored again: the first path is kept, and so
    are the class, the owner, the uploader and his whitelist. -/
def BlobRecord.renew (r : BlobRecord) (row : BlobInsert) : BlobRecord :=
  { r with
    size := row.size
    mime := row.mime
    path := r.path <|> row.path
    expiresAt := row.expiresAt
    storagePath := row.storagePath
    processingStatus := row.processingStatus }

/-- The table of the blobs, whose key is the hash. -/
structure BlobIndex where
  rows : List BlobRecord
  hashes_nodup : (rows.map (·.hash)).Nodup

namespace BlobIndex

variable (idx : BlobIndex)

def empty : BlobIndex := ⟨[], List.nodup_nil⟩

def get (hash : String) : Option BlobRecord := idx.rows.find? fun r => r.hash = hash

/-- The columns of the row of the same hash are renewed, or a row is inserted. -/
def upsert (row : BlobInsert) (now : ℤ) : BlobIndex :=
  if h : row.hash ∈ idx.rows.map (·.hash) then
    ⟨idx.rows.map fun r => if r.hash = row.hash then r.renew row else r,
      Rows.nodup_update idx.hashes_nodup fun r => by split <;> rfl⟩
  else ⟨idx.rows ++ [⟨row, now⟩], Rows.nodup_insert idx.hashes_nodup h⟩

def delete (hash : String) : BlobIndex :=
  ⟨idx.rows.filter (·.hash ≠ hash), Rows.nodup_delete idx.hashes_nodup _⟩

/-- The first statement of `delete_expired`. -/
def selectExpired (now : ℤ) : List BlobRecord := idx.rows.filter (·.expiresAt ≤ now)

/-- The second statement of `delete_expired`. -/
def deleteExpired (now : ℤ) : BlobIndex :=
  ⟨idx.rows.filter fun r => ¬r.expiresAt ≤ now, Rows.nodup_delete idx.hashes_nodup _⟩

/-- The unexpired rows charged to an uploader. -/
def activeFor (uploader : String) (now : ℤ) : List BlobRecord :=
  idx.rows.filter fun r => r.uploaderId = some uploader ∧ now < r.expiresAt

def sumBytesForUploader (uploader : String) (now : ℤ) : ℕ :=
  ((idx.activeFor uploader now).map (·.size)).sum

def countForUploader (uploader : String) (now : ℤ) : ℕ := (idx.activeFor uploader now).length

/-- The rows shown to a local user or a client. -/
def ownedVisible (localUserId : Option ℤ) (clientId : Option String) : List BlobRecord :=
  idx.rows.filter fun r => r.userVisible ∧ (localUserId.isSome ∧ r.localUserId = localUserId ∨
    clientId.isSome ∧ r.clientId = clientId)

/-- A negative limit is none. -/
def limited (limit : ℤ) (l : List BlobRecord) : List BlobRecord :=
  if limit < 0 then l else l.take limit.toNat

/-- An answer to `list_user_visible`: the newest rows first, and those of the
    same time in any order. -/
def IsListing (localUserId : Option ℤ) (clientId : Option String) (limit : ℤ)
    (out : List BlobRecord) : Prop :=
  ∃ l, Ranking.Ranks (·.createdAt) (idx.ownedVisible localUserId clientId) l ∧
    limited limit l = out

/-- One of the answers to `list_user_visible`. -/
def listUserVisible (localUserId : Option ℤ) (clientId : Option String) (limit : ℤ) :
    List BlobRecord :=
  limited limit
    ((idx.ownedVisible localUserId clientId).insertionSort fun r r' => r'.createdAt ≤ r.createdAt)

/-! ## The row under a hash -/

variable {idx} {hash : String} {r : BlobRecord}

/-- The row of a hash is the one in the table. -/
theorem get_eq_some : idx.get hash = some r ↔ r ∈ idx.rows ∧ r.hash = hash :=
  Rows.find?_key (fun r : BlobRecord => r.hash) idx.hashes_nodup

theorem get_eq_none : idx.get hash = none ↔ hash ∉ idx.rows.map (·.hash) :=
  Rows.find?_key_eq_none

theorem hash_of_get (h : idx.get hash = some r) : r.hash = hash := (get_eq_some.1 h).2

/-- What an `upsert` leaves under the hash. -/
def upserted (idx : BlobIndex) (row : BlobInsert) (now : ℤ) : BlobRecord :=
  match idx.get row.hash with
  | some r => r.renew row
  | none => ⟨row, now⟩

section

variable {row : BlobInsert} {now : ℤ}

/-- The row that an insertion leaves has the hash inserted. -/
theorem hash_upserted : (idx.upserted row now).hash = row.hash := by
  rw [upserted]
  split
  · next r h => exact (hash_of_get h : r.hash = row.hash)
  · rfl

/-- It has the size inserted, whether there was a row or not. -/
theorem upserted_size : (idx.upserted row now).size = row.size := by
  rw [upserted]
  split <;> rfl

theorem upserted_expiresAt : (idx.upserted row now).expiresAt = row.expiresAt := by
  rw [upserted]
  split <;> rfl

theorem upserted_mime : (idx.upserted row now).mime = row.mime := by
  rw [upserted]
  split <;> rfl

theorem upserted_storagePath : (idx.upserted row now).storagePath = row.storagePath := by
  rw [upserted]
  split <;> rfl

end

/-- An insertion changes the row of its hash only. -/
theorem get_upsert {row : BlobInsert} {now : ℤ} : (idx.upsert row now).get hash =
    if hash = row.hash then some (idx.upserted row now) else idx.get hash := by
  rw [upsert]
  split
  · next h =>
    rw [get, Rows.find?_update (fun r : BlobRecord => r.hash) (fun r => by split <;> rfl), ← get]
    cases hr : idx.get hash with
    | none =>
      rw [if_neg fun hh : hash = row.hash => get_eq_none.1 hr (hh ▸ h)]
      rfl
    | some r =>
      rw [Option.map_some, hash_of_get hr]
      split
      · next hh => rw [upserted, ← hh, hr]
      · rfl
  · next h =>
    rw [get, Rows.find?_insert (fun r : BlobRecord => r.hash) h, ← get, upserted, get_eq_none.2 h]

/-- So does a deletion. -/
theorem get_delete {hash' : String} :
    (idx.delete hash').get hash = if hash = hash' then none else idx.get hash := by
  rw [get, delete, Rows.find?_delete (fun r : BlobRecord => r.hash) idx.hashes_nodup, ← get]
  cases hr : idx.get hash with
  | none => exact (ite_self none).symm
  | some r => simp [Option.filter_some, hash_of_get hr]

/-- To collect the expired rows leaves the others. -/
theorem get_deleteExpired {now : ℤ} :
    (idx.deleteExpired now).get hash = (idx.get hash).filter fun r => ¬r.expiresAt ≤ now :=
  Rows.find?_delete (fun r : BlobRecord => r.hash) idx.hashes_nodup

/-! ## Listings -/

/-- The hash is in every answer to `list_user_visible`. -/
def Listed (idx : BlobIndex) (localUserId : Option ℤ) (clientId : Option String) (limit : ℤ)
    (hash : String) : Prop :=
  ∀ out, idx.IsListing localUserId clientId limit out → ∃ r ∈ out, r.hash = hash

theorem isListing_listUserVisible (localUserId : Option ℤ) (clientId : Option String)
    (limit : ℤ) : idx.IsListing localUserId clientId limit
      (idx.listUserVisible localUserId clientId limit) :=
  ⟨_, Ranking.ranks_insertionSort _, rfl⟩

/-- A row is shown when it is one of the owner's, and there is room for it among
    those that are at least as new. -/
def Shown (idx : BlobIndex) (localUserId : Option ℤ) (clientId : Option String) (limit : ℤ)
    (r : BlobRecord) : Prop :=
  r ∈ idx.ownedVisible localUserId clientId ∧ (0 ≤ limit →
    ((idx.ownedVisible localUserId clientId).countP fun r' => r.createdAt ≤ r'.createdAt) ≤ limit)

instance (localUserId : Option ℤ) (clientId : Option String) (limit : ℤ) (r : BlobRecord) :
    Decidable (idx.Shown localUserId clientId limit r) := inferInstanceAs (Decidable (_ ∧ _))

/-- A blob is listed exactly if its row is shown. -/
theorem listed_iff {localUserId : Option ℤ} {clientId : Option String} {limit : ℤ} :
    idx.Listed localUserId clientId limit hash ↔
      ∃ r, idx.get hash = some r ∧ idx.Shown localUserId clientId limit r := by
  have hrows {r : BlobRecord} (hr : r ∈ idx.ownedVisible localUserId clientId) : r ∈ idx.rows :=
    List.mem_of_mem_filter hr
  have hnodup : (idx.ownedVisible localUserId clientId).Nodup :=
    (List.Nodup.of_map _ idx.hashes_nodup).filter _
  constructor
  · intro h
    -- The row is the only one under its hash, so that it is in every answer.
    obtain ⟨r, hr, hhash⟩ := h _ (isListing_listUserVisible localUserId clientId limit)
    have hsub {l : List BlobRecord}
        (hl : Ranking.Ranks (·.createdAt) (idx.ownedVisible localUserId clientId) l)
        {r : BlobRecord} (hr : r ∈ limited limit l) :
        r ∈ idx.ownedVisible localUserId clientId := by
      refine hl.1.mem_iff.1 ?_
      rw [limited] at hr
      split at hr
      · exact hr
      · exact List.mem_of_mem_take hr
    have howned := hsub (Ranking.ranks_insertionSort _) hr
    refine ⟨r, get_eq_some.2 ⟨hrows howned, hhash⟩, howned, fun hlimit => ?_⟩
    have hall : ∀ l, Ranking.Ranks (·.createdAt) (idx.ownedVisible localUserId clientId) l →
        r ∈ l.take limit.toNat := fun l hl => by
      obtain ⟨r', hr', hhash'⟩ := h _ ⟨l, hl, rfl⟩
      rw [← Rows.eq_of_key_eq idx.hashes_nodup (hrows (hsub hl hr')) (hrows howned)
        (hhash'.trans hhash.symm)]
      rwa [limited, if_neg (not_lt.2 hlimit)] at hr'
    exact (Int.le_toNat hlimit).1 ((Ranking.mem_take_iff hnodup).1 hall).2
  · rintro ⟨r, hget, hmem, hroom⟩ out ⟨l, hl, rfl⟩
    refine ⟨r, ?_, hash_of_get hget⟩
    rw [limited]
    split
    · exact hl.1.mem_iff.2 hmem
    · next hlimit =>
      refine (Ranking.mem_take_iff hnodup).2 ⟨hmem, ?_⟩ l hl
      exact Int.le_toNat (by omega) |>.2 (hroom (by omega))

end BlobIndex

end N3ur0n
