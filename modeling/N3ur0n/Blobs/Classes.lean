import N3ur0n.Blobs.Index

/-!
# The classes of blobs

Five columns of a row say what its blob is: one that we sent (class A), a result
that came back (B), one put by a peer for our capability (C), or a file picked
locally (D). A row is inserted in one of these classes, and `upsert` never
rewrites it; two statements of their own do, under a guard.

* `get_markOutbound`, `get_markInboundOutput`: the row under a hash after each of
  these statements;
* `blobClasses`: whatever the sequence of the writes, all rows are in one of the
  classes, and one of class C stays as it is until it is deleted.
-/

namespace N3ur0n

/-- When we upload to a remote peer before our invoke (class A). -/
def classifyOutboundUpload : BlobClassification :=
  ⟨.outbound, .input, .userSession, true, true, .ready⟩

/-- When we download a result for a local user (class B). -/
def classifyInboundOutput : BlobClassification :=
  ⟨.inbound, .output, .userSession, true, true, .ready⟩

/-- The classification columns. -/
structure BlobColumns where
  provenance : BlobProvenance
  role : BlobRole
  anchorKind : AnchorKind
  userVisible : Bool
  userDeletable : Bool
  deriving DecidableEq

def BlobClassification.columns (k : BlobClassification) : BlobColumns :=
  ⟨k.provenance, k.role, k.anchorKind, k.userVisible, k.userDeletable⟩

def BlobInsert.columns (row : BlobInsert) : BlobColumns :=
  ⟨row.provenance, row.role, row.anchorKind, row.userVisible, row.userDeletable⟩

/-- The documented classes, A to D. -/
inductive BlobClass
  | outbound
  | inboundOutput
  | capStaging
  | localCache
  deriving DecidableEq

def BlobClass.columns : BlobClass → BlobColumns
  | .outbound => classifyOutboundUpload.columns
  | .inboundOutput => classifyInboundOutput.columns
  | .capStaging => classifyCapStaging.columns
  | .localCache => classifyLocalCache.columns

/-- The row is in one of the classes. -/
def BlobInsert.Classed (row : BlobInsert) : Prop := ∃ k : BlobClass, row.columns = k.columns

/-- The guard of `mark_outbound`. -/
def BlobRecord.isOutboundInput (r : BlobRecord) : Bool :=
  r.provenance = .outbound ∧ r.role = .input ∧
    (r.anchorKind = .localCache ∨ r.anchorKind = .userSession)

/-- The guard of `mark_inbound_output`, which spares class C. -/
def BlobRecord.isAnchoredLocally (r : BlobRecord) : Bool :=
  r.anchorKind = .localCache ∨ r.anchorKind = .userSession

/-- The row of a blob that was sent. -/
def BlobRecord.promote (r : BlobRecord) (expiresAt : ℤ) : BlobRecord :=
  { r with
    anchorKind := .userSession
    processingStatus := .referenced
    userVisible := true
    userDeletable := true
    expiresAt := expiresAt }

/-- The row of a blob that came back as a result, under the name that was chosen
    for it if there is one. -/
def BlobRecord.deliver (r : BlobRecord) (name : Option String) (expiresAt : ℤ) : BlobRecord :=
  { r with
    provenance := .inbound
    role := .output
    anchorKind := .userSession
    processingStatus := .ready
    userVisible := true
    userDeletable := true
    path := name <|> r.path
    expiresAt := expiresAt }

@[simp] theorem BlobRecord.hash_promote {r : BlobRecord} {expiresAt : ℤ} :
    (r.promote expiresAt).hash = r.hash := rfl

@[simp] theorem BlobRecord.hash_deliver {r : BlobRecord} {name : Option String} {expiresAt : ℤ} :
    (r.deliver name expiresAt).hash = r.hash := rfl

namespace BlobIndex

variable (idx : BlobIndex)

/-- An update of the row under a hash, if it passes the guard. -/
def updateWhere (hash : String) (guard : BlobRecord → Bool) (set : BlobRecord → BlobRecord)
    (hset : ∀ r, (set r).hash = r.hash) : BlobIndex :=
  ⟨idx.rows.map fun r => if r.hash = hash ∧ guard r then set r else r,
    Rows.nodup_update idx.hashes_nodup fun r => by split <;> simp only [hset]⟩

/-- A blob was put at a peer; whether its row was promoted. -/
def markOutbound (hash : String) (expiresAt : ℤ) : BlobIndex × Bool :=
  (idx.updateWhere hash (·.isOutboundInput) (·.promote expiresAt) fun _ => BlobRecord.hash_promote,
    (idx.get hash).any (·.isOutboundInput))

/-- A blob came back as the output of a remote capability; whether its row was
    relabelled. -/
def markInboundOutput (hash : String) (name : Option String) (expiresAt : ℤ) : BlobIndex × Bool :=
  (idx.updateWhere hash (·.isAnchoredLocally) (·.deliver name expiresAt)
    fun _ => BlobRecord.hash_deliver,
    (idx.get hash).any (·.isAnchoredLocally))

variable {idx} {hash hash' : String}

theorem get_updateWhere {guard : BlobRecord → Bool} {set : BlobRecord → BlobRecord}
    (hset : ∀ r, (set r).hash = r.hash) : (idx.updateWhere hash' guard set hset).get hash =
      (idx.get hash).map fun r => if hash = hash' ∧ guard r then set r else r := by
  rw [get, updateWhere, Rows.find?_update (fun r : BlobRecord => r.hash)
    (fun r => by split <;> simp only [hset]), ← get]
  exact Option.map_congr fun r hr => by rw [hash_of_get hr]

theorem get_markOutbound {expiresAt : ℤ} : (idx.markOutbound hash' expiresAt).1.get hash =
    (idx.get hash).map fun r =>
      if hash = hash' ∧ r.isOutboundInput then r.promote expiresAt else r :=
  get_updateWhere fun _ => BlobRecord.hash_promote

theorem get_markInboundOutput {name : Option String} {expiresAt : ℤ} :
    (idx.markInboundOutput hash' name expiresAt).1.get hash =
      (idx.get hash).map fun r =>
        if hash = hash' ∧ r.isAnchoredLocally then r.deliver name expiresAt else r :=
  get_updateWhere fun _ => BlobRecord.hash_deliver

theorem get_markOutbound_of_get {r : BlobRecord} {expiresAt : ℤ} (hr : idx.get hash = some r) :
    (idx.markOutbound hash expiresAt).1.get hash =
      some (if r.isOutboundInput then r.promote expiresAt else r) := by
  rw [get_markOutbound, hr, Option.map_some]
  simp only [true_and]

theorem get_markInboundOutput_of_get {r : BlobRecord} {name : Option String} {expiresAt : ℤ}
    (hr : idx.get hash = some r) : (idx.markInboundOutput hash name expiresAt).1.get hash =
      some (if r.isAnchoredLocally then r.deliver name expiresAt else r) := by
  rw [get_markInboundOutput, hr, Option.map_some]
  simp only [true_and]

end BlobIndex

/-! ## The writes of the index -/

/-- The statements that write the index. The rows that are inserted are in one
    of the classes. -/
inductive BlobOp
  | upsert (row : BlobInsert) (hrow : row.Classed) (now : ℤ)
  | markOutbound (hash : String) (expiresAt : ℤ)
  | markInboundOutput (hash : String) (name : Option String) (expiresAt : ℤ)
  | delete (hash : String)
  | deleteExpired (now : ℤ)

namespace BlobIndex

def perform (idx : BlobIndex) : BlobOp → BlobIndex
  | .upsert row _ now => idx.upsert row now
  | .markOutbound hash expiresAt => (idx.markOutbound hash expiresAt).1
  | .markInboundOutput hash name expiresAt => (idx.markInboundOutput hash name expiresAt).1
  | .delete hash => idx.delete hash
  | .deleteExpired now => idx.deleteExpired now

/-- The index after a sequence of writes. -/
def performAll (idx : BlobIndex) (ops : List BlobOp) : BlobIndex := ops.foldl perform idx

/-- All rows are in one of the classes. -/
def Classed (idx : BlobIndex) : Prop := ∀ hash r, idx.get hash = some r → r.Classed

variable {idx : BlobIndex} {op : BlobOp} {hash : String} {r r' : BlobRecord}

theorem columns_promote {expiresAt : ℤ} (h : r.isOutboundInput) :
    (r.promote expiresAt).columns = BlobClass.outbound.columns := by
  obtain ⟨hprovenance, hrole, -⟩ := of_decide_eq_true h
  simp only [BlobInsert.columns, BlobRecord.promote, hprovenance, hrole]
  rfl

/-- Where the row comes from that is there after a write: it is new, or keeps its
    columns, or else it was not of class C, and gets those of class A or B. -/
theorem columns_perform (h : (idx.perform op).get hash = some r') :
    idx.get hash = none ∧ r'.Classed ∨ ∃ r, idx.get hash = some r ∧
      (r'.columns = r.columns ∨ r.isAnchoredLocally ∧ r'.Classed) := by
  cases op with
  | upsert row hrow now =>
    rw [perform, get_upsert] at h
    split at h
    · next hhash =>
      obtain rfl := Option.some.inj h
      rw [upserted, ← hhash]
      cases idx.get hash with
      | none => exact .inl ⟨rfl, hrow⟩
      | some r => exact .inr ⟨r, rfl, .inl rfl⟩
    · exact .inr ⟨r', h, .inl rfl⟩
  | markOutbound hash' expiresAt =>
    rw [perform, get_markOutbound] at h
    obtain ⟨r, hr, rfl⟩ := Option.map_eq_some_iff.1 h
    refine .inr ⟨r, hr, ?_⟩
    split
    · next hguard =>
      refine .inr ⟨decide_eq_true (of_decide_eq_true hguard.2).2.2, ?_⟩
      exact ⟨.outbound, columns_promote hguard.2⟩
    · exact .inl rfl
  | markInboundOutput hash' name expiresAt =>
    rw [perform, get_markInboundOutput] at h
    obtain ⟨r, hr, rfl⟩ := Option.map_eq_some_iff.1 h
    refine .inr ⟨r, hr, ?_⟩
    split
    · next hguard => exact .inr ⟨hguard.2, .inboundOutput, rfl⟩
    · exact .inl rfl
  | delete hash' =>
    rw [perform, get_delete] at h
    split at h
    · cases h
    · exact .inr ⟨r', h, .inl rfl⟩
  | deleteExpired now =>
    rw [perform, get_deleteExpired] at h
    exact .inr ⟨r', (Option.filter_eq_some_iff.1 h).1, .inl rfl⟩

theorem Classed.perform (h : idx.Classed) : (idx.perform op).Classed := by
  intro hash r' hr'
  rcases columns_perform hr' with ⟨-, hnew⟩ | ⟨r, hr, hsame | ⟨-, hmarked⟩⟩
  · exact hnew
  · obtain ⟨k, hk⟩ := h hash r hr
    exact ⟨k, hsame.trans hk⟩
  · exact hmarked

theorem Classed.performAll (h : idx.Classed) (ops : List BlobOp) : (idx.performAll ops).Classed := by
  induction ops generalizing idx with
  | nil => exact h
  | cons op ops ih => exact ih h.perform

theorem classed_empty : empty.Classed := fun _ _ h => absurd h (Option.some_ne_none _).symm

/-- A row of class C that is still there after a write is as it was. -/
theorem capStaging_perform (hr : idx.get hash = some r)
    (hclass : r.columns = BlobClass.capStaging.columns)
    (hkept : (idx.perform op).get hash ≠ none) :
    ∃ r', (idx.perform op).get hash = some r' ∧ r'.columns = BlobClass.capStaging.columns := by
  obtain ⟨r', hr'⟩ := Option.ne_none_iff_exists'.1 hkept
  refine ⟨r', hr', ?_⟩
  rcases columns_perform hr' with ⟨hnew, -⟩ | ⟨s, hs, hsame | ⟨hlocal, -⟩⟩
  · exact absurd (hr.symm.trans hnew) (Option.some_ne_none r)
  · obtain rfl := Option.some.inj (hr.symm.trans hs)
    exact hsame.trans hclass
  · -- Its anchor is spared by the guards.
    obtain rfl := Option.some.inj (hr.symm.trans hs)
    have hanchor : r.anchorKind = .capJob := congrArg BlobColumns.anchorKind hclass
    exact absurd (of_decide_eq_true hlocal) (by simp [hanchor])

theorem capStaging_performAll {ops : List BlobOp} (hr : idx.get hash = some r)
    (hclass : r.columns = BlobClass.capStaging.columns)
    (hkept : ∀ done, done <+: ops → (idx.performAll done).get hash ≠ none) :
    ∃ r', (idx.performAll ops).get hash = some r' ∧
      r'.columns = BlobClass.capStaging.columns := by
  induction ops generalizing idx r with
  | nil => exact ⟨r, hr, hclass⟩
  | cons op ops ih =>
    obtain ⟨s, hs, hsclass⟩ := capStaging_perform hr hclass (hkept [op] (by simp))
    exact ih hs hsclass fun done hdone => hkept (op :: done) (List.cons_prefix_cons.2 ⟨rfl, hdone⟩)

end BlobIndex

/-- After any sequence of writes, all rows are in one of the documented classes;
    and a row of class C keeps its columns through any writes that go on from
    there, for as long as it is not deleted. -/
theorem blobClasses (ops : List BlobOp) : (BlobIndex.empty.performAll ops).Classed ∧
    ∀ hash r, (BlobIndex.empty.performAll ops).get hash = some r →
      r.columns = BlobClass.capStaging.columns → ∀ later : List BlobOp,
      (∀ done, done <+: later → (BlobIndex.empty.performAll (ops ++ done)).get hash ≠ none) →
      ∃ r', (BlobIndex.empty.performAll (ops ++ later)).get hash = some r' ∧
        r'.columns = r.columns := by
  refine ⟨BlobIndex.classed_empty.performAll ops, fun hash r hr hclass later hkept => ?_⟩
  have happend (done : List BlobOp) : BlobIndex.empty.performAll (ops ++ done) =
      (BlobIndex.empty.performAll ops).performAll done := List.foldl_append
  rw [happend, hclass]
  exact BlobIndex.capStaging_performAll hr hclass fun done hdone => happend done ▸ hkept done hdone

/-- A blob put by a peer for our capability. -/
def stagedRow : BlobInsert where
  hash := "sha256:c"
  size := 3
  mime := "text/plain"
  path := none
  expiresAt := 3600
  storagePath := "blobs/sha256:c"
  provenance := .inbound
  role := .input
  anchorKind := .capJob
  processingStatus := .staged
  localUserId := none
  clientId := none
  userVisible := false
  userDeletable := false
  uploaderId := some "n3:peer"
  recipientsWhitelist := none

/-- It is spared when the same bytes come back as a result of ours. -/
theorem blobClasses_spared : ∃ r, (BlobIndex.empty.performAll
      ([.upsert stagedRow ⟨.capStaging, rfl⟩ 0] ++
        [.markInboundOutput "sha256:c" (some "mine.txt") 9000, .markOutbound "sha256:c" 9000])).get
      "sha256:c" = some r ∧ r.columns = BlobClass.capStaging.columns := by
  refine (blobClasses [.upsert stagedRow ⟨.capStaging, rfl⟩ 0]).2 "sha256:c" ⟨stagedRow, 0⟩
    (by decide) rfl _ fun done hdone => ?_
  simp only [List.prefix_cons_iff, List.prefix_nil] at hdone
  rcases hdone with rfl | ⟨_, rfl, rfl | ⟨_, rfl, rfl⟩⟩ <;> decide

end N3ur0n
