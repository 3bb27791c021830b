import Mathlib.Algebra.Order.BigOperators.Group.List
import Mathlib.Algebra.Order.Group.Nat
import N3ur0n.Blobs.Routes

/-!
# Quotas

A peer may have so many bytes, and so many blobs, on the node. It is checked
before a blob is put, and the row is written later, when others may have been
written for him; and if there is a row for the blob already, expired, it is its
uploader who is charged.

* `BlobPool.within_quota`: the blobs of every peer always are within his quota
  exactly if, each time a put writes its row, the check that it made before has the
  same answer, and a row that is charged to another peer, who was not checked, is
  within his.
-/

namespace N3ur0n

namespace BlobIndex

variable {idx idx' : BlobIndex} {row : BlobInsert} {now now' : ℤ} {uploader : String}

/-- The unexpired rows charged to each peer are within the quota. -/
def WithinQuota (idx : BlobIndex) (now : ℤ) : Prop :=
  ∀ uploader, idx.sumBytesForUploader uploader now ≤ defaultPerPeerBytes ∧
    idx.countForUploader uploader now ≤ defaultPerPeerBlobs

/-- A row is written for a peer, old or new, whose check passes on the other rows. -/
def Admits (idx : BlobIndex) (row : BlobInsert) (now : ℤ) : Prop :=
  ∀ uploader ∈ (idx.upserted row now).uploaderId,
    checkPeerQuota (idx.delete row.hash) uploader row.size now = .ok ()

/-- Fewer rows, later, are within the quota if they were. -/
theorem WithinQuota.mono (h : idx.WithinQuota now) (hrows : idx'.rows.Sublist idx.rows)
    (hnow : now ≤ now') : idx'.WithinQuota now' := fun uploader => by
  have hsub : (idx'.activeFor uploader now').Sublist (idx.activeFor uploader now) := by
    refine (hrows.filter _).trans (List.monotone_filter_right _ fun r hr => ?_)
    obtain ⟨hup, hexp⟩ := of_decide_eq_true hr
    exact decide_eq_true ⟨hup, hnow.trans_lt hexp⟩
  exact ⟨((hsub.map _).sum_le_sum fun _ _ => Nat.zero_le _).trans (h uploader).1,
    hsub.length_le.trans (h uploader).2⟩

theorem rows_delete_sublist (hash : String) : (idx.delete hash).rows.Sublist idx.rows :=
  List.filter_sublist

theorem rows_deleteExpired_sublist (now : ℤ) : (idx.deleteExpired now).rows.Sublist idx.rows :=
  List.filter_sublist

/-- The rows are the one written, and those of the other blobs. -/
theorem rows_upsert_perm :
    (idx.upsert row now).rows.Perm (idx.upserted row now :: (idx.delete row.hash).rows) := by
  have hmem {idx : BlobIndex} {r : BlobRecord} : r ∈ idx.rows ↔ idx.get r.hash = some r :=
    ⟨fun h => get_eq_some.2 ⟨h, rfl⟩, fun h => (get_eq_some.1 h).1⟩
  have hnew : idx.upserted row now ∉ (idx.delete row.hash).rows := fun h => by
    rw [hmem, get_delete, if_pos hash_upserted] at h
    cases h
  refine (List.perm_ext_iff_of_nodup (List.Nodup.of_map _ (idx.upsert row now).hashes_nodup)
    (List.nodup_cons.2 ⟨hnew, List.Nodup.of_map _ (idx.delete row.hash).hashes_nodup⟩)).2
    fun r => ?_
  rw [List.mem_cons, hmem, hmem, get_upsert, get_delete]
  by_cases hr : r.hash = row.hash
  · simp [hr, eq_comm]
  · have hne : r ≠ idx.upserted row now := fun h => hr (h ▸ hash_upserted)
    simp [hr, hne]

/-- The row that is written is charged to its uploader, and to no other. -/
theorem activeFor_upsert_perm (hexp : now < row.expiresAt) :
    ((idx.upsert row now).activeFor uploader now).Perm
      ((if (idx.upserted row now).uploaderId = some uploader then [idx.upserted row now] else []) ++
        (idx.delete row.hash).activeFor uploader now) := by
  refine (rows_upsert_perm.filter _).trans (List.Perm.of_eq ?_)
  rw [List.filter_cons, activeFor, upserted_expiresAt]
  by_cases hup : (idx.upserted row now).uploaderId = some uploader
  · simp [hup, hexp]
  · simp [hup]

/-- Within the quota, a row may be written exactly if the check passes. -/
theorem withinQuota_upsert (h : idx.WithinQuota now) (hexp : now < row.expiresAt) :
    (idx.upsert row now).WithinQuota now ↔ idx.Admits row now := by
  have hothers := h.mono (rows_delete_sublist row.hash) le_rfl
  refine forall_congr' fun uploader => ?_
  rw [sumBytesForUploader, countForUploader,
    ((activeFor_upsert_perm hexp).map _).sum_eq, (activeFor_upsert_perm hexp).length_eq]
  by_cases hup : (idx.upserted row now).uploaderId = some uploader
  · rw [if_pos hup, List.map_append, List.sum_append, List.length_append, Option.mem_def,
      List.map_singleton, List.sum_singleton, List.length_singleton, upserted_size,
      ← sumBytesForUploader, ← countForUploader]
    refine Iff.trans ?_ (forall_prop_of_true hup).symm
    rw [checkPeerQuota_ok, Nat.add_comm row.size, Nat.add_comm 1, Nat.succ_le_iff]
  · rw [if_neg hup]
    exact iff_of_true (hothers uploader) fun h => absurd (Option.mem_def.1 h) hup

end BlobIndex

namespace BlobPhase

/-- The bytes of the sender are about to be summed. -/
def isPutSum : BlobPhase → Bool
  | putSum _ => true
  | _ => false

/-- His blobs are about to be counted. -/
def isPutCount : BlobPhase → Bool
  | putCount _ _ => true
  | _ => false

end BlobPhase

namespace BlobPool

variable {B : BlobNode} {t t' : BlobPool} {a : BlobAction}

variable (B) in
/-- If a row is written, the quota of its uploader admits it. -/
def Admits (t : BlobPool) (a : BlobAction) : Prop :=
  ∀ row now, write B t a = some (.upsert row now) → t.shared.store.index.Admits row now

/-- The quotas are kept by an action exactly if they admit what it writes. -/
theorem withinQuota_step (hP : t.shared.store.index.WithinQuota t.shared.now)
    (h : B.program.poolStep t a = some t') :
    t'.shared.store.index.WithinQuota t'.shared.now ↔ Admits B t a := by
  have hstore := step_store h
  have hother (hw : ∀ row now, write B t a ≠ some (.upsert row now)) : Admits B t a :=
    fun row now h => absurd h (hw row now)
  cases hw : write B t a with
  | none =>
    rw [hw] at hstore
    rw [hstore]
    exact iff_of_true (hP.mono (List.Sublist.refl _) (now_le h)) (hother fun _ _ => by simp [hw])
  | some w =>
    rw [hw] at hstore
    rw [hstore, now_of_write h hw]
    cases w with
    | upsert row now =>
      obtain ⟨rfl, hexp⟩ := upsert_of_write hw
      refine (BlobIndex.withinQuota_upsert hP hexp).trans ⟨fun hadm row' now' hw' => ?_,
        fun hadm => hadm row _ hw⟩
      obtain ⟨rfl, rfl⟩ := BlobWrite.upsert.inj (Option.some.inj (hw.symm.trans hw'))
      exact hadm
    | delete hash =>
      exact iff_of_true (hP.mono (BlobIndex.rows_delete_sublist hash) le_rfl)
        (hother fun _ _ => by simp [hw])
    | deleteExpired now =>
      exact iff_of_true (hP.mono (BlobIndex.rows_deleteExpired_sublist now) le_rfl)
        (hother fun _ _ => by simp [hw])
    | writeFile path bytes | removeFile path =>
      exact iff_of_true hP (hother fun _ _ => by simp [hw])

/-- The quotas are kept throughout a run exactly if they admit what is written. -/
theorem always_withinQuota_iff {σ : BlobState} (hσ : σ.store.index.WithinQuota σ.now)
    {as : List BlobAction} (h : Run.run B.program.poolStep (Pool.idle σ) as = some t) :
    Run.Always B.program.poolStep (fun u => u.shared.store.index.WithinQuota u.shared.now)
        (Pool.idle σ) as ↔
      Run.Along B.program.poolStep (Admits B) (Pool.idle σ) as :=
  Run.always_iff_along (I := fun _ => True) trivial hσ (fun _ _ _ _ _ _ _ => trivial)
    (fun _ _ _ _ hP hstep => withinQuota_step hP hstep) h

/-! ## What was checked -/

variable (B) in
/-- Where a put comes to write its row, if that is charged to its sender, the two
    queries of `check_peer_quota` have the answers, on the rows of the other blobs,
    that they had before. If it is charged to the uploader of a row already there,
    or is that of a local upload, for which there is no check, it passes one. -/
def ChecksHold (t₀ : BlobPool) (past : List BlobAction) (t : BlobPool) : BlobAction → Prop
  | .act k _ =>
    let idx := t.shared.store.index
    let now := t.shared.now
    match t.threads.lookup k with
    | some (.putInsert job) => ∀ uploader ∈ (idx.upserted (job.row now) now).uploaderId,
      if uploader = job.uploader then
        ∀ u ∈ B.program.lastAt k (·.isPutSum) t₀ past,
          ∀ u' ∈ B.program.lastAt k (·.isPutCount) t₀ past,
            checkBytes (idx.delete job.hash) uploader job.size now =
                checkBytes u.shared.store.index uploader job.size u.shared.now ∧
              checkCount (idx.delete job.hash) uploader now =
                checkCount u'.shared.store.index uploader u.shared.now
      else checkPeerQuota (idx.delete job.hash) uploader job.size now = .ok ()
    | some (.uploadInsert job) => idx.Admits (job.row B.receiver.crypto now) now
    | _ => True
  | _ => True

instance {t₀ : BlobPool} {past : List BlobAction} {t : BlobPool} {a : BlobAction} :
    Decidable (ChecksHold B t₀ past t a) := by
  unfold ChecksHold BlobIndex.Admits
  split
  · dsimp only
    split <;> infer_instance
  · infer_instance

variable (B) in
/-- What `check_peer_quota` has answered to a request, when it was asked. -/
def Asked (σ : BlobState) (k : ℕ) (past : List BlobAction) : BlobPhase → Prop
  | .putCount job now => ∃ u, B.program.lastAt k (·.isPutSum) (Pool.idle σ) past = some u ∧
      checkBytes u.shared.store.index job.uploader job.size u.shared.now = .ok () ∧
      u.shared.now = now
  | .putWrite job | .putInsert job =>
    ∃ u, B.program.lastAt k (·.isPutSum) (Pool.idle σ) past = some u ∧
      checkBytes u.shared.store.index job.uploader job.size u.shared.now = .ok () ∧
      ∃ u', B.program.lastAt k (·.isPutCount) (Pool.idle σ) past = some u' ∧
        checkCount u'.shared.store.index job.uploader u.shared.now = .ok ()
  | _ => True

/-- A request that writes a row has passed the check. -/
theorem asked_run {σ : BlobState} {past : List BlobAction} {k : ℕ} {phase : BlobPhase}
    (h : Run.run B.program.poolStep (Pool.idle σ) past = some t)
    (hl : t.threads.lookup k = some phase) : Asked B σ k past phase := by
  refine Program.thread_run (p := B.program) (K := Asked B σ k) (fun past q => trivial)
    (fun past u e l s' l' hu hl ih hs => ?_) (fun past u a l hu ha ih => ?_) h hl
  · have hlast (c : BlobPhase → Bool) : B.program.lastAt k c (Pool.idle σ) (past ++ [.act k e]) =
        if c l then some u else B.program.lastAt k c (Pool.idle σ) past :=
      Program.lastAt_act hu hl
    have hs : B.step u.shared l = (s', .inl l') := Option.some.inj hs
    cases BlobNode.leadsTo_of_step (congrArg Prod.snd hs) with
    | summed hbytes => exact ⟨u, hlast _, hbytes, rfl⟩
    | counted hcount =>
      obtain ⟨v, hv, hbytes, rfl⟩ := ih
      exact ⟨v, (hlast _).trans hv, hbytes, u, hlast _, hcount⟩
    | written =>
      obtain ⟨v, hv, hbytes, v', hv', hcount⟩ := ih
      exact ⟨v, (hlast _).trans hv, hbytes, v', (hlast _).trans hv', hcount⟩
    | _ => trivial
  · have hlast (c : BlobPhase → Bool) : B.program.lastAt k c (Pool.idle σ) (past ++ [a]) =
        B.program.lastAt k c (Pool.idle σ) past := Program.lastAt_other hu ha
    cases l with
    | putCount job now | putWrite job | putInsert job => simpa only [Asked, hlast] using ih
    | _ => trivial

/-- The quotas admit a row exactly if the answers are still those of the check. -/
theorem checksHold_iff {σ : BlobState} {past : List BlobAction}
    (h : Run.run B.program.poolStep (Pool.idle σ) past = some t) :
    ChecksHold B (Pool.idle σ) past t a ↔ Admits B t a := by
  have hnone (hw : write B t a = none) : Admits B t a := fun row now h => by simp [hw] at h
  have hrow {row : BlobInsert} (hw : write B t a = some (.upsert row t.shared.now)) :
      Admits B t a ↔ t.shared.store.index.Admits row t.shared.now := by
    refine ⟨fun hadm => hadm row _ hw, fun hadm row' now' hw' => ?_⟩
    obtain ⟨rfl, rfl⟩ := BlobWrite.upsert.inj (Option.some.inj (hw.symm.trans hw'))
    exact hadm
  cases a with
  | act k e =>
    rcases hl : t.threads.lookup k with - | phase
    · simp only [ChecksHold, hl]
      exact iff_of_true trivial (hnone (by rw [write, hl, Option.bind_none]))
    have hwrite : write B t (.act k e) = phase.write B.receiver.crypto t.shared.now := by
      rw [write, hl, Option.bind_some]
    have hother (hne : ∀ row now, phase.write B.receiver.crypto t.shared.now ≠
        some (.upsert row now)) : Admits B t (.act k e) := fun row now hw =>
      absurd (hwrite.symm.trans hw) (hne row now)
    cases phase with
    -- what the count found is compared with the rows as they are now
    | putInsert job =>
      obtain ⟨u, hu, hbytes, u', hu', hcount⟩ := asked_run h hl
      rw [hrow hwrite]
      simp only [ChecksHold, hl, hu, hu', Option.mem_def, Option.some.injEq, forall_eq',
        BlobIndex.Admits]
      refine forall₂_congr fun uploader _ => ?_
      split
      · next heq =>
        rw [heq, hbytes, hcount]
        refine Iff.symm ?_
        exact Except.check_eq_ok
      · exact Iff.rfl
    | uploadInsert job =>
      rw [hrow hwrite]
      simp only [ChecksHold, hl]
    | collectFiles paths =>
      simp only [ChecksHold, hl]
      refine iff_of_true trivial (hother ?_)
      cases paths <;> simp [BlobPhase.write]
    | _ =>
      simp only [ChecksHold, hl]
      exact iff_of_true trivial (hother (by simp [BlobPhase.write]))
  | enter k q | abort k | env v => exact iff_of_true trivial (hnone rfl)

/-- In any run, of any requests, the unexpired blobs of every peer always are
    within his quota exactly if `check_peer_quota`, whenever a put writes a row for
    its sender, has the answers that the put was given, and a row that is charged to
    another peer than was asked about is within his quota at that time. -/
theorem within_quota {σ : BlobState} (hσ : σ.store.index.WithinQuota σ.now)
    {as : List BlobAction} (h : Run.run B.program.poolStep (Pool.idle σ) as = some t) :
    Run.Always B.program.poolStep (fun u => u.shared.store.index.WithinQuota u.shared.now)
        (Pool.idle σ) as ↔
      Run.AlongPast B.program.poolStep (ChecksHold B (Pool.idle σ)) [] (Pool.idle σ) as := by
  rw [always_withinQuota_iff hσ h]
  exact (Run.alongPast_iff_along (Q := ChecksHold B (Pool.idle σ))
    (fun _ _ _ hpast => checksHold_iff hpast) rfl).symm

/-- The peer `n3:m` has put a blob of one byte less than his quota. -/
def nearlyFull : BlobState where
  clock := 0
  nonces := []
  store :=
    let bytes := List.replicate (defaultPerPeerBytes - 1) 0
    let job : PutJob := ⟨"blobs", hexCrypto.hashBytes bytes, bytes, defaultPerPeerBytes - 1,
      "text/plain", ⟨.put, none, none, none, none, 300, .input, none, none⟩, "n3:m"⟩
    ⟨BlobIndex.empty.upsert (job.row 0) 0,
      (∅ : Table String Bytes).insert (storagePath "blobs" job.hash) bytes⟩

theorem withinQuota_nearlyFull : nearlyFull.store.index.WithinQuota nearlyFull.now := by
  intro uploader
  have hsub : (nearlyFull.store.index.activeFor uploader nearlyFull.now).Sublist
      nearlyFull.store.index.rows := List.filter_sublist
  refine ⟨((hsub.map _).sum_le_sum fun _ _ => Nat.zero_le _).trans ?_, hsub.length_le.trans ?_⟩
  · decide
  · decide

/-- He puts two blobs of a byte, one after the other: the second is refused. -/
def putsInTurn : List BlobAction :=
  .enter 0 (toyPut "pm0a") :: steps 0 6 ++ .enter 1 (toyPut "pm0b") :: steps 1 3

/-- He has all of his quota, and never more. -/
theorem within_quota_putsInTurn :
    (Run.run hexNode.program.poolStep (Pool.idle nearlyFull) putsInTurn).map
      (fun t => t.shared.store.index.sumBytesForUploader "n3:m" t.shared.now) =
        some defaultPerPeerBytes ∧
    Run.Always hexNode.program.poolStep
      (fun u => u.shared.store.index.WithinQuota u.shared.now) (Pool.idle nearlyFull)
      putsInTurn := by
  have hend : (Run.run hexNode.program.poolStep (Pool.idle nearlyFull) putsInTurn).map
      (fun t => t.shared.store.index.sumBytesForUploader "n3:m" t.shared.now) =
        some defaultPerPeerBytes := by decide +kernel
  have hholds : Run.AlongPast hexNode.program.poolStep
      (ChecksHold hexNode (Pool.idle nearlyFull)) [] (Pool.idle nearlyFull) putsInTurn := by
    decide +kernel
  obtain ⟨t, ht, -⟩ := Option.map_eq_some_iff.1 hend
  exact ⟨hend, (within_quota withinQuota_nearlyFull ht).2 hholds⟩

/-- He puts two blobs of a byte: both pass the check before either has its row. -/
def twoPuts : List BlobAction :=
  .enter 0 (toyPut "pm0a") :: steps 0 5 ++ .enter 1 (toyPut "pm0b") :: steps 1 5 ++
    steps 0 1 ++ steps 1 1

/-- Both are stored, and he has a byte more than his quota. -/
theorem quota_exceeded : (Run.run hexNode.program.poolStep (Pool.idle nearlyFull) twoPuts).map
    (fun t => t.shared.store.index.sumBytesForUploader "n3:m" t.shared.now) =
      some (defaultPerPeerBytes + 1) := by
  decide +kernel

end BlobPool

end N3ur0n
