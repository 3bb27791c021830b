import N3ur0n.Blobs.Routes

/-!
# Index and files

The file of a blob is written before its row, and a deletion removes it before
the row; the collector deletes rows, and then removes their files, while the
same bytes may be stored again at the same path.

* `BlobPool.always_sound_iff`: an unexpired row always has its file, unless a
  deletion has only the row left to delete, exactly if the file of an upload is
  still there when the row is written, and the collector removes no file of an
  unexpired row;
* `BlobPool.index_and_store_agree`: then, when nothing is half-way, every
  unexpired row has its file.
-/

namespace N3ur0n

/-- Every row is at the path of its blob. -/
def BlobIndex.Placed (B : BlobNode) (idx : BlobIndex) : Prop :=
  ∀ hash r, idx.get hash = some r → B.blobsRoot.map (storagePath · hash) = some r.storagePath

/-- A deletion is one of the blob at the path. -/
def BlobPhase.Placed (B : BlobNode) : BlobPhase → Prop
  | .removeFile path hash => B.blobsRoot.map (storagePath · hash) = some path
  | _ => True

/-- The operation has written or removed the file, and not the row; or it has
    deleted rows, and not removed all their files. -/
def BlobPhase.HalfWay : BlobPhase → Prop
  | .putInsert _ | .uploadInsert _ | .deleteRow _ | .collectFiles (_ :: _) => True
  | _ => False

/-- Blobs at the same path are the same. -/
theorem BlobIndex.Placed.eq_of_path {B : BlobNode} {idx : BlobIndex} (hp : idx.Placed B)
    {hash hash' path : String} {r : BlobRecord} (hr : idx.get hash = some r)
    (hpath : B.blobsRoot.map (storagePath · hash') = some path) (hrp : r.storagePath = path) :
    hash = hash' := by
  obtain ⟨root, hroot, hpath⟩ := Option.map_eq_some_iff.1 hpath
  have hr := hp hash r hr
  rw [hroot, hrp, ← hpath] at hr
  exact storagePath_inj (Option.some.inj hr)

namespace BlobPhase

variable {B : BlobNode} {C : Crypto} {phase : BlobPhase} {now : ℤ}

/-! ## Who writes what -/

theorem eq_of_write_delete {hash : String} (h : phase.write C now = some (.delete hash)) :
    phase = .deleteRow hash := by
  cases phase with
  | deleteRow hash' => rw [BlobWrite.delete.inj (Option.some.inj h)]
  | collectFiles paths => cases paths <;> cases h
  | _ => cases h

theorem eq_of_write_removeFile {path : String} (h : phase.write C now = some (.removeFile path)) :
    (∃ hash, phase = .removeFile path hash) ∨ ∃ paths, phase = .collectFiles (path :: paths) := by
  cases phase with
  | removeFile path' hash => exact .inl ⟨hash, by rw [BlobWrite.removeFile.inj (Option.some.inj h)]⟩
  | collectFiles paths =>
    cases paths with
    | nil => cases h
    | cons path' paths =>
      exact .inr ⟨paths, by rw [BlobWrite.removeFile.inj (Option.some.inj h)]⟩
  | _ => cases h

/-- A file is written with the bytes of its blob. -/
theorem place_of_write_writeFile {path : String} {bytes : Bytes}
    (h : phase.write B.receiver.crypto now = some (.writeFile path bytes))
    (hc : phase.Checked B now) :
    B.blobsRoot.map (storagePath · (B.receiver.crypto.hashBytes bytes)) = some path := by
  cases phase with
  | putWrite job =>
    obtain ⟨rfl, rfl⟩ := BlobWrite.writeFile.inj (Option.some.inj h)
    rw [hc.1.2, hc.2, Option.map_some]
  | uploadWrite job =>
    obtain ⟨rfl, rfl⟩ := BlobWrite.writeFile.inj (Option.some.inj h)
    rw [show B.blobsRoot = some job.root from hc, Option.map_some]
  | collectFiles paths => cases paths <;> cases h
  | _ => cases h

/-- A row is written at the path of its blob. -/
theorem place_of_write_upsert {row : BlobInsert} {now' : ℤ}
    (h : phase.write B.receiver.crypto now = some (.upsert row now')) (hc : phase.Checked B now) :
    B.blobsRoot.map (storagePath · row.hash) = some row.storagePath := by
  cases phase with
  | putInsert job =>
    obtain ⟨rfl, -⟩ := BlobWrite.upsert.inj (Option.some.inj h)
    rw [hc.1.2, Option.map_some]
    rfl
  | uploadInsert job =>
    obtain ⟨rfl, -⟩ := BlobWrite.upsert.inj (Option.some.inj h)
    rw [show B.blobsRoot = some job.root from hc, Option.map_some]
    rfl
  | collectFiles paths => cases paths <;> cases h
  | _ => cases h

end BlobPhase

theorem BlobNode.LeadsTo.eq_of_deleteRow {B : BlobNode} {σ : BlobState} {phase : BlobPhase}
    {hash : String} (h : BlobNode.LeadsTo B σ phase (.deleteRow hash)) :
    ∃ path, phase = .removeFile path hash := by
  cases h with
  | removed => exact ⟨_, rfl⟩

/-- Rows stay placed, if the one that is written is. -/
theorem BlobIndex.Placed.write {B : BlobNode} {store : BlobStore} (hp : store.index.Placed B)
    {w : BlobWrite} (hw : ∀ row now, w = .upsert row now →
      B.blobsRoot.map (storagePath · row.hash) = some row.storagePath) :
    (store.write w).index.Placed B := by
  intro hash r hr
  cases w with
  | upsert row now =>
    rw [BlobStore.write, BlobIndex.get_upsert] at hr
    split at hr
    · next hh =>
      obtain rfl := Option.some.inj hr
      rw [BlobIndex.upserted_storagePath, hh, hw row now rfl]
    · exact hp hash r hr
  | delete hash' =>
    rw [BlobStore.write, BlobIndex.get_delete] at hr
    split at hr
    · cases hr
    · exact hp hash r hr
  | deleteExpired now =>
    rw [BlobStore.write, BlobIndex.get_deleteExpired] at hr
    exact hp hash r (Option.filter_eq_some_iff.1 hr).1
  | writeFile path bytes | removeFile path => exact hp hash r hr

namespace BlobPool

variable {B : BlobNode} {t t' : BlobPool} {a : BlobAction}

variable (B) in
/-- Rows and deletions are at the paths of their blobs. -/
def Placed : BlobPool → Prop :=
  Pool.Holds (fun σ => σ.store.index.Placed B) fun _ _ phase => phase.Placed B

theorem placed_step (hc : Checked B t) (hp : Placed B t)
    (hstep : B.program.poolStep t a = some t') : Placed B t' := by
  have hindex : t'.shared.store.index.Placed B := by
    rw [step_store hstep]
    cases hw : write B t a with
    | none => exact hp.1
    | some w =>
      refine hp.1.write fun row now h => ?_
      subst h
      cases a with
      | act k =>
        obtain ⟨phase, hl, hw⟩ := Option.bind_eq_some_iff.1 hw
        exact BlobPhase.place_of_write_upsert hw (hc.2 k phase hl)
      | _ => cases hw
  refine hp.step hstep (fun k q _ => trivial) (fun k e phase σ o ha hl hs => ?_)
    (fun k phase σ _ _ hs => absurd hs (Option.some_ne_none σ).symm) fun v σ ha hs => ?_
  · subst ha
    obtain ⟨phase', hl', rfl⟩ := act_eq_some.1 hstep
    obtain rfl := Option.some.inj (hl'.symm.trans hl)
    obtain ⟨rfl, rfl⟩ := Prod.mk.inj (Option.some.inj hs)
    rw [Pool.settle_shared] at hindex
    refine ⟨hindex, fun l' ho => ?_, fun k' l' _ hl => hp.2 k' l' hl⟩
    -- The path of a deletion is the one of the row it has found.
    cases BlobNode.leadsTo_of_step ho with
    | deleteFile hr _ _ => exact hp.1 _ _ hr
    | deletable hr _ => exact hp.1 _ _ hr
    | _ => trivial
  · subst ha
    obtain ⟨σ', hs', rfl⟩ := Program.env_eq_some.1 hstep
    obtain rfl := Option.some.inj (hs'.symm.trans hs)
    exact ⟨hindex, fun k phase hl => hp.2 k phase hl⟩

/-! ## Rows and their files -/

/-- A deletion of the blob has removed its file, and will delete its row. -/
def Deleting (t : BlobPool) (hash : String) : Prop :=
  ∃ k, t.threads.lookup k = some (.deleteRow hash)

/-- Every unexpired row has its file, or is about to be deleted. -/
def Sound (B : BlobNode) (t : BlobPool) : Prop :=
  ∀ hash r, t.shared.store.index.get hash = some r → t.shared.now < r.expiresAt →
    t.shared.store.HasFile B.receiver.crypto r.storagePath hash ∨ Deleting t hash

/-- Every unexpired row has its file. -/
def Agree (B : BlobNode) (σ : BlobState) : Prop :=
  ∀ hash r, σ.store.index.get hash = some r → σ.now < r.expiresAt →
    σ.store.HasFile B.receiver.crypto r.storagePath hash

/-- No operation is half-way. -/
def Settled (t : BlobPool) : Prop := ∀ k phase, t.threads.lookup k = some phase → ¬phase.HalfWay

/-- The file of a row is there when the row is written, and the collector removes
    no file of an unexpired row; unless the row is about to be deleted. -/
structure Spares (B : BlobNode) (t : BlobPool) (a : BlobAction) : Prop where
  upserted : ∀ row now, write B t a = some (.upsert row now) →
    t.shared.store.HasFile B.receiver.crypto row.storagePath row.hash ∨ Deleting t row.hash
  collected : ∀ k e path paths, a = .act k e →
    t.threads.lookup k = some (.collectFiles (path :: paths)) → ∀ hash r,
      t.shared.store.index.get hash = some r → t.shared.now < r.expiresAt →
        r.storagePath = path → Deleting t hash

theorem Sound.agree (h : Sound B t) (hs : Settled t) : Agree B t.shared := fun hash r hr hexp =>
  (h hash r hr hexp).resolve_right fun ⟨k, hk⟩ => hs k _ hk trivial

/-- A deletion goes on, unless it takes its last step. -/
theorem Deleting.settle {k : ℕ} {phase : BlobPhase} {σ : BlobState} {o : BlobPhase ⊕ BlobResponse}
    {hash : String} (h : Deleting t hash) (hl : t.threads.lookup k = some phase)
    (hphase : phase ≠ .deleteRow hash) : Deleting (t.settle k σ o) hash := by
  obtain ⟨k', hk'⟩ := h
  have hne : k' ≠ k := by
    rintro rfl
    exact hphase (Option.some.inj (hl.symm.trans hk'))
  exact ⟨k', (Pool.settle_lookup_ne t σ o hne).trans hk'⟩

/-- A deletion was there before, unless the step is its first. -/
theorem deleting_of_settle {k : ℕ} {σ : BlobState} {o : BlobPhase ⊕ BlobResponse} {hash : String}
    (h : Deleting (t.settle k σ o) hash) (ho : o ≠ .inl (.deleteRow hash)) : Deleting t hash := by
  obtain ⟨k', hk'⟩ := h
  have hne : k' ≠ k := by
    rintro rfl
    exact ho (Pool.settle_lookup.1 hk')
  exact ⟨k', (Pool.settle_lookup_ne t σ o hne).symm.trans hk'⟩

/-- The rows there are, with their files, were sound before. -/
theorem Sound.mono (h : Sound B t) (hnow : t.shared.now ≤ t'.shared.now)
    (hrows : ∀ hash r, t'.shared.store.index.get hash = some r → t'.shared.now < r.expiresAt →
      t.shared.store.index.get hash = some r)
    (hfile : ∀ hash r, t.shared.store.index.get hash = some r →
      t.shared.store.HasFile B.receiver.crypto r.storagePath hash →
        t'.shared.store.HasFile B.receiver.crypto r.storagePath hash)
    (hdel : ∀ hash r, t'.shared.store.index.get hash = some r → Deleting t hash →
      Deleting t' hash) : Sound B t' := by
  intro hash r hr hexp
  have hr' := hrows hash r hr hexp
  exact (h hash r hr' (hnow.trans_lt hexp)).imp (hfile hash r hr') (hdel hash r hr)

/-- A thread in this phase takes a step that writes `w`: the deletions are the
    same before and after, apart from its own. -/
structure Writes (B : BlobNode) (t t' : BlobPool) (phase : BlobPhase) (w : BlobWrite) : Prop where
  write : phase.write B.receiver.crypto t.shared.now = some w
  store : t'.shared.store = t.shared.store.write w
  now : t'.shared.now = t.shared.now
  deleting : ∀ hash, phase ≠ .deleteRow hash → Deleting t hash → Deleting t' hash
  deleted : ∀ hash, (∀ path, phase ≠ .removeFile path hash) → Deleting t' hash → Deleting t hash

namespace Writes

variable {phase : BlobPhase}

/-- A row is sound, when it is written, if its file is there. -/
theorem upsert {row : BlobInsert} {now : ℤ} (h : Writes B t t' phase (.upsert row now))
    (hS : Sound B t) (hexp : t.shared.now < row.expiresAt) : Sound B t' ↔
      t.shared.store.HasFile B.receiver.crypto row.storagePath row.hash ∨ Deleting t row.hash := by
  have hget {hash : String} : t'.shared.store.index.get hash =
      if hash = row.hash then some (t.shared.store.index.upserted row now)
      else t.shared.store.index.get hash := by
    rw [h.store]
    exact BlobIndex.get_upsert
  have hfile {path hash : String} : t'.shared.store.HasFile B.receiver.crypto path hash ↔
      t.shared.store.HasFile B.receiver.crypto path hash := by
    rw [h.store]
    rfl
  have hdel {hash : String} : Deleting t' hash ↔ Deleting t hash := by
    refine ⟨h.deleted hash fun path => ?_, h.deleting hash ?_⟩
    · rintro rfl
      cases h.write
    · rintro rfl
      cases h.write
  constructor
  · intro hS'
    have hrow := hS' row.hash _ (hget.trans (if_pos rfl))
      (by rwa [h.now, BlobIndex.upserted_expiresAt])
    rwa [hfile, hdel, BlobIndex.upserted_storagePath] at hrow
  · intro hQ hash r hr hexp'
    rw [hfile, hdel]
    rw [hget] at hr
    split at hr
    · next hh =>
      obtain rfl := Option.some.inj hr
      rwa [BlobIndex.upserted_storagePath, hh]
    · exact hS hash r hr (h.now ▸ hexp')

theorem delete {hash : String} (h : Writes B t t' phase (.delete hash)) (hS : Sound B t) :
    Sound B t' := by
  obtain rfl := BlobPhase.eq_of_write_delete h.write
  refine hS.mono h.now.ge (fun hash' r hr _ => ?_) (fun _ _ _ hf => h.store ▸ hf)
    fun hash' r hr => h.deleting hash' ?_
  · rw [h.store, BlobStore.write, BlobIndex.get_delete] at hr
    exact (Option.ite_none_left_eq_some.1 hr).2
  · rintro hh
    obtain rfl := BlobPhase.deleteRow.inj hh
    rw [h.store, BlobStore.write, BlobIndex.get_delete, if_pos rfl] at hr
    cases hr

theorem deleteExpired {now : ℤ} (h : Writes B t t' phase (.deleteExpired now)) (hS : Sound B t) :
    Sound B t' := by
  refine hS.mono h.now.ge (fun hash r hr _ => ?_) (fun _ _ _ hf => h.store ▸ hf)
    fun hash r _ => h.deleting hash ?_
  · rw [h.store, BlobStore.write, BlobIndex.get_deleteExpired] at hr
    exact (Option.filter_eq_some_iff.1 hr).1
  · rintro rfl
    cases h.write

/-- A file is written with the bytes of the rows at its path. -/
theorem writeFile {path : String} {bytes : Bytes} (h : Writes B t t' phase (.writeFile path bytes))
    (hc : phase.Checked B t.shared.now) (hp : t.shared.store.index.Placed B) (hS : Sound B t) :
    Sound B t' := by
  have hplace := BlobPhase.place_of_write_writeFile h.write hc
  refine hS.mono h.now.ge (fun hash r hr _ => ?_) (fun hash r hr hf => ?_)
    fun hash r _ => h.deleting hash ?_
  · rwa [h.store] at hr
  · rw [h.store, BlobStore.hasFile_writeFile]
    split
    · next hrp => exact (hp.eq_of_path hr hplace hrp).symm
    · exact hf
  · rintro rfl
    cases h.write

/-- The rows at other paths than that of a file that is removed have theirs. -/
theorem other {path hash : String} {r : BlobRecord} (h : Writes B t t' phase (.removeFile path))
    (hS : Sound B t) (hr : t.shared.store.index.get hash = some r)
    (hexp : t.shared.now < r.expiresAt) (hrp : r.storagePath ≠ path) :
    t'.shared.store.HasFile B.receiver.crypto r.storagePath hash ∨ Deleting t' hash := by
  rw [h.store, BlobStore.hasFile_removeFile, and_iff_right hrp]
  refine (hS hash r hr hexp).imp_right (h.deleting hash ?_)
  rintro rfl
  cases h.write

/-- A deletion removes the file of the row it will delete. -/
theorem removeFile {path hash : String}
    (h : Writes B t t' (.removeFile path hash) (.removeFile path))
    (hp : t.shared.store.index.Placed B) (hplace : (BlobPhase.removeFile path hash).Placed B)
    (hS : Sound B t) (hnext : Deleting t' hash) : Sound B t' := by
  intro hash' r hr hexp
  have hr : t.shared.store.index.get hash' = some r := by rwa [h.store] at hr
  by_cases hrp : r.storagePath = path
  · obtain rfl := hp.eq_of_path hr hplace hrp
    exact .inr hnext
  · exact h.other hS hr (h.now ▸ hexp) hrp

/-- The collector removes a file that no unexpired row needs. -/
theorem collectFile {path : String} {paths : List String}
    (h : Writes B t t' (.collectFiles (path :: paths)) (.removeFile path)) (hS : Sound B t) :
    Sound B t' ↔ ∀ hash r, t.shared.store.index.get hash = some r → t.shared.now < r.expiresAt →
      r.storagePath = path → Deleting t hash := by
  have hindex : t'.shared.store.index = t.shared.store.index := by rw [h.store]; rfl
  constructor
  · refine fun hS' hash r hr hexp hrp => h.deleted hash nofun ?_
    refine (hS' hash r (hindex ▸ hr) (h.now ▸ hexp)).resolve_left fun hf => ?_
    rw [h.store, BlobStore.hasFile_removeFile] at hf
    exact hf.1 hrp
  · intro hQ hash r hr hexp
    by_cases hrp : r.storagePath = path
    · exact .inr (h.deleting hash nofun (hQ hash r (hindex ▸ hr) (h.now ▸ hexp) hrp))
    · exact h.other hS (hindex ▸ hr) (h.now ▸ hexp) hrp

end Writes

theorem writes_of_act {k : ℕ} {phase : BlobPhase} {w : BlobWrite}
    (hl : t.threads.lookup k = some phase) (h : B.program.poolStep t (.act k ()) = some t')
    (hw : phase.write B.receiver.crypto t.shared.now = some w) : Writes B t t' phase w := by
  have hwrite : write B t (.act k ()) = some w := by
    rw [write, hl]
    exact hw
  have hstore := step_store h
  rw [hwrite] at hstore
  obtain ⟨phase', hl', ht'⟩ := act_eq_some.1 h
  obtain rfl := Option.some.inj (hl'.symm.trans hl)
  refine ⟨hw, hstore, now_of_write h hwrite, fun hash hne hd => ?_, fun hash hne hd => ?_⟩
  · rw [ht']
    exact hd.settle hl hne
  · rw [ht'] at hd
    refine deleting_of_settle hd fun ho => ?_
    obtain ⟨path, hpath⟩ := (BlobNode.leadsTo_of_step ho).eq_of_deleteRow
    exact hne path hpath

/-- What it takes for a thread to spare the rows. -/
theorem spares_act_iff {k : ℕ} {phase : BlobPhase} (hl : t.threads.lookup k = some phase) :
    Spares B t (.act k ()) ↔
      (∀ row now, phase.write B.receiver.crypto t.shared.now = some (.upsert row now) →
        t.shared.store.HasFile B.receiver.crypto row.storagePath row.hash ∨ Deleting t row.hash) ∧
      ∀ path paths, phase = .collectFiles (path :: paths) → ∀ hash r,
        t.shared.store.index.get hash = some r → t.shared.now < r.expiresAt →
          r.storagePath = path → Deleting t hash := by
  have hwrite : write B t (.act k ()) = phase.write B.receiver.crypto t.shared.now := by
    rw [write, hl]
    rfl
  constructor
  · exact fun hQ => ⟨fun row now hw => hQ.upserted row now (hwrite.trans hw),
      fun path paths hphase => hQ.collected k () path paths rfl (hphase ▸ hl)⟩
  · rintro ⟨hup, hcol⟩
    refine ⟨fun row now hw => hup row now (hwrite.symm.trans hw),
      fun k' e path paths ha hl' => ?_⟩
    obtain ⟨rfl, -⟩ := Pool.Action.act.inj ha
    exact hcol path paths (Option.some.inj (hl.symm.trans hl'))

/-- A thread that writes no row, and is not collecting, spares the rows. -/
theorem spares_act {k : ℕ} {phase : BlobPhase} (hl : t.threads.lookup k = some phase)
    (hup : ∀ row now, phase.write B.receiver.crypto t.shared.now ≠ some (.upsert row now))
    (hcol : ∀ path paths, phase ≠ .collectFiles (path :: paths)) : Spares B t (.act k ()) :=
  (spares_act_iff hl).2 ⟨fun row now h => absurd h (hup row now),
    fun path paths h => absurd h (hcol path paths)⟩

/-- What is not a step of a request writes nothing. -/
theorem spares_of_ne_act (ha : ∀ k e, a ≠ .act k e) : Spares B t a := by
  refine ⟨fun row now h => ?_, fun k e _ _ hact => absurd hact (ha k e)⟩
  cases a with
  | act k e => exact absurd rfl (ha k e)
  | _ => exact absurd h (Option.some_ne_none _).symm

/-- A step of a request keeps the rows sound exactly if it spares them. -/
theorem sound_act {k : ℕ} {phase : BlobPhase} (hc : Checked B t) (hp : Placed B t) (hS : Sound B t)
    (hl : t.threads.lookup k = some phase) (h : B.program.poolStep t (.act k ()) = some t') :
    Sound B t' ↔ Spares B t (.act k ()) := by
  -- only what is written can part the rows from the files
  cases hw : phase.write B.receiver.crypto t.shared.now with
  | none =>
    have hstore : t'.shared.store = t.shared.store := by
      rw [step_store h, write, hl, Option.bind_some, hw]
      rfl
    refine iff_of_true (hS.mono (now_le h) (fun hash r hr _ => hstore ▸ hr)
      (fun hash r _ hf => hstore ▸ hf) fun hash r _ hd => ?_)
      (spares_act hl (by simp [hw]) fun path paths hphase => ?_)
    · obtain ⟨phase', hl', rfl⟩ := act_eq_some.1 h
      obtain rfl := Option.some.inj (hl'.symm.trans hl)
      refine hd.settle hl ?_
      rintro rfl
      cases hw
    · subst hphase
      cases hw
  | some w =>
    have hwrites := writes_of_act hl h hw
    cases w with
    | upsert row now =>
      obtain ⟨rfl, hexp⟩ := upsert_of_write (B := B) (t := t) (a := .act k ())
        (by rw [write, hl]; exact hw)
      rw [hwrites.upsert hS hexp, spares_act_iff hl, hw]
      refine ⟨fun hQ => ⟨fun row' now' h' => ?_, fun path paths hphase => ?_⟩,
        fun hQ => hQ.1 row _ rfl⟩
      · obtain ⟨rfl, -⟩ := BlobWrite.upsert.inj (Option.some.inj h')
        exact hQ
      · subst hphase
        cases hw
    | delete hash =>
      refine iff_of_true (hwrites.delete hS) (spares_act hl (by simp [hw]) ?_)
      rintro path paths rfl
      cases hw
    | deleteExpired now =>
      refine iff_of_true (hwrites.deleteExpired hS) (spares_act hl (by simp [hw]) ?_)
      rintro path paths rfl
      cases hw
    | writeFile path bytes =>
      refine iff_of_true (hwrites.writeFile (hc.2 k _ hl) hp.1 hS)
        (spares_act hl (by simp [hw]) ?_)
      rintro path paths rfl
      cases hw
    | removeFile path =>
      rcases BlobPhase.eq_of_write_removeFile hw with ⟨hash, rfl⟩ | ⟨paths, rfl⟩
      · obtain ⟨phase', hl', rfl⟩ := act_eq_some.1 h
        obtain rfl := Option.some.inj (hl'.symm.trans hl)
        exact iff_of_true (hwrites.removeFile hp.1 (hp.2 k _ hl) hS
          ⟨k, Pool.settle_lookup.2 rfl⟩) (spares_act hl (by simp [hw]) (by simp))
      -- a collected file may be that of a row inserted since
      · rw [hwrites.collectFile hS, spares_act_iff hl, hw]
        refine ⟨fun hQ => ⟨fun row now h => ?_, fun path' paths' hphase => ?_⟩,
          fun hQ => hQ.2 path paths rfl⟩
        · exact absurd (Option.some.inj h) (by simp)
        · obtain ⟨rfl, -⟩ := List.cons.inj (BlobPhase.collectFiles.inj hphase)
          exact hQ

/-- A step keeps the rows sound exactly if it spares them. -/
theorem sound_step (hc : Checked B t) (hp : Placed B t) (hS : Sound B t)
    (h : B.program.poolStep t a = some t') : Sound B t' ↔ Spares B t a := by
  cases a with
  | act k =>
    obtain ⟨phase, hl, -⟩ := act_eq_some.1 h
    exact sound_act hc hp hS hl h
  | enter k q =>
    obtain ⟨hk, rfl⟩ := Program.enter_eq_some.1 h
    refine iff_of_true (hS.mono le_rfl (fun _ _ hr _ => hr) (fun _ _ _ hf => hf)
      fun hash r _ ⟨k', hk'⟩ => ⟨k', ?_⟩) (spares_of_ne_act nofun)
    have hne : k' ≠ k := by
      rintro rfl
      exact hk (Finmap.mem_of_lookup_eq_some hk')
    exact (Finmap.lookup_insert_of_ne _ hne).trans hk'
  | abort k =>
    obtain ⟨phase, σ, -, hs, -⟩ := Program.abort_eq_some.1 h
    exact absurd hs (Option.some_ne_none σ).symm
  | env v =>
    have hstore : t'.shared.store = t.shared.store := step_store h
    obtain ⟨σ, hs, rfl⟩ := Program.env_eq_some.1 h
    refine iff_of_true (hS.mono (now_le h) (fun hash r hr _ => hstore ▸ hr)
      (fun hash r _ hf => hstore ▸ hf) fun _ _ _ hd => hd) (spares_of_ne_act nofun)

/-- The rows are sound throughout a run exactly if all of its steps spare them. -/
theorem always_sound_iff {σ : BlobState} (hp : σ.store.index.Placed B) (hA : Agree B σ)
    {as : List BlobAction} (h : Run.run B.program.poolStep (Pool.idle σ) as = some t) :
    Run.Always B.program.poolStep (Sound B) (Pool.idle σ) as ↔
      Run.Along B.program.poolStep (Spares B) (Pool.idle σ) as :=
  Run.always_iff_along (I := fun t => Checked B t ∧ Placed B t)
    ⟨Pool.holds_idle trivial, Pool.holds_idle hp⟩ (fun hash r hr hexp => .inl (hA hash r hr hexp))
    (fun _ _ _ hI _ _ hstep => ⟨checked_step hI.1 hstep, placed_step hI.1 hI.2 hstep⟩)
    (fun _ _ _ hI hS hstep => sound_step hI.1 hI.2 hS hstep) h

/-- A blob is put, and expires an hour later: its row is collected. -/
def expiring : List BlobAction :=
  .enter 0 (toyPut "pm0a") :: steps 0 6 ++
    [.env (.tick (3600 * nanos)), .enter 1 .collect, .act 1 (), .act 1 ()]

/-- It is put again, before its file is removed. -/
def putAgain : List BlobAction := expiring ++ .enter 2 (toyPut "pm1a") :: steps 2 6 ++ steps 1 2

/-- A simple check: a put finds its file when it writes its row, and when files
    are collected no row has one of them. -/
def sparing (B : BlobNode) (t : BlobPool) : BlobAction → Bool
  | .act k _ =>
    match t.threads.lookup k with
    | some (.putInsert job) =>
      t.shared.store.HasFile B.receiver.crypto (storagePath job.root job.hash) job.hash
    | some (.uploadInsert _) => false
    | some (.collectFiles paths) => t.shared.store.index.rows.all (·.storagePath ∉ paths)
    | _ => true
  | _ => true

theorem spares_of_sparing (h : sparing B t a) : Spares B t a := by
  cases a with
  | act k e =>
    cases hl : t.threads.lookup k with
    | none =>
      refine ⟨fun row now hw => ?_, fun k' e path paths ha hl' => ?_⟩
      · rw [write, hl] at hw
        exact absurd hw.symm (Option.some_ne_none _)
      · obtain ⟨rfl, -⟩ := Pool.Action.act.inj ha
        exact absurd (hl'.symm.trans hl) (Option.some_ne_none _)
    | some phase =>
      rw [sparing, hl] at h
      refine (spares_act_iff hl).2 ⟨fun row now hw => ?_, fun path paths hphase hash r hr => ?_⟩
      · cases phase with
        | putInsert job =>
          obtain ⟨rfl, -⟩ := BlobWrite.upsert.inj (Option.some.inj hw)
          exact .inl (of_decide_eq_true h)
        | uploadInsert job => exact absurd h Bool.false_ne_true
        | collectFiles paths => cases paths <;> cases hw
        | _ => cases hw
      · subst hphase
        rintro - rfl
        have hmem := List.all_eq_true.1 h r (BlobIndex.get_eq_some.1 hr).1
        exact absurd List.mem_cons_self (of_decide_eq_true hmem)
  | _ => exact spares_of_ne_act (by simp)

/-- Another blob is put as the first one is collected. -/
def putBeside : List BlobAction := expiring ++ .enter 2 (toyPut "pm1b") :: steps 2 6 ++ steps 1 2

end BlobPool

end N3ur0n
