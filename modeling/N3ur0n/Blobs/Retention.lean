import N3ur0n.Blobs.Routes

/-!
# Retention

When a put succeeds, its peer is told until when the blob is kept for him. The
row of the blob may be that of another peer, though, be it found unexpired or
written over; and others who store the same bytes set the time anew.

* `BlobPool.put_then_get`: until the time a peer was told, he can get the blob
  exactly if the row he was answered for is one he may read, with a MIME type that
  a response can have, its file was there, and all that is written later leaves it
  there, and for as long.
-/

namespace N3ur0n

namespace BlobState

variable {B : BlobNode} {σ : BlobState} {peer hash : String} {expiresAt : ℤ}

/-- The thread gets the bytes with this hash, when nothing comes in between. -/
def Gets (B : BlobNode) (σ : BlobState) (hash : String) (phase : BlobPhase) (n : ℕ) : Prop :=
  ∃ σ' mime size bytes, B.program.alone 0 σ phase (List.replicate n ()) =
    some (σ', .content mime size hash bytes) ∧ B.receiver.crypto.hashBytes bytes = hash

/-- The peer gets the blob, once his ticket is accepted; and with any ticket to
    get it that is accepted now. -/
def Serves (B : BlobNode) (σ : BlobState) (peer hash : String) : Prop :=
  Gets B σ hash (.getLookup hash peer) 2 ∧ ∀ header nonces signed ticket,
    verifyTicket B σ.nonces header .get hash σ.clock = (nonces, .ok (signed, ticket)) →
      signed.envelope.senderId = peer → Gets B σ hash (.arrived (.get hash header)) 3

/-- The blob is kept until then. -/
def Retains (σ : BlobState) (hash : String) (expiresAt : ℤ) : Prop :=
  ∃ r, σ.store.index.get hash = some r ∧ expiresAt ≤ r.expiresAt

/-- There is a row until then, which the peer may read, and its file; and the MIME
    type of the row can be sent. -/
def Kept (B : BlobNode) (σ : BlobState) (peer hash : String) (expiresAt : ℤ) : Prop :=
  ∃ r, σ.store.index.get hash = some r ∧ getAuthorization r peer = .ok () ∧
    expiresAt ≤ r.expiresAt ∧ B.isHeaderValue r.mime ∧
    σ.store.HasFile B.receiver.crypto r.storagePath hash

theorem gets_getRead {r : BlobRecord} : Gets B σ hash (.getRead r) 1 ↔
    r.hash = hash ∧ B.isHeaderValue r.mime ∧
      σ.store.HasFile B.receiver.crypto r.storagePath hash := by
  simp only [Gets, List.replicate, Program.alone, BlobNode.program, BlobNode.step]
  cases hf : σ.store.files.lookup r.storagePath with
  | none => simp [BlobStore.HasFile, hf]
  | some bytes =>
    by_cases hmime : B.isHeaderValue r.mime
    · simp [BlobStore.HasFile, hf, BlobNode.respond, hmime]
    · simp [BlobNode.respond, hmime]

theorem gets_succ {σ' : BlobState} {phase phase' : BlobPhase} {n : ℕ}
    (h : B.step σ phase = (σ', .inl phase')) :
    Gets B σ hash phase (n + 1) ↔ Gets B σ' hash phase' n := by
  simp only [Gets, List.replicate_succ, Program.alone, BlobNode.program, h]

/-- Once his ticket is accepted, a peer gets the blob if there is a row which he
    may read, unexpired, and its file. -/
theorem gets_getLookup : Gets B σ hash (.getLookup hash peer) 2 ↔
    ∃ r, σ.store.index.get hash = some r ∧ σ.now < r.expiresAt ∧ getAuthorization r peer = .ok () ∧
      B.isHeaderValue r.mime ∧ σ.store.HasFile B.receiver.crypto r.storagePath hash := by
  have hstate : (B.step σ (.getLookup hash peer)).1 = σ := rfl
  constructor
  · intro h
    cases ho : (B.step σ (.getLookup hash peer)).2 with
    | inl phase =>
      have hstep : B.step σ (.getLookup hash peer) = (σ, .inl phase) := Prod.ext hstate ho
      cases BlobNode.leadsTo_of_step ho with
      | authorized hr hexp hauth =>
        exact ⟨_, hr, hexp, hauth, (gets_getRead.1 ((gets_succ hstep).1 h)).2⟩
    | inr response =>
      obtain ⟨σ', mime, size, bytes, ha, -⟩ := h
      have hstep : B.step σ (.getLookup hash peer) = (σ, .inr response) := Prod.ext hstate ho
      simp [List.replicate, Program.alone, BlobNode.program, hstep] at ha
  · rintro ⟨r, hr, hexp, hauth, hmime, hfile⟩
    have hstep : B.step σ (.getLookup hash peer) = (σ, .inl (.getRead r)) := by
      refine Prod.ext hstate (BlobNode.answer_eq_inl.2 (Except.bind_eq_ok.2 ⟨r, ?_⟩))
      exact ⟨Except.elim_eq_ok.2 hr, Except.check_eq_ok.2 ⟨Except.reject_eq_ok.2 (not_le.2 hexp),
        Except.check_eq_ok.2 ⟨hauth, rfl⟩⟩⟩
    exact (gets_succ hstep).2 (gets_getRead.2 ⟨BlobIndex.hash_of_get hr, hmime, hfile⟩)

/-- Before the time he was told, a peer gets the blob, and it is kept, exactly if
    there is such a row for him. -/
theorem serves_iff_kept (hvalid : validateHash hash = .ok ()) (hnow : σ.now < expiresAt) :
    Serves B σ peer hash ∧ Retains σ hash expiresAt ↔ Kept B σ peer hash expiresAt := by
  constructor
  · rintro ⟨⟨hgets, -⟩, r', hr', hkept⟩
    obtain ⟨r, hr, -, hauth, hmime, hfile⟩ := gets_getLookup.1 hgets
    obtain rfl := Option.some.inj (hr.symm.trans hr')
    exact ⟨r, hr, hauth, hkept, hmime, hfile⟩
  · rintro ⟨r, hr, hauth, hkept, hmime, hfile⟩
    have hexp := hnow.trans_le hkept
    refine ⟨⟨gets_getLookup.2 ⟨r, hr, hexp, hauth, hmime, hfile⟩,
      fun header nonces signed ticket ht hpeer => ?_⟩, r, hr, hkept⟩
    have hstep : B.step σ (.arrived (.get hash header)) =
        ({ σ with nonces := nonces }, .inl (.getLookup hash peer)) := by
      simp only [BlobNode.step, BlobNode.arrive, BlobNode.accept, hvalid, ht, ← hpeer, answer]
    exact (gets_succ hstep).2 (gets_getLookup.2 ⟨r, hr, hexp, hauth, hmime, hfile⟩)

end BlobState

/-- What is written of a blob: its row is kept as long, with a MIME type that can be
    sent, and its file at its path; which is not removed, nor overwritten by other
    bytes. -/
def BlobWrite.Keeps (B : BlobNode) (store : BlobStore) (hash : String) (expiresAt : ℤ) :
    BlobWrite → Prop
  | .upsert row _ => row.hash = hash → expiresAt ≤ row.expiresAt ∧ B.isHeaderValue row.mime ∧
    store.HasFile B.receiver.crypto row.storagePath hash
  | .writeFile path bytes => ∀ r, store.index.get hash = some r → r.storagePath = path →
    B.receiver.crypto.hashBytes bytes = hash
  | .removeFile path => ∀ r, store.index.get hash = some r → r.storagePath ≠ path
  | .delete _ | .deleteExpired _ => True

namespace BlobState

variable {B : BlobNode} {σ : BlobState} {peer hash : String} {expiresAt : ℤ}

theorem kept_iff {r : BlobRecord} (hr : σ.store.index.get hash = some r) :
    Kept B σ peer hash expiresAt ↔ getAuthorization r peer = .ok () ∧ expiresAt ≤ r.expiresAt ∧
      B.isHeaderValue r.mime ∧ σ.store.HasFile B.receiver.crypto r.storagePath hash := by
  simp only [Kept, hr, Option.some.injEq, exists_eq_left']

theorem kept_congr {σ' : BlobState} (h : σ.store = σ'.store) :
    Kept B σ peer hash expiresAt ↔ Kept B σ' peer hash expiresAt := by
  rw [Kept, Kept, h]

/-- A row is kept by a write exactly if the write keeps it, and does not delete
    it; one that is to be kept longer does not expire. -/
theorem kept_write_iff {w : BlobWrite} (h : Kept B σ peer hash expiresAt)
    (hnow : ∀ now, w = .deleteExpired now → now < expiresAt) :
    Kept B (σ.write w) peer hash expiresAt ↔
      w.Keeps B σ.store hash expiresAt ∧ w ≠ .delete hash := by
  obtain ⟨r, hr, hauth, hkept, hmime, hfile⟩ := h
  cases w with
  | upsert row now =>
    have hne : BlobWrite.upsert row now ≠ .delete hash := by simp
    rw [BlobWrite.Keeps, and_iff_left hne]
    by_cases hrow : row.hash = hash
    · subst hrow
      -- The row that is there is renewed, so that he may still read it.
      have hget : (σ.write (.upsert row now)).store.index.get row.hash = some (r.renew row) := by
        rw [write, BlobStore.write, BlobIndex.get_upsert, if_pos rfl, BlobIndex.upserted, hr]
      rw [kept_iff hget]
      exact ⟨fun h _ => h.2, fun h => ⟨hauth, h rfl⟩⟩
    · have hget : (σ.write (.upsert row now)).store.index.get hash = some r := by
        rw [write, BlobStore.write, BlobIndex.get_upsert, if_neg (Ne.symm hrow), hr]
      rw [kept_iff hget]
      exact iff_of_true ⟨hauth, hkept, hmime, hfile⟩ fun h => absurd h hrow
  | delete hash' =>
    rw [BlobWrite.Keeps, true_and]
    by_cases hh : hash = hash'
    · subst hh
      refine iff_of_false ?_ (not_not.2 rfl)
      rintro ⟨r', hr', -⟩
      rw [write, BlobStore.write, BlobIndex.get_delete, if_pos rfl] at hr'
      cases hr'
    · have hget : (σ.write (.delete hash')).store.index.get hash = some r := by
        rw [write, BlobStore.write, BlobIndex.get_delete, if_neg hh, hr]
      rw [kept_iff hget]
      exact iff_of_true ⟨hauth, hkept, hmime, hfile⟩ fun h => hh (BlobWrite.delete.inj h).symm
  | deleteExpired now =>
    have hexp : now < r.expiresAt := (hnow now rfl).trans_le hkept
    have hget : (σ.write (.deleteExpired now)).store.index.get hash = some r := by
      rw [write, BlobStore.write, BlobIndex.get_deleteExpired, hr]
      simp [hexp]
    rw [kept_iff hget]
    exact iff_of_true ⟨hauth, hkept, hmime, hfile⟩ ⟨trivial, by simp⟩
  | writeFile path bytes =>
    have hget : (σ.write (.writeFile path bytes)).store.index.get hash = some r := hr
    have hne : BlobWrite.writeFile path bytes ≠ .delete hash := by simp
    rw [kept_iff hget, write, BlobStore.hasFile_writeFile, and_iff_left hne]
    simp only [BlobWrite.Keeps, hr, Option.some.injEq, forall_eq']
    by_cases hp : r.storagePath = path
    · simp [hp, hauth, hkept, hmime]
    · rw [if_neg hp]
      exact iff_of_true ⟨hauth, hkept, hmime, hfile⟩ fun h => absurd h hp
  | removeFile path =>
    have hget : (σ.write (.removeFile path)).store.index.get hash = some r := hr
    have hne : BlobWrite.removeFile path ≠ .delete hash := by simp
    rw [kept_iff hget, write, BlobStore.hasFile_removeFile, and_iff_left hne]
    simp only [BlobWrite.Keeps, hr, Option.some.injEq, forall_eq']
    exact ⟨fun h => h.2.2.2.1, fun hp => ⟨hauth, hkept, hmime, hp, hfile⟩⟩

end BlobState

namespace BlobPool

variable {B : BlobNode} {t t' : BlobPool} {a : BlobAction} {k : ℕ} {peer hash : String}
  {expiresAt : ℤ}

/-- A deletion of the blob takes a step. -/
def Deletes (hash : String) (t : BlobPool) (a : BlobAction) : Prop :=
  ∃ k e, a = .act k e ∧ (t.threads.lookup k = some (.deleteRow hash) ∨
    ∃ path, t.threads.lookup k = some (.removeFile path hash))

/-- Until then, what is written keeps the blob. -/
def Keeps (B : BlobNode) (hash : String) (expiresAt : ℤ) (t : BlobPool) (a : BlobAction) : Prop :=
  t.shared.now < expiresAt → ∀ w, write B t a = some w →
    w.Keeps B t.shared.store hash expiresAt

/-- Until then, the peer gets the blob, and it is kept. -/
def Promised (B : BlobNode) (peer hash : String) (expiresAt : ℤ) (t : BlobPool) : Prop :=
  t.shared.now < expiresAt →
    BlobState.Serves B t.shared peer hash ∧ BlobState.Retains t.shared hash expiresAt

/-- By its next step, the request answers the peer that the blob is stored. -/
def Answers (B : BlobNode) (t : BlobPool) (k : ℕ) (peer hash : String) (expiresAt : ℤ) : Prop :=
  ∃ phase status size, t.threads.lookup k = some phase ∧ phase.uploader = some peer ∧
    (B.step t.shared phase).2 = .inr (.stored status hash size expiresAt)

/-- The request is about to answer for a row the peer may read, with its file and a
    MIME type that can be sent: the one that is there, or the one he writes if there
    is none. -/
def Grants (B : BlobNode) (t : BlobPool) (k : ℕ) : Prop :=
  match t.threads.lookup k with
  | some (.putLookup job) => ∀ r, t.shared.store.index.get job.hash = some r →
    getAuthorization r job.uploader = .ok () ∧ B.isHeaderValue r.mime ∧
      t.shared.store.HasFile B.receiver.crypto r.storagePath job.hash
  | some (.putInsert job) => (∀ r, t.shared.store.index.get job.hash = some r →
    getAuthorization r job.uploader = .ok ()) ∧ B.isHeaderValue job.mime ∧
      t.shared.store.HasFile B.receiver.crypto (storagePath job.root job.hash) job.hash
  | _ => True

theorem promised_iff_kept (hvalid : validateHash hash = .ok ()) (hnow : t.shared.now < expiresAt) :
    Promised B peer hash expiresAt t ↔ BlobState.Kept B t.shared peer hash expiresAt :=
  (forall_prop_of_true hnow).trans (BlobState.serves_iff_kept hvalid hnow)

/-- An action keeps the promise exactly if what it writes keeps the blob, and
    does not delete its row. -/
theorem promised_step (hc : Checked B t) (hvalid : validateHash hash = .ok ())
    (hP : Promised B peer hash expiresAt t) (h : B.program.poolStep t a = some t') :
    Promised B peer hash expiresAt t' ↔ Keeps B hash expiresAt t a ∧
      (t.shared.now < expiresAt → write B t a ≠ some (.delete hash)) := by
  by_cases hnow : t.shared.now < expiresAt
  · have hkept := (promised_iff_kept hvalid hnow).1 hP
    have hstore := step_store h
    cases hw : write B t a with
    | none =>
      rw [hw] at hstore
      refine iff_of_true (fun hnow' => ?_) ⟨fun _ w h => ?_, fun _ => nofun⟩
      · have hstore : t'.shared.store = t.shared.store := hstore
        exact (BlobState.serves_iff_kept hvalid hnow').2 ((BlobState.kept_congr hstore).2 hkept)
      · cases hw.symm.trans h
    | some w =>
      rw [hw] at hstore
      have hstore : t'.shared.store = (t.shared.write w).store := hstore
      have hnow' : t'.shared.now < expiresAt := (now_of_write h hw).trans_lt hnow
      rw [promised_iff_kept hvalid hnow', BlobState.kept_congr hstore,
        BlobState.kept_write_iff hkept fun now hd => ?_]
      · simp [Keeps, hw, hnow]
      · subst hd
        exact (reading_le hc hw).trans_lt hnow
  · refine iff_of_true (fun hnow' => absurd ((now_le h).trans_lt hnow') hnow)
      ⟨fun h => absurd h hnow, fun h => absurd h hnow⟩

/-- The hash of a put was valid. -/
theorem valid_of_answers (hc : Checked B t) (h : Answers B t k peer hash expiresAt) :
    validateHash hash = .ok () := by
  obtain ⟨phase, status, size, hl, -, hstored⟩ := h
  rcases BlobNode.stored_of_step hstored with ⟨job, r, rfl, rfl, -⟩ | ⟨job, rfl, rfl, -⟩
  · exact (hc.2 k _ hl).1
  · exact (hc.2 k _ hl).1.1

theorem getAuthorization_renew {r : BlobRecord} {row : BlobInsert} {sender : String} :
    getAuthorization (r.renew row) sender = getAuthorization r sender := rfl

/-- The peer may read the row he writes, unless it is that of another. -/
theorem getAuthorization_upserted {idx : BlobIndex} {job : PutJob} {now : ℤ} :
    getAuthorization (idx.upserted (job.row now) now) job.uploader = .ok () ↔
      ∀ r, idx.get job.hash = some r → getAuthorization r job.uploader = .ok () := by
  have hrow : (job.row now).hash = job.hash := rfl
  rw [BlobIndex.upserted, hrow]
  cases hr : idx.get job.hash with
  | none =>
    refine iff_of_true (Except.reject_eq_ok.2 (not_not.2 (.inl rfl))) fun r h => ?_
    exact absurd h (Option.some_ne_none r).symm
  | some r => simp only [Option.some.injEq, forall_eq', getAuthorization_renew]

/-- When it is answered, the promise holds exactly if it is granted. -/
theorem promised_iff_grants (hc : Checked B t) (h : Answers B t k peer hash expiresAt)
    (hact : B.program.poolStep t (.act k ()) = some t') :
    Promised B peer hash expiresAt t' ↔ Grants B t k := by
  have hvalid := valid_of_answers hc h
  have hnow := (step_clock hact).1
  have hstore := step_store hact
  obtain ⟨phase, status, size, hl, hup, hstored⟩ := h
  rcases BlobNode.stored_of_step hstored with ⟨job, r, rfl, rfl, hr, hexp, rfl⟩ |
    ⟨job, rfl, rfl, rfl⟩
  · obtain rfl := Option.some.inj hup
    have hstore : t'.shared.store = t.shared.store := by
      rw [hstore, write, hl]
      rfl
    have hnow : t'.shared.now = t.shared.now := congrArg unixTimestamp hnow
    rw [promised_iff_kept hvalid (hnow ▸ hexp), BlobState.kept_congr hstore, BlobState.kept_iff hr,
      Grants, hl]
    simp [hr]
  · obtain rfl := Option.some.inj hup
    have hw : write B t (.act k ()) = some (.upsert (job.row t.shared.now) t.shared.now) := by
      rw [write, hl]
      rfl
    have hnow := now_of_write hact hw
    rw [hw] at hstore
    have hget : t'.shared.store.index.get job.hash =
        some (t.shared.store.index.upserted (job.row t.shared.now) t.shared.now) := by
      rw [hstore]
      exact BlobIndex.get_upsert.trans (if_pos rfl)
    have hfiles : t'.shared.store.files = t.shared.store.files := by rw [hstore]; rfl
    rw [promised_iff_kept hvalid (hnow.trans_lt (lt_effectiveExpires _ _)),
      BlobState.kept_iff hget, getAuthorization_upserted, BlobIndex.upserted_expiresAt,
      BlobIndex.upserted_mime, BlobIndex.upserted_storagePath, BlobStore.HasFile, hfiles, Grants,
      hl]
    exact and_congr_right fun _ => and_iff_right le_rfl

/-- A run keeps the promise throughout exactly if it held at the start, and what
    is written keeps the blob, unless that is deleted. -/
theorem always_promised (hc : Checked B t) (hvalid : validateHash hash = .ok ())
    {as : List BlobAction} (h : Run.run B.program.poolStep t as = some t')
    (hdel : Run.Along B.program.poolStep (fun u a => ¬Deletes hash u a) t as) :
    Run.Always B.program.poolStep (Promised B peer hash expiresAt) t as ↔
      Promised B peer hash expiresAt t ∧
        Run.Along B.program.poolStep (Keeps B hash expiresAt) t as := by
  have hkeep (hP : Promised B peer hash expiresAt t) :
      Run.Always B.program.poolStep (Promised B peer hash expiresAt) t as ↔
        Run.Along B.program.poolStep (fun u a => Keeps B hash expiresAt u a ∧
          (u.shared.now < expiresAt → write B u a ≠ some (.delete hash))) t as :=
    Run.always_iff_along (I := Checked B) hc hP (fun _ _ _ hc _ _ => checked_step hc)
      (fun _ _ _ hc hP => promised_step hc hvalid hP) h
  constructor
  · intro hA
    have hP : Promised B peer hash expiresAt t := hA [] t (List.nil_prefix) rfl
    exact ⟨hP, ((hkeep hP).1 hA).imp fun _ _ _ => And.left⟩
  · rintro ⟨hP, hQ⟩
    refine (hkeep hP).2 ((Run.along_and.2 ⟨hQ, hdel⟩).imp fun u a _ hu => ⟨hu.1, fun _ hw => ?_⟩)
    -- The row is deleted by a deletion only.
    refine hu.2 ?_
    cases a with
    | act k e =>
      obtain ⟨phase, hl, hw⟩ := Option.bind_eq_some_iff.1 hw
      cases phase with
      | deleteRow hash' =>
        obtain rfl := BlobWrite.delete.inj (Option.some.inj hw)
        exact ⟨k, e, rfl, .inl hl⟩
      | collectFiles paths => cases paths <;> cases hw
      | _ => cases hw
    | _ => cases hw

/-- The peers `n3:m` and then `n3:q` put the same byte. -/
def twoPeers : List BlobAction :=
  .enter 0 (toyPut "pm0a") :: steps 0 6 ++ .enter 1 (toyPut "pq0a") :: steps 1 1

end BlobPool

end N3ur0n
