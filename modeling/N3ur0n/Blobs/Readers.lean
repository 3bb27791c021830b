import N3ur0n.Blobs.Outputs

/-!
# Who reads a blob

Peers who put the same bytes share a row, and so do the users and the node
itself: whoever comes later finds the row of the first. To which peers a blob is
given is said by the uploader of its row and by his whitelist; both are written
when the row is inserted, from one ticket, and none of the statements that
write the row afterwards touches them.

* `BlobNode.invokingProgram`: the steps of the requests, with the writes by
  which the node sends blobs to peers and stores their results around them;
* `BlobPool.created_run`: every row in the index was inserted at some point of
  the run, and has kept its uploader and his whitelist since;
* `BlobPool.get_confidential`: whom the bytes of a blob are given to.
-/

namespace N3ur0n

/-- A statement of the database, or an operation on a file, by which the node
    sends blobs to peers and stores their results. -/
inductive InvokerWrite
  | markOutbound (hash : String) (expiresAt : ℤ)
  | insertOutbound (now : ℤ) (hash : String) (size : ℕ) (mime path : String)
      (localUserId : Option ℤ) (clientId : Option String)
  | markInboundOutput (hash : String) (name : Option String) (expiresAt : ℤ)
  | insertInbound (now : ℤ) (br : BlobRef) (path capability : String) (owner : BlobOwner)
  | writeFile (path : String) (bytes : Bytes)

namespace Invoker

variable (N : Invoker)

def write (store : BlobStore) : InvokerWrite → BlobStore
  | .markOutbound hash expiresAt =>
    { store with index := (store.index.markOutbound hash expiresAt).1 }
  | .insertOutbound now hash size mime path localUserId clientId => { store with
      index := store.index.upsert
        (N.outboundInsert now hash size mime path localUserId clientId) now }
  | .markInboundOutput hash name expiresAt =>
    { store with index := (store.index.markInboundOutput hash name expiresAt).1 }
  | .insertInbound now br path capability owner =>
    { store with index := store.index.upsert (N.inboundInsert now br path capability owner) now }
  | .writeFile path bytes => { store with files := store.files.insert path bytes }

variable {N} {store store' : BlobStore} {br : BlobRef} {now : ℤ}

/-- A blob is sent by such writes. -/
theorem write_sendRef {uploaded : Except String Unit}
    (h : N.sendRef store br now uploaded = .ok store') :
    ∃ ws : List InvokerWrite, ws.foldl N.write store = store' := by
  rw [sendRef] at h
  split at h
  · cases h
  · obtain ⟨-, -, h⟩ := Except.bind_eq_ok.1 h
    split at h
    · exact ⟨[], Except.ok.inj h⟩
    · next root _ =>
      obtain rfl := Except.ok.inj h
      rw [recordOutboundUpload]
      split
      · exact ⟨[.markOutbound br.hash (now + defaultTtlSecs .input)], rfl⟩
      · exact ⟨[.insertOutbound now br.hash br.size br.mime (storagePath root br.hash) none none],
          rfl⟩

/-- A result is stored by such writes. -/
theorem write_fetchRef {capability : String} {owner : BlobOwner} {downloaded : Except String Bytes}
    (h : N.fetchRef capability owner store br now downloaded = .ok store') :
    ∃ ws : List InvokerWrite, ws.foldl N.write store = store' := by
  cases hlocal : N.readLocalBytes store br.hash with
  | some bytes =>
    rw [fetchRef_local (Option.isSome_of_eq_some hlocal)] at h
    exact ⟨[.markInboundOutput br.hash (br.name.bind sanitizeBlobPath)
      (now + defaultTtlSecs .output)], Except.ok.inj h⟩
  | none =>
    obtain ⟨root, bytes, -, -, -, rfl⟩ := (fetchRef_remote hlocal).1 h
    exact ⟨[.writeFile (storagePath root br.hash) bytes,
      .insertInbound now br (storagePath root br.hash) capability owner], rfl⟩

end Invoker

/-- How requests are served by a node that invokes capabilities of others. -/
def BlobNode.invokingProgram (B : BlobNode) (N : Invoker) :
    Program BlobState BlobRequest BlobPhase Unit BlobResponse (BlobEvent ⊕ InvokerWrite) where
  enter := .arrived
  step σ _ phase _ := some (B.step σ phase)
  abort _ _ _ := none
  env σ
    | .inl v => B.env σ v
    | .inr w => some { σ with store := N.write σ.store w }

abbrev InvokingAction := Pool.Action BlobRequest Unit (BlobEvent ⊕ InvokerWrite)

/-! ## What the writes do to a row -/

/-- The rows say the same of who may read the blob. -/
structure BlobRecord.SameReaders (r' r : BlobRecord) : Prop where
  uploaderId : r'.uploaderId = r.uploaderId
  recipientsWhitelist : r'.recipientsWhitelist = r.recipientsWhitelist

theorem BlobRecord.SameReaders.refl (r : BlobRecord) : r.SameReaders r := ⟨rfl, rfl⟩

theorem BlobRecord.SameReaders.trans {r r' r'' : BlobRecord} (h : r''.SameReaders r')
    (h' : r'.SameReaders r) : r''.SameReaders r :=
  ⟨h.uploaderId.trans h'.uploaderId, h.recipientsWhitelist.trans h'.recipientsWhitelist⟩

namespace BlobIndex

variable {idx : BlobIndex} {hash : String} {r' : BlobRecord}

/-- After a write, the row is there as before, up to columns that do not say who
    may read it, or is the one inserted. -/
def KeepsReaders (idx idx' : BlobIndex) (inserted : Option BlobRecord) : Prop :=
  ∀ hash r', idx'.get hash = some r' →
    (∃ r, idx.get hash = some r ∧ r'.SameReaders r) ∨
      idx.get hash = none ∧ inserted = some r' ∧ r'.hash = hash

theorem keepsReaders_refl {inserted : Option BlobRecord} : idx.KeepsReaders idx inserted :=
  fun _ r' h => .inl ⟨r', h, .refl r'⟩

theorem keepsReaders_upsert {row : BlobInsert} {now : ℤ} :
    idx.KeepsReaders (idx.upsert row now) (some ⟨row, now⟩) := by
  intro hash r' h
  rw [get_upsert] at h
  split at h
  · next hhash =>
    obtain rfl := Option.some.inj h
    rw [upserted, ← hhash]
    cases idx.get hash with
    | none => exact .inr ⟨rfl, rfl, hhash.symm⟩
    | some r => exact .inl ⟨r, rfl, rfl, rfl⟩
  · exact .inl ⟨r', h, .refl r'⟩

theorem keepsReaders_delete {hash : String} {inserted : Option BlobRecord} :
    idx.KeepsReaders (idx.delete hash) inserted := by
  intro hash' r' h
  rw [get_delete] at h
  split at h
  · cases h
  · exact .inl ⟨r', h, .refl r'⟩

theorem keepsReaders_deleteExpired {now : ℤ} {inserted : Option BlobRecord} :
    idx.KeepsReaders (idx.deleteExpired now) inserted := by
  intro hash r' h
  rw [get_deleteExpired] at h
  exact .inl ⟨r', (Option.filter_eq_some_iff.1 h).1, .refl r'⟩

theorem keepsReaders_markOutbound {hash : String} {expiresAt : ℤ} {inserted : Option BlobRecord} :
    idx.KeepsReaders (idx.markOutbound hash expiresAt).1 inserted := by
  intro hash' r' h
  rw [get_markOutbound] at h
  obtain ⟨r, hr, rfl⟩ := Option.map_eq_some_iff.1 h
  refine .inl ⟨r, hr, ?_⟩
  split
  · exact ⟨rfl, rfl⟩
  · exact .refl r

theorem keepsReaders_markInboundOutput {hash : String} {name : Option String} {expiresAt : ℤ}
    {inserted : Option BlobRecord} :
    idx.KeepsReaders (idx.markInboundOutput hash name expiresAt).1 inserted := by
  intro hash' r' h
  rw [get_markInboundOutput] at h
  obtain ⟨r, hr, rfl⟩ := Option.map_eq_some_iff.1 h
  refine .inl ⟨r, hr, ?_⟩
  split
  · exact ⟨rfl, rfl⟩
  · exact .refl r

end BlobIndex

/-! ## Where rows and readers come from -/

/-- A ticket of this sender was accepted, for the operation on the blob. -/
def BlobNode.Accepted (B : BlobNode) (op : BlobOperation) (hash sender : String)
    (ticket : BlobTicketPayload) : Prop :=
  ∃ nonces header clock nonces' signed,
    verifyTicket B nonces header op hash clock = (nonces', .ok (signed, ticket)) ∧
      signed.envelope.senderId = sender

/-- A put was accepted by the ticket of its uploader, and a get by one of its
    sender. -/
def BlobPhase.Ticketed (B : BlobNode) : BlobPhase → Prop
  | .putLookup job | .putSum job | .putCount job _ | .putWrite job | .putInsert job =>
    B.Accepted .put job.hash job.uploader job.ticket
  | .getLookup hash sender => ∃ ticket, B.Accepted .get hash sender ticket
  | _ => True

namespace BlobNode

variable {B : BlobNode} {σ : BlobState}

theorem ticket_of_putJob {root hash : String} {body : Bytes} {signed : SignedMessage}
    {ticket : BlobTicketPayload} {job : PutJob}
    (h : B.putJob root hash body signed ticket = .ok job) : job.ticket = ticket := by
  obtain ⟨cap, -, h⟩ := Except.bind_eq_ok.1 h
  obtain ⟨size, -, h⟩ := Except.bind_eq_ok.1 h
  obtain ⟨mime, -, h⟩ := Except.bind_eq_ok.1 h
  obtain ⟨-, h⟩ := Except.check_eq_ok.1 h
  obtain rfl := Except.ok.inj h
  rfl

theorem LeadsTo.ticketed {phase phase' : BlobPhase} (h : LeadsTo B σ phase phase')
    (ht : phase.Ticketed B) : phase'.Ticketed B := by
  cases h with
  | put _ _ hv hjob =>
    obtain ⟨-, rfl, hsender⟩ := putJob_ok hjob
    obtain rfl := ticket_of_putJob hjob
    exact ⟨_, _, _, _, _, hv, hsender.symm⟩
  | get _ hv => exact ⟨_, _, _, _, _, _, hv, rfl⟩
  | missed | summed _ | counted _ | written => exact ht
  | _ => trivial

end BlobNode

namespace BlobPool

variable {B : BlobNode} {N : Invoker} {σ : BlobState} {t t' : BlobPool} {a : InvokingAction}
  {as : List InvokingAction}

variable (B N) in
/-- The row that an action inserts, unless there is one under its hash. -/
def inserted (t : BlobPool) : InvokingAction → Option BlobRecord
  | .act k _ => (t.threads.lookup k).bind fun phase =>
    match phase.write B.receiver.crypto t.shared.now with
    | some (.upsert row now) => some ⟨row, now⟩
    | _ => none
  | .env (.inr (.insertOutbound now hash size mime path localUserId clientId)) =>
    some ⟨N.outboundInsert now hash size mime path localUserId clientId, now⟩
  | .env (.inr (.insertInbound now br path capability owner)) =>
    some ⟨N.inboundInsert now br path capability owner, now⟩
  | _ => none

/-- An action keeps the rows, up to columns that do not say who may read the
    blob, or inserts one. -/
theorem keepsReaders_step (h : (B.invokingProgram N).poolStep t a = some t') :
    t.shared.store.index.KeepsReaders t'.shared.store.index (inserted B N t a) := by
  cases a with
  | enter k q =>
    obtain ⟨-, rfl⟩ := Program.enter_eq_some.1 h
    exact BlobIndex.keepsReaders_refl
  | act k e =>
    obtain ⟨phase, σ, o, hl, hs, rfl⟩ := Program.act_eq_some.1 h
    obtain rfl : (B.step t.shared phase).1 = σ := congrArg Prod.fst (Option.some.inj hs)
    rw [Pool.settle_shared, (BlobNode.step_state phase).2, inserted, hl, Option.bind_some]
    cases hw : phase.write B.receiver.crypto t.shared.now with
    | none => exact BlobIndex.keepsReaders_refl
    | some w =>
      cases w with
      | upsert row now => exact BlobIndex.keepsReaders_upsert
      | delete hash => exact BlobIndex.keepsReaders_delete
      | deleteExpired now => exact BlobIndex.keepsReaders_deleteExpired
      | _ => exact BlobIndex.keepsReaders_refl
  | abort k =>
    obtain ⟨phase, σ, -, hs, -⟩ := Program.abort_eq_some.1 h
    exact absurd hs (Option.some_ne_none σ).symm
  | env v =>
    obtain ⟨σ, hs, rfl⟩ := Program.env_eq_some.1 h
    cases v with
    | inl v =>
      have hs : B.env t.shared v = some σ := hs
      -- messages and the clock leave the store
      have hstore : σ.store = t.shared.store := by
        cases v with
        | message msg => rw [← Option.some.inj hs]
        | _ =>
          rw [BlobNode.env, Option.ite_none_right_eq_some] at hs
          rw [← Option.some.inj hs.2]
      rw [hstore]
      exact BlobIndex.keepsReaders_refl
    | inr w =>
      obtain rfl := Option.some.inj hs
      cases w with
      | markOutbound hash expiresAt => exact BlobIndex.keepsReaders_markOutbound
      | insertOutbound => exact BlobIndex.keepsReaders_upsert
      | markInboundOutput hash name expiresAt => exact BlobIndex.keepsReaders_markInboundOutput
      | insertInbound => exact BlobIndex.keepsReaders_upsert
      | writeFile path bytes => exact BlobIndex.keepsReaders_refl

/-- Where a request comes from that stands in a phase after an action. -/
theorem phase_step {k : ℕ} {phase : BlobPhase} (h : (B.invokingProgram N).poolStep t a = some t')
    (hl : t'.threads.lookup k = some phase) :
    (t.threads.lookup k = some phase ∧ a ≠ .act k ()) ∨ (∃ req, phase = .arrived req) ∨
      ∃ phase', a = .act k () ∧ t.threads.lookup k = some phase' ∧
        BlobNode.LeadsTo B t.shared phase' phase := by
  rcases Program.lookup_step h hl with ⟨hl, ha⟩ | ⟨q, -, rfl⟩ | ⟨e, phase', s, rfl, hl', hs⟩
  · refine .inl ⟨hl, ?_⟩
    rintro rfl
    exact absurd ha (ne_false_of_eq_true (decide_eq_true rfl))
  · exact .inr (.inl ⟨q, rfl⟩)
  · have hs : B.step t.shared phase' = (s, .inl phase) := Option.some.inj hs
    exact .inr (.inr ⟨phase', rfl, hl', BlobNode.leadsTo_of_step (by rw [hs])⟩)

theorem ticketed_run (h : Run.run (B.invokingProgram N).poolStep (Pool.idle σ) as = some t) :
    ∀ k phase, t.threads.lookup k = some phase → phase.Ticketed B := by
  refine Run.run_invariant (I := fun t : BlobPool =>
    ∀ k phase, t.threads.lookup k = some phase → phase.Ticketed B) ?_ ?_ h
  · intro t a t' ih hstep k phase hl
    rcases phase_step hstep hl with ⟨hl, -⟩ | ⟨req, rfl⟩ | ⟨phase', -, hl', hleads⟩
    · exact ih k phase hl
    · trivial
    · exact hleads.ticketed (ih k phase' hl')
  · intro k phase hl
    exact absurd ((Finmap.lookup_empty k).symm.trans hl) (Option.some_ne_none phase).symm

/-- A row with a whitelist is inserted for the uploader whose ticket has it. -/
theorem inserted_whitelist (ht : ∀ k phase, t.threads.lookup k = some phase → phase.Ticketed B)
    {r : BlobRecord} {ids : List String} (h : inserted B N t a = some r)
    (hids : r.recipientsWhitelist = some ids) : ∃ uploader ticket,
      r.uploaderId = some uploader ∧ B.Accepted .put r.hash uploader ticket ∧
        ticket.recipientsWhitelist = some ids := by
  cases a with
  | act k e =>
    obtain ⟨phase, hl, h⟩ := Option.bind_eq_some_iff.1 h
    cases phase with
    | putInsert job =>
      obtain rfl := Option.some.inj h
      exact ⟨job.uploader, job.ticket, rfl, ht k _ hl, hids⟩
    | uploadInsert job =>
      obtain rfl := Option.some.inj h
      cases hids
    | collectFiles paths => cases paths <;> cases h
    | _ => cases h
  | env v =>
    cases v with
    | inl v => cases h
    | inr w =>
      cases w with
      | insertOutbound | insertInbound =>
        obtain rfl := Option.some.inj h
        cases hids
      | _ => cases h
  | enter k q => cases h
  | abort k => cases h

variable (B N σ) in
/-- The row was inserted in the run, by an action that found none under its hash,
    and there has been one there since. -/
def CreatedBy (as : List InvokingAction) (r : BlobRecord) : Prop :=
  ∃ bs a cs t t', as = bs ++ a :: cs ∧
    Run.run (B.invokingProgram N).poolStep (Pool.idle σ) bs = some t ∧
    inserted B N t a = some r ∧ t.shared.store.index.get r.hash = none ∧
    (B.invokingProgram N).poolStep t a = some t' ∧
    Run.Always (B.invokingProgram N).poolStep
      (fun t => (t.shared.store.index.get r.hash).isSome) t' cs

theorem CreatedBy.snoc {r : BlobRecord} (h : CreatedBy B N σ as r)
    (hrun : Run.run (B.invokingProgram N).poolStep (Pool.idle σ) as = some t)
    (hstep : (B.invokingProgram N).poolStep t a = some t')
    (hthere : (t'.shared.store.index.get r.hash).isSome) : CreatedBy B N σ (as ++ [a]) r := by
  obtain ⟨bs, b, cs, u, u', rfl, hu, hins, hnone, hub, halways⟩ := h
  rw [Run.run_append, hu, Option.bind_some, Run.run, hub, Option.bind_some] at hrun
  exact ⟨bs, b, cs ++ [a], u, u', by rw [List.append_assoc, List.cons_append], hu, hins, hnone, hub,
    (Run.always_snoc hrun hstep).2 ⟨halways, hthere⟩⟩

/-- Every row was inserted in the run, with its uploader and his whitelist, and
    has been there since. -/
theorem created_run (hempty : σ.store.index = .empty)
    (h : Run.run (B.invokingProgram N).poolStep (Pool.idle σ) as = some t) {hash : String}
    {r : BlobRecord} (hr : t.shared.store.index.get hash = some r) :
    ∃ r₀, r₀.hash = hash ∧ CreatedBy B N σ as r₀ ∧ r.SameReaders r₀ := by
  induction as using List.reverseRecOn generalizing t r with
  | nil =>
    obtain rfl := Option.some.inj h
    rw [Pool.idle, hempty] at hr
    cases hr
  | append_singleton as a ih =>
    obtain ⟨u, hu, hstep⟩ := Run.run_snoc.1 h
    rcases keepsReaders_step hstep hash r hr with ⟨r', hr', hsame⟩ | ⟨hnone, hins, rfl⟩
    · obtain ⟨r₀, rfl, hcreated, hsame'⟩ := ih hu hr'
      exact ⟨r₀, rfl, hcreated.snoc hu hstep (Option.isSome_of_eq_some hr), hsame.trans hsame'⟩
    · refine ⟨r, rfl, ⟨as, a, [], u, t, rfl, hu, hins, hnone, hstep, fun bs t' hp ht' => ?_⟩,
        .refl r⟩
      obtain rfl := List.prefix_nil.1 hp
      obtain rfl := Option.some.inj ht'
      exact Option.isSome_of_eq_some hr

/-- Only a request that reads the file of a row answers with bytes. -/
theorem content_of_step {phase : BlobPhase} {σ : BlobState} {mime hash : String} {size : ℕ}
    {bytes : Bytes} (h : (B.step σ phase).2 = .inr (.content mime size hash bytes)) :
    ∃ r, phase = .getRead r ∧ r.hash = hash := by
  have herror {x : Except HttpError BlobPhase}
      (hx : answer x = .inr (.content mime size hash bytes)) : False := by
    obtain ⟨e, he⟩ := BlobNode.answer_eq_inr hx
    cases he
  cases phase with
  | arrived req =>
    rcases BlobNode.arrive_eq_inr h with ⟨e, h⟩ | ⟨mime, size, h⟩ | h
    · cases h
    · cases h
    · cases h
  | putLookup job =>
    rw [BlobNode.step] at h
    split at h
    · cases h
    · exact (herror h).elim
  | getRead r =>
    rw [BlobNode.step] at h
    split at h
    · cases h
    · rcases BlobNode.respond_eq (Sum.inr.inj h) with ⟨e, he⟩ | ⟨-, he⟩
      · cases he
      · obtain ⟨-, -, rfl, -⟩ := BlobResponse.content.inj he
        exact ⟨r, rfl, rfl⟩
  | collectFiles paths => cases paths <;> cases h
  | putSum job | putCount job now | getLookup hash sender | deleteLookup hash sender =>
    exact (herror h).elim
  | _ => cases h

/-- A request that reads the file of a row has looked it up, as its sender, in a
    state of the run in which it was authorized; it has not moved since. -/
theorem looked_up (h : Run.run (B.invokingProgram N).poolStep (Pool.idle σ) as = some t) {k : ℕ}
    {r : BlobRecord} (hl : t.threads.lookup k = some (.getRead r)) :
    ∃ bs cs u hash sender, as = bs ++ .act k () :: cs ∧ (.act k () : InvokingAction) ∉ cs ∧
      Run.run (B.invokingProgram N).poolStep (Pool.idle σ) bs = some u ∧
      u.threads.lookup k = some (.getLookup hash sender) ∧
      u.shared.store.index.get hash = some r ∧ getAuthorization r sender = .ok () := by
  induction as using List.reverseRecOn generalizing t with
  | nil =>
    obtain rfl := Option.some.inj h
    exact absurd ((Finmap.lookup_empty k).symm.trans hl) (Option.some_ne_none _).symm
  | append_singleton as a ih =>
    obtain ⟨v, hv, hstep⟩ := Run.run_snoc.1 h
    rcases phase_step hstep hl with ⟨hl, ha⟩ | ⟨req, hreq⟩ | ⟨phase, rfl, hl', hleads⟩
    · obtain ⟨bs, cs, u, hash, sender, rfl, hcs, hu⟩ := ih hv hl
      refine ⟨bs, cs ++ [a], u, hash, sender, by rw [List.append_assoc, List.cons_append],
        fun hmem => ?_, hu⟩
      rcases List.mem_append.1 hmem with hmem | hmem
      · exact hcs hmem
      · exact ha (List.mem_singleton.1 hmem).symm
    · cases hreq
    · cases hleads with
      | authorized hr hexp hauth =>
        exact ⟨as, [], v, _, _, rfl, List.not_mem_nil, hv, hl', hr, hauth⟩

/-- The node starts without blobs. Whatever is put, uploaded, fetched, deleted and
    collected, in any order: every row has the uploader and the whitelist that
    it was inserted with; and the bytes of a blob are given to the sender of a
    ticket only if, when he was authorized, he was the uploader of the row, or
    in the whitelist of the ticket by which the uploader had put the blob. -/
theorem get_confidential (hempty : σ.store.index = .empty)
    (h : Run.run (B.invokingProgram N).poolStep (Pool.idle σ) as = some t) :
    (∀ hash r, t.shared.store.index.get hash = some r →
      ∃ r₀, r₀.hash = hash ∧ CreatedBy B N σ as r₀ ∧ r.SameReaders r₀) ∧
    ∀ k phase mime size hash bytes, t.threads.lookup k = some phase →
      (B.step t.shared phase).2 = .inr (.content mime size hash bytes) →
      ∃ bs cs u sender r₀, as = bs ++ .act k () :: cs ∧ (.act k () : InvokingAction) ∉ cs ∧
        Run.run (B.invokingProgram N).poolStep (Pool.idle σ) bs = some u ∧
        u.threads.lookup k = some (.getLookup hash sender) ∧
        (∃ ticket, B.Accepted .get hash sender ticket) ∧
        r₀.hash = hash ∧ CreatedBy B N σ bs r₀ ∧
        (r₀.uploaderId = some sender ∨ ∃ uploader ticket ids, r₀.uploaderId = some uploader ∧
          B.Accepted .put hash uploader ticket ∧ ticket.recipientsWhitelist = some ids ∧
          r₀.recipientsWhitelist = some ids ∧ sender ∈ ids) := by
  refine ⟨fun hash r hr => created_run hempty h hr,
    fun k phase mime size hash bytes hl hcontent => ?_⟩
  obtain ⟨r, rfl, hhash⟩ := content_of_step hcontent
  obtain ⟨bs, cs, u, hash', sender, rfl, hcs, hu, hget, hr, hauth⟩ := looked_up h hl
  obtain rfl : hash' = hash := (BlobIndex.hash_of_get hr).symm.trans hhash
  obtain ⟨r₀, rfl, hcreated, hup, hwl⟩ := created_run hempty hu hr
  refine ⟨bs, cs, u, sender, r₀, rfl, hcs, hu, hget, ticketed_run hu k _ hget, rfl, hcreated, ?_⟩
  rcases not_not.1 (Except.reject_eq_ok.1 hauth) with howner | ⟨ids, hids, hmem⟩
  · exact .inl (hup.symm.trans howner)
  · -- The whitelist is that of the ticket by which the row was inserted.
    obtain ⟨ds, a, es, v, v', -, hv, hins, -⟩ := hcreated
    have hids := hwl.symm.trans (Option.mem_def.1 hids)
    obtain ⟨uploader, ticket, hupl, hacc, hticket⟩ := inserted_whitelist (ticketed_run hv) hins hids
    exact .inr ⟨uploader, ticket, ids, hupl, hacc, hticket, hids, hmem⟩

/-- The tickets of `hexNode`, that name a recipient besides. -/
def sharedTicket (header : String) : SignedMessage :=
  let signed := toyTicket header
  match signed.envelope.payload with
  | .object fields => { signed with envelope := { signed.envelope with
      payload := .object (fields ++ [("recipients_whitelist", .array [.string "n3:q"])]) } }
  | _ => signed

def sharedNode : BlobNode := { hexNode with decodeTicketWire header := .ok (sharedTicket header) }

/-- The bytes are put by one peer, and got by the recipient he named. -/
def sharedRun : List InvokingAction :=
  .enter 0 (toyPut "pm0abc") :: List.replicate 6 (.act 0 ()) ++
  .enter 1 (toyGet "gq0abc") :: List.replicate 2 (.act 1 ())

/-- He is given the bytes, by the ticket of the peer who put them. -/
theorem get_confidential_shared : ∃ t bs cs u sender r₀,
    Run.run (sharedNode.invokingProgram toyInvoker).poolStep fresh sharedRun = some t ∧
    sharedRun = bs ++ .act 1 () :: cs ∧
    Run.run (sharedNode.invokingProgram toyInvoker).poolStep fresh bs = some u ∧
    u.threads.lookup 1 = some (.getLookup (hexCrypto.hashBytes (toyBytes "pm0abc")) sender) ∧
    CreatedBy sharedNode toyInvoker fresh.shared bs r₀ := by
  have hcontent : (Run.run (sharedNode.invokingProgram toyInvoker).poolStep fresh sharedRun).map
      (fun t => (t.threads.lookup 1).map fun phase => (sharedNode.step t.shared phase).2) =
        some (some (.inr (.content "text/plain" 3 (hexCrypto.hashBytes (toyBytes "pm0abc"))
          (toyBytes "pm0abc")))) := by decide +kernel
  obtain ⟨t, ht, hcontent⟩ := Option.map_eq_some_iff.1 hcontent
  obtain ⟨phase, hl, hcontent⟩ := Option.map_eq_some_iff.1 hcontent
  obtain ⟨bs, cs, u, sender, r₀, has, -, hu, hget, -, -, hcreated, -⟩ :=
    (get_confidential rfl ht).2 1 phase _ _ _ _ hl hcontent
  exact ⟨t, bs, cs, u, sender, r₀, ht, has, hu, hget, hcreated⟩

end BlobPool

end N3ur0n
