import N3ur0n.Exchange

/-!
# Announcements

The envelope of a request may say where its sender is. A node that answers the request
files the sender under this endpoint, and tells its peers about it.

* `endpointOf_run`: along a run, the endpoints in the directory are those that were
  announced last;
* `known_announced`: a peer that asks a node whom it knows is told of everyone who
  announced itself, at the endpoint that it announced last, in a request that it signed.
-/

namespace N3ur0n

open BlobTicketPayload (stringOf)

namespace InboundNode

variable (N : InboundNode) (R : CapabilityRegistry)

/-- What the sender of a request announces, unless it is the node itself. -/
def claimed (env : Envelope) : Option (String × String) :=
  env.senderEndpoint.bind fun endpoint =>
    if env.senderId = N.receiver.id ∨ endpoint = "" then none else some (env.senderId, endpoint)

/-- What an action announces: a request has to be admitted, and to have an answer. -/
def announcedBy (σ : InboundState) : InboundAction → Option (String × String)
  | .message msg x => do
    let _ ← (admitMessage N.receiver σ.blobs.shared.nonces msg σ.blobs.shared.clock).toOption
    let answer ← N.dispatch R σ msg x
    let _ ← answer.toOption
    N.claimed msg.envelope
  | _ => none

/-- What is announced along a run, the last first. -/
def announcements (σ : InboundState) : List InboundAction → List (String × String)
  | [] => []
  | a :: as => ((N.step R σ a).map fun t => announcements t as).getD [] ++
      (N.announcedBy R σ a).toList

end InboundNode

/-- Where the directory has an instance. -/
def Directory.endpointOf (d : Directory) (id : String) : Option String :=
  (d.lookup id).map (·.endpoint)

/-- The rows are filed under their ids. -/
def Directory.Filed (d : Directory) : Prop :=
  ∀ id record, d.lookup id = some record → record.id = id

namespace Directory

variable {d : Directory} {record : PeerRecord} {id : String}

theorem lookup_upsert_self (d : Directory) (record : PeerRecord) :
    ∃ new, (d.upsert record).lookup record.id = some new ∧ new.id = record.id ∧
      new.endpoint = record.endpoint := by
  rw [upsert]
  rcases d.lookup record.id with _ | old
  · exact ⟨_, Finmap.lookup_insert _, rfl, rfl⟩
  · exact ⟨_, Finmap.lookup_insert _, rfl, rfl⟩

theorem endpointOf_upsert : (d.upsert record).endpointOf id =
    if id = record.id then some record.endpoint else d.endpointOf id := by
  rw [endpointOf]
  split
  · next hid =>
    obtain ⟨new, hnew, -, hendpoint⟩ := lookup_upsert_self d record
    rw [hid, hnew, Option.map_some, hendpoint]
  · next hid => rw [lookup_upsert_ne d hid, endpointOf]

theorem Filed.upsert (hd : d.Filed) : (d.upsert record).Filed := by
  intro id row hrow
  by_cases hid : id = record.id
  · obtain ⟨new, hnew, hnewid, -⟩ := lookup_upsert_self d record
    rw [hid, hnew] at hrow
    rw [← Option.some.inj hrow, hnewid, hid]
  · rw [lookup_upsert_ne d hid] at hrow
    exact hd id row hrow

end Directory

theorem parseInstanceId_eq {s id : String} (h : parseInstanceId s = .ok id) : id = s := by
  rw [parseInstanceId] at h
  split at h
  · exact (Except.ok.inj h).symm
  · cases h

namespace InboundNode

variable {N : InboundNode} {R : CapabilityRegistry} {σ t : InboundState} {a : InboundAction}
  {as : List InboundAction} {id endpoint : String} {msg : SignedMessage} {x : Outside}

/-- An announcement is an update of the directory. -/
theorem announced_eq {env : Envelope} : ∃ record : Option PeerRecord,
    N.announced σ env = record.elim σ.peers σ.peers.upsert ∧
      record.map (fun r => (r.id, r.endpoint)) = N.claimed env := by
  rw [announced, claimed]
  rcases env.senderEndpoint with _ | endpoint
  · exact ⟨none, rfl, rfl⟩
  · rw [Option.bind_some]
    by_cases hskip : env.senderId = N.receiver.id ∨ endpoint = ""
    · exact ⟨none, if_pos hskip, (if_pos hskip).symm⟩
    · exact ⟨some _, if_neg hskip, (if_neg hskip).symm⟩

/-- What a step does to the directory, if it is not a change of it by others. -/
theorem step_peers (h : N.step R σ a = some t) (ha : ∀ d, a ≠ .peers d) :
    ∃ record : Option PeerRecord, t.peers = record.elim σ.peers σ.peers.upsert ∧
      record.map (fun r => (r.id, r.endpoint)) = N.announcedBy R σ a := by
  obtain ⟨⟨t', r⟩, hhandle, rfl⟩ := Option.map_eq_some_iff.1 h
  cases a with
  | peers d => exact absurd rfl (ha d)
  | blob b =>
    obtain ⟨s, -, hs⟩ := Option.map_eq_some_iff.1 hhandle
    obtain rfl := (congrArg Prod.fst hs).symm
    exact ⟨none, rfl, rfl⟩
  | message msg x =>
    obtain ⟨⟨t, r⟩, hrequest, ht⟩ := Option.map_eq_some_iff.1 hhandle
    obtain rfl : t = t' := congrArg Prod.fst ht
    rw [announcedBy]
    rw [handleRequest] at hrequest
    rcases hpassed : admitMessage N.receiver σ.blobs.shared.nonces msg σ.blobs.shared.clock with
      e | rows
    · rw [hpassed] at hrequest
      obtain rfl := congrArg Prod.fst (Option.some.inj hrequest)
      exact ⟨none, rfl, rfl⟩
    · rw [hpassed] at hrequest
      obtain ⟨answer, hdispatch, ht⟩ := Option.map_eq_some_iff.1 hrequest
      have hdispatch : N.dispatch R σ msg x = some answer := hdispatch
      rw [hdispatch]
      rcases answer with e | payload
      · obtain rfl := congrArg Prod.fst ht
        exact ⟨none, rfl, rfl⟩
      · obtain rfl := congrArg Prod.fst ht
        exact announced_eq

theorem endpointOf_step (h : N.step R σ a = some t) (ha : ∀ d, a ≠ .peers d) :
    t.peers.endpointOf id =
      ((N.announcedBy R σ a).toList.lookup id).or (σ.peers.endpointOf id) := by
  obtain ⟨record, hpeers, hannounced⟩ := step_peers h ha
  rw [hpeers, ← hannounced]
  rcases record with _ | record
  · rfl
  · rw [Option.elim_some, Directory.endpointOf_upsert]
    by_cases hid : id = record.id
    · simp [hid]
    · simp [hid, List.lookup_cons, beq_false_of_ne hid]

/-- Along a run, the directory has everyone where it announced itself last, unless others
    change it. -/
theorem endpointOf_run (h : Run.run (N.step R) σ as = some t) (has : ∀ d, .peers d ∉ as) :
    t.peers.endpointOf id = ((N.announcements R σ as).lookup id).or (σ.peers.endpointOf id) := by
  induction as generalizing σ with
  | nil =>
    obtain rfl := Option.some.inj h
    rfl
  | cons a as ih =>
    obtain ⟨s, hs, h⟩ := Option.bind_eq_some_iff.1 h
    have ha : ∀ d, a ≠ .peers d := fun d hd => has d (hd ▸ List.mem_cons_self)
    rw [ih h fun d hd => has d (List.mem_cons_of_mem _ hd), endpointOf_step hs ha, announcements,
      hs, Option.map_some, Option.getD_some, List.lookup_append, Option.or_assoc]

theorem filed_run (h : Run.run (N.step R) σ as = some t) (has : ∀ d, .peers d ∉ as)
    (hσ : σ.peers.Filed) : t.peers.Filed := by
  induction as generalizing σ with
  | nil => exact Option.some.inj h ▸ hσ
  | cons a as ih =>
    obtain ⟨s, hs, h⟩ := Option.bind_eq_some_iff.1 h
    refine ih h (fun d hd => has d (List.mem_cons_of_mem _ hd)) ?_
    obtain ⟨record, hpeers, -⟩ := step_peers hs fun d hd => has d (hd ▸ List.mem_cons_self)
    rw [hpeers]
    rcases record with _ | record
    · exact hσ
    · exact hσ.upsert

theorem verified_of_admitMessage {rows rows' : List NonceRow} {now : ℤ}
    (h : (admitMessage N.receiver rows msg now).toOption = some rows') :
    msg.envelope.recipientId = N.receiver.id ∧
      SignedBy N.receiver.crypto msg msg.envelope.senderId := by
  rcases hpassed : admitMessage N.receiver rows msg now with e | rows''
  · rw [hpassed] at h
    exact nomatch h
  · obtain ⟨hverified, -⟩ := Except.check_eq_ok.1 hpassed
    obtain ⟨hrecipient, -, hsigned⟩ := verifyEnvelope_ok.1 (Except.mapError_eq_ok.1 hverified)
    exact ⟨hrecipient, hsigned⟩

/-- What is announced is in a request that its sender signed, for this node. -/
theorem mem_announcements (h : (id, endpoint) ∈ N.announcements R σ as) :
    ∃ msg x, .message msg x ∈ as ∧ SignedBy N.receiver.crypto msg id ∧
      msg.envelope.recipientId = N.receiver.id ∧ msg.envelope.senderEndpoint = some endpoint := by
  induction as generalizing σ with
  | nil => exact absurd h List.not_mem_nil
  | cons a as ih =>
    rcases List.mem_append.1 h with h | h
    · rcases hs : N.step R σ a with _ | s
      · rw [hs] at h
        exact absurd h List.not_mem_nil
      · rw [hs] at h
        obtain ⟨msg, x, hmem, hmsg⟩ := ih h
        exact ⟨msg, x, List.mem_cons_of_mem _ hmem, hmsg⟩
    · rw [Option.mem_toList] at h
      cases a with
      | blob b => exact nomatch h
      | peers d => exact nomatch h
      | message msg x =>
        obtain ⟨rows, hrows, h⟩ := Option.bind_eq_some_iff.1 h
        obtain ⟨answer, -, h⟩ := Option.bind_eq_some_iff.1 h
        obtain ⟨payload, -, h⟩ := Option.bind_eq_some_iff.1 h
        obtain ⟨hrecipient, hsigned⟩ := verified_of_admitMessage hrows
        obtain ⟨e, he, h⟩ := Option.bind_eq_some_iff.1 h
        split at h
        · exact nomatch h
        · obtain ⟨rfl, rfl⟩ := Prod.mk.inj (Option.some.inj h)
          exact ⟨msg, x, List.mem_cons_self, hsigned, hrecipient, he⟩

/-! ## Asking for peers -/

theorem getKnownPeers_ok {rows : List (String × PeerRecord)} {payload v : Value} :
    N.getKnownPeers rows payload = .ok v ↔ ∃ req, N.codec.knownPeers payload = .ok req ∧
      .object [("peers", .array ((N.summaries rows req).map PeerSummary.toValue))] = v := by
  refine Except.bind_eq_ok.trans (exists_congr fun req => ?_)
  exact and_congr Except.mapError_eq_ok ⟨Except.ok.inj, congrArg Except.ok⟩

theorem knownPeersOf_summaries {l : List PeerSummary} :
    knownPeersOf (.object [("peers", .array (l.map PeerSummary.toValue))]) = some l := by
  have hread : knownPeersOf (.object [("peers", .array (l.map PeerSummary.toValue))]) =
      (l.map PeerSummary.toValue).mapM PeerSummary.ofValue := by
    simp [knownPeersOf, Fields.ofRecord, required, single, Fields.listOf]
  rw [hread]
  clear hread
  induction l with
  | nil => rfl
  | cons p l ih =>
    rw [List.map_cons, List.mapM_cons, p.ofValue_toValue, ih]
    rfl

/-- Everyone is listed, when there is room. -/
theorem mem_listPeers {rows : List (String × PeerRecord)} {limit : ℕ} (hlimit : rows.length ≤ limit)
    {p : PeerRecord} : p ∈ listPeers rows limit ↔ ∃ id, (id, p) ∈ rows := by
  rw [listPeers, List.take_of_length_le, List.mem_insertionSort]
  · simp
  · rw [List.length_insertionSort, List.length_map]
    exact hlimit

/-- Without a filter, everyone is told of whose id is one, when there is room. -/
theorem mem_summaries {rows : List (String × PeerRecord)} {limit : ℕ}
    (hlimit : rows.length ≤ min limit 1000) {s : PeerSummary} :
    s ∈ N.summaries rows ⟨limit, none⟩ ↔ ∃ key p, (key, p) ∈ rows ∧ ∃ id,
      parseInstanceId p.id = .ok id ∧ ⟨id, some p.endpoint, p.aliasName⟩ = s := by
  rw [summaries, List.mem_filterMap]
  constructor
  · rintro ⟨p, hp, hs⟩
    obtain ⟨key, hkey⟩ := (mem_listPeers hlimit).1 hp
    rcases hid : parseInstanceId p.id with e | id
    · rw [hid] at hs
      exact nomatch hs
    · rw [hid] at hs
      exact ⟨key, p, hkey, id, hid, Option.some.inj hs⟩
  · rintro ⟨key, p, hkey, id, hid, rfl⟩
    refine ⟨p, (mem_listPeers hlimit).2 ⟨key, hkey⟩, ?_⟩
    rw [hid]
    rfl

end InboundNode

namespace Server

variable {W : WireFormat} {S : Server W} {σ t : InboundState} {as : List InboundAction}
  {id endpoint : String} {limit : ℕ} {signed : SignedMessage} {x : Outside} {v : Value}

/-- After a run in which the directory is only changed by announcements, a peer that asks
    the server whom it knows is told of everyone who announced itself, at the endpoint
    that it announced last, and at no other, if there is room for everyone; and whoever
    it is told of so has signed the announcement, for the server. The timestamps of the
    requests are in UTC, as nodes write them. -/
theorem known_announced (hsha : ∀ key, W.sha256 key ≠ []) (hσ : σ.peers.Filed)
    (hrun : Run.run (S.node.step S.registry) σ as = some t) (has : ∀ d, .peers d ∉ as)
    (hlast : (S.node.announcements S.registry σ as).lookup id = some endpoint)
    (hverb : signed.envelope.verb = .getKnownPeers)
    (hreq : GetKnownPeersRequest.ofValue signed.envelope.payload = some ⟨limit, none⟩)
    (hroom : x.rows.length ≤ min limit 1000)
    (hanswer : S.node.dispatch S.registry t signed x = some (.ok v)) :
    ∃ peers, knownPeersOf v = some peers ∧
      (∃ aliasName, ⟨id, some endpoint, aliasName⟩ ∈ peers) ∧
        (∀ p ∈ peers, p.instanceId = id → p.endpoint = some endpoint) ∧
          ∃ msg y, .message msg y ∈ as ∧ SignedBy (W.crypto 0) msg id ∧
            msg.envelope.recipientId = S.node.receiver.id ∧
              msg.envelope.senderEndpoint = some endpoint := by
  obtain ⟨l, l', hl, -⟩ := List.lookup_eq_some_iff.1 hlast
  obtain ⟨msg, y, hmem, hsigned, hrecipient, hendpoint⟩ :=
    InboundNode.mem_announcements (hl ▸ List.mem_append_right l List.mem_cons_self)
  rw [S.crypto_eq] at hsigned
  -- The row of the sender has what it announced last.
  have hrow : t.peers.endpointOf id = some endpoint := by
    rw [InboundNode.endpointOf_run hrun has, hlast, Option.some_or]
  obtain ⟨record, hlookup, hrecord⟩ := Option.map_eq_some_iff.1 hrow
  have hfiled := InboundNode.filed_run hrun has hσ
  have hkey : (W.crypto 0).instanceId msg.senderPublicKey = id := hsigned.1
  have hid : parseInstanceId id = .ok id := by
    rw [← hkey]
    exact parseInstanceId_instanceId (hsha _)
  -- The answer lists the rows of the directory.
  rw [InboundNode.dispatch, hverb] at hanswer
  obtain ⟨hrows, hanswer⟩ := Option.ite_none_right_eq_some.1 hanswer
  obtain ⟨req, hreq', rfl⟩ := InboundNode.getKnownPeers_ok.1 (Option.some.inj hanswer)
  obtain rfl : ⟨limit, none⟩ = req := by
    rw [S.codec_eq] at hreq'
    exact Option.some.inj (hreq.symm.trans (WireFormat.codec_knownPeers.1 hreq'))
  refine ⟨_, InboundNode.knownPeersOf_summaries, ⟨record.aliasName, ?_⟩, fun p hp hpid => ?_, msg,
    y, hmem, hsigned, hrecipient, hendpoint⟩
  · refine (InboundNode.mem_summaries hroom).2 ⟨id, record, hrows.lookup.1 hlookup, id, ?_, ?_⟩
    · rw [hfiled id record hlookup, hid]
    · rw [hrecord]
  · obtain ⟨key, row, hmem, id', hid', rfl⟩ := (InboundNode.mem_summaries hroom).1 hp
    obtain rfl : id' = id := hpid
    have hrowid := hfiled key row (hrows.lookup.2 hmem)
    obtain rfl : id' = row.id := parseInstanceId_eq hid'
    rw [hrowid, hrows.lookup.2 hmem] at hlookup
    rw [← hrecord, Option.some.inj hlookup]

/-! ## A caller with an endpoint -/

def toyAnnouncer : Caller := ⟨[1], some "http://a"⟩

/-- Its ping. -/
def toyAnnounce : SignedMessage :=
  ⟨(toyServer .empty).envelope toyAnnouncer 0 "n" .ping (.object []), toyNet.publicKey [1],
    String.ofList (Radix.hexLower.encode (List.replicate signatureBytes 0))⟩

/-- A question for ten peers. -/
def toyQuestion : SignedMessage :=
  { toyAnnounce with envelope := { toyAnnounce.envelope with
      verb := .getKnownPeers
      payload := .object [("limit", .number (.int 10))] } }

/-- Its ping is all that is needed for a caller to be known. -/
theorem known_announced_ping : ∃ t x v peers,
    Run.run ((toyServer .empty).node.step .empty) toyState [.message toyAnnounce (toyOutside [])] =
      some t ∧
    (toyServer .empty).node.dispatch .empty t toyQuestion x = some (.ok v) ∧
    knownPeersOf v = some peers ∧
      ∃ aliasName, ⟨toyNet.idOf [1], some "http://a", aliasName⟩ ∈ peers := by
  have hself : ¬(toyNet.idOf [1] = toyNet.idOf [2] ∨ "http://a" = "") := by decide +kernel
  have hsign : (toyNet.crypto 0).signEnvelope toyAnnounce.envelope [1] = .ok toyAnnounce :=
    toyNet_sign rfl rfl
  have hfresh : ¬NonceRow.Seen toyState.blobs.shared.nonces (toyNet.idOf [1]) "n" := by
    rintro ⟨row, hrow, -⟩
    exact absurd hrow List.not_mem_nil
  have hwindow : WithinWindow 0 0 0 := by decide
  obtain ⟨rows, hrows⟩ := (admitMessage_iff (S := toyServer .empty) (σ := toyState)
    toyNet_conforms rfl hsign).2 ⟨hwindow, hfresh⟩
  obtain ⟨t, hstep⟩ : ∃ t, (toyServer .empty).node.step .empty toyState
      (.message toyAnnounce (toyOutside [])) = some t := by
    rw [InboundNode.step, InboundNode.handle, InboundNode.handleRequest, hrows]
    exact ⟨_, rfl⟩
  have hclaimed : (toyServer .empty).node.announcedBy .empty toyState
      (.message toyAnnounce (toyOutside [])) = some (toyNet.idOf [1], "http://a") := by
    rw [InboundNode.announcedBy, hrows]
    change (if toyNet.idOf [1] = toyNet.idOf [2] ∨ "http://a" = "" then none
      else some (toyNet.idOf [1], "http://a")) = _
    rw [if_neg hself]
  have hrun : Run.run ((toyServer .empty).node.step .empty) toyState
      [.message toyAnnounce (toyOutside [])] = some t := by
    rw [Run.run, hstep]
    rfl
  have hlast : ((toyServer .empty).node.announcements .empty toyState
      [.message toyAnnounce (toyOutside [])]).lookup (toyNet.idOf [1]) = some "http://a" := by
    rw [InboundNode.announcements, hstep, hclaimed]
    exact List.lookup_cons_self
  have hfiled : toyState.peers.Filed :=
    fun id row h => absurd ((Finmap.lookup_empty id).symm.trans h) (Option.some_ne_none row).symm
  have hne (d : Directory) : InboundAction.message toyAnnounce (toyOutside []) ≠ .peers d := by
    intro h
    cases h
  have has (d : Directory) : .peers d ∉ [InboundAction.message toyAnnounce (toyOutside [])] :=
    fun h => hne d (List.mem_singleton.1 h).symm
  -- The row of the caller is the only one.
  obtain ⟨record, hpeers, hrecord⟩ := InboundNode.step_peers hstep hne
  rw [hclaimed] at hrecord
  obtain ⟨row, rfl, -⟩ := Option.map_eq_some_iff.1 hrecord
  have henumerates : Finmap.Enumerates [(row.id, row)] t.peers := by
    refine ⟨List.nodup_singleton _, ?_⟩
    rw [hpeers, Option.elim_some, Directory.upsert,
      show toyState.peers.lookup row.id = none from Finmap.lookup_empty row.id]
    rfl
  have hreq : GetKnownPeersRequest.ofValue toyQuestion.envelope.payload = some ⟨10, none⟩ := by
    simp [toyQuestion, GetKnownPeersRequest.ofValue, Fields.ofRecord, required, single, u32Of,
      BlobTicketPayload.optional]
  obtain ⟨v, hv⟩ : ∃ v, (toyServer .empty).node.getKnownPeers [(row.id, row)]
      toyQuestion.envelope.payload = .ok v :=
    ⟨_, InboundNode.getKnownPeers_ok.2 ⟨⟨10, none⟩, WireFormat.codec_knownPeers.2 hreq, rfl⟩⟩
  have hanswer : (toyServer .empty).node.dispatch .empty t toyQuestion
      ⟨[], [(row.id, row)], fun _ _ _ => .error (.adapter "none"), "m"⟩ = some (.ok v) :=
    (if_pos henumerates).trans (congrArg some hv)
  obtain ⟨peers, hpeersOf, hknown, -⟩ := known_announced
    (x := ⟨[], [(row.id, row)], fun _ _ _ => .error (.adapter "none"), "m"⟩) sha256_toyNet hfiled
    hrun has hlast rfl hreq (show 1 ≤ min 10 1000 by decide) hanswer
  exact ⟨t, _, v, peers, hrun, hanswer, hpeersOf, hknown⟩

end Server

end N3ur0n
