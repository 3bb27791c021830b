import N3ur0n.Exchange
import N3ur0n.Planner.Tools

/-!
# Published capabilities

A node that is refreshed is asked for its descriptor. The text of the descriptor is
kept in the row of the node, and read again when a catalogue is built.

* `fetchDescriptor_exchange`: what the descriptor is that a caller gets;
* `catalogue_of_refresh`: in the catalogue, the tools of the node are the public
  capabilities of its registry that have an example, with their whole declarations.
-/

namespace N3ur0n

/-- What the rows of peers are read with. -/
def WireFormat.reader (W : WireFormat) : DescriptorReader where
  parse text := W.parse text.toList
  decl := CapabilityDescriptor.ofValue

/-- `client::describe_self`, with the whole descriptor. -/
def fetchDescriptor (C : Crypto) (V : Wire) (serdeError : Value → String) (self : Caller)
    (x : Exchange) : Except ClientError SelfDescriptor := do
  let reply ← sendSigned C V self .describeSelf (.object []) x
  (SelfDescriptor.ofValue reply.envelope.payload).elim
    (.error (.serde (serdeError reply.envelope.payload))) .ok

theorem WireFormat.parse_reader {W : WireFormat} {text : String} :
    W.reader.parse text = W.parse text.toList := rfl

theorem fetchDescriptor_ok {C : Crypto} {V : Wire} {serdeError : Value → String} {self : Caller}
    {x : Exchange} {d : SelfDescriptor} : fetchDescriptor C V serdeError self x = .ok d ↔
      ∃ reply, sendSigned C V self .describeSelf (.object []) x = .ok reply ∧
        SelfDescriptor.ofValue reply.envelope.payload = some d :=
  Except.bind_eq_ok.trans (exists_congr fun _ => and_congr_right fun _ => Except.elim_eq_ok)

namespace SelfDescriptor

/-- What the directory knows of a descriptor. -/
def response (d : SelfDescriptor) : DescribeSelfResponse where
  instanceId := d.instanceId
  endpoint := d.endpoint
  aliasName := d.aliasName
  protocolVersion := d.protocolVersion
  updatedAt := d.updatedAt
  lobeIds := d.lobeIds
  capabilities := d.capabilities.map (·.toCapabilityDecl)

/-- The JSON text of a descriptor. -/
def text (d : SelfDescriptor) : String := String.ofList d.toValue.render

/-- The codec of the directory, when this is the descriptor whose text is kept. -/
def codec (d : SelfDescriptor) (serdeError : Value → String) : DescriptorCodec where
  decode v := ((ofValue v).map response).elim (.error (serdeError v)) .ok
  encode _ := d.text

variable {W : WireFormat} {d : SelfDescriptor}

/-- A descriptor is read back from its text, as a value of `serde_json`. -/
theorem parse_text (hd : ∀ cap ∈ d.capabilities, cap.IsJson W)
    (hdepth : d.toValue.collect.depth ≤ Json.recursionLimit) :
    W.parse d.text.toList = some d.toValue.collect := by
  have hnumbers : ∀ n ∈ d.toValue.numbers, Value.ReadsNumber (Json.numberOf W.nearest) n :=
    fun n hn => (WireFormat.hasNumbers_descriptor hd n hn).readsNumber
  rw [Value.keepsDepth_descriptor hd] at hdepth
  rw [WireFormat.parse, text, String.toList_ofList, Value.readText_render hnumbers, Value.within,
    if_pos hdepth]
  rfl

/-- The capabilities that are found in a descriptor are its declarations. -/
theorem capabilitiesIn_collect :
    capabilitiesIn d.toValue.collect = d.capabilities.map fun cap => cap.toValue.collect := by
  have hsingle : single (Fields.collected d.fields) "capabilities" =
      some (some (Value.array (d.capabilities.map (·.toValue))).collect) :=
    Fields.single_collected d.nodup_fields
  have hget : d.toValue.collect.get "capabilities" =
      some (.array (d.capabilities.map fun cap => cap.toValue.collect)) := by
    rw [toValue, Fields.collect_present, Value.get, lookup_of_single hsingle, collect_array,
      List.map_map]
    rfl
  simp only [capabilitiesIn, hget]

/-- The tools of a row are the declarations in its descriptor that a planner may be
    shown, whatever else is in the row. -/
theorem peerTools_row (hd : ∀ cap ∈ d.capabilities, cap.IsJson W)
    (hdepth : d.toValue.collect.depth ≤ Json.recursionLimit) {record : PeerRecord}
    (hrecord : record.describeSelfCached = some d.text) :
    peerTools W.reader record = (d.capabilities.filter (·.plannable)).map fun cap =>
      ⟨record.id, some record.endpoint, cap⟩ := by
  have hread : record.describeSelfCached.bind W.reader.parse = some d.toValue.collect := by
    rw [hrecord, Option.bind_some, WireFormat.parse_reader, parse_text hd hdepth]
  have hdecls : ∀ l : List CapabilityDescriptor, (∀ cap ∈ l, cap.IsJson W) →
      (l.map fun cap => cap.toValue.collect).filterMap W.reader.decl = l := by
    intro l hl
    induction l with
    | nil => rfl
    | cons cap l ih =>
      obtain ⟨hcap, hl⟩ := List.forall_mem_cons.1 hl
      have hdecl : W.reader.decl cap.toValue.collect = some cap :=
        CapabilityDescriptor.ofValue_toValue hcap
      rw [List.map_cons, List.filterMap_cons_some hdecl, ih hl]
  simp only [peerTools, hread, capabilitiesIn_collect, hdecls d.capabilities hd]

/-- A refresh stores the descriptor that is fetched, unless it is that of the node. -/
theorem refreshPeer_of_fetch {C : Crypto} {V : Wire} {serdeError : Value → String} {self : Caller}
    {x : Exchange} (endpoint : String) (clock : ℤ)
    (h : fetchDescriptor C V serdeError self x = .ok d) :
    refreshPeer C V (d.codec serdeError) self ⟨endpoint, x, clock⟩ = .ok ⟨d.response,
      if d.instanceId = self.id C then none
      else some (peerRecord (d.codec serdeError) endpoint clock d.response)⟩ := by
  obtain ⟨reply, hreply, hd⟩ := fetchDescriptor_ok.1 h
  refine refreshPeer_ok.2 ⟨reply, d.response, hreply, ?_, rfl⟩
  simp only [codec, hd]
  rfl

/-- The row of the descriptor that is fetched, in the directory after the refresh. -/
theorem lookup_refreshed {C : Crypto} {V : Wire} {serdeError : Value → String} {self : Caller}
    {x : Exchange} (endpoint : String) (clock : ℤ)
    (h : fetchDescriptor C V serdeError self x = .ok d) (hself : d.instanceId ≠ self.id C)
    (dir : Directory) :
    ∃ record, (refreshDirectory C V (d.codec serdeError) self dir ⟨endpoint, x, clock⟩).lookup
        d.instanceId = some record ∧
      record.id = d.instanceId ∧ record.endpoint = endpoint ∧
        record.describeSelfCached = some d.text := by
  let row := peerRecord (d.codec serdeError) endpoint clock d.response
  have hid : row.id = d.instanceId := rfl
  obtain ⟨old, hlookup, hold⟩ : ∃ record, (dir.upsert row).lookup d.instanceId = some record ∧
      record.id = d.instanceId ∧ record.endpoint = endpoint ∧
        record.describeSelfCached = some d.text := by
    rw [Directory.upsert, hid]
    rcases dir.lookup d.instanceId with _ | old
    · exact ⟨_, Finmap.lookup_insert _, rfl, rfl, rfl⟩
    · exact ⟨_, Finmap.lookup_insert _, rfl, rfl, rfl⟩
  refine ⟨{ old with aliasName := d.aliasName }, ?_, hold⟩
  rw [refreshDirectory, refreshPeer_of_fetch endpoint clock h, if_neg hself]
  refine (Finmap.lookup_modify _ _ _ _).trans ((if_pos rfl).trans ?_)
  rw [hid, hlookup]
  rfl

end SelfDescriptor

/-! ## Refreshes -/

namespace Server

variable {W : WireFormat} {S : Server W} {σ : InboundState} {x : Outside} {self : Caller}
  {now : ℤ} {nonce : String} {d : SelfDescriptor} {serdeError : Value → String}
  {wireError utf8Lossy : Bytes → String} {endpoint updatedAt : String} {clock : ℤ}

variable (S) in
/-- How the server describes itself. -/
def descriptor (updatedAt : String) (decls : List CapabilityDescriptor) : SelfDescriptor where
  instanceId := S.node.receiver.id
  endpoint := S.node.endpoint
  aliasName := S.node.aliasName
  protocolVersion := protocolVersion
  updatedAt := updatedAt
  lobeIds := S.node.lobes
  capabilities := decls

theorem dispatch_describeSelf {signed : SignedMessage} {v : Value}
    (hverb : signed.envelope.verb = .describeSelf) :
    S.node.dispatch S.registry σ signed x = some (.ok v) ↔
      x.decls.Perm S.registry.publicDecls ∧ ∃ updatedAt,
        S.node.rfc3339 σ.blobs.shared.clock = .ok updatedAt ∧
          (S.descriptor updatedAt x.decls).toValue.collect = v := by
  have hdescribe : S.node.describeSelf σ.blobs.shared.clock x.decls = .ok v ↔ ∃ updatedAt,
      S.node.rfc3339 σ.blobs.shared.clock = .ok updatedAt ∧
        (S.descriptor updatedAt x.decls).toValue.collect = v := by
    have hcodec {d : SelfDescriptor} : S.node.codec.descriptor d = d.toValue.collect := by
      rw [S.codec_eq]
      rfl
    rw [InboundNode.describeSelf]
    refine Except.bind_eq_ok.trans (exists_congr fun updatedAt => ?_)
    rw [hcodec]
    exact and_congr Except.mapError_eq_ok ⟨Except.ok.inj, congrArg Except.ok⟩
  rw [InboundNode.dispatch, hverb]
  by_cases hperm : x.decls.Perm S.registry.publicDecls
  · refine Iff.trans ?_ (and_iff_right hperm).symm
    exact (Eq.congr_left (if_pos hperm)).trans (Option.some_inj.trans hdescribe)
  · refine iff_of_false (fun h => ?_) fun h => hperm h.1
    cases (if_neg hperm).symm.trans h

/-- Over a network that delivers what it is given, a node gets the descriptor that the
    server gives of its public capabilities. -/
theorem fetchDescriptor_exchange (hW : W.Conforms)
    (hsha : ∀ key, W.sha256 key ≠ [])
    (hdecls : ∀ cap ∈ S.registry.publicDecls, cap.IsJson W) :
    fetchDescriptor (W.crypto 0) (W.wire wireError utf8Lossy) serdeError self
        (S.exchange σ x now nonce) = .ok d ↔
      ∃ signed reply updatedAt, (W.crypto 0).signEnvelope
        (S.envelope self now nonce .describeSelf (.object [])) self.secret = .ok signed ∧
          S.Arrives σ signed ∧ x.decls.Perm S.registry.publicDecls ∧
            S.node.rfc3339 σ.blobs.shared.clock = .ok updatedAt ∧
              d.toValue.collect.depth < Json.recursionLimit ∧
                S.node.replyTo σ (S.envelope self now nonce .describeSelf (.object [])) x.nonce
                  d.toValue.collect = .ok reply ∧ S.descriptor updatedAt x.decls = d := by
  have hjson : W.IsJson (.object []) :=
    ⟨⟨List.Pairwise.nil, trivial⟩, fun _ hn => absurd hn List.not_mem_nil⟩
  have hcaps (hperm : x.decls.Perm S.registry.publicDecls) {updatedAt : String} :
      ∀ cap ∈ (S.descriptor updatedAt x.decls).capabilities, cap.IsJson W :=
    fun cap hcap => hdecls cap (hperm.mem_iff.1 hcap)
  have hdispatch {signed : SignedMessage} {v : Value}
      (henv : signed.envelope = S.envelope self now nonce .describeSelf (.object [])) :
      S.node.dispatch S.registry σ signed x = some (.ok v) ↔ _ :=
    dispatch_describeSelf (henv ▸ rfl)
  have hanswer (signed : SignedMessage) (v : Value)
      (henv : signed.envelope = S.envelope self now nonce .describeSelf (.object []))
      (hv : S.node.dispatch S.registry σ signed x = some (.ok v)) : W.IsJson v := by
    obtain ⟨hperm, updatedAt, -, rfl⟩ := (hdispatch henv).1 hv
    exact WireFormat.isJson_collect (WireFormat.hasNumbers_descriptor (hcaps hperm))
  -- the descriptor survives the sorting of its fields
  have hread (hperm : x.decls.Perm S.registry.publicDecls) {updatedAt : String} :
      SelfDescriptor.ofValue (S.descriptor updatedAt x.decls).toValue.collect =
        some (S.descriptor updatedAt x.decls) :=
    SelfDescriptor.ofValue_toValue (hcaps hperm)
  rw [fetchDescriptor_ok]
  constructor
  · rintro ⟨reply, hreply, hd⟩
    obtain ⟨signed, v, hsign, harrives, hv, hdepth, hreply⟩ :=
      (sendSigned_exchange hW hsha hjson hanswer).1 hreply
    obtain ⟨hperm, updatedAt, htime, rfl⟩ := (hdispatch (envelope_of_sign hsign)).1 hv
    rw [payload_of_replyTo hreply, hread hperm] at hd
    obtain rfl := Option.some.inj hd
    exact ⟨signed, reply, updatedAt, hsign, harrives, hperm, htime, hdepth, hreply, rfl⟩
  · rintro ⟨signed, reply, updatedAt, hsign, harrives, hperm, htime, hdepth, hreply, rfl⟩
    refine ⟨reply, (sendSigned_exchange hW hsha hjson hanswer).2 ⟨signed, _, hsign, harrives,
      (hdispatch (envelope_of_sign hsign)).2 ⟨hperm, updatedAt, htime, rfl⟩, hdepth, hreply⟩, ?_⟩
    rw [payload_of_replyTo hreply]
    exact hread hperm

/-- Once a node refreshed its row of the server, the tools of the server in the catalogue
    are the public capabilities of its registry that have an example, in the order in
    which they were iterated. -/
theorem catalogue_of_refresh (hW : W.Conforms)
    (hsha : ∀ key, W.sha256 key ≠ [])
    (hdecls : ∀ cap ∈ S.registry.publicDecls, cap.IsJson W)
    (hself : S.node.receiver.id ≠ self.id (W.crypto 0))
    (hfetch : fetchDescriptor (W.crypto 0) (W.wire wireError utf8Lossy) serdeError self
      (S.exchange σ x now nonce) = .ok d) (dir : Directory) :
    ∃ record, (refreshDirectory (W.crypto 0) (W.wire wireError utf8Lossy) (d.codec serdeError) self
        dir ⟨endpoint, S.exchange σ x now nonce, clock⟩).lookup S.node.receiver.id = some record ∧
      peerTools W.reader record = ((x.decls.filter (·.plannable)).map fun cap =>
        ⟨S.node.receiver.id, some endpoint, cap⟩) ∧
      ∀ t, t ∈ peerTools W.reader record ↔ t.peerId = S.node.receiver.id ∧
        t.peerEndpoint = some endpoint ∧ t.cap.plannable ∧
          ∃ e, S.registry.getPublic t.cap.name = some e ∧ e.decl = t.cap := by
  obtain ⟨signed, reply, updatedAt, -, -, hperm, -, hdepth, -, rfl⟩ :=
    (fetchDescriptor_exchange hW hsha hdecls).1 hfetch
  obtain ⟨record, hlookup, hid, hendpoint, hcached⟩ :=
    SelfDescriptor.lookup_refreshed endpoint clock hfetch hself dir
  have htools : peerTools W.reader record = (x.decls.filter (·.plannable)).map fun cap =>
      ⟨S.node.receiver.id, some endpoint, cap⟩ := by
    rw [SelfDescriptor.peerTools_row (fun cap hcap => hdecls cap (hperm.mem_iff.1 hcap))
      (Nat.le_of_lt hdepth) hcached, hid, hendpoint]
    rfl
  refine ⟨record, hlookup, htools, fun t => ?_⟩
  -- A declaration that is public is that of the entry under its name.
  have hpublic {cap : CapabilityDescriptor} : cap ∈ x.decls ↔
      ∃ e, S.registry.getPublic cap.name = some e ∧ e.decl = cap := by
    rw [hperm.mem_iff, CapabilityRegistry.publicDecls, List.mem_map]
    constructor
    · rintro ⟨e, he, rfl⟩
      exact ⟨e, CapabilityRegistry.mem_publicEntries.1 he, rfl⟩
    · rintro ⟨e, he, rfl⟩
      exact ⟨e, CapabilityRegistry.mem_publicEntries.2 he, rfl⟩
  rw [htools, List.mem_map]
  constructor
  · rintro ⟨cap, hcap, rfl⟩
    obtain ⟨hmem, hplannable⟩ := List.mem_filter.1 hcap
    exact ⟨rfl, rfl, hplannable, hpublic.1 hmem⟩
  · rintro ⟨hpeer, hat, hplannable, hentry⟩
    refine ⟨t.cap, List.mem_filter.2 ⟨hpublic.2 hentry, hplannable⟩, ?_⟩
    rw [← hpeer, ← hat]

/-! ## One capability -/

/-- The tool of a capability that is public, once its node is refreshed. -/
theorem catalogue_of_refresh_echo : ∃ d record, fetchDescriptor (toyNet.crypto 0)
    (toyNet.wire (fun _ => "invalid") fun _ => "") (fun _ => "invalid") toySelf
      ((toyServer (.fromDecls [toyEcho])).exchange toyState (toyOutside [toyEcho]) 0 "n") = .ok d ∧
    (refreshDirectory (toyNet.crypto 0) (toyNet.wire (fun _ => "invalid") fun _ => "")
      (d.codec fun _ => "invalid") toySelf ∅ ⟨"http://b", (toyServer (.fromDecls [toyEcho])).exchange
        toyState (toyOutside [toyEcho]) 0 "n", 0⟩).lookup (toyNet.idOf [2]) = some record ∧
    peerTools toyNet.reader record = [⟨toyNet.idOf [2], some "http://b", toyEcho⟩] := by
  have hjson : toyNet.IsJson (.object []) := ⟨⟨List.Pairwise.nil, trivial⟩, List.forall_mem_nil _⟩
  have hecho : ∀ cap ∈ [toyEcho], cap.IsJson toyNet := by
    intro cap hcap
    obtain rfl := List.mem_singleton.1 hcap
    refine ⟨hjson, hjson, fun e he => ?_⟩
    obtain rfl := List.mem_singleton.1 he
    exact ⟨hjson, hjson⟩
  have hdecls : ∀ cap ∈ (toyServer (.fromDecls [toyEcho])).registry.publicDecls,
      cap.IsJson toyNet := hecho
  obtain ⟨signed, hsign, harrives⟩ := toy_arrives (.fromDecls [toyEcho]) .describeSelf
    (show (Value.object []).depth < Json.recursionLimit by decide) (by decide)
  obtain ⟨reply, hreply⟩ := toy_replies "m"
  have hdepth : ((toyServer (.fromDecls [toyEcho])).descriptor "1970-01-01T00:00:00Z"
      [toyEcho]).toValue.collect.depth < Json.recursionLimit := by
    rw [Value.keepsDepth_descriptor fun cap hcap => hecho cap hcap]
    decide
  have hfetch : fetchDescriptor (toyNet.crypto 0)
      (toyNet.wire (fun _ => "invalid") fun _ => "") (fun _ => "invalid") toySelf
        ((toyServer (.fromDecls [toyEcho])).exchange toyState (toyOutside [toyEcho]) 0 "n") =
          .ok ((toyServer (.fromDecls [toyEcho])).descriptor "1970-01-01T00:00:00Z" [toyEcho]) :=
    (fetchDescriptor_exchange toyNet_conforms sha256_toyNet hdecls).2 ⟨signed, reply,
      "1970-01-01T00:00:00Z", hsign, harrives, .refl _, rfl, hdepth, hreply, rfl⟩
  have hself : toyNet.idOf [2] ≠ toySelf.id (toyNet.crypto 0) := by decide +kernel
  obtain ⟨record, hlookup, htools, -⟩ :=
    catalogue_of_refresh toyNet_conforms sha256_toyNet hdecls hself hfetch ∅
  exact ⟨_, record, hfetch, hlookup, htools⟩

end Server

end N3ur0n
