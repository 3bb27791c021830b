import N3ur0n.Blobs.Files
import N3ur0n.Replay

/-!
# Blob tickets

A request for a blob comes with a *ticket*: a signed message whose payload names
an operation and, possibly, the hash of a blob. It is accepted if the message
is (`admitTicket`), and if what it names agrees with the request.

* `TicketState.ticket_binds`: an accepted ticket is one signed by the peer the
  request is served to, and names the operation and the blob of the request,
  exactly when it names a blob at all; and no ticket is accepted twice.
-/

namespace N3ur0n

inductive BlobOperation
  | put
  | get
  | delete
  deriving DecidableEq

/-- What a ticket authorizes. -/
structure BlobTicketPayload where
  operation : BlobOperation
  hash : Option String
  size : Option ℕ
  mime : Option String
  capability : Option String
  expiresAt : ℤ
  purpose : BlobPurpose
  requestedTtlSecs : Option ℕ
  recipientsWhitelist : Option (List String)
  deriving DecidableEq

namespace BlobTicketPayload

/-! ## The payload as JSON -/

/-- The name of a variant without content. -/
def tag : Value → Option String
  | .string s => some s
  | .object [(s, .null)] => some s
  | _ => none

def operationOf (v : Value) : Option BlobOperation :=
  match tag v with
  | some "put" => some .put
  | some "get" => some .get
  | some "delete" => some .delete
  | _ => none

def purposeOf (v : Value) : Option BlobPurpose :=
  match tag v with
  | some "input" => some .input
  | some "output" => some .output
  | some "owned" => some .owned
  | _ => none

def stringOf : Value → Option String
  | .string s => some s
  | _ => none

/-- An integer of 64 bits, unsigned. -/
def u64Of : Value → Option ℕ
  | .number (.int i) => if 0 ≤ i ∧ i < 2 ^ 64 then some i.toNat else none
  | _ => none

/-- An integer of 64 bits, signed. -/
def i64Of : Value → Option ℤ
  | .number (.int i) => if -2 ^ 63 ≤ i ∧ i < 2 ^ 63 then some i else none
  | _ => none

def stringsOf : Value → Option (List String)
  | .array xs => xs.mapM stringOf
  | _ => none

/-- A field that may be missing, or null. -/
def optional {α : Type} (parse : Value → Option α) : Option Value → Option (Option α)
  | none | some .null => some none
  | some v => (parse v).map some

def fieldNames : List String :=
  ["operation", "hash", "size", "mime", "capability", "expires_at", "purpose",
    "requested_ttl_secs", "recipients_whitelist"]

/-- The fields of an object, or of an array that has them in order. -/
def fieldsOf : Value → Option (List (String × Value))
  | .object fields => some fields
  | .array xs => if xs.length ≤ fieldNames.length then some (fieldNames.zip xs) else none
  | _ => none

/-- The payload of a ticket, if it is one. -/
def ofValue (v : Value) : Option BlobTicketPayload := do
  let fields ← fieldsOf v
  let operation ← (fields.lookup "operation").bind operationOf
  let hash ← optional stringOf (fields.lookup "hash")
  let size ← optional u64Of (fields.lookup "size")
  let mime ← optional stringOf (fields.lookup "mime")
  let capability ← optional stringOf (fields.lookup "capability")
  let expiresAt ← (fields.lookup "expires_at").bind i64Of
  let purpose ← (fields.lookup "purpose").bind purposeOf
  let requestedTtlSecs ← optional u64Of (fields.lookup "requested_ttl_secs")
  let recipientsWhitelist ← optional stringsOf (fields.lookup "recipients_whitelist")
  return ⟨operation, hash, size, mime, capability, expiresAt, purpose, requestedTtlSecs,
    recipientsWhitelist⟩

end BlobTicketPayload

/-! ## Verification -/

inductive AccessMode
  | free
  | restricted
  | «private»
  deriving DecidableEq

/-- The node, as the routes of blobs know it: what it receives messages with,
    the decoding of the header of tickets, the text of an error in their
    payload, the access modes of its capabilities, which texts can be the value of a
    header, and the directory of blobs. -/
structure BlobNode where
  receiver : Receiver
  decodeTicketWire : String → Except String SignedMessage
  payloadError : Value → String
  registry : String → Option AccessMode
  isHeaderValue : String → Bool
  blobsRoot : Option String

def TicketError.toHttp : TicketError → HttpError
  | .unauthorized message => .error 401 message
  | .badRequest message => .error 400 message
  | .conflict message => .error 409 message

variable (B : BlobNode)

/-- The ticket of an admitted message is checked against the request, at the
    Unix time `now`. -/
def checkTicket (signed : SignedMessage) (wantOp : BlobOperation) (pathHash : String) (now : ℤ) :
    Except HttpError (SignedMessage × BlobTicketPayload) := do
  let ticket ← (BlobTicketPayload.ofValue signed.envelope.payload).elim
    (.error (.error 400 ("ticket payload: " ++ B.payloadError signed.envelope.payload))) .ok
  Except.reject (ticket.operation ≠ wantOp) (.error 400 "ticket operation mismatch")
  Except.reject (ticket.expiresAt < now) (.error 401 "ticket expired")
  Except.reject (∃ h ∈ ticket.hash, h ≠ pathHash) (.error 400 "ticket hash mismatch")
  .ok (signed, ticket)

/-- `verify_ticket`: the nonces afterwards, and the ticket if it is accepted. -/
def verifyTicket (nonces : List NonceRow) (header : Option String) (wantOp : BlobOperation)
    (pathHash : String) (now : ℤ) :
    List NonceRow × Except HttpError (SignedMessage × BlobTicketPayload) :=
  match header with
  | none => (nonces, .error (.error 401 "missing X-N3UR0N-Ticket"))
  | some raw =>
    match B.decodeTicketWire raw with
    | .error e => (nonces, .error (.error 400 e))
    | .ok signed =>
      match admitTicket B.receiver nonces signed now with
      | .error e => (nonces, .error e.toHttp)
      | .ok nonces' => (nonces', checkTicket B signed wantOp pathHash (unixTimestamp now))

variable {B}

/-- A ticket that passes the checks agrees with the request, in what it names. -/
theorem checkTicket_ok {signed msg : SignedMessage} {wantOp : BlobOperation} {pathHash : String}
    {now : ℤ} {ticket : BlobTicketPayload} :
    checkTicket B signed wantOp pathHash now = .ok (msg, ticket) ↔
      signed = msg ∧ BlobTicketPayload.ofValue signed.envelope.payload = some ticket ∧
        ticket.operation = wantOp ∧ now ≤ ticket.expiresAt ∧ ∀ h ∈ ticket.hash, h = pathHash := by
  have hnames {ticket : BlobTicketPayload} :
      (¬∃ h ∈ ticket.hash, h ≠ pathHash) ↔ ∀ h ∈ ticket.hash, h = pathHash := by
    simp only [not_exists, not_and, not_not]
  constructor
  · intro h
    obtain ⟨ticket', hp, h⟩ := Except.bind_eq_ok.1 h
    obtain ⟨hop, h⟩ := Except.check_eq_ok.1 h
    obtain ⟨hexp, h⟩ := Except.check_eq_ok.1 h
    obtain ⟨hhash, h⟩ := Except.check_eq_ok.1 h
    obtain ⟨rfl, rfl⟩ := Prod.mk.inj (Except.ok.inj h)
    exact ⟨rfl, Except.elim_eq_ok.1 hp, not_not.1 (Except.reject_eq_ok.1 hop),
      not_lt.1 (Except.reject_eq_ok.1 hexp), hnames.1 (Except.reject_eq_ok.1 hhash)⟩
  · rintro ⟨rfl, hv, hop, hexp, hhash⟩
    exact Except.bind_eq_ok.2 ⟨ticket, Except.elim_eq_ok.2 hv, Except.check_eq_ok.2
      ⟨Except.reject_eq_ok.2 (not_not.2 hop), Except.check_eq_ok.2
        ⟨Except.reject_eq_ok.2 (not_lt.2 hexp), Except.check_eq_ok.2
          ⟨Except.reject_eq_ok.2 (hnames.2 hhash), rfl⟩⟩⟩⟩

/-- An accepted ticket is one of an admitted message, and agrees with the request. -/
theorem verifyTicket_ok {nonces nonces' : List NonceRow} {header : Option String}
    {wantOp : BlobOperation} {pathHash : String} {now : ℤ} {msg : SignedMessage}
    {ticket : BlobTicketPayload}
    (h : verifyTicket B nonces header wantOp pathHash now = (nonces', .ok (msg, ticket))) :
    admitTicket B.receiver nonces msg now = .ok nonces' ∧
      checkTicket B msg wantOp pathHash (unixTimestamp now) = .ok (msg, ticket) := by
  rw [verifyTicket.eq_def] at h
  split at h
  · cases (Prod.mk.inj h).2
  · split at h
    · cases (Prod.mk.inj h).2
    · split at h
      · cases (Prod.mk.inj h).2
      · next signed _ nonces₁ hadm =>
        obtain ⟨rfl, hc⟩ := Prod.mk.inj h
        obtain rfl := (checkTicket_ok.1 hc).1
        exact ⟨hadm, hc⟩

/-- An admitted ticket is signed by its sender. -/
theorem signedBy_of_admitTicket {N : Receiver} {nonces nonces' : List NonceRow}
    {msg : SignedMessage} {now : ℤ} (h : admitTicket N nonces msg now = .ok nonces') :
    SignedBy N.crypto msg msg.envelope.senderId :=
  (verifyEnvelope_ok.1 (Except.mapError_eq_ok.1 (Except.check_eq_ok.1 h).1)).2.2

/-- A ticket that is refused leaves the nonces, or its own among them. -/
theorem verifyTicket_error {nonces nonces' : List NonceRow} {header : Option String}
    {wantOp : BlobOperation} {pathHash : String} {now : ℤ} {e : HttpError}
    (h : verifyTicket B nonces header wantOp pathHash now = (nonces', .error e)) :
    nonces' = nonces ∨ ∃ msg, admitTicket B.receiver nonces msg now = .ok nonces' := by
  rw [verifyTicket.eq_def] at h
  split at h
  · exact .inl (Prod.mk.inj h).1.symm
  · split at h
    · exact .inl (Prod.mk.inj h).1.symm
    · split at h
      · exact .inl (Prod.mk.inj h).1.symm
      · next hadm => exact .inr ⟨_, (Prod.mk.inj h).1 ▸ hadm⟩

/-! ## Runs -/

/-- A request that was authorized: the message and the ticket in it, and the
    operation, the hash and the peer that the request is served with. -/
structure Authorization where
  message : SignedMessage
  ticket : BlobTicketPayload
  operation : BlobOperation
  hash : String
  peer : String

/-- The clock at the last action, the table of nonces, and the requests that
    were authorized. -/
structure TicketState where
  clock : ℤ
  nonces : List NonceRow
  authorized : List Authorization

/-- What happens at the reading `now` of the clock: a message, a request for a
    blob with a ticket, or the pruning of the nonces. -/
inductive TicketAction
  | message (now : ℤ) (msg : SignedMessage)
  | request (now : ℤ) (header : Option String) (operation : BlobOperation) (hash : String)
  | prune (now reading : ℤ)

/-- The skew allowed between clocks, by default: five minutes. -/
def defaultClockSkew : ℕ := 5 * 60 * nanos

namespace TicketState

variable (B) in
/-- The clock does not go back, and the readings of prunings are past. -/
def step (σ : TicketState) : TicketAction → Option TicketState
  | .message now msg =>
    if σ.clock ≤ now then
      some { σ with
        clock := now
        nonces := (admitMessage B.receiver σ.nonces msg now).toOption.getD σ.nonces }
    else none
  | .request now header operation hash =>
    if σ.clock ≤ now then
      match verifyTicket B σ.nonces header operation hash now with
      | (nonces, .ok (msg, ticket)) =>
        some ⟨now, nonces, σ.authorized ++ [⟨msg, ticket, operation, hash, msg.envelope.senderId⟩]⟩
      | (nonces, .error _) => some { σ with clock := now, nonces := nonces }
    else none
  | .prune now reading =>
    if σ.clock ≤ now ∧ reading ≤ now then
      some { σ with
        clock := now
        nonces := NonceRow.pruneOlderThan σ.nonces (unixTimestamp reading - nonceTtlSeconds) }
    else none

variable (B) in
/-- The ticket is signed by the peer, and names the operation and the blob. -/
def Binds (x : Authorization) : Prop :=
  SignedBy B.receiver.crypto x.message x.peer ∧
    BlobTicketPayload.ofValue x.message.envelope.payload = some x.ticket ∧
    x.ticket.operation = x.operation ∧ x.ticket.hash = some x.hash

/-- What the verification of a ticket makes sure of. -/
def Checked (B : BlobNode) (x : Authorization) : Prop :=
  SignedBy B.receiver.crypto x.message x.peer ∧
    BlobTicketPayload.ofValue x.message.envelope.payload = some x.ticket ∧
    x.ticket.operation = x.operation ∧ ∀ h ∈ x.ticket.hash, h = x.hash

/-- The requests authorized are among the messages accepted in a run of the
    anti-replay with the same nonces, and their tickets were checked. -/
def Refines (B : BlobNode) (σ : TicketState) : Prop :=
  (∀ x ∈ σ.authorized, Checked B x) ∧ ∃ accepted,
    ReplayState.Inv B.receiver ⟨σ.clock, σ.nonces, accepted⟩ ∧
      (σ.authorized.map (·.message)).Sublist (accepted.map Prod.fst)

/-- The clock moves on. -/
theorem inv_of_clock_le {N : Receiver} {clock now : ℤ} {nonces : List NonceRow}
    {accepted : List (SignedMessage × ℤ)} (h : ReplayState.Inv N ⟨clock, nonces, accepted⟩)
    (hnow : clock ≤ now) : ReplayState.Inv N ⟨now, nonces, accepted⟩ :=
  ⟨fun x hx => (h.past x hx).trans hnow, h.window, fun x hx =>
    (h.kept x hx).imp_right fun h => h.trans_le (ReplayState.unixTimestamp_mono hnow), h.nodup⟩

theorem refines_step (hskew : B.receiver.clockSkew = defaultClockSkew) {σ σ' : TicketState}
    {a : TicketAction} (hσ : Refines B σ) (h : σ.step B a = some σ') : Refines B σ' := by
  have hwindow : 2 * (B.receiver.clockSkew + nanos) ≤ nonceTtlSeconds * nanos :=
    hskew ▸ by decide
  obtain ⟨hchecked, accepted, hinv, hsub⟩ := hσ
  cases a with
  | message now msg =>
    rw [step, Option.ite_none_right_eq_some] at h
    obtain ⟨hnow, h⟩ := h
    obtain rfl := Option.some.inj h
    refine ⟨hchecked, ?_⟩
    cases hm : admitMessage B.receiver σ.nonces msg now with
    | error e => exact ⟨accepted, inv_of_clock_le hinv hnow, hsub⟩
    | ok rows =>
      refine ⟨accepted ++ [(msg, now)], ?_, ?_⟩
      · exact hinv.admitted hwindow hnow (r := .ok rows) fun rows' hr =>
          ReplayState.admitMessage_ok (hm.trans hr)
      · rw [List.map_append]
        exact List.sublist_append_of_sublist_left hsub
  | request now header operation hash =>
    rw [step, Option.ite_none_right_eq_some] at h
    obtain ⟨hnow, h⟩ := h
    split at h
    · next nonces msg ticket hv =>
      obtain rfl := Option.some.inj h
      obtain ⟨hadm, hcheck⟩ := verifyTicket_ok hv
      obtain ⟨-, hpayload, hop, -, hhash⟩ := checkTicket_ok.1 hcheck
      refine ⟨fun x hx => ?_, accepted ++ [(msg, now)], ?_, ?_⟩
      · rcases List.mem_append.1 hx with hx | hx
        · exact hchecked x hx
        · rw [List.mem_singleton.1 hx]
          exact ⟨signedBy_of_admitTicket hadm, hpayload, hop, hhash⟩
      · exact hinv.admitted hwindow hnow (r := .ok nonces) fun rows' hr =>
          ReplayState.admitTicket_ok (hadm.trans hr)
      · rw [List.map_append, List.map_append]
        exact hsub.append (List.Sublist.refl _)
    · next nonces e hv =>
      obtain rfl := Option.some.inj h
      refine ⟨hchecked, ?_⟩
      rcases verifyTicket_error hv with rfl | ⟨msg, hadm⟩
      · exact ⟨accepted, inv_of_clock_le hinv hnow, hsub⟩
      · -- The message was admitted, and its ticket refused.
        refine ⟨accepted ++ [(msg, now)], ?_, ?_⟩
        · exact hinv.admitted hwindow hnow (r := .ok nonces) fun rows' hr =>
            ReplayState.admitTicket_ok (hadm.trans hr)
        · rw [List.map_append]
          exact List.sublist_append_of_sublist_left hsub
  | prune now reading =>
    rw [step, Option.ite_none_right_eq_some] at h
    obtain ⟨hnow, h⟩ := h
    obtain rfl := Option.some.inj h
    refine ⟨hchecked, accepted, ?_, hsub⟩
    refine hinv.step hwindow (a := .prune now reading) ?_
    rw [ReplayState.step, if_pos hnow]

/-- In any run, of a node with the default skew, from any table of nonces: a
    request is authorized by a ticket that its peer signed, for this operation
    on this blob, exactly if the ticket names a blob; and a ticket authorizes
    one request at most, as does any with the same sender, nonce and timestamp. -/
theorem ticket_binds (hskew : B.receiver.clockSkew = defaultClockSkew) {clock : ℤ}
    {nonces : List NonceRow} {as : List TicketAction} {σ : TicketState}
    (h : Run.run (step B) ⟨clock, nonces, []⟩ as = some σ) :
    (∀ x ∈ σ.authorized, Binds B x ↔ x.ticket.hash ≠ none) ∧
      (σ.authorized.map fun x => ReplayState.sameKey x.message).Nodup := by
  have hinit : Refines B ⟨clock, nonces, []⟩ :=
    ⟨fun x hx => absurd hx List.not_mem_nil, [],
      ⟨fun x hx => absurd hx List.not_mem_nil, fun x hx => absurd hx List.not_mem_nil,
        fun x hx => absurd hx List.not_mem_nil, List.nodup_nil⟩, List.Sublist.refl _⟩
  obtain ⟨hchecked, accepted, hinv, hsub⟩ :=
    Run.run_invariant (fun _ _ _ hσ hstep => refines_step hskew hσ hstep) hinit h
  refine ⟨fun x hx => ?_, ?_⟩
  · obtain ⟨hsigned, hpayload, hop, hhash⟩ := hchecked x hx
    constructor
    · rintro ⟨-, -, -, hnamed⟩
      rw [hnamed]
      exact Option.some_ne_none _
    · intro hne
      obtain ⟨hash, hnamed⟩ := Option.ne_none_iff_exists'.1 hne
      exact ⟨hsigned, hpayload, hop, hnamed.trans (congrArg some (hhash hash hnamed))⟩
  · have hkeys := hsub.map ReplayState.sameKey
    rw [List.map_map, List.map_map] at hkeys
    exact hkeys.nodup hinv.nodup

/-! ## An example -/

/-- A ticket of `n3:m`, signed by it at time `0`, to get a blob. -/
def getTicket (nonce : String) (hash : Option String) : SignedMessage :=
  toySigned (asciiBytes ['m']) ⟨"n3:m", "n3:a", 0, nonce, .blobTicket,
    .object ([("operation", .string "get"), ("expires_at", .number (.int 300)),
      ("purpose", .string "input")] ++ (hash.map fun h => ("hash", .string h)).toList), none⟩

/-- The header `x` has a ticket that names no blob, and any other one a ticket
    for the blob it names. -/
def toyBlobNode : BlobNode where
  receiver := ReplayState.toyReceiver
  decodeTicketWire raw := .ok (getTicket raw (if raw = "x" then none else some raw))
  payloadError _ := "invalid"
  registry _ := some .free
  isHeaderValue s := s.toList.all fun c => 32 ≤ c.toNat && c.toNat ≠ 127 || c = '\t'
  blobsRoot := some "blobs"

/-- The ticket that names no blob authorizes the request of one. -/
theorem ticket_names_nothing :
    ∃ σ, Run.run (step toyBlobNode) ⟨0, [], []⟩ [.request 0 (some "x") .get "sha256:a"] = some σ ∧
      ∃ x ∈ σ.authorized, x.hash = "sha256:a" ∧ ¬Binds toyBlobNode x := by
  have hend : (Run.run (step toyBlobNode) ⟨0, [], []⟩
      [.request 0 (some "x") .get "sha256:a"]).map
      (fun σ => σ.authorized.map fun x => (x.hash, x.ticket.hash)) = some [("sha256:a", none)] := by
    decide +kernel
  obtain ⟨σ, hσ, hx⟩ := Option.map_eq_some_iff.1 hend
  obtain ⟨x, hx, he⟩ := List.mem_map.1 (hx ▸ List.mem_singleton_self _)
  obtain ⟨hhash, hnone⟩ := Prod.mk.inj he
  refine ⟨σ, hσ, x, hx, hhash, fun hB => ?_⟩
  exact Option.some_ne_none _ (hB.2.2.2.symm.trans hnone)

/-- One that names a blob does not authorize the request of another, and
    authorizes one request of its own, not two. -/
theorem ticket_binds_named : ∃ σ, Run.run (step toyBlobNode) ⟨0, [], []⟩
    [.request 0 (some "sha256:a") .put "sha256:a", .request 1 (some "sha256:b") .get "sha256:b",
      .request 2 (some "sha256:b") .get "sha256:b", .request 3 (some "sha256:c") .get "sha256:a"] =
        some σ ∧ σ.authorized.map (·.hash) = ["sha256:b"] ∧
      ∀ x ∈ σ.authorized, Binds toyBlobNode x := by
  have hend : (Run.run (step toyBlobNode) ⟨0, [], []⟩
      [.request 0 (some "sha256:a") .put "sha256:a", .request 1 (some "sha256:b") .get "sha256:b",
        .request 2 (some "sha256:b") .get "sha256:b",
        .request 3 (some "sha256:c") .get "sha256:a"]).map
      (fun σ => σ.authorized.map fun x => (x.hash, x.ticket.hash)) =
        some [("sha256:b", some "sha256:b")] := by
    decide +kernel
  obtain ⟨σ, hσ, hx⟩ := Option.map_eq_some_iff.1 hend
  have hhash := congrArg (List.map Prod.fst) hx
  rw [List.map_map] at hhash
  refine ⟨σ, hσ, hhash, fun x hmem => ((ticket_binds (by decide) hσ).1 x hmem).2 ?_⟩
  have hnamed : (x.hash, x.ticket.hash) ∈ [("sha256:b", some "sha256:b")] :=
    hx ▸ List.mem_map_of_mem hmem
  rw [(Prod.mk.inj (List.mem_singleton.1 hnamed)).2]
  exact Option.some_ne_none _

end TicketState

end N3ur0n
