import N3ur0n.Directory
import N3ur0n.Lib.Run

/-!
# Anti-replay

Inbound messages come in by two ways, the endpoint of messages and the tickets
of blob transfers. Both verify the envelope, then insert its nonce into the one
table of the nonces seen, and refuse it if it is there already. Nonces are
forgotten after `nonceTtlSeconds`.

The two verify the envelope and insert the nonce at one reading of the clock;
in between, and at any time, nonces are pruned with a cutoff computed from some
earlier reading.

* `accepted_once`: as long as the window of accepted timestamps is not longer
  than what is remembered, no message is accepted twice, be it on one way or on
  each.
-/

namespace N3ur0n

/-- Anti-replay window in seconds. -/
def nonceTtlSeconds : ℕ := 60 * 60

/-- A row of the table `nonces`, whose key is the sender and the nonce. -/
structure NonceRow where
  senderId : String
  nonce : String
  seenAt : ℤ
  deriving DecidableEq

namespace NonceRow

/-- The nonce was seen. -/
def Seen (rows : List NonceRow) (senderId nonce : String) : Prop :=
  ∃ row ∈ rows, row.senderId = senderId ∧ row.nonce = nonce

instance (rows : List NonceRow) (senderId nonce : String) : Decidable (Seen rows senderId nonce) :=
  inferInstanceAs (Decidable (∃ row ∈ rows, row.senderId = senderId ∧ row.nonce = nonce))

/-- The table with the nonce inserted, or an error if it is there already. -/
def insertIfAbsent (rows : List NonceRow) (senderId nonce : String) (seenAt : ℤ) :
    Except NodeError (List NonceRow) := do
  Except.reject (Seen rows senderId nonce) .replay
  .ok (rows ++ [⟨senderId, nonce, seenAt⟩])

def pruneOlderThan (rows : List NonceRow) (cutoff : ℤ) : List NonceRow :=
  rows.filter fun row => ¬row.seenAt < cutoff

end NonceRow

inductive TicketError
  | unauthorized (message : String)
  | badRequest (message : String)
  | conflict (message : String)
  deriving DecidableEq

/-- The receiving node: its primitives, its id, and the allowed clock skew (in
    nanoseconds). -/
structure Receiver where
  crypto : Crypto
  id : String
  clockSkew : ℕ

variable (N : Receiver)

/-- The first half of `handle_request`: the envelope is verified, and its nonce
    inserted. What follows answers the message. -/
def admitMessage (rows : List NonceRow) (msg : SignedMessage) (now : ℤ) :
    Except NodeError (List NonceRow) := do
  (verifyEnvelope N.crypto msg N.id now N.clockSkew).mapError .core
  NonceRow.insertIfAbsent rows msg.envelope.senderId msg.envelope.nonce (unixTimestamp now)

/-- The first half of `verify_ticket`, which asks for the verb of tickets. What
    follows only refuses some of the tickets whose nonce was inserted. -/
def admitTicket (rows : List NonceRow) (msg : SignedMessage) (now : ℤ) :
    Except TicketError (List NonceRow) := do
  (verifyEnvelope N.crypto msg N.id now N.clockSkew).mapError fun e => .unauthorized e.text
  Except.reject (msg.envelope.verb ≠ .blobTicket) (.badRequest "ticket verb must be blob_ticket")
  (NonceRow.insertIfAbsent rows msg.envelope.senderId msg.envelope.nonce
    (unixTimestamp now)).mapError fun _ => .conflict "ticket replay"

/-- The table of nonces, the clock at the last action, and the messages accepted
    so far, by either way, with the readings of the clock. -/
structure ReplayState where
  clock : ℤ
  nonces : List NonceRow
  accepted : List (SignedMessage × ℤ)

/-- What happens at the reading `now` of the clock: a message, a ticket, or the
    pruning of the nonces, with a cutoff from some reading. -/
inductive ReplayAction
  | message (now : ℤ) (msg : SignedMessage)
  | ticket (now : ℤ) (msg : SignedMessage)
  | prune (now reading : ℤ)

namespace ReplayState

/-- The nonce of a message was inserted, or the message refused. -/
def admitted {ε : Type} (σ : ReplayState) (now : ℤ) (msg : SignedMessage) :
    Except ε (List NonceRow) → ReplayState
  | .ok rows => { clock := now, nonces := rows, accepted := σ.accepted ++ [(msg, now)] }
  | .error _ => { σ with clock := now }

/-- The clock does not go back, and the readings of prunings are past. -/
def step (σ : ReplayState) : ReplayAction → Option ReplayState
  | .message now msg =>
    if σ.clock ≤ now then some (σ.admitted now msg (admitMessage N σ.nonces msg now)) else none
  | .ticket now msg =>
    if σ.clock ≤ now then some (σ.admitted now msg (admitTicket N σ.nonces msg now)) else none
  | .prune now reading =>
    if σ.clock ≤ now ∧ reading ≤ now then
      some { σ with
        clock := now
        nonces := NonceRow.pruneOlderThan σ.nonces (unixTimestamp reading - nonceTtlSeconds) }
    else none

variable {N}

/-- What makes a message the same: its sender, its nonce and its timestamp. -/
def sameKey (msg : SignedMessage) : String × String × ℤ :=
  (msg.envelope.senderId, msg.envelope.nonce, msg.envelope.timestamp)

theorem insertIfAbsent_ok {rows rows' : List NonceRow} {senderId nonce : String} {seenAt : ℤ} :
    NonceRow.insertIfAbsent rows senderId nonce seenAt = .ok rows' ↔
      ¬NonceRow.Seen rows senderId nonce ∧ rows ++ [⟨senderId, nonce, seenAt⟩] = rows' :=
  Except.check_eq_ok.trans (and_congr Except.reject_eq_ok ⟨Except.ok.inj, congrArg _⟩)

/-- What both ways make sure of. -/
structure Admitted (N : Receiver) (rows : List NonceRow) (msg : SignedMessage) (now : ℤ)
    (rows' : List NonceRow) : Prop where
  window : WithinWindow N.clockSkew now msg.envelope.timestamp
  unseen : ¬NonceRow.Seen rows msg.envelope.senderId msg.envelope.nonce
  inserted : rows ++ [⟨msg.envelope.senderId, msg.envelope.nonce, unixTimestamp now⟩] = rows'

theorem admitMessage_ok {rows rows' : List NonceRow} {msg : SignedMessage} {now : ℤ}
    (h : admitMessage N rows msg now = .ok rows') : Admitted N rows msg now rows' := by
  obtain ⟨hv, hi⟩ := Except.check_eq_ok.1 h
  obtain ⟨hun, hins⟩ := insertIfAbsent_ok.1 hi
  exact ⟨(verifyEnvelope_ok.1 (Except.mapError_eq_ok.1 hv)).2.1, hun, hins⟩

theorem admitTicket_ok {rows rows' : List NonceRow} {msg : SignedMessage} {now : ℤ}
    (h : admitTicket N rows msg now = .ok rows') : Admitted N rows msg now rows' := by
  obtain ⟨hv, h⟩ := Except.check_eq_ok.1 h
  obtain ⟨-, hi⟩ := Except.check_eq_ok.1 h
  obtain ⟨hun, hins⟩ := insertIfAbsent_ok.1 (Except.mapError_eq_ok.1 hi)
  exact ⟨(verifyEnvelope_ok.1 (Except.mapError_eq_ok.1 hv)).2.1, hun, hins⟩

variable (N) in
/-- Every message accepted was fresh then. Its nonce is still there, or was
    forgotten so late that the message is stale. -/
structure Inv (σ : ReplayState) : Prop where
  past : ∀ x ∈ σ.accepted, x.2 ≤ σ.clock
  window : ∀ x ∈ σ.accepted, WithinWindow N.clockSkew x.2 x.1.envelope.timestamp
  kept : ∀ x ∈ σ.accepted,
    (⟨x.1.envelope.senderId, x.1.envelope.nonce, unixTimestamp x.2⟩ : NonceRow) ∈ σ.nonces ∨
      unixTimestamp x.2 + nonceTtlSeconds < unixTimestamp σ.clock
  nodup : (σ.accepted.map fun x => sameKey x.1).Nodup

theorem unixTimestamp_mono {now now' : ℤ} (h : now ≤ now') :
    unixTimestamp now ≤ unixTimestamp now' :=
  Int.ediv_le_ediv (by decide) h

/-- A message whose nonce could be forgotten is out of the window. -/
theorem stale_of_forgotten (hskew : 2 * (N.clockSkew + nanos) ≤ nonceTtlSeconds * nanos)
    {t now timestamp : ℤ} (ht : WithinWindow N.clockSkew t timestamp)
    (hforgot : unixTimestamp t + nonceTtlSeconds < unixTimestamp now) :
    ¬WithinWindow N.clockSkew now timestamp := by
  intro hnow
  have h1 := ht.natAbs_lt
  have h2 := hnow.natAbs_lt
  -- More than the retention period has passed in between.
  have h3 : t + nonceTtlSeconds * nanos < now := by
    unfold unixTimestamp nanos nonceTtlSeconds at *
    omega
  omega

/-- Accepting a message keeps the invariant: had it been accepted before, its
    nonce would have been seen, or the message would be stale. -/
theorem Inv.admitted (hskew : 2 * (N.clockSkew + nanos) ≤ nonceTtlSeconds * nanos)
    {σ : ReplayState} (hI : Inv N σ) {now : ℤ} (hnow : σ.clock ≤ now) {msg : SignedMessage}
    {ε : Type} {r : Except ε (List NonceRow)}
    (hr : ∀ rows, r = .ok rows → Admitted N σ.nonces msg now rows) :
    Inv N (σ.admitted now msg r) := by
  have hmono := unixTimestamp_mono hnow
  cases r with
  | error e =>
    exact ⟨fun x hx => (hI.past x hx).trans hnow, hI.window,
      fun x hx => (hI.kept x hx).imp_right fun h => h.trans_le hmono, hI.nodup⟩
  | ok rows =>
    obtain ⟨hwin, hun, rfl⟩ := hr rows rfl
    refine ⟨fun x hx => ?_, fun x hx => ?_, fun x hx => ?_, ?_⟩
    · rcases List.mem_append.1 hx with hx | hx
      · exact (hI.past x hx).trans hnow
      · rw [List.mem_singleton.1 hx]
        exact le_rfl
    · rcases List.mem_append.1 hx with hx | hx
      · exact hI.window x hx
      · rw [List.mem_singleton.1 hx]
        exact hwin
    -- The nonce of the message has just been inserted.
    · rcases List.mem_append.1 hx with hx | hx
      · exact (hI.kept x hx).imp (fun h => List.mem_append_left _ h) fun h => h.trans_le hmono
      · rw [List.mem_singleton.1 hx]
        exact .inl (List.mem_append_right _ List.mem_cons_self)
    · change ((σ.accepted ++ [(msg, now)]).map fun x => sameKey x.1).Nodup
      rw [List.map_append]
      refine hI.nodup.append (List.nodup_singleton _) ?_
      rw [List.map_singleton, List.disjoint_singleton, List.mem_map]
      rintro ⟨x, hx, hkey⟩
      simp only [sameKey, Prod.mk.injEq] at hkey
      obtain ⟨hs, hn, ht⟩ := hkey
      rcases hI.kept x hx with hrow | hforgot
      · exact hun ⟨_, hrow, hs, hn⟩
      · exact stale_of_forgotten hskew (hI.window x hx) (hforgot.trans_le hmono) (ht ▸ hwin)

theorem Inv.step (hskew : 2 * (N.clockSkew + nanos) ≤ nonceTtlSeconds * nanos)
    {σ σ' : ReplayState} {a : ReplayAction} (hI : Inv N σ) (h : σ.step N a = some σ') :
    Inv N σ' := by
  cases a with
  | message now msg =>
    obtain ⟨hnow, h⟩ := Option.ite_none_right_eq_some.1 h
    obtain rfl := Option.some.inj h
    exact hI.admitted hskew hnow fun rows => admitMessage_ok
  | ticket now msg =>
    obtain ⟨hnow, h⟩ := Option.ite_none_right_eq_some.1 h
    obtain rfl := Option.some.inj h
    exact hI.admitted hskew hnow fun rows => admitTicket_ok
  | prune now reading =>
    obtain ⟨⟨hnow, hread⟩, h⟩ := Option.ite_none_right_eq_some.1 h
    obtain rfl := Option.some.inj h
    refine ⟨fun x hx => (hI.past x hx).trans hnow, hI.window, fun x hx => ?_, hI.nodup⟩
    have hmono := unixTimestamp_mono hnow
    have hmono' := unixTimestamp_mono hread
    rcases hI.kept x hx with hrow | hforgot
    -- The clock was read before the rows are deleted, so they are old enough by now.
    · by_cases hold : unixTimestamp x.2 < unixTimestamp reading - nonceTtlSeconds
      · refine .inr ?_
        change unixTimestamp x.2 + nonceTtlSeconds < unixTimestamp now
        omega
      · exact .inl (List.mem_filter.2 ⟨hrow, by simpa using hold⟩)
    · exact .inr (hforgot.trans_le hmono)

/-- In any run, from any table of nonces, no message is accepted twice: not even
    another one of the same sender with the same nonce and timestamp. -/
theorem accepted_once (hskew : 2 * (N.clockSkew + nanos) ≤ nonceTtlSeconds * nanos) {clock : ℤ}
    {rows : List NonceRow} {as : List ReplayAction} {σ : ReplayState}
    (h : Run.run (step N) ⟨clock, rows, []⟩ as = some σ) :
    (σ.accepted.map fun x => sameKey x.1).Nodup := by
  have hinit : Inv N ⟨clock, rows, []⟩ := ⟨fun x hx => absurd hx List.not_mem_nil,
    fun x hx => absurd hx List.not_mem_nil, fun x hx => absurd hx List.not_mem_nil,
    List.nodup_nil⟩
  exact (Run.run_invariant (fun _ _ _ hI hstep => hI.step hskew hstep) hinit h).nodup

/-! ## An example -/

/-- A message of `n3:m`, signed by it at time `0`. -/
def inbound (nonce : String) (verb : ProtocolVerb) : SignedMessage :=
  toySigned (asciiBytes ['m']) ⟨"n3:m", "n3:a", 0, nonce, verb, .object [], none⟩

/-- A node with the default skew of five minutes. -/
def toyReceiver : Receiver := ⟨toyCrypto, "n3:a", 5 * 60 * nanos⟩

/-- A ping and a ticket are accepted. The ping is refused the next second, and
    when its nonce is forgotten. -/
def replayRun : List ReplayAction :=
  [.message 0 (inbound "x" .ping), .message nanos (inbound "x" .ping), .prune nanos nanos,
    .ticket nanos (inbound "y" .blobTicket), .ticket nanos (inbound "x" .blobTicket),
    .prune (4000 * nanos) (4000 * nanos), .message (4000 * nanos) (inbound "x" .ping)]

theorem accepted_once_replayRun : ∃ σ, Run.run (step toyReceiver) ⟨0, [], []⟩ replayRun = some σ ∧
    σ.accepted.length = 2 ∧ σ.nonces = [] ∧ (σ.accepted.map fun x => sameKey x.1).Nodup := by
  have hend : (Run.run (step toyReceiver) ⟨0, [], []⟩ replayRun).map
      (fun σ => (σ.accepted.length, σ.nonces)) = some (2, []) := by decide
  obtain ⟨σ, hσ, hlen⟩ := Option.map_eq_some_iff.1 hend
  obtain ⟨hacc, hrows⟩ := Prod.mk.inj hlen
  exact ⟨σ, hσ, hacc, hrows, accepted_once (by decide) hσ⟩

end ReplayState

end N3ur0n
