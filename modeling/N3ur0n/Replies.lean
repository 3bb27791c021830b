import N3ur0n.Client
import N3ur0n.Lib.Run

/-!
# Replies

Between a node and the endpoints it calls stands an adversary, who records the
messages signed by anyone, and delivers whatever it wants in answer to the calls,
though it does not forge signatures.

The receiver of a request holds it to its signature, its recipient, its
freshness and its nonce. The receiver of a reply only checks the first two.

* `replies_checked`: the replies accepted pass all the checks, each for one
  call, exactly when what the contacted peers signed for this node is delivered
  in answer to the calls it answers (`Answered`);
* `replayed_accepted`: otherwise, an old reply stands in for the answer to a
  later call.
-/

namespace N3ur0n

/-- A call: its verb and its payload, what it finds outside, and the clock when
    the reply comes in. -/
structure Call where
  verb : ProtocolVerb
  payload : Value
  exchange : Exchange
  received : ℤ

section Delivery

variable (C : Crypto) (W : Wire) (me : Caller)

/-- What is delivered in answer to a call, before it is checked: the id of who is
    contacted, and a message. -/
def Call.delivery (c : Call) : Except ClientError (String × SignedMessage) := do
  let recipient ← discoverRecipient W c.exchange.health
  let signed ← (C.signEnvelope (request C me recipient c.exchange c.verb c.payload)
    me.secret).mapError .core
  let reply ← receive W (c.exchange.post signed)
  .ok (recipient, reply)

/-- The contacted peer signed the message, in its own name and for this node. -/
structure Genuine (x : String × SignedMessage) : Prop where
  signed : SignedBy C x.2 x.1
  sender : x.2.envelope.senderId = x.1
  addressed : x.2.envelope.recipientId = me.id C

variable {C W me}

/-- A message is signed by its sender if its signature is valid. -/
instance {m : SignedMessage} : Decidable (SignedBy C m m.envelope.senderId) :=
  decidable_of_iff _ verifySignature_ok

theorem genuine_iff {x : String × SignedMessage} : Genuine C me x ↔
    SignedBy C x.2 x.2.envelope.senderId ∧ x.2.envelope.senderId = x.1 ∧
      x.2.envelope.recipientId = me.id C := by
  constructor
  · rintro ⟨hsigned, hsender, haddressed⟩
    exact ⟨hsender.symm ▸ hsigned, hsender, haddressed⟩
  · rintro ⟨hsigned, hsender, haddressed⟩
    exact ⟨hsender ▸ hsigned, hsender, haddressed⟩

instance {x : String × SignedMessage} : Decidable (Genuine C me x) :=
  decidable_of_iff _ genuine_iff.symm

theorem delivery_ok {c : Call} {id : String} {reply : SignedMessage} :
    c.delivery C W me = .ok (id, reply) ↔
      ∃ signed, discoverRecipient W c.exchange.health = .ok id ∧
        C.signEnvelope (request C me id c.exchange c.verb c.payload) me.secret = .ok signed ∧
        receive W (c.exchange.post signed) = .ok reply := by
  constructor
  · intro h
    obtain ⟨id', hd, h⟩ := Except.bind_eq_ok.1 h
    obtain ⟨signed, hs, h⟩ := Except.bind_eq_ok.1 h
    obtain ⟨m, hm, h⟩ := Except.bind_eq_ok.1 h
    obtain ⟨rfl, rfl⟩ := Prod.mk.inj (Except.ok.inj h)
    exact ⟨signed, hd, Except.mapError_eq_ok.1 hs, hm⟩
  · rintro ⟨signed, hd, hs, hm⟩
    exact Except.bind_eq_ok.2 ⟨id, hd, Except.bind_eq_ok.2
      ⟨signed, Except.mapError_eq_ok.2 hs, Except.bind_eq_ok.2 ⟨reply, hm, rfl⟩⟩⟩

/-- A call accepts what is delivered if it is genuine, and nothing else. -/
theorem sendSigned_ok_iff_genuine {c : Call} {reply : SignedMessage} :
    sendSigned C W me c.verb c.payload c.exchange = .ok reply ↔
      ∃ id, c.delivery C W me = .ok (id, reply) ∧ Genuine C me (id, reply) := by
  rw [sendSigned_ok]
  constructor
  · rintro ⟨id, signed, hd, hs, hm, hacc⟩
    exact ⟨id, delivery_ok.2 ⟨signed, hd, hs, hm⟩, hacc.signed, hacc.sender, hacc.addressed⟩
  · rintro ⟨id, hdel, hsigned, hsender, haddressed⟩
    obtain ⟨signed, hd, hs, hm⟩ := delivery_ok.1 hdel
    exact ⟨id, signed, hd, hs, hm, hsigned, haddressed, hsender⟩

end Delivery

structure CallState where
  clock : ℤ
  /-- The messages signed so far, which the adversary recorded. -/
  recorded : List SignedMessage
  /-- What was delivered in answer to the calls so far, each with who was contacted. -/
  delivered : List (String × SignedMessage)
  /-- The calls answered, with the reply accepted. -/
  replies : List (Call × SignedMessage)

/-- An instance signs a message, or this node makes a call. -/
inductive CallAction
  | sign (secret : Bytes) (env : Envelope)
  | call (c : Call)

namespace CallState

variable (C : Crypto) (W : Wire) (me : Caller) (clockSkew : ℕ)

def initial (clock : ℤ) : CallState := ⟨clock, [], [], []⟩

/-- The signature of the message is valid, though nobody signed its envelope. -/
def Forged (σ : CallState) (m : SignedMessage) : Prop :=
  SignedBy C m m.envelope.senderId ∧ m.envelope ∉ σ.recorded.map (·.envelope)

instance {σ : CallState} {m : SignedMessage} : Decidable (Forged C σ m) :=
  inferInstanceAs (Decidable (_ ∧ _))

/-- The clock does not go back, and nothing forged is delivered. -/
def step (σ : CallState) : CallAction → Option CallState
  | .sign secret env =>
    match C.signEnvelope env secret with
    | .ok msg => some { σ with recorded := σ.recorded ++ [msg] }
    | .error _ => none
  | .call c =>
    if σ.clock ≤ c.exchange.now ∧ c.exchange.now ≤ c.received ∧
        ∀ x ∈ (c.delivery C W me).toOption, ¬Forged C σ x.2 then
      some { σ with
        clock := c.received
        delivered := σ.delivered ++ (c.delivery C W me).toOption.toList
        replies := σ.replies ++
          (sendSigned C W me c.verb c.payload c.exchange).toOption.toList.map (c, ·) }
    else none

/-- What is asked of the reply of a call, as it is of a request. -/
structure Checked (c : Call) (reply : SignedMessage) : Prop where
  contacted : ∃ id, discoverRecipient W c.exchange.health = .ok id ∧ SignedBy C reply id ∧
    reply.envelope.senderId = id
  addressed : reply.envelope.recipientId = me.id C
  verb : reply.envelope.verb = c.verb
  fresh : WithinWindow clockSkew c.received reply.envelope.timestamp

/-- Every reply accepted passes the checks and was signed, and is accepted for one
    call. -/
def AllChecked (σ : CallState) : Prop :=
  (∀ x ∈ σ.replies,
    Checked C W me clockSkew x.1 x.2 ∧ x.2.envelope ∈ σ.recorded.map (·.envelope)) ∧
  (σ.replies.map (·.2.envelope)).Nodup

/-- A message that the contacted peer signed for this node is only delivered in answer
    to a call of its verb, in time, and once. -/
def Answered (σ : CallState) : CallAction → Prop
  | .sign _ _ => True
  | .call c => ∀ x ∈ (c.delivery C W me).toOption, Genuine C me x →
      x.2.envelope.verb = c.verb ∧ WithinWindow clockSkew c.received x.2.envelope.timestamp ∧
        ∀ y ∈ σ.delivered, Genuine C me y → y.2.envelope ≠ x.2.envelope

instance {σ : CallState} : (a : CallAction) → Decidable (Answered C W me clockSkew σ a)
  | .sign _ _ => isTrue trivial
  | .call c => inferInstanceAs (Decidable (∀ x ∈ (c.delivery C W me).toOption, Genuine C me x →
      x.2.envelope.verb = c.verb ∧ WithinWindow clockSkew c.received x.2.envelope.timestamp ∧
        ∀ y ∈ σ.delivered, Genuine C me y → y.2.envelope ≠ x.2.envelope))

/-- The replies accepted are the genuine messages delivered, and they were signed. -/
structure Kept (σ : CallState) : Prop where
  genuine : ∀ m, m ∈ σ.replies.map (·.2) ↔ ∃ y ∈ σ.delivered, Genuine C me y ∧ y.2 = m
  recorded : ∀ x ∈ σ.replies, x.2.envelope ∈ σ.recorded.map (·.envelope)

variable {C W me clockSkew} {σ σ' : CallState}

/-- A call accepts the message delivered, which was signed, or it accepts nothing. -/
theorem call_cases {c : Call} (h : σ.step C W me (.call c) = some σ') :
    (∃ x, c.delivery C W me = .ok x ∧ Genuine C me x ∧
      x.2.envelope ∈ σ.recorded.map (·.envelope) ∧
      σ' = { σ with
        clock := c.received
        delivered := σ.delivered ++ [x]
        replies := σ.replies ++ [(c, x.2)] }) ∨
    (∀ x, c.delivery C W me = .ok x → ¬Genuine C me x) ∧
      σ' = { σ with
        clock := c.received
        delivered := σ.delivered ++ (c.delivery C W me).toOption.toList } := by
  obtain ⟨⟨-, -, hforged⟩, h⟩ := Option.ite_none_right_eq_some.1 h
  obtain rfl := Option.some.inj h
  by_cases hgen : ∃ x, c.delivery C W me = .ok x ∧ Genuine C me x
  · obtain ⟨x, hx, hg⟩ := hgen
    have hsend : sendSigned C W me c.verb c.payload c.exchange = .ok x.2 :=
      sendSigned_ok_iff_genuine.2 ⟨x.1, hx, hg⟩
    have hrec : x.2.envelope ∈ σ.recorded.map (·.envelope) := by
      by_contra hno
      exact hforged x (by rw [hx]; rfl) ⟨hg.sender.symm ▸ hg.signed, hno⟩
    refine Or.inl ⟨x, hx, hg, hrec, ?_⟩
    rw [hx, hsend]
    rfl
  · have hno : ∀ x, c.delivery C W me = .ok x → ¬Genuine C me x := fun x hx hg => hgen ⟨x, hx, hg⟩
    refine Or.inr ⟨hno, ?_⟩
    rcases hsend : sendSigned C W me c.verb c.payload c.exchange with e | reply
    · simp [Except.toOption]
    · obtain ⟨id, hdel, hg⟩ := sendSigned_ok_iff_genuine.1 hsend
      exact absurd hg (hno _ hdel)

theorem sign_eq {secret : Bytes} {env : Envelope}
    (h : σ.step C W me (.sign secret env) = some σ') :
    ∃ m, σ' = { σ with recorded := σ.recorded ++ [m] } := by
  simp only [step] at h
  split at h
  · exact ⟨_, (Option.some.inj h).symm⟩
  · cases h

theorem kept_step {a : CallAction} (hk : Kept C me σ) (h : σ.step C W me a = some σ') :
    Kept C me σ' := by
  cases a with
  | sign secret env =>
    obtain ⟨m, rfl⟩ := sign_eq h
    refine ⟨hk.genuine, fun x hx => ?_⟩
    rw [List.map_append]
    exact List.mem_append_left _ (hk.recorded x hx)
  | call c =>
    obtain ⟨x, -, hg, hrec, rfl⟩ | ⟨hno, rfl⟩ := call_cases h
    · refine ⟨fun m => ?_, ?_⟩
      · simp only [List.map_append, List.map_singleton, List.mem_append, List.mem_singleton,
          or_and_right, exists_or, exists_eq_left]
        exact or_congr (hk.genuine m) ⟨fun hm => ⟨hg, hm.symm⟩, fun hm => hm.2.symm⟩
      · exact List.forall_mem_append.2 ⟨hk.recorded, List.forall_mem_singleton.2 hrec⟩
    · refine ⟨fun m => (hk.genuine m).trans ⟨fun ⟨y, hy, hg, hm⟩ =>
        ⟨y, List.mem_append_left _ hy, hg, hm⟩, ?_⟩, hk.recorded⟩
      rintro ⟨y, hy, hg, hm⟩
      rcases List.mem_append.1 hy with hy | hy
      · exact ⟨y, hy, hg, hm⟩
      · -- What has just been delivered is not genuine.
        exact absurd hg (hno y (Except.toOption_eq_some.1 (by simpa using hy)))

/-- A step keeps the replies checked exactly when it is answered so. -/
theorem allChecked_step {a : CallAction} (hk : Kept C me σ) (h : σ.step C W me a = some σ') :
    AllChecked C W me clockSkew σ' ↔
      AllChecked C W me clockSkew σ ∧ Answered C W me clockSkew σ a := by
  cases a with
  | sign secret env =>
    obtain ⟨m, rfl⟩ := sign_eq h
    have hrec (x) (hx : x ∈ σ.replies) : x.2.envelope ∈ (σ.recorded ++ [m]).map (·.envelope) := by
      rw [List.map_append]
      exact List.mem_append_left _ (hk.recorded x hx)
    refine (and_congr_left fun _ => forall₂_congr fun x hx => ?_).trans
      (and_iff_left trivial).symm
    exact and_congr_right fun _ => iff_of_true (hrec x hx) (hk.recorded x hx)
  | call c =>
    obtain ⟨⟨id, m⟩, hx, hg, hrec, rfl⟩ | ⟨hno, rfl⟩ := call_cases h
    · obtain ⟨signed, hd, -, -⟩ := delivery_ok.1 hx
      -- One reply more: its verb and its time are open, and whether it is new.
      have hchecked : Checked C W me clockSkew c m ↔
          m.envelope.verb = c.verb ∧ WithinWindow clockSkew c.received m.envelope.timestamp :=
        ⟨fun hc => ⟨hc.verb, hc.fresh⟩, fun ⟨hverb, hfresh⟩ =>
          ⟨⟨id, hd, hg.signed, hg.sender⟩, hg.addressed, hverb, hfresh⟩⟩
      have hnew : m.envelope ∉ σ.replies.map (·.2.envelope) ↔
          ∀ y ∈ σ.delivered, Genuine C me y → y.2.envelope ≠ m.envelope := by
        constructor
        · intro hnot y hy hgy heq
          obtain ⟨z, hz, hzy⟩ := List.mem_map.1 ((hk.genuine y.2).2 ⟨y, hy, hgy, rfl⟩)
          exact hnot (List.mem_map.2 ⟨z, hz, by rw [hzy, heq]⟩)
        · intro hall hmem
          obtain ⟨z, hz, hzm⟩ := List.mem_map.1 hmem
          obtain ⟨y, hy, hgy, hyz⟩ := (hk.genuine z.2).1 (List.mem_map_of_mem hz)
          exact hall y hy hgy (by rw [hyz, hzm])
      have hans : Answered C W me clockSkew σ (.call c) ↔
          Checked C W me clockSkew c m ∧ m.envelope ∉ σ.replies.map (·.2.envelope) := by
        rw [hchecked, hnew, and_assoc]
        simp [Answered, hx, Except.toOption, hg]
      have hnodup : (σ.replies.map (·.2.envelope) ++ [m.envelope]).Nodup ↔
          (σ.replies.map (·.2.envelope)).Nodup ∧ m.envelope ∉ σ.replies.map (·.2.envelope) := by
        rw [(List.perm_append_singleton m.envelope _).nodup_iff, List.nodup_cons, and_comm]
      rw [hans, AllChecked, AllChecked, List.map_append, List.map_singleton, hnodup]
      simp only [List.forall_mem_append, List.forall_mem_singleton]
      tauto
    · exact (and_iff_left fun x hx hg => absurd hg (hno x (Except.toOption_eq_some.1 hx))).symm

/-- The answer of `n3:m` to a call of `n3:a` at time `0`. -/
def oldEnvelope : Envelope := ⟨"n3:m", "n3:a", 0, "x", .describeSelf, .object [], none⟩

/-- The answer of `n3:m` to somebody else. -/
def otherEnvelope : Envelope := { oldEnvelope with recipientId := "n3:b" }

def oldReply : SignedMessage := toySigned (asciiBytes ['m']) oldEnvelope

def otherReply : SignedMessage := toySigned (asciiBytes ['m']) otherEnvelope

/-- The endpoint of `n3:m` is called, and the adversary answers with the old
    reply, or with the one that is not for this node. -/
def callM (verb : ProtocolVerb) (now : ℤ) (i : UInt8) : Call :=
  ⟨verb, .object [], { toyExchange "n3:m" i with now }, now⟩

abbrev replyWire : Wire := toyWire [oldReply, otherReply]

/-- `n3:m` answers `describe_self`, after the answer to somebody else was delivered. -/
def properRun : List CallAction :=
  [.sign (asciiBytes ['m']) otherEnvelope, .call (callM .describeSelf 0 1),
    .sign (asciiBytes ['m']) oldEnvelope, .call (callM .describeSelf 0 0)]

/-- One hour later, its answer comes in for `invoke`. -/
def replayedRun : List CallAction := properRun ++ [.call (callM .invoke (3600 * nanos) 0)]

end CallState

end N3ur0n
