import Mathlib.Data.List.Sort
import N3ur0n.Lib.Fallible
import N3ur0n.Planner.Plan

/-!
# Conversations

A conversation is a thread of turns: what the user says, the calls of tools and
their results, what the assistant replies. In the database, the turns are rows
with a number each, `seq`; a conversation in memory knows the turns, and the
highest number given so far.

Turns are numbered twice: one after the other as they are pushed in memory
(`assigned`), and at a place reserved by the index of the step, from the number
of the turn of the user, for the calls of a plan, whose steps complete in any
order (`persistToolPairAt`).

The database keeps the keys of its tables distinct, and refuses the rows that
would not (`Db.appendTurns`); several rows are inserted together, or none.
-/

namespace N3ur0n

/-- A file that the user attached. -/
structure UserAttachment where
  hash : String
  mime : String
  size : ℕ
  name : Option String
  deriving DecidableEq

/-- What the user sends. -/
structure UserInput where
  text : String
  attachments : List UserAttachment

/-- One step in a conversation. -/
inductive Turn
  | user (content : String) (attachments : List UserAttachment)
  | assistant (content : String) (model : Option String)
  | toolCall (id peerId capability : String) (args : Value)
  | toolResult (callId peerId capability : String) (result : Option Value) (error : Option String)
  | system (content : String)
  deriving DecidableEq

/-- Whether the turn is about the call of a tool. -/
def Turn.isTool : Turn → Bool
  | .toolCall _ _ _ _ | .toolResult _ _ _ _ _ => true
  | _ => false

/-! ## In memory -/

/-- A conversation, as a runtime holds it. -/
structure ConversationState where
  id : String
  clientId : String
  turns : List Turn
  /-- Highest `seq` given to a turn: the field `next_seq`. -/
  highestSeq : ℕ
  deriving DecidableEq

namespace ConversationState

variable (s : ConversationState)

def nextSeq : ℕ := s.highestSeq + 1

/-- A turn is given the next number. -/
def push (turn : Turn) : ConversationState :=
  { s with turns := s.turns ++ [turn], highestSeq := s.highestSeq + 1 }

def pushUserInput (input : UserInput) : ConversationState :=
  s.push (.user input.text input.attachments)

def pushAssistant (content : String) (model : Option String) : ConversationState :=
  s.push (.assistant content model)

def pushToolCallWithId (id peerId capability : String) (args : Value) : ConversationState :=
  s.push (.toolCall id peerId capability args)

def pushToolResult (callId peerId capability : String) (result : Option Value)
    (error : Option String) : ConversationState :=
  s.push (.toolResult callId peerId capability result error)

/-- A call without its result, at the end of the turns, is given one. -/
def validate : ConversationState :=
  match s.turns.getLast? with
  | some (.toolCall id peerId capability _) =>
    s.pushToolResult id peerId capability none
      (some "instance restarted before result was persisted")
  | _ => s

/-- The turns pushed one after the other. -/
def pushAll (turns : List Turn) : ConversationState := turns.foldl push s

/-- The turns pushed, each with the `seq` it is given. -/
def assigned : ConversationState → List Turn → List (Turn × ℕ)
  | _, [] => []
  | s, turn :: turns => (turn, (s.push turn).highestSeq) :: assigned (s.push turn) turns

/-- The turns are appended, and counted. -/
theorem pushAll_eq (turns : List Turn) : s.pushAll turns =
    { s with turns := s.turns ++ turns, highestSeq := s.highestSeq + turns.length } := by
  induction turns generalizing s with
  | nil => simp [pushAll]
  | cons turn turns ih =>
    rw [pushAll, List.foldl_cons, ← pushAll, ih]
    simp [push, Nat.add_assoc, Nat.add_comm 1]

theorem pushAll_append (turns turns' : List Turn) :
    s.pushAll (turns ++ turns') = (s.pushAll turns).pushAll turns' := List.foldl_append

/-- They are numbered from the next number on. -/
theorem assigned_eq (turns : List Turn) : s.assigned turns = turns.zipIdx s.nextSeq := by
  induction turns generalizing s with
  | nil => rfl
  | cons turn turns ih =>
    rw [assigned, ih, List.zipIdx_cons]
    rfl

/-- To complete the last call may take a number more. -/
theorem highestSeq_le_validate : s.highestSeq ≤ s.validate.highestSeq := by
  rw [validate]
  split
  · exact Nat.le_succ _
  · exact le_rfl

theorem validate_id : s.validate.id = s.id := by
  rw [validate]
  split
  · rfl
  · rfl

end ConversationState

/-! ## In the database -/

/-- A row of `conversations`. -/
structure ConversationRecord where
  id : String
  clientId : String
  deriving DecidableEq

/-- A row of the table of turns, whose payload is the JSON text of the turn. -/
structure TurnRecord where
  conversationId : String
  seq : ℕ
  payload : Turn
  deriving DecidableEq

/-- The primary key of a turn. -/
def TurnRecord.key (r : TurnRecord) : String × ℕ := (r.conversationId, r.seq)

/-- A row of the journal of plans. -/
structure PlanRunRecord where
  id : String
  conversationId : String
  plan : Plan

/-- A row refused: its key is taken, or it belongs to no conversation. -/
inductive StorageError
  | unique
  | foreignKey
  deriving DecidableEq

/-- How a conversation can fail to be loaded. -/
inductive ConversationError
  | storage (e : StorageError)
  | notFound (id : String)
  | ownershipMismatch
  deriving DecidableEq

/-- The database: the constraints of its tables always hold. -/
structure Db where
  conversations : List ConversationRecord
  turns : List TurnRecord
  planRuns : List PlanRunRecord
  turns_nodup : (turns.map (·.key)).Nodup
  foreign : ∀ r ∈ turns, r.conversationId ∈ conversations.map (·.id)

namespace Db

variable (db : Db)

/-- The stored turns of a conversation, in the order they were inserted. -/
def turnsOf (id : String) : List TurnRecord := db.turns.filter (·.conversationId = id)

def insertConversation (c : ConversationRecord) : Except StorageError Db :=
  if c.id ∈ db.conversations.map (·.id) then .error .unique
  else .ok { db with
    conversations := db.conversations ++ [c]
    foreign := fun r hr => by
      rw [List.map_append, List.mem_append]
      exact .inl (db.foreign r hr) }

def insertTurn (r : TurnRecord) : Except StorageError Db :=
  if hk : r.key ∈ db.turns.map (·.key) then .error .unique
  else if hc : r.conversationId ∈ db.conversations.map (·.id) then .ok { db with
    turns := db.turns ++ [r]
    turns_nodup := by
      rw [List.map_append, List.map_singleton]
      exact (List.perm_append_singleton _ _).nodup_iff.2 (List.nodup_cons.2 ⟨hk, db.turns_nodup⟩)
    foreign := List.forall_mem_append.2 ⟨db.foreign, List.forall_mem_singleton.2 hc⟩ }
  else .error .foreignKey

/-- Several turns are inserted in one transaction: all of them, or none. -/
def appendTurns (rs : List TurnRecord) : Except StorageError Db := rs.foldlM insertTurn db

def appendTurn (r : TurnRecord) : Except StorageError Db := db.appendTurns [r]

/-- The stored turns of a conversation, by `seq`. -/
def loadTurns (id : String) : List TurnRecord :=
  (db.turnsOf id).insertionSort fun r r' => r.seq ≤ r'.seq

def insertPlanRun (run : PlanRunRecord) : Except StorageError Db :=
  if run.id ∈ db.planRuns.map (·.id) then .error .unique
  else if run.conversationId ∈ db.conversations.map (·.id) then
    .ok { db with planRuns := db.planRuns ++ [run] }
  else .error .foreignKey

/-! ## What insertions do -/

variable {db}

/-- The turns `rs` are inserted, and nothing else changes. -/
structure Appended (db : Db) (rs : List TurnRecord) (db' : Db) : Prop where
  turns : db'.turns = db.turns ++ rs
  conversations : db'.conversations = db.conversations
  planRuns : db'.planRuns = db.planRuns

theorem Appended.turnsOf {rs : List TurnRecord} {db' : Db} (h : Appended db rs db') {id : String}
    (hid : ∀ r ∈ rs, r.conversationId = id) : db'.turnsOf id = db.turnsOf id ++ rs := by
  have hfilter : rs.filter (·.conversationId = id) = rs :=
    List.filter_eq_self.2 fun r hr => decide_eq_true (hid r hr)
  rw [Db.turnsOf, h.turns, List.filter_append, hfilter, ← Db.turnsOf]

theorem insertTurn_eq_ok {r : TurnRecord} (hk : r.key ∉ db.turns.map (·.key))
    (hc : r.conversationId ∈ db.conversations.map (·.id)) :
    ∃ db', db.insertTurn r = .ok db' ∧ Appended db [r] db' := by
  rw [insertTurn, dif_neg hk, dif_pos hc]
  exact ⟨_, rfl, rfl, rfl, rfl⟩

theorem appended_of_insertTurn {r : TurnRecord} {db' : Db} (h : db.insertTurn r = .ok db') :
    Appended db [r] db' := by
  rw [insertTurn] at h
  split_ifs at h
  obtain rfl := Except.ok.inj h
  exact ⟨rfl, rfl, rfl⟩

/-- Turns that are appended one after the other are appended together. -/
theorem Appended.trans {rs rs' : List TurnRecord} {db₁ db₂ : Db} (h : Appended db rs db₁)
    (h' : Appended db₁ rs' db₂) : Appended db (rs ++ rs') db₂ :=
  ⟨by rw [h'.turns, h.turns, List.append_assoc], h'.conversations.trans h.conversations,
    h'.planRuns.trans h.planRuns⟩

theorem appended_of_appendTurns {rs : List TurnRecord} {db' : Db}
    (h : db.appendTurns rs = .ok db') : Appended db rs db' := by
  induction rs generalizing db with
  | nil =>
    obtain rfl := Except.ok.inj h
    exact ⟨by simp, rfl, rfl⟩
  | cons r rs ih =>
    rw [appendTurns, List.foldlM_cons] at h
    obtain ⟨db₁, h₁, h⟩ := Except.bind_eq_ok.1 h
    exact (appended_of_insertTurn h₁).trans (ih h)

/-- Turns under new keys, of a conversation that exists, are inserted. -/
theorem appendTurns_eq_ok {rs : List TurnRecord} (hn : (rs.map (·.key)).Nodup)
    (hk : ∀ r ∈ rs, r.key ∉ db.turns.map (·.key))
    (hc : ∀ r ∈ rs, r.conversationId ∈ db.conversations.map (·.id)) :
    ∃ db', db.appendTurns rs = .ok db' ∧ Appended db rs db' := by
  induction rs generalizing db with
  | nil => exact ⟨db, rfl, by simp, rfl, rfl⟩
  | cons r rs ih =>
    obtain ⟨hr, hn⟩ := List.nodup_cons.1 hn
    obtain ⟨hkr, hk⟩ := List.forall_mem_cons.1 hk
    obtain ⟨hcr, hc⟩ := List.forall_mem_cons.1 hc
    obtain ⟨db₁, h₁, ha₁⟩ := insertTurn_eq_ok hkr hcr
    -- The other keys are not the one just inserted.
    have hk₁ : ∀ r' ∈ rs, r'.key ∉ db₁.turns.map (·.key) := fun r' hr' => by
      rw [ha₁.turns, List.map_append, List.mem_append, not_or, List.map_singleton,
        List.mem_singleton]
      exact ⟨hk r' hr', fun he => hr (List.mem_map.2 ⟨r', hr', he⟩)⟩
    obtain ⟨db₂, h₂, ha₂⟩ := ih hn hk₁ (by rwa [ha₁.conversations])
    refine ⟨db₂, ?_, ha₁.trans ha₂⟩
    rw [appendTurns, List.foldlM_cons, h₁]
    exact h₂

/-- Turns of a conversation are inserted at new places in it. -/
theorem appendTurns_of_seq {id : String} {rs : List TurnRecord}
    (hid : id ∈ db.conversations.map (·.id)) (hrs : ∀ r ∈ rs, r.conversationId = id)
    (hn : (rs.map (·.seq)).Nodup) (hseq : ∀ r ∈ rs, r.seq ∉ (db.turnsOf id).map (·.seq)) :
    ∃ db', db.appendTurns rs = .ok db' ∧ Appended db rs db' := by
  refine appendTurns_eq_ok ?_ (fun r hr hk => ?_) fun r hr => hrs r hr ▸ hid
  · refine List.Nodup.of_map Prod.snd ?_
    rwa [List.map_map]
  · obtain ⟨r', hr', he⟩ := List.mem_map.1 hk
    obtain ⟨hc, hs⟩ := Prod.mk.inj he
    refine hseq r hr (List.mem_map.2 ⟨r', List.mem_filter.2 ⟨hr', ?_⟩, hs⟩)
    exact decide_eq_true (hc.trans (hrs r hr))

theorem insertPlanRun_eq_ok {run : PlanRunRecord} {db' : Db} (h : db.insertPlanRun run = .ok db') :
    db'.turns = db.turns ∧ db'.conversations = db.conversations ∧
      db'.planRuns = db.planRuns ++ [run] := by
  rw [insertPlanRun] at h
  split_ifs at h
  obtain rfl := Except.ok.inj h
  exact ⟨rfl, rfl, rfl⟩

end Db

/-! ## Persistence -/

/-- A fresh conversation: its row, and its state. -/
def create (db : Db) (id clientId : String) : Except ConversationError (Db × ConversationState) :=
  match db.insertConversation ⟨id, clientId⟩ with
  | .error e => .error (.storage e)
  | .ok db => .ok (db, ⟨id, clientId, [], 0⟩)

/-- The state of a stored conversation of this client. -/
def load (db : Db) (id clientId : String) : Except ConversationError ConversationState :=
  match db.conversations.find? (·.id = id) with
  | none => .error (.notFound id)
  | some record =>
    if record.clientId ≠ clientId then .error .ownershipMismatch
    else
      let raw := db.loadTurns id
      let maxSeq := raw.foldl (fun m r => if m < r.seq then r.seq else m) 0
      .ok (ConversationState.validate ⟨record.id, record.clientId, raw.map (·.payload), maxSeq⟩)

/-- The most recently pushed turn is stored. -/
def persistLast (db : Db) (state : ConversationState) : Except ConversationError Db :=
  match state.turns.getLast? with
  | none => .error (.notFound "empty turns")
  | some turn => (db.appendTurn ⟨state.id, state.highestSeq, turn⟩).mapError .storage

/-- The call of a step and its result are stored, at the places reserved for the
    step in the block that follows `baseSeq`. -/
def persistToolPairAt (db : Db) (conversationId : String) (baseSeq planIndex : ℕ)
    (callId peerId capability : String) (args : Value) (result : Option Value)
    (error : Option String) : Except ConversationError Db :=
  let callSeq := baseSeq + 1 + 2 * planIndex
  (db.appendTurns [
    ⟨conversationId, callSeq, .toolCall callId peerId capability args⟩,
    ⟨conversationId, callSeq + 1, .toolResult callId peerId capability result error⟩]).mapError
      .storage

/-- The maximum found is one of all the rows. -/
theorem le_foldl_max (rs : List TurnRecord) (m : ℕ) :
    m ≤ rs.foldl (fun m r => if m < r.seq then r.seq else m) m ∧
      ∀ r ∈ rs, r.seq ≤ rs.foldl (fun m r => if m < r.seq then r.seq else m) m := by
  induction rs generalizing m with
  | nil => exact ⟨le_rfl, fun r hr => absurd hr List.not_mem_nil⟩
  | cons r rs ih =>
    obtain ⟨hm, hrs⟩ := ih (if m < r.seq then r.seq else m)
    have hle : m ≤ (if m < r.seq then r.seq else m) ∧
        r.seq ≤ if m < r.seq then r.seq else m := by
      split_ifs with h
      · exact ⟨h.le, le_rfl⟩
      · exact ⟨le_rfl, not_lt.1 h⟩
    exact ⟨hle.1.trans hm, List.forall_mem_cons.2 ⟨hle.2.trans hm, hrs⟩⟩

/-- A conversation that was loaded numbers its next turns beyond all those
    stored. -/
theorem load_spec {db : Db} {id clientId : String} {s : ConversationState}
    (h : load db id clientId = .ok s) :
    s.id = id ∧ id ∈ db.conversations.map (·.id) ∧ ∀ r ∈ db.turnsOf id, r.seq ≤ s.highestSeq := by
  rw [load] at h
  split at h
  · exact absurd h (by simp)
  -- The highest number is the maximum over the rows, and `validate` only adds to it.
  · rename_i record hfind
    split_ifs at h
    obtain rfl := Except.ok.inj h
    have hid : record.id = id := by simpa using List.find?_some hfind
    refine ⟨(ConversationState.validate_id _).trans hid,
      List.mem_map.2 ⟨record, List.mem_of_find?_eq_some hfind, hid⟩, fun r hr => ?_⟩
    have hmem : r ∈ db.loadTurns id := (List.perm_insertionSort _ _).mem_iff.2 hr
    have hle := (le_foldl_max (db.loadTurns id) 0).2 r hmem
    exact hle.trans (ConversationState.highestSeq_le_validate
      ⟨record.id, record.clientId, (db.loadTurns id).map (·.payload), _⟩)

/-- A conversation starts without turns. -/
theorem create_spec {db db' : Db} {id clientId : String} {s : ConversationState}
    (h : create db id clientId = .ok (db', s)) :
    id ∈ db'.conversations.map (·.id) ∧ db'.turnsOf id = [] := by
  simp only [create, Db.insertConversation] at h
  split_ifs at h with hid
  obtain ⟨rfl, -⟩ := Prod.mk.inj (Except.ok.inj h)
  refine ⟨by simp, List.filter_eq_nil_iff.2 fun r hr => ?_⟩
  have hne : r.conversationId ≠ id := fun he => hid (he ▸ db.foreign r hr)
  simpa using hne

/-- The last turn of a state whose `seq` is new is stored. -/
theorem persistLast_push {db : Db} {s : ConversationState} {turn : Turn}
    (hid : s.id ∈ db.conversations.map (·.id))
    (hseq : ∀ r ∈ db.turnsOf s.id, r.seq ≤ s.highestSeq) :
    ∃ db', persistLast db (s.push turn) = .ok db' ∧ db.Appended [⟨s.id, s.nextSeq, turn⟩] db' := by
  have hnew : s.nextSeq ∉ (db.turnsOf s.id).map (·.seq) := fun hm => by
    obtain ⟨r, hr, he⟩ := List.mem_map.1 hm
    exact absurd (hseq r hr) (he.symm ▸ Nat.not_succ_le_self _)
  obtain ⟨db', h, ha⟩ : ∃ db', db.appendTurns [⟨s.id, s.nextSeq, turn⟩] = .ok db' ∧
      db.Appended [⟨s.id, s.nextSeq, turn⟩] db' :=
    Db.appendTurns_of_seq hid (by simp) (by simp) (List.forall_mem_singleton.2 hnew)
  refine ⟨db', ?_, ha⟩
  simp only [persistLast, ConversationState.push, List.getLast?_concat]
  exact Except.mapError_eq_ok.2 h

theorem persistLast_planRuns {db db' : Db} {s : ConversationState}
    (h : persistLast db s = .ok db') : db'.planRuns = db.planRuns := by
  rw [persistLast] at h
  split at h
  · exact absurd h (by simp)
  · exact (Db.appended_of_appendTurns (Except.mapError_eq_ok.1 h)).planRuns

end N3ur0n
