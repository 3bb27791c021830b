import N3ur0n.Session

/-!
# What dispatches leave stored

While one conversation is dispatched, others are too, on the same database. A
dispatch only adds whole turns of its own conversation (`Db.Grows`), so a
conversation loads as before as long as it is not dispatched (`Db.Same`).

* `Step.grows`, `grows_start`: what a dispatch does to the database;
* `load_whole`: a conversation whose stored turns are whole loads to these
  turns, and nothing is added to them;
* `Ledger.load`: after a dispatch that replied, loading the conversation gives
  the state which the dispatch has left in memory.
-/

namespace N3ur0n

namespace Db

/-- Whole turns of the conversation are added, and nothing else happens to the
    turns and the conversations. -/
structure Grows (c : String) (db db' : Db) : Prop where
  rows : ∃ rs, Whole rs ∧ (∀ r ∈ rs, r.conversationId = c) ∧ db'.turns = db.turns ++ rs
  conversations : db'.conversations = db.conversations

/-- The conversation exists, and is the client's. -/
def Owned (db : Db) (c clientId : String) : Prop :=
  ∃ record, db.conversations.find? (·.id = c) = some record ∧ record.clientId = clientId

/-- The conversation is the same in both. -/
structure Same (c : String) (db db' : Db) : Prop where
  turns : db'.turnsOf c = db.turnsOf c
  record : db'.conversations.find? (·.id = c) = db.conversations.find? (·.id = c)

variable {c c' id : String} {db db' db'' : Db}

theorem Same.refl (c : String) (db : Db) : Same c db db := ⟨rfl, rfl⟩

theorem Same.trans (h : Same c db db') (h' : Same c db' db'') : Same c db db'' :=
  ⟨h'.turns.trans h.turns, h'.record.trans h.record⟩

theorem Same.loadTurns (h : Same c db db') : db'.loadTurns c = db.loadTurns c := by
  rw [Db.loadTurns, h.turns, ← Db.loadTurns]

theorem Same.load (h : Same c db db') (clientId : String) :
    load db' c clientId = load db c clientId := by
  simp only [N3ur0n.load, h.record, h.loadTurns]

theorem mem_conversations : c ∈ db.conversations.map (·.id) ↔
    (db.conversations.find? (·.id = c)).isSome := by
  simp [List.find?_isSome]

theorem Owned.mem_conversations {clientId : String} (h : Owned db c clientId) :
    c ∈ db.conversations.map (·.id) := by
  obtain ⟨record, hfind, -⟩ := h
  rw [Db.mem_conversations, hfind]
  rfl

theorem Same.owned (h : Same c db db') {clientId : String} (ho : Owned db c clientId) :
    Owned db' c clientId := by
  rw [Owned, h.record]
  exact ho

theorem Same.mem_conversations (h : Same c db db') (hc : c ∈ db.conversations.map (·.id)) :
    c ∈ db'.conversations.map (·.id) := by
  rw [Db.mem_conversations, h.record, ← Db.mem_conversations]
  exact hc

theorem Grows.refl (c : String) (db : Db) : Grows c db db :=
  ⟨⟨[], .nil, fun _ hr => absurd hr List.not_mem_nil, (List.append_nil _).symm⟩, rfl⟩

theorem Grows.trans (h : Grows c db db') (h' : Grows c db' db'') : Grows c db db'' := by
  obtain ⟨⟨rs, hw, hc, hrs⟩, hconv⟩ := h
  obtain ⟨⟨rs', hw', hc', hrs'⟩, hconv'⟩ := h'
  refine ⟨⟨rs ++ rs', hw.append hw', List.forall_mem_append.2 ⟨hc, hc'⟩, ?_⟩, hconv'.trans hconv⟩
  rw [hrs', hrs, List.append_assoc]

theorem Grows.of_appended {rs : List TurnRecord} (h : Appended db rs db') (hw : Whole rs)
    (hc : ∀ r ∈ rs, r.conversationId = c) : Grows c db db' :=
  ⟨⟨rs, hw, hc, h.turns⟩, h.conversations⟩

/-- The turns of the conversation are those before, and whole ones. -/
theorem Grows.turnsOf (h : Grows c db db') :
    ∃ rs, Whole rs ∧ db'.turnsOf c = db.turnsOf c ++ rs := by
  obtain ⟨rs, hw, hc, hrs⟩ := h.rows
  have hfilter : rs.filter (·.conversationId = c) = rs :=
    List.filter_eq_self.2 fun r hr => decide_eq_true (hc r hr)
  exact ⟨rs, hw, by rw [Db.turnsOf, hrs, List.filter_append, hfilter, ← Db.turnsOf]⟩

/-- Another conversation is the same. -/
theorem Grows.same (h : Grows c db db') (hne : c' ≠ c) : Same c' db db' := by
  obtain ⟨rs, -, hc, hrs⟩ := h.rows
  have hfilter : rs.filter (·.conversationId = c') = [] :=
    List.filter_eq_nil_iff.2 fun r hr => by simp [hc r hr, hne.symm]
  refine ⟨?_, congrArg _ h.conversations⟩
  rw [Db.turnsOf, hrs, List.filter_append, hfilter, List.append_nil, ← Db.turnsOf]

theorem Grows.owned (h : Grows c db db') {id clientId : String} (ho : Owned db id clientId) :
    Owned db' id clientId := by
  rw [Owned, h.conversations]
  exact ho

/-- Stored turns stay whole. -/
theorem Grows.whole (h : Grows c db db') (hw : ∀ id, Whole (db.turnsOf id)) (id : String) :
    Whole (db'.turnsOf id) := by
  by_cases hid : id = c
  · subst hid
    obtain ⟨rs, hrs, hturns⟩ := h.turnsOf
    exact hturns ▸ (hw id).append hrs
  · exact (h.same hid).turns ▸ hw id

end Db

/-- A conversation that exists stays the same when another one is created. -/
theorem create_same {db db' : Db} {id clientId : String} {s : ConversationState}
    (h : create db id clientId = .ok (db', s)) :
    db'.turns = db.turns ∧
      ∀ c ∈ db.conversations.map (·.id), Db.Same c db db' := by
  simp only [create, Db.insertConversation] at h
  split_ifs at h
  obtain ⟨rfl, -⟩ := Prod.mk.inj (Except.ok.inj h)
  refine ⟨rfl, fun c hc => ⟨rfl, ?_⟩⟩
  rw [List.find?_append, Option.or_of_isSome (Db.mem_conversations.1 hc)]

theorem persistLast_grows {db db' : Db} {s : ConversationState} {turn : Turn}
    (ht : turn.isTool = false) (h : persistLast db (s.push turn) = .ok db') :
    Db.Grows s.id db db' := by
  simp only [persistLast, ConversationState.push, List.getLast?_concat] at h
  exact .of_appended (Db.appended_of_appendTurns (Except.mapError_eq_ok.1 h)) (.turn ht .nil)
    (List.forall_mem_singleton.2 rfl)

namespace DispatchState

open Db (Grows)

variable {ω : Type} {R : Runtime ω} {nodeId : String}

theorem grows_start (db : Db) (catalog : Catalog) (mode : DispatchMode) (s : ConversationState)
    (input : UserInput) : Grows s.id db (start db catalog mode s input).db := by
  rw [start]
  split
  · exact .refl _ _
  · rename_i hdb
    cases mode with
    | auto => exact @persistLast_grows _ _ _ input.turn rfl hdb
    | direct => exact @persistLast_grows _ _ _ input.turn rfl hdb

/-- A call and its result are stored, or none of them. -/
theorem grows_persist (d : DispatchState) (baseSeq : ℕ) (y : ℕ × TraceEntry) :
    Grows d.state.id d.db (d.persist nodeId baseSeq y).db := by
  rw [persist]
  split
  · rename_i hdb
    refine .of_appended (Db.appended_of_appendTurns (Except.mapError_eq_ok.1 hdb))
      (.pair ⟨rfl, _, _, _, _, _, _, rfl, rfl⟩ .nil) ?_
    exact List.forall_mem_cons.2 ⟨rfl, List.forall_mem_singleton.2 rfl⟩
  · exact .refl _ _

theorem grows_foldl_persist (d : DispatchState) (baseSeq : ℕ) (l : List (ℕ × TraceEntry)) :
    Grows d.state.id d.db (l.foldl (fun d y => d.persist nodeId baseSeq y) d).db := by
  induction l generalizing d with
  | nil => exact .refl _ _
  | cons y l ih =>
    have hstate : (d.persist nodeId baseSeq y).state = d.state := (persist_frame nodeId d _ y).2.1
    exact (grows_persist d baseSeq y).trans (hstate ▸ ih (d.persist nodeId baseSeq y))

theorem grows_insertPlanRun {db db' : Db} {run : PlanRunRecord} (c : String)
    (h : db.insertPlanRun run = .ok db') : Grows c db db' := by
  obtain ⟨hturns, hconv, -⟩ := Db.insertPlanRun_eq_ok h
  exact ⟨⟨[], .nil, fun r hr => absurd hr List.not_mem_nil, by rw [hturns, List.append_nil]⟩, hconv⟩

/-- A step of a dispatch adds turns to its conversation, which stays the same. -/
theorem Step.grows {d d' : DispatchState} {a : DispatchAction ω} (hs : Step R nodeId d a d') :
    Grows d.state.id d.db d'.db ∧ d'.state.id = d.state.id := by
  cases hs with
  | fail | skip | stop => exact ⟨.refl _ _, rfl⟩
  | begin ha hd hv hdb => exact ⟨grows_insertPlanRun _ hdb, rfl⟩
  | next used hd hn => exact ⟨grows_insertPlanRun _ (continuation_eq_some hn).2, rfl⟩
  | finish hd hnil =>
    refine ⟨.refl _ _, ?_⟩
    rw [reconcile_eq, ConversationState.pushAll_eq]
  | act hd hσ =>
    rename_i x b σ
    refine ⟨grows_foldl_persist d _ _, ?_⟩
    rw [advance, (foldl_persist_frame nodeId d x.baseSeq (hooks x σ)).2.1]
  | reply hd =>
    rename_i content model n text trace
    rw [DispatchState.reply]
    split
    · exact ⟨.refl _ _, rfl⟩
    · rename_i hdb
      exact ⟨@persistLast_grows _ _ _ (.assistant text model) rfl hdb, rfl⟩

end DispatchState

/-! ## Loading again -/

/-- The last of whole turns is no call without its result. -/
theorem Whole.getLast_ne {rs : List TurnRecord} (h : Whole rs) {id peerId capability : String}
    {args : Value} :
    (rs.map (·.payload)).getLast? ≠ some (.toolCall id peerId capability args) := by
  induction h with
  | nil => simp
  | @turn r rs hr _ ih =>
    rw [List.map_cons, List.getLast?_cons]
    cases hlast : (rs.map (·.payload)).getLast? with
    | none =>
      rintro he
      have hcall : r.payload = .toolCall id peerId capability args := Option.some.inj he
      exact absurd hr (by simp [hcall, Turn.isTool])
    | some turn => exact hlast ▸ ih
  | @pair call result rs hp _ ih =>
    rw [List.map_cons, List.map_cons, List.getLast?_cons, List.getLast?_cons]
    cases hlast : (rs.map (·.payload)).getLast? with
    | none =>
      obtain ⟨-, _, _, _, _, _, _, -, hresult⟩ := hp
      simp [hresult]
    | some turn => exact hlast ▸ ih

/-- The highest number of the rows, or `m`. -/
def maxSeq (m : ℕ) (rs : List TurnRecord) : ℕ :=
  rs.foldl (fun m r => if m < r.seq then r.seq else m) m

/-- A conversation whose stored turns are whole is loaded as they are. -/
theorem load_whole {db : Db} {id clientId : String} (hw : Whole (db.turnsOf id))
    {s : ConversationState} : load db id clientId = .ok s ↔ db.Owned id clientId ∧
      s = ⟨id, clientId, (db.loadTurns id).map (·.payload), maxSeq 0 (db.loadTurns id)⟩ := by
  rw [load, Db.Owned]
  split
  · rename_i hnone
    simp [hnone]
  · rename_i record hfind
    have hid : record.id = id := by simpa using List.find?_some hfind
    have hvalid : ConversationState.validate ⟨record.id, record.clientId,
        (db.loadTurns id).map (·.payload), maxSeq 0 (db.loadTurns id)⟩ =
        ⟨record.id, record.clientId, (db.loadTurns id).map (·.payload),
          maxSeq 0 (db.loadTurns id)⟩ := by
      rw [ConversationState.validate]
      split
      · rename_i hlast
        exact absurd hlast hw.loadTurns.getLast_ne
      · rfl
    split_ifs with hc
    · simp [hfind, hc]
    · obtain rfl := not_not.1 hc
      change Except.ok (ConversationState.validate ⟨record.id, record.clientId,
        (db.loadTurns id).map (·.payload), maxSeq 0 (db.loadTurns id)⟩) = _ ↔ _
      rw [hvalid, Except.ok.injEq, hid]
      exact ⟨fun he => ⟨⟨record, hfind, rfl⟩, he.symm⟩, fun he => he.2.symm⟩

/-- The state has the turns stored, and numbers the next one beyond them. -/
structure ConversationState.Agrees (db : Db) (s : ConversationState) : Prop where
  turns : s.turns = (db.loadTurns s.id).map (·.payload)
  seq_le : ∀ r ∈ db.turnsOf s.id, r.seq ≤ s.highestSeq

theorem ConversationState.agrees_of_load {db : Db} {id clientId : String} {s : ConversationState}
    (hw : Whole (db.turnsOf id)) (h : load db id clientId = .ok s) :
    s.id = id ∧ s.clientId = clientId ∧ s.Agrees db := by
  obtain ⟨rfl, -, hseq⟩ := load_spec h
  have hs := ((load_whole hw).1 h).2
  exact ⟨rfl, congrArg ConversationState.clientId hs, congrArg ConversationState.turns hs, hseq⟩

namespace ConversationState

/-- The rows of turns pushed one after the other. -/
def rows (s : ConversationState) (turns : List Turn) : List TurnRecord :=
  (s.assigned turns).map fun x => ⟨s.id, x.2, x.1⟩

variable (s : ConversationState) (turns : List Turn)

theorem map_payload_rows : (s.rows turns).map (·.payload) = turns := by
  rw [rows, assigned_eq, List.map_map]
  exact List.zipIdx_map_fst s.nextSeq turns

theorem map_seq_rows : (s.rows turns).map (·.seq) = List.range' s.nextSeq turns.length := by
  rw [rows, assigned_eq, List.map_map]
  exact List.zipIdx_map_snd s.nextSeq turns

theorem rows_cons (turn : Turn) : s.rows (turn :: turns) =
    ⟨s.id, s.nextSeq, turn⟩ :: (s.push turn).rows turns := rfl

theorem rows_append (turns' : List Turn) :
    s.rows (turns ++ turns') = s.rows turns ++ (s.pushAll turns).rows turns' := by
  have hnext : (s.pushAll turns).nextSeq = s.nextSeq + turns.length := by
    simp only [pushAll_eq, nextSeq]
    omega
  rw [rows, rows, rows, assigned_eq, assigned_eq, assigned_eq, List.zipIdx_append, List.map_append,
    hnext, pushAll_eq]

/-- The last of the rows has the highest number. -/
theorem maxSeq_rows : maxSeq s.highestSeq (s.rows turns) = s.highestSeq + turns.length := by
  induction turns generalizing s with
  | nil => rfl
  | cons turn turns ih =>
    have hlt : s.highestSeq < s.nextSeq := Nat.lt_succ_self _
    rw [rows_cons, maxSeq, List.foldl_cons, if_pos hlt, ← maxSeq]
    refine (ih (s.push turn)).trans ?_
    simp only [push, List.length_cons]
    omega

end ConversationState

/-- Rows of one conversation are known by their turns and numbers. -/
theorem map_payload_seq {rs : List TurnRecord} {c : String} (h : ∀ r ∈ rs, r.conversationId = c) :
    ((rs.map fun r => (r.payload, r.seq)).map fun x => ⟨c, x.2, x.1⟩) = rs := by
  rw [List.map_map]
  exact (List.map_congr_left fun r hr => by rw [← h r hr]; rfl).trans (List.map_id rs)

namespace DispatchState

variable {nodeId : String} {db₀ : Db} {s₀ : ConversationState} {input : UserInput}
  {d : DispatchState} {o : DispatchOutcome} {tools : List TurnRecord}

/-- The turns pushed by a dispatch that replied. -/
def pushed (nodeId : String) (input : UserInput) (o : DispatchOutcome) : List Turn :=
  input.turn :: (toolTurns nodeId o.trace ++ [.assistant o.reply o.model])

/-- The rows stored are those of the turns pushed, the steps in any order. -/
theorem Recorded.perm_rows
    (h : Recorded nodeId (db₀.turnsOf s₀.id) s₀ input d o.trace tools)
    (ho : d.stage = .replied o) :
    (d.db.turnsOf s₀.id).Perm (db₀.turnsOf s₀.id ++ s₀.rows (pushed nodeId input o)) := by
  have hrows := h.rows
  rw [ho] at hrows
  have htools : tools.Perm ((s₀.push input.turn).rows (toolTurns nodeId o.trace)) := by
    have hids : ∀ r ∈ tools, r.conversationId = s₀.id := fun r hr => by
      have hmem : r ∈ d.db.turnsOf s₀.id := by
        rw [hrows]
        exact List.mem_append_right _ (List.mem_cons_of_mem _ (List.mem_append_left _ hr))
      simpa using (List.mem_filter.1 hmem).2
    rw [← map_payload_seq hids]
    exact h.assigned.map _
  rw [hrows, pushed, ConversationState.rows_cons, ConversationState.rows_append]
  refine .append_left _ (.cons _ (htools.append (.of_eq ?_)))
  rw [ConversationState.pushAll_eq, Stage.closing, List.map_singleton]
  simp only [ConversationState.rows, ConversationState.assigned, ConversationState.push,
    length_toolTurns, List.map_cons, List.map_nil, ConversationState.nextSeq]

/-- In the order of their numbers, they are the rows before, and those of the
    turns pushed, in order. -/
theorem Recorded.loadTurns (h : Recorded nodeId (db₀.turnsOf s₀.id) s₀ input d o.trace tools)
    (ho : d.stage = .replied o) (hseq : ∀ r ∈ db₀.turnsOf s₀.id, r.seq ≤ s₀.highestSeq) :
    d.db.loadTurns s₀.id = db₀.loadTurns s₀.id ++ s₀.rows (pushed nodeId input o) := by
  have hsorted : (db₀.loadTurns s₀.id ++ s₀.rows (pushed nodeId input o)).Pairwise
      fun r r' => r.seq < r'.seq := by
    refine List.pairwise_append.2 ⟨db₀.pairwise_loadTurns _, List.pairwise_map.1 ?_, ?_⟩
    · rw [ConversationState.map_seq_rows]
      exact List.pairwise_lt_range'
    · intro r hr r' hr'
      have hle := hseq r ((db₀.loadTurns_perm s₀.id).mem_iff.1 hr)
      have hmem : r'.seq ∈ (s₀.rows (pushed nodeId input o)).map (·.seq) :=
        List.mem_map.2 ⟨r', hr', rfl⟩
      rw [ConversationState.map_seq_rows, List.mem_range'_1] at hmem
      exact lt_of_le_of_lt hle hmem.1
  have hperm := (d.db.loadTurns_perm s₀.id).trans ((h.perm_rows ho).trans
    ((db₀.loadTurns_perm s₀.id).symm.append_right _))
  exact hperm.eq_of_pairwise (fun r r' _ _ h h' => absurd h (lt_asymm h'))
    (d.db.pairwise_loadTurns s₀.id) hsorted

/-- After a dispatch that replied, its state is what loading gives. -/
theorem Ledger.load {id clientId : String} (hload : load db₀ id clientId = .ok s₀)
    (hw₀ : Whole (db₀.turnsOf id)) (hl : d.Ledger nodeId (db₀.turnsOf id) s₀ input)
    (ho : d.stage = .replied o) (hw : Whole (d.db.turnsOf id)) (howned : d.db.Owned id clientId) :
    load d.db id clientId = .ok d.state := by
  obtain ⟨rfl, -, hseq⟩ := load_spec hload
  have hs₀ := ((load_whole hw₀).1 hload).2
  obtain ⟨tools, hrec⟩ := hl.recorded (by rw [ho]; rfl) (by rw [ho]; rfl)
  have hstate : d.state = s₀.pushAll (pushed nodeId input o) := by
    rw [hrec.state, ho]
    rfl
  have hclient : s₀.clientId = clientId := congrArg ConversationState.clientId hs₀
  have hturns : s₀.turns = (db₀.loadTurns s₀.id).map (·.payload) :=
    congrArg ConversationState.turns hs₀
  have hmax : s₀.highestSeq = maxSeq 0 (db₀.loadTurns s₀.id) :=
    congrArg ConversationState.highestSeq hs₀
  refine (load_whole hw).2 ⟨howned, ?_⟩
  rw [hstate, ConversationState.pushAll_eq, hrec.loadTurns ho hseq, List.map_append,
    ConversationState.map_payload_rows, ← hturns, maxSeq, List.foldl_append, ← maxSeq, ← maxSeq,
    ← hmax, ConversationState.maxSeq_rows, hclient]

end DispatchState

end N3ur0n
