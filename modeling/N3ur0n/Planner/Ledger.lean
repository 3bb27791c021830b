import N3ur0n.Lib.Slots
import N3ur0n.Planner.Rounds

/-!
# The turns of a dispatch

The turns of a dispatch are numbered twice. In the database, the call and the
result of a step are stored when the step is done, at places reserved for it
after the turn of the user. In memory, they are pushed when the round is over,
in the order of the plan. `Ledger` tells, at every stage, what was stored and
what was pushed since the dispatch started.

* `ledger_run`: it holds along every run of a dispatch of a conversation whose
  turns are all numbered up to its highest number; so, no row is ever refused;
* `Ledger.recorded`: between two rounds, and at the end, the rows stored are the
  turns pushed, with their numbers (`Recorded`).
-/

namespace N3ur0n

open Slots

variable (nodeId : String)

/-- The call of a step, as a turn. -/
def callTurn (e : TraceEntry) : Turn :=
  .toolCall e.callId (peerOf nodeId e) e.capability e.args

/-- The result of a step, as a turn. -/
def resultTurn (e : TraceEntry) : Turn :=
  .toolResult e.callId (peerOf nodeId e) e.capability e.result e.error

/-- The turns of the steps of a trace. -/
def toolTurns (trace : List TraceEntry) : List Turn :=
  trace.flatMap fun e => [callTurn nodeId e, resultTurn nodeId e]

/-- The rows of a step, at the places reserved for it in the block after
    `base`. -/
def pairRows (id : String) (base : ℕ) (y : ℕ × TraceEntry) : List TurnRecord :=
  [⟨id, base + 1 + 2 * y.1, callTurn nodeId y.2⟩,
    ⟨id, base + 1 + 2 * y.1 + 1, resultTurn nodeId y.2⟩]

def UserInput.turn (input : UserInput) : Turn := .user input.text input.attachments

variable {nodeId}

theorem reconcile_eq (s : ConversationState) (trace : List TraceEntry) :
    reconcile nodeId s trace = s.pushAll (toolTurns nodeId trace) := by
  induction trace generalizing s with
  | nil => rfl
  | cons e trace ih =>
    rw [reconcile, List.foldl_cons, ← reconcile, ih]
    rfl

theorem length_toolTurns (trace : List TraceEntry) :
    (toolTurns nodeId trace).length = 2 * trace.length := by
  simp [toolTurns, List.length_flatMap, Nat.mul_comm]

theorem toolTurns_append (trace trace' : List TraceEntry) :
    toolTurns nodeId (trace ++ trace') = toolTurns nodeId trace ++ toolTurns nodeId trace' :=
  List.flatMap_append

theorem mem_pairRows {id : String} {base : ℕ} {w : List (ℕ × TraceEntry)} {r : TurnRecord}
    (h : r ∈ w.flatMap (pairRows nodeId id base)) : r.conversationId = id ∧
      ∃ i ∈ w.map Prod.fst, r.seq = base + 1 + 2 * i ∨ r.seq = base + 1 + 2 * i + 1 := by
  obtain ⟨y, hy, hr⟩ := List.mem_flatMap.1 h
  have hi : y.1 ∈ w.map Prod.fst := List.mem_map.2 ⟨y, hy, rfl⟩
  rcases List.mem_cons.1 hr with rfl | hr
  · exact ⟨rfl, y.1, hi, .inl rfl⟩
  · obtain rfl := List.mem_singleton.1 hr
    exact ⟨rfl, y.1, hi, .inr rfl⟩

/-- The turn which ends the dispatch, once it is stored. -/
def Stage.closing : Stage → List Turn
  | .replied o => [.assistant o.reply o.model]
  | _ => []

/-- The turns of the conversation are stored up to its highest number. -/
structure Synced (db : Db) (s : ConversationState) : Prop where
  conversation : s.id ∈ db.conversations.map (·.id)
  seq_le : ∀ r ∈ db.turnsOf s.id, r.seq ≤ s.highestSeq

namespace DispatchState

variable {ω : Type} {R : Runtime ω}

variable (nodeId) in
/-- Since the state `s₀` of the conversation, with the rows `rows₀`, the turn of
    the user and the steps `w` were stored; the turn of the user and the steps
    of `trace` were pushed. -/
structure Booked (rows₀ : List TurnRecord) (s₀ : ConversationState) (input : UserInput)
    (d : DispatchState) (trace : List TraceEntry) (w : List (ℕ × TraceEntry)) : Prop where
  conversation : s₀.id ∈ d.db.conversations.map (·.id)
  refused : d.refused = []
  rows : d.db.turnsOf s₀.id =
    rows₀ ++ ⟨s₀.id, s₀.nextSeq, input.turn⟩ :: w.flatMap (pairRows nodeId s₀.id s₀.nextSeq)
  state : d.state = s₀.pushAll (input.turn :: toolTurns nodeId trace)

variable (nodeId) in
/-- What was stored and pushed, at every stage. -/
def Ledger (rows₀ : List TurnRecord) (s₀ : ConversationState) (input : UserInput)
    (d : DispatchState) : Prop :=
  match d.stage with
  | .compiling | .chatting => Booked nodeId rows₀ s₀ input d [] []
  | .executing x => x.baseSeq = s₀.nextSeq ∧ ∃ w, w.Perm (numbered x.earlierTrace) ∧
    Booked nodeId rows₀ s₀ input d x.earlierTrace
      (w ++ shift x.earlierTrace.length x.state.hooked)
  | .deciding _ baseSeq r => baseSeq = s₀.nextSeq ∧ ∃ w, w.Perm (numbered r.run.trace) ∧
    Booked nodeId rows₀ s₀ input d r.run.trace w
  | .reflecting _ _ trace => ∃ w, w.Perm (numbered trace) ∧
    Booked nodeId rows₀ s₀ input d trace w
  | .replied o => ∃ d₁ w, w.Perm (numbered o.trace) ∧ Booked nodeId rows₀ s₀ input d₁ o.trace w ∧
    d₁.db.Appended [⟨s₀.id, d₁.state.nextSeq, .assistant o.reply o.model⟩] d.db ∧
    d.state = d₁.state.pushAssistant o.reply o.model ∧ d.refused = []
  | .failed _ => ∃ d₁ trace w, Booked nodeId rows₀ s₀ input d₁ trace w ∧ d.db = d₁.db ∧
    d.refused = []

variable {rows₀ : List TurnRecord} {s₀ : ConversationState} {input : UserInput}
  {d : DispatchState} {trace : List TraceEntry} {w : List (ℕ × TraceEntry)}

theorem Booked.id_eq (h : Booked nodeId rows₀ s₀ input d trace w) : d.state.id = s₀.id := by
  rw [h.state, ConversationState.pushAll_eq]

/-- The numbers pushed go on from that of the user. -/
theorem Booked.nextSeq_eq (h : Booked nodeId rows₀ s₀ input d trace w) :
    d.state.nextSeq = s₀.nextSeq + 2 * trace.length + 1 := by
  rw [h.state, ConversationState.pushAll_eq]
  simp only [ConversationState.nextSeq, List.length_cons, length_toolTurns]
  omega

/-- Where the rows are. -/
theorem Booked.seq_cases (h : Booked nodeId rows₀ s₀ input d trace w)
    (h₀ : ∀ r ∈ rows₀, r.seq ≤ s₀.highestSeq) {r : TurnRecord} (hr : r ∈ d.db.turnsOf s₀.id) :
    r.seq ≤ s₀.nextSeq ∨ ∃ i ∈ w.map Prod.fst,
      r.seq = s₀.nextSeq + 1 + 2 * i ∨ r.seq = s₀.nextSeq + 1 + 2 * i + 1 := by
  rw [h.rows] at hr
  rcases List.mem_append.1 hr with hr | hr
  · exact .inl ((h₀ r hr).trans (Nat.le_succ _))
  · rcases List.mem_cons.1 hr with rfl | hr
    · exact .inl le_rfl
    · exact .inr (mem_pairRows hr).2

/-- The places of a step not stored yet are free: the hook stores it. -/
theorem Booked.persist (h : Booked nodeId rows₀ s₀ input d trace w)
    (h₀ : ∀ r ∈ rows₀, r.seq ≤ s₀.highestSeq) {y : ℕ × TraceEntry} (hy : y.1 ∉ w.map Prod.fst) :
    Booked nodeId rows₀ s₀ input (d.persist nodeId s₀.nextSeq y) trace (w ++ [y]) := by
  have hids : ∀ r ∈ pairRows nodeId s₀.id s₀.nextSeq y, r.conversationId = s₀.id := by
    simp [pairRows]
  -- The rows so far are at the places of other steps, or before the block.
  have hfree : ∀ r ∈ pairRows nodeId s₀.id s₀.nextSeq y,
      r.seq ∉ (d.db.turnsOf s₀.id).map (·.seq) := fun r hr hm => by
    obtain ⟨r', hr', he⟩ := List.mem_map.1 hm
    have hseq : r.seq = s₀.nextSeq + 1 + 2 * y.1 ∨ r.seq = s₀.nextSeq + 1 + 2 * y.1 + 1 := by
      rcases List.mem_cons.1 hr with rfl | hr
      · exact .inl rfl
      · exact .inr (List.mem_singleton.1 hr ▸ rfl)
    rcases h.seq_cases h₀ hr' with hle | ⟨i, hi, hsi⟩
    · omega
    · have hne : i ≠ y.1 := fun heq => hy (heq ▸ hi)
      omega
  obtain ⟨db', hdb, ha⟩ := Db.appendTurns_of_seq h.conversation hids (by simp [pairRows]) hfree
  have hpersist : d.persist nodeId s₀.nextSeq y = { d with db := db' } := by
    have hok : persistToolPairAt d.db d.state.id s₀.nextSeq y.1 y.2.callId (peerOf nodeId y.2)
        y.2.capability y.2.args y.2.result y.2.error = .ok db' := by
      rw [h.id_eq]
      exact Except.mapError_eq_ok.2 hdb
    simp only [DispatchState.persist, hok]
  rw [hpersist]
  refine ⟨ha.conversations ▸ h.conversation, h.refused, ?_, h.state⟩
  rw [ha.turnsOf hids, h.rows, List.append_assoc, List.cons_append, List.flatMap_append,
    List.flatMap_singleton]

theorem Booked.foldl_persist (h : Booked nodeId rows₀ s₀ input d trace w)
    (h₀ : ∀ r ∈ rows₀, r.seq ≤ s₀.highestSeq) {l : List (ℕ × TraceEntry)}
    (hn : ((w ++ l).map Prod.fst).Nodup) : Booked nodeId rows₀ s₀ input
      (l.foldl (fun d y => d.persist nodeId s₀.nextSeq y) d) trace (w ++ l) := by
  induction l generalizing d w with
  | nil => rwa [List.append_nil]
  | cons y l ih =>
    have hy : y.1 ∉ w.map Prod.fst := fun hm => by
      rw [List.map_append, List.nodup_append] at hn
      exact hn.2.2 _ hm _ (List.mem_map.2 ⟨y, List.mem_cons_self, rfl⟩) rfl
    rw [List.foldl_cons, List.append_cons]
    exact ih (h.persist h₀ hy) (by rwa [← List.append_cons])

/-- Only the turns, the refusals and the conversation in memory matter. -/
theorem Booked.of_eq (h : Booked nodeId rows₀ s₀ input d trace w) {d' : DispatchState}
    (hturns : d'.db.turns = d.db.turns) (hconv : d'.db.conversations = d.db.conversations)
    (hrefused : d'.refused = d.refused) (hstate : d'.state = d.state) :
    Booked nodeId rows₀ s₀ input d' trace w := by
  refine ⟨hconv ▸ h.conversation, hrefused.trans h.refused, ?_, hstate.trans h.state⟩
  rw [Db.turnsOf, hturns, ← Db.turnsOf, h.rows]

/-- When the steps stored are those pushed, the conversation is synced. -/
theorem Booked.synced (h : Booked nodeId rows₀ s₀ input d trace w)
    (h₀ : ∀ r ∈ rows₀, r.seq ≤ s₀.highestSeq) (hw : w.Perm (numbered trace)) :
    Synced d.db d.state := by
  refine ⟨h.id_eq ▸ h.conversation, fun r hr => ?_⟩
  have hnext := h.nextSeq_eq
  rw [ConversationState.nextSeq] at hnext
  rw [h.id_eq] at hr
  rcases h.seq_cases h₀ hr with hle | ⟨i, hi, hri⟩
  · omega
  · have hlt : i < trace.length := by
      have hmem := (hw.map Prod.fst).mem_iff.1 hi
      rwa [map_fst_numbered, List.mem_range] at hmem
    omega

/-- While the dispatch waits, the steps of a trace are booked. -/
theorem booked_of_waits (hd : d.stage.waits) (hl : Ledger nodeId rows₀ s₀ input d) :
    ∃ trace w, w.Perm (numbered trace) ∧ Booked nodeId rows₀ s₀ input d trace w ∧
      ∀ t ∈ d.stage.trace?, t = trace := by
  rw [Ledger] at hl
  cases hs : d.stage with
  | compiling | chatting =>
    rw [hs] at hl
    exact ⟨[], [], List.Perm.nil, hl, fun t ht => (Option.some.inj ht).symm⟩
  | reflecting n bb trace =>
    rw [hs] at hl
    obtain ⟨w, hw, hb⟩ := hl
    exact ⟨trace, w, hw, hb, fun t ht => (Option.some.inj ht).symm⟩
  | executing x | deciding t b r | replied o | failed e =>
    exact absurd hd (by simp [hs, Stage.waits])

/-- A round starts: nothing of it was stored yet. -/
theorem ledger_execute (hb : Booked nodeId rows₀ s₀ input d trace w)
    (hw : w.Perm (numbered trace)) {db : Db} {startedAt : ℤ} {baseSeq : ℕ}
    {earlier : Option Rounds} {p : Plan} {callId : ℕ → String} {run : PlanRunRecord}
    (hdb : d.db.insertPlanRun run = .ok db) (hbase : baseSeq = s₀.nextSeq)
    (htrace : (match earlier with | none => [] | some r => r.run.trace) = trace) :
    Ledger nodeId rows₀ s₀ input (d.execute R db startedAt baseSeq earlier p callId) := by
  obtain ⟨hturns, hconv, -⟩ := Db.insertPlanRun_eq_ok hdb
  subst htrace
  refine ⟨hbase, w, hw, ?_⟩
  rw [ExecState.initial_hooked]
  simp only [shift, List.map_nil, List.append_nil]
  exact hb.of_eq hturns hconv rfl rfl

/-- One more step. -/
theorem ledger_step (h₀ : ∀ r ∈ rows₀, r.seq ≤ s₀.highestSeq) (ho : Ongoing R d)
    {a : DispatchAction ω} {d' : DispatchState} (hs : Step R nodeId d a d')
    (hl : Ledger nodeId rows₀ s₀ input d) :
    Ledger nodeId rows₀ s₀ input d' := by
  cases hs with
  | fail e ha hd =>
    obtain ⟨trace, w, -, hb, -⟩ := booked_of_waits hd hl
    exact ⟨d, trace, w, hb, rfl, hb.refused⟩
  | skip ha hd =>
    simp only [Ledger, hd] at hl
    exact ⟨[], List.Perm.nil, hl.of_eq rfl rfl rfl rfl⟩
  | begin ha hd hv hdb =>
    simp only [Ledger, hd] at hl
    refine ledger_execute hl List.Perm.nil hdb ?_ rfl
    rw [hl.nextSeq_eq]
    rfl
  | act hd hσ =>
    rename_i x b σ
    simp only [Ledger, hd] at hl
    obtain ⟨hbase, w, hw, hb⟩ := hl
    obtain ⟨hv, _, hrun⟩ := ho x (by rw [hd]; rfl)
    have hI := ExecState.inv_execute (Plan.valid_of_validatePlan hv).nodup
      (Run.run_snoc.2 ⟨x.state, hrun, hσ⟩)
    obtain ⟨l, hl⟩ := ExecState.step_hooked hσ
    have hhooks : hooks x σ = shift x.earlierTrace.length l := by
      rw [hooks, ← hl, List.drop_left]
      rfl
    have hall : w ++ shift x.earlierTrace.length x.state.hooked ++
        shift x.earlierTrace.length l = w ++ shift x.earlierTrace.length σ.hooked := by
      rw [← hl, List.append_assoc, shift, shift, shift, List.map_append]
    -- The places of the rounds before come first.
    have hn : ((w ++ shift x.earlierTrace.length σ.hooked).map Prod.fst).Nodup := by
      rw [List.map_append, map_fst_shift]
      refine List.nodup_append.2 ⟨?_, hI.hooked_nodup.map fun i j hij => by simpa using hij, ?_⟩
      · rw [(hw.map Prod.fst).nodup_iff, map_fst_numbered]
        exact List.nodup_range
      · rintro i hi j hj rfl
        have hi' := (hw.map Prod.fst).mem_iff.1 hi
        rw [map_fst_numbered, List.mem_range] at hi'
        obtain ⟨k, -, rfl⟩ := List.mem_map.1 hj
        omega
    refine ⟨hbase, w, hw, ?_⟩
    rw [advance, hbase, hhooks]
    exact (hall ▸ hb.foldl_persist h₀ (hall ▸ hn)).of_eq rfl rfl rfl rfl
  | finish hd hnil =>
    rename_i x entries
    simp only [Ledger, hd] at hl
    obtain ⟨hbase, w, hw, hb⟩ := hl
    obtain ⟨hv, _, hrun⟩ := ho x (by rw [hd]; rfl)
    have hval := Plan.valid_of_validatePlan hv
    have hperm := (ExecState.inv_execute hval.nodup hrun).hooked_perm hval.nodup hval.acyclic hnil
    refine ⟨hbase, w ++ shift x.earlierTrace.length x.state.hooked, ?_, ?_⟩
    · rw [finish_trace, numbered_append]
      exact hw.append (hperm.map _)
    · refine ⟨hb.conversation, hb.refused, hb.rows, ?_⟩
      rw [finish_trace, toolTurns_append, ← List.cons_append, ConversationState.pushAll_append,
        ← hb.state, reconcile_eq]
  | next used hd hn =>
    simp only [Ledger, hd] at hl
    obtain ⟨hbase, w, hw, hb⟩ := hl
    exact ledger_execute hb hw (continuation_eq_some hn).2 hbase rfl
  | stop used hd hn =>
    simp only [Ledger, hd] at hl
    obtain ⟨-, w, hw, hb⟩ := hl
    exact ⟨w, hw, hb.of_eq rfl rfl rfl rfl⟩
  | reply hd =>
    rename_i content model n text trace
    have hwaits : d.stage.waits ∧ d.stage.trace? = some trace := by
      rcases hd with ⟨bb, hd⟩ | ⟨hd, rfl⟩
      · exact ⟨by rw [hd]; rfl, by rw [hd]; rfl⟩
      · exact ⟨by rw [hd]; rfl, by rw [hd]; rfl⟩
    obtain ⟨trace', w, hw, hb, htr⟩ := booked_of_waits hwaits.1 hl
    obtain rfl := htr trace hwaits.2
    obtain ⟨hconv, hseq⟩ := hb.synced h₀ hw
    obtain ⟨db', hdb, ha⟩ := @persistLast_push d.db d.state (.assistant text model) hconv hseq
    have hreply : d.reply n text model trace = { d with
        db := db'
        state := d.state.pushAssistant text model
        stage := .replied ⟨n, text, model, trace⟩ } := by
      simp only [reply, ConversationState.pushAssistant, hdb]
    rw [hreply]
    exact ⟨d, w, hw, hb, hb.id_eq ▸ ha, rfl, hb.refused⟩

/-- The turn of the user is stored. -/
theorem ledger_start {db : Db} (h : Synced db s₀) (catalog : Catalog) (mode : DispatchMode)
    (input : UserInput) :
    Ledger nodeId (db.turnsOf s₀.id) s₀ input (start db catalog mode s₀ input) := by
  obtain ⟨db', hdb, ha⟩ := @persistLast_push db s₀ input.turn h.conversation h.seq_le
  have hok : persistLast db (s₀.pushUserInput input) = .ok db' := hdb
  have hrows : db'.turnsOf s₀.id = db.turnsOf s₀.id ++ [⟨s₀.id, s₀.nextSeq, input.turn⟩] :=
    ha.turnsOf (by simp)
  cases mode with
  | auto =>
    simp only [start, hok]
    exact ⟨ha.conversations ▸ h.conversation, rfl, hrows, rfl⟩
  | direct =>
    simp only [start, hok]
    exact ⟨ha.conversations ▸ h.conversation, rfl, hrows, rfl⟩

/-- At any stage, nothing was refused, and the rows are those of some steps, with
    that of the reply when there is one. -/
theorem Ledger.rows (hl : Ledger nodeId rows₀ s₀ input d) : d.refused = [] ∧
    s₀.id ∈ d.db.conversations.map (·.id) ∧
      ∃ (w : List (ℕ × TraceEntry)) (closing : List TurnRecord),
        d.db.turnsOf s₀.id =
      rows₀ ++ ⟨s₀.id, s₀.nextSeq, input.turn⟩ ::
        (w.flatMap (pairRows nodeId s₀.id s₀.nextSeq) ++ closing) ∧
      (closing = [] ∨ ∃ r, closing = [r] ∧ r.payload.isTool = false) := by
  have hbooked {d₁ : DispatchState} {trace : List TraceEntry} {w : List (ℕ × TraceEntry)}
      (hb : Booked nodeId rows₀ s₀ input d₁ trace w) (hdb : d.db = d₁.db) (hr : d.refused = []) :
      d.refused = [] ∧ s₀.id ∈ d.db.conversations.map (·.id) ∧
        ∃ (w : List (ℕ × TraceEntry)) (closing : List TurnRecord),
        d.db.turnsOf s₀.id =
        rows₀ ++ ⟨s₀.id, s₀.nextSeq, input.turn⟩ ::
          (w.flatMap (pairRows nodeId s₀.id s₀.nextSeq) ++ closing) ∧
        (closing = [] ∨ ∃ r, closing = [r] ∧ r.payload.isTool = false) :=
    ⟨hr, hdb ▸ hb.conversation, w, [], by rw [hdb, hb.rows, List.append_nil], .inl rfl⟩
  rw [Ledger] at hl
  split at hl
  · exact hbooked hl rfl hl.refused
  · exact hbooked hl rfl hl.refused
  · obtain ⟨-, w, -, hb⟩ := hl
    exact hbooked hb rfl hb.refused
  · obtain ⟨-, w, -, hb⟩ := hl
    exact hbooked hb rfl hb.refused
  · obtain ⟨w, -, hb⟩ := hl
    exact hbooked hb rfl hb.refused
  · obtain ⟨d₁, w, -, hb, ha, -, hr⟩ := hl
    rename_i o _
    refine ⟨hr, ha.conversations ▸ hb.conversation, w,
      [⟨s₀.id, d₁.state.nextSeq, .assistant o.reply o.model⟩], ?_, .inr ⟨_, rfl, rfl⟩⟩
    rw [ha.turnsOf (by simp), hb.rows, List.append_assoc, List.cons_append]
  · obtain ⟨d₁, trace, w, hb, hdb, hr⟩ := hl
    exact hbooked hb hdb hr

variable (nodeId) in
/-- What a dispatch which is not executing anything has left: the rows `tools`
    of the steps of `trace` after that of the user, and the same turns, pushed in
    order. -/
structure Recorded (rows₀ : List TurnRecord) (s₀ : ConversationState) (input : UserInput)
    (d : DispatchState) (trace : List TraceEntry) (tools : List TurnRecord) : Prop where
  rows : d.db.turnsOf s₀.id = rows₀ ++ ⟨s₀.id, s₀.nextSeq, input.turn⟩ :: (tools ++
    d.stage.closing.map fun turn => ⟨s₀.id, s₀.nextSeq + 2 * trace.length + 1, turn⟩)
  /-- The rows of the steps fill the block after the turn of the user. -/
  seqs : (tools.map (·.seq)).Perm (List.range' (s₀.nextSeq + 1) (2 * trace.length))
  /-- The call and the result of the step `i` are next to each other. -/
  pairs : ∀ i e, (i, e) ∈ numbered trace →
    ⟨s₀.id, s₀.nextSeq + 1 + 2 * i, callTurn nodeId e⟩ ∈ tools ∧
      ⟨s₀.id, s₀.nextSeq + 1 + 2 * i + 1, resultTurn nodeId e⟩ ∈ tools
  state : d.state = s₀.pushAll (input.turn :: (toolTurns nodeId trace ++ d.stage.closing))
  /-- The rows have the numbers that pushing the same turns gives. -/
  assigned : (tools.map fun r => (r.payload, r.seq)).Perm
    ((s₀.push input.turn).assigned (toolTurns nodeId trace))

/-- The rows of the steps of a trace, in any order, with the numbers of the
    turns. -/
theorem perm_pairRows (hw : w.Perm (numbered trace)) (id : String) (base : ℕ) :
    ((w.flatMap (pairRows nodeId id base)).map fun r => (r.payload, r.seq)).Perm
      ((toolTurns nodeId trace).zipIdx (base + 1)) := by
  rw [toolTurns, ← flatMap_numbered (callTurn nodeId) (resultTurn nodeId), List.map_flatMap]
  exact hw.flatMap_right _

/-- Between two rounds, and at the end, the rows of the steps are their turns. -/
theorem Ledger.recorded (hl : Ledger nodeId rows₀ s₀ input d) (ht : d.stage.trace? = some trace)
    (hc : d.stage.current = none) : ∃ tools, Recorded nodeId rows₀ s₀ input d trace tools := by
  obtain ⟨w, hw, hrows, hstate⟩ : ∃ w : List (ℕ × TraceEntry), w.Perm (numbered trace) ∧
      (d.db.turnsOf s₀.id = rows₀ ++ ⟨s₀.id, s₀.nextSeq, input.turn⟩ ::
        (w.flatMap (pairRows nodeId s₀.id s₀.nextSeq) ++
          d.stage.closing.map fun turn => ⟨s₀.id, s₀.nextSeq + 2 * trace.length + 1, turn⟩)) ∧
      d.state = s₀.pushAll (input.turn :: (toolTurns nodeId trace ++ d.stage.closing)) := by
    -- Without a reply, the ledger says it.
    have hopen {w : List (ℕ × TraceEntry)} (hb : Booked nodeId rows₀ s₀ input d trace w)
        (hn : d.stage.closing = []) :
        d.db.turnsOf s₀.id = rows₀ ++ ⟨s₀.id, s₀.nextSeq, input.turn⟩ ::
          (w.flatMap (pairRows nodeId s₀.id s₀.nextSeq) ++
            d.stage.closing.map fun turn => ⟨s₀.id, s₀.nextSeq + 2 * trace.length + 1, turn⟩) ∧
        d.state = s₀.pushAll (input.turn :: (toolTurns nodeId trace ++ d.stage.closing)) := by
      rw [hn, List.map_nil, List.append_nil, List.append_nil]
      exact ⟨hb.rows, hb.state⟩
    rw [Ledger] at hl
    cases hs : d.stage with
    | compiling | chatting =>
      rw [hs] at hl ht
      obtain rfl := Option.some.inj ht
      exact ⟨[], List.Perm.nil, hs ▸ hopen hl (by rw [hs]; rfl)⟩
    | executing x => exact absurd hc (by simp [hs, Stage.current])
    | deciding startedAt baseSeq r =>
      rw [hs] at hl ht
      obtain rfl := Option.some.inj ht
      obtain ⟨-, w, hw, hb⟩ := hl
      exact ⟨w, hw, hs ▸ hopen hb (by rw [hs]; rfl)⟩
    | reflecting n bb trace' =>
      rw [hs] at hl ht
      obtain rfl := Option.some.inj ht
      obtain ⟨w, hw, hb⟩ := hl
      exact ⟨w, hw, hs ▸ hopen hb (by rw [hs]; rfl)⟩
    | replied o =>
      rw [hs] at hl ht
      obtain rfl := Option.some.inj ht
      obtain ⟨d₁, w, hw, hb, ha, hstate, -⟩ := hl
      refine ⟨w, hw, ?_, ?_⟩
      · rw [ha.turnsOf (by simp), hb.rows, hb.nextSeq_eq, List.append_assoc, List.cons_append]
        rfl
      · rw [hstate, hb.state, ← List.cons_append, ConversationState.pushAll_append]
        rfl
    | failed e => exact absurd ht (by simp [hs, Stage.trace?])
  have hassigned := @perm_pairRows nodeId _ _ hw s₀.id s₀.nextSeq
  refine ⟨_, hrows, ?_, fun i e he => ?_, hstate, ?_⟩
  · have hsnd := hassigned.map Prod.snd
    rwa [List.map_map, List.zipIdx_map_snd, length_toolTurns] at hsnd
  · have hmem : (i, e) ∈ w := hw.mem_iff.2 he
    exact ⟨List.mem_flatMap.2 ⟨_, hmem, List.mem_cons_self⟩,
      List.mem_flatMap.2 ⟨_, hmem, List.mem_cons_of_mem _ List.mem_cons_self⟩⟩
  · rw [ConversationState.assigned_eq]
    exact hassigned

/-- Then, the conversation is synced. -/
theorem Ledger.synced (hl : Ledger nodeId rows₀ s₀ input d)
    (h₀ : ∀ r ∈ rows₀, r.seq ≤ s₀.highestSeq) {o : DispatchOutcome}
    (ho : d.stage = .replied o) : Synced d.db d.state ∧ d.state.id = s₀.id := by
  simp only [Ledger, ho] at hl
  obtain ⟨d₁, w, hw, hb, ha, hstate, -⟩ := hl
  obtain ⟨hconv, hseq⟩ := hb.synced h₀ hw
  have hid : d.state.id = s₀.id := by rw [hstate]; exact hb.id_eq
  have hhigh : d.state.highestSeq = d₁.state.nextSeq := by rw [hstate]; rfl
  refine ⟨⟨?_, fun r hr => ?_⟩, hid⟩
  · rw [hid, ha.conversations]
    exact hb.conversation
  · rw [hid, ha.turnsOf (by simp)] at hr
    rw [hhigh]
    rcases List.mem_append.1 hr with hr | hr
    · exact (hseq r (hb.id_eq ▸ hr)).trans (Nat.le_succ _)
    · exact (List.mem_singleton.1 hr) ▸ le_rfl

/-- The ledger is kept along every run of a dispatch. -/
theorem ledger_run {db : Db} (h₀ : Synced db s₀) {catalog : Catalog} {mode : DispatchMode}
    {as : List (DispatchAction ω)}
    (h : Run.run (step R nodeId) (start db catalog mode s₀ input) as = some d) :
    (∃ rounds h, Traced R db.plans as d rounds h) ∧
      Ledger nodeId (db.turnsOf s₀.id) s₀ input d :=
  Run.run_induction (P := fun as d => (∃ rounds h, Traced R db.plans as d rounds h) ∧
      Ledger nodeId (db.turnsOf s₀.id) s₀ input d)
    ⟨⟨[], [], traced_start db catalog mode s₀ input⟩, ledger_start h₀ catalog mode input⟩
    (fun _ _ _ _ ⟨⟨_, _, ht⟩, hl⟩ hstep =>
      ⟨traced_step ht (step_cases hstep), ledger_step h₀.seq_le ht.ongoing (step_cases hstep) hl⟩) h

end DispatchState

end N3ur0n
