import N3ur0n.Chats.Runtime

/-!
# What chats rely on

Requests interfere with each other through the database and the runtimes. What
is true of a request (`Chat.Safe`) stays true whatever the others do, as long as
they do not dispatch the conversation that it dispatches; and it is established
by its own steps, provided that the cache did not fall behind the database when
the state of the conversation is looked up there (`FindsAll`).

* `Cached.Faithful`: what is true of what is cached, even when it fell behind;
* `Serving`: what is true of a dispatch, in a database that others write to;
* `Moves.others`, `Moves.kept`, `Moves.safe`: what a step of a request does to
  the others, to what they share, and to itself;
* `Safe.others`: what a step of another request does to it.
-/

namespace N3ur0n

/-! ## Stored turns -/

/-- What is cached is what loading gives, as long as no turn was stored since;
    afterwards, its numbers are given. -/
structure Cached.Faithful (db : Db) (id : String) (e : Cached) : Prop where
  owned : db.Owned id e.state.clientId
  stored_le : e.stored ≤ (db.turnsOf id).length
  load : e.stored = (db.turnsOf id).length → load db id e.state.clientId = .ok e.state
  behind : e.stored < (db.turnsOf id).length →
    ∃ r ∈ db.turnsOf id, e.state.highestSeq < r.seq

namespace Cached.Faithful

variable {db db' : Db} {id : String} {e : Cached}

theorem same (h : e.Faithful db id) (hs : Db.Same id db db') : e.Faithful db' id := by
  refine ⟨hs.owned h.owned, hs.turns ▸ h.stored_le, fun hl => ?_, hs.turns ▸ h.behind⟩
  rw [hs.load]
  exact h.load (hs.turns ▸ hl)

/-- It stays behind. -/
theorem grows (h : e.Faithful db id) (hg : Db.Grows id db db')
    (hlt : e.stored < (db.turnsOf id).length) :
    e.Faithful db' id ∧ e.stored < (db'.turnsOf id).length := by
  obtain ⟨rs, -, hrs⟩ := hg.turnsOf
  have hlt' : e.stored < (db'.turnsOf id).length := by
    rw [hrs, List.length_append]
    omega
  obtain ⟨r, hr, hseq⟩ := h.behind hlt
  exact ⟨⟨hg.owned h.owned, hlt'.le, fun he => absurd he hlt'.ne, fun _ =>
    ⟨r, hrs ▸ List.mem_append_left _ hr, hseq⟩⟩, hlt'⟩

/-- A turn numbered after all those stored leaves it behind. -/
theorem append (h : e.Faithful db id) {clientId : String} {s : ConversationState}
    (hs : N3ur0n.load db id clientId = .ok s) (hw : Whole (db.turnsOf id))
    (hg : Db.Grows id db db') {r : TurnRecord}
    (hr : db'.turnsOf id = db.turnsOf id ++ [r]) (hseq : r.seq = s.nextSeq) :
    e.Faithful db' id ∧ e.stored < (db'.turnsOf id).length := by
  have hle := h.stored_le
  have hlt : e.stored < (db'.turnsOf id).length := by
    rw [hr, List.length_append, List.length_singleton]
    omega
  refine ⟨⟨hg.owned h.owned, hlt.le, fun he => absurd he hlt.ne, fun _ => ?_⟩, hlt⟩
  rcases hle.lt_or_eq with hbehind | heq
  · obtain ⟨r', hr', hseq'⟩ := h.behind hbehind
    exact ⟨r', hr ▸ List.mem_append_left _ hr', hseq'⟩
  · -- What is cached is numbered as what was loaded.
    have he := ((load_whole hw).1 (h.load heq)).2
    have hs' := ((load_whole hw).1 hs).2
    have hhigh : e.state.highestSeq = s.highestSeq := by rw [he, hs']
    refine ⟨r, hr ▸ List.mem_append_right _ (List.mem_singleton_self r), ?_⟩
    rw [hseq, hhigh]
    exact Nat.lt_succ_self _

end Cached.Faithful

/-- What goes on in memory once the state of the conversation was put there. -/
def Stage.returned : Stage → Bool
  | .replied _ | .failed _ => true
  | _ => false

namespace DispatchState

variable {ω : Type} (R : Runtime ω) (nodeId : String)

/-- A dispatch in progress on the database `db`: it started from what loading
    gave, all its turns were stored, and it leaves what loading gives. -/
structure Serving (db : Db) (q : ChatRequest) (d : DispatchState) : Prop where
  refused : d.refused = []
  id_eq : d.state.id = q.conversationId
  owned : db.Owned q.conversationId q.clientId
  replied : ∀ o, d.stage = .replied o → load db q.conversationId q.clientId = .ok d.state
  ledger : d.stage.returned = false → ∃ db₀ s₀,
    N3ur0n.load db₀ q.conversationId q.clientId = .ok s₀ ∧ Whole (db₀.turnsOf q.conversationId) ∧
    ({ d with db } : DispatchState).Ledger nodeId (db₀.turnsOf q.conversationId) s₀ q.input ∧
    d.Ongoing R

variable {R nodeId}

theorem Booked.same {rows₀ : List TurnRecord} {s₀ : ConversationState} {input : UserInput}
    {d : DispatchState} {trace : List TraceEntry} {w : List (ℕ × TraceEntry)}
    (h : Booked nodeId rows₀ s₀ input d trace w) {db : Db} (hs : Db.Same s₀.id d.db db) :
    Booked nodeId rows₀ s₀ input { d with db } trace w :=
  ⟨hs.mem_conversations h.conversation, h.refused, hs.turns.trans h.rows, h.state⟩

/-- In a dispatch that did not return, only the turns of its conversation
    matter. -/
theorem Ledger.same {rows₀ : List TurnRecord} {s₀ : ConversationState} {input : UserInput}
    {d : DispatchState} (hl : d.Ledger nodeId rows₀ s₀ input) (hr : d.stage.returned = false)
    {db : Db} (hs : Db.Same s₀.id d.db db) :
    ({ d with db } : DispatchState).Ledger nodeId rows₀ s₀ input := by
  rw [Ledger] at hl ⊢
  cases hd : d.stage with
  | compiling | chatting =>
    simp only [hd] at hl ⊢
    exact hd ▸ hl.same hs
  | executing x =>
    simp only [hd] at hl ⊢
    obtain ⟨hbase, w, hw, hb⟩ := hl
    exact ⟨hbase, w, hw, hd ▸ hb.same hs⟩
  | deciding startedAt baseSeq r =>
    simp only [hd] at hl ⊢
    obtain ⟨hbase, w, hw, hb⟩ := hl
    exact ⟨hbase, w, hw, hd ▸ hb.same hs⟩
  | reflecting n bb trace =>
    simp only [hd] at hl ⊢
    obtain ⟨w, hw, hb⟩ := hl
    exact ⟨w, hw, hd ▸ hb.same hs⟩
  | replied o | failed e => exact absurd hr (by simp [hd, Stage.returned])

theorem Step.not_returned {d d' : DispatchState} {a : DispatchAction ω}
    (hs : Step R nodeId d a d') : d.stage.returned = false := by
  cases hs with
  | fail e ha hd =>
    cases hstage : d.stage with
    | replied o | failed e => exact absurd hd (by simp [hstage, Stage.waits])
    | _ => rfl
  | skip ha hd | begin ha hd | act hd | finish hd | next used hd | stop used hd =>
    rw [hd]
    rfl
  | reply hd =>
    rcases hd with ⟨bb, hd⟩ | ⟨hd, -⟩
    · rw [hd]
      rfl
    · rw [hd]
      rfl

/-- The turn of the user is stored after all the others. -/
theorem start_stored {db : Db} {s : ConversationState} (hs : Synced db s) (catalog : Catalog)
    (mode : DispatchMode) (input : UserInput) :
    (start db catalog mode s input).stage.returned = false ∧
      (start db catalog mode s input).state = s.push input.turn ∧
      db.Appended [⟨s.id, s.nextSeq, input.turn⟩] (start db catalog mode s input).db := by
  obtain ⟨db', hdb, ha⟩ := @persistLast_push db s input.turn hs.conversation hs.seq_le
  have hok : persistLast db (s.pushUserInput input) = .ok db' := hdb
  cases mode with
  | auto =>
    simp only [start, hok]
    exact ⟨rfl, rfl, ha⟩
  | direct =>
    simp only [start, hok]
    exact ⟨rfl, rfl, ha⟩

namespace Serving

variable {db db' : Db} {q : ChatRequest} {d d' : DispatchState} {s : ConversationState}

/-- What others do does not matter. -/
theorem same (h : Serving R nodeId db q d) (hs : Db.Same q.conversationId db db') :
    Serving R nodeId db' q d := by
  refine ⟨h.refused, h.id_eq, hs.owned h.owned, fun o ho => ?_, fun hr => ?_⟩
  · rw [hs.load]
    exact h.replied o ho
  · obtain ⟨db₀, s₀, hload, hw, hl, ho⟩ := h.ledger hr
    obtain ⟨hid, -⟩ := load_spec hload
    exact ⟨db₀, s₀, hload, hw, hl.same hr (hid ▸ hs), ho⟩

/-- The dispatch of a conversation that was loaded. -/
theorem start (hload : load db q.conversationId q.clientId = .ok s)
    (hw : Whole (db.turnsOf q.conversationId)) :
    Serving R nodeId (start db q.catalog q.mode s q.input).db q
      (start db q.catalog q.mode s q.input) := by
  obtain ⟨hid, hconv, hseq⟩ := load_spec hload
  have hsync : Synced db s := ⟨hid ▸ hconv, hid ▸ hseq⟩
  obtain ⟨hr, hstate, happ⟩ := start_stored hsync q.catalog q.mode q.input
  have hl : Ledger nodeId (db.turnsOf s.id) s q.input (.start db q.catalog q.mode s q.input) :=
    ledger_start hsync q.catalog q.mode q.input
  refine ⟨hl.rows.1, ?_, ?_, fun o ho => absurd hr (by simp [ho, Stage.returned]), fun _ => ?_⟩
  · rw [hstate]
    exact hid
  · rw [Db.Owned, happ.conversations]
    exact ((load_whole hw).1 hload).1
  · exact ⟨db, s, hload, hw, hid ▸ hl, ongoing_start _ _ _ _ _⟩

/-- One more step. -/
theorem step (h : Serving R nodeId db q d) (hw : ∀ id, Whole (db.turnsOf id))
    {a : DispatchAction ω}
    (hstep : ({ d with db } : DispatchState).step R nodeId a = some d') :
    Serving R nodeId d'.db q d' := by
  have hs := step_cases hstep
  obtain ⟨db₀, s₀, hload, hw₀, hl, ho⟩ := h.ledger hs.not_returned
  obtain ⟨-, -, hseq⟩ := load_spec hload
  obtain ⟨hgrows, hid⟩ := hs.grows
  have ho' : Ongoing R { d with db } := ho
  have hl' := ledger_step hseq ho' hs hl
  have howned := hgrows.owned h.owned
  refine ⟨hl'.rows.1, hid.trans h.id_eq, howned, fun o hd => ?_, fun _ => ?_⟩
  · exact hl'.load hload hw₀ hd (hgrows.whole hw _) howned
  · exact ⟨db₀, s₀, hload, hw₀, hl', ho'.step hs⟩

end Serving

end DispatchState

/-! ## The assertions -/

/-- The request has taken the state of the conversation, to dispatch from it. -/
def Chat.Dispatches (c : Chat) (id : String) : Prop :=
  c.request.conversationId = id ∧ ∃ g w, c.phase = .holding g w ∧ w.dispatches

/-- The turns stored are whole, and what is cached is what was loaded. -/
structure AppState.Kept (S : AppState) : Prop where
  whole : ∀ id, Whole (S.db.turnsOf id)
  faithful : ∀ g id e, (S.runtimes g).cache.lookup id = some e → e.Faithful S.db id

/-- Less is cached than before, and nothing else changes what is loaded. -/
theorem AppState.Kept.fewer {S S' : AppState} (h : S.Kept) (hdb : S'.db = S.db)
    (hcache : ∀ g id e, (S'.runtimes g).cache.lookup id = some e →
      (S.runtimes g).cache.lookup id = some e) : S'.Kept :=
  ⟨hdb ▸ h.whole, fun g id e he => hdb ▸ h.faithful g id e (hcache g id e he)⟩

section Safe

variable {ω : Type} (R : Runtime ω) (nodeId : String)

/-- What is true of a request that holds the lock: it dispatches from what
    loading gives, and leaves every cache behind. -/
def ChatWork.Safe (S : AppState) (g : ℕ) (q : ChatRequest) : ChatWork → Prop
  | .locked | .loading => True
  | .loaded s | .ready s => load S.db q.conversationId q.clientId = .ok s ∧
    ∀ e, (S.runtimes g).cache.lookup q.conversationId = some e →
      e.stored = (S.db.turnsOf q.conversationId).length
  | .running d => d.Serving R nodeId S.db q ∧
    ∀ g e, (S.runtimes g).cache.lookup q.conversationId = some e →
      e.stored < (S.db.turnsOf q.conversationId).length

/-- What is true of a request in any phase. -/
def Chat.Safe (S : AppState) (k : ℕ) (c : Chat) : Prop :=
  match c.phase with
  | .entered => True
  | .preparing g => g ≤ S.current
  | .waiting g => g ≤ S.current ∧ S.db.Owned c.request.conversationId c.request.clientId
  | .holding g w => g ≤ S.current ∧ S.db.Owned c.request.conversationId c.request.clientId ∧
    (S.runtimes g).convLocks.lookup c.request.conversationId = some k ∧
    w.Safe R nodeId S g c.request

end Safe

/-- What others find after a step of the request `k`, which may write to the
    conversations `own`. -/
structure AppState.Others (k : ℕ) (own : String → Prop) (S S' : AppState) : Prop where
  current : S'.current = S.current
  locks : ∀ g id k', k' ≠ k → (S.runtimes g).convLocks.lookup id = some k' →
    (S'.runtimes g).convLocks.lookup id = some k'
  owned : ∀ {id clientId}, S.db.Owned id clientId → S'.db.Owned id clientId
  same : ∀ id, ¬own id → Db.Same id S.db S'.db
  cache : ∀ g id e, ¬own id → (S'.runtimes g).cache.lookup id = some e →
    (S.runtimes g).cache.lookup id = some e

namespace AppState.Others

variable {k : ℕ} {own : String → Prop} {S S' S'' : AppState} {g : ℕ}

theorem refl : Others k own S S :=
  ⟨rfl, fun _ _ _ _ h => h, fun h => h, fun _ _ => .refl _ _, fun _ _ _ _ h => h⟩

theorem trans (h : Others k own S S') (h' : Others k own S' S'') : Others k own S S'' :=
  ⟨h'.current.trans h.current, fun g id k' hk hl => h'.locks g id k' hk (h.locks g id k' hk hl),
    fun ho => h'.owned (h.owned ho), fun id hid => (h.same id hid).trans (h'.same id hid),
    fun g id e hid he => h.cache g id e hid (h'.cache g id e hid he)⟩

theorem onRuntime {f : NodeRuntime → NodeRuntime}
    (hlock : ∀ id k', k' ≠ k → (S.runtimes g).convLocks.lookup id = some k' →
      (f (S.runtimes g)).convLocks.lookup id = some k')
    (hcache : ∀ id e, ¬own id → (f (S.runtimes g)).cache.lookup id = some e →
      (S.runtimes g).cache.lookup id = some e) : Others k own S (S.onRuntime g f) := by
  refine ⟨rfl, fun g' id k' hk hl => ?_, fun h => h, fun _ _ => .refl _ _,
    fun g' id e hid he => ?_⟩
  · rw [onRuntime_runtimes]
    split_ifs with hg
    · exact hlock id k' hk (hg ▸ hl)
    · exact hl
  · rw [onRuntime_runtimes] at he
    split_ifs at he with hg
    · exact hg ▸ hcache id e hid he
    · exact he

/-- A lock is given back by its holder. -/
theorem erase {id : String} (hheld : (S.runtimes g).convLocks.lookup id = some k)
    {f : NodeRuntime → NodeRuntime}
    (hlocks : (f (S.runtimes g)).convLocks = (S.runtimes g).convLocks.erase id)
    (hcache : (f (S.runtimes g)).cache = (S.runtimes g).cache) :
    Others k own S (S.onRuntime g f) := by
  refine onRuntime (fun id' k' hk hl => ?_) fun id' e _ he => hcache ▸ he
  have hne : id' ≠ id := by
    rintro rfl
    exact hk (Option.some.inj (hl.symm.trans hheld))
  rw [hlocks, Finmap.lookup_erase_ne hne]
  exact hl

theorem storeInCache {s : ConversationState} (hown : own s.id) :
    Others k own S (S.storeInCache g s) := by
  refine onRuntime (fun id k' _ hl => hl) fun id e hid he => ?_
  rcases Lru.lookup_put he with ⟨rfl, -⟩ | ⟨-, he⟩
  · exact absurd hown hid
  · exact he

theorem evict {id : String} : Others k own S (S.onRuntime g (·.evict id)) := by
  refine onRuntime (fun id k' _ hl => hl) fun id' e _ he => ?_
  rw [NodeRuntime.evict, Lru.lookup_pop] at he
  split_ifs at he
  exact he

end AppState.Others

/-! ## Steps -/

namespace Chat

open AppState (Kept Others)

variable {ω : Type} {R : Runtime ω} {nodeId : String} {S S' : AppState} {k : ℕ} {c : Chat}
  {o : Chat ⊕ ChatResponse} {g : ℕ} {w : ChatWork}

theorem Safe.holding (h : c.Safe R nodeId S k) (hc : c.phase = .holding g w) :
    g ≤ S.current ∧ (S.runtimes g).convLocks.lookup c.request.conversationId = some k ∧
      w.Safe R nodeId S g c.request := by
  rw [Safe, hc] at h
  exact ⟨h.1, h.2.2⟩

/-- A request is checked before it waits. -/
theorem Safe.owned (h : c.Safe R nodeId S k) (hc : c.phase = .holding g w) :
    S.db.Owned c.request.conversationId c.request.clientId := by
  rw [Safe, hc] at h
  exact h.2.1

theorem dispatches_of_phase (hc : c.phase = .holding g w) (hw : w.dispatches) :
    c.Dispatches c.request.conversationId := ⟨rfl, g, w, hc, hw⟩

theorem Safe.owned_of_dispatches (h : c.Safe R nodeId S k) {id : String} (hd : c.Dispatches id) :
    S.db.Owned id c.request.clientId := by
  obtain ⟨rfl, g, w, hc, -⟩ := hd
  exact h.owned hc

/-- The state that a request caches is one of its conversation. -/
theorem Safe.id_eq {s : ConversationState} (h : c.Safe R nodeId S k)
    (hc : c.phase = .holding g (.loaded s)) : s.id = c.request.conversationId :=
  (load_spec (h.holding hc).2.2.1).1

theorem Moves.others (h : c.Moves R nodeId S k S' o) (hs : c.Safe R nodeId S k) :
    Others k c.Dispatches S S' := by
  cases h with
  | enter | reject | prepare => exact .refl
  | lock hc hfree =>
    refine .onRuntime (fun id k' hk hl => ?_) fun id e _ he => he
    -- the lock that is taken was free, so no other request held it
    have hne : id ≠ c.request.conversationId := by
      rintro rfl
      exact hfree (Finmap.lookup_isSome.1 (by rw [hl]; rfl))
    rw [NodeRuntime.lock, Finmap.lookup_insert_of_ne _ hne]
    exact hl
  | permit hc => exact .onRuntime (fun id k' _ hl => hl) fun id e _ he => he
  | hit hc | miss hc =>
    refine .onRuntime (fun id k' _ hl => hl) fun id e _ he => ?_
    rwa [Lru.lookup_get] at he
  | unavailable r hc =>
    refine .trans (.onRuntime (fun id k' _ hl => hl) fun id e _ he => ?_) (.erase ?_ rfl rfl)
    · rwa [Lru.lookup_get] at he
    · rw [AppState.onRuntime_runtimes, if_pos rfl]
      exact (hs.holding hc).2.1
  | cache hc => exact .storeInCache (hs.id_eq hc ▸ dispatches_of_phase hc trivial)
  | start hc hd =>
    rename_i g s d
    have hid : s.id = c.request.conversationId := (load_spec (hs.holding hc).2.2.1).1
    subst hd
    -- turns are only appended to the conversation of the dispatch
    have hgrows := DispatchState.grows_start S.db c.request.catalog c.request.mode s
      c.request.input
    refine ⟨rfl, fun _ _ _ _ hl => hl, hgrows.owned, fun id hne => hgrows.same ?_,
      fun _ _ _ _ he => he⟩
    rintro rfl
    exact hne (hid ▸ dispatches_of_phase hc trivial)
  | act hc hd =>
    obtain ⟨hgrows, -⟩ := (DispatchState.step_cases hd).grows
    refine ⟨rfl, fun _ _ _ _ hl => hl, hgrows.owned, fun id hne => hgrows.same ?_,
      fun _ _ _ _ he => he⟩
    rintro rfl
    exact hne ((hs.holding hc).2.2.1.id_eq ▸ dispatches_of_phase hc trivial)
  | reply hc ho =>
    refine .trans (.storeInCache ?_) (.erase ?_ rfl rfl)
    · exact (hs.holding hc).2.2.1.id_eq ▸ dispatches_of_phase hc trivial
    · rw [AppState.storeInCache, AppState.onRuntime_runtimes, if_pos rfl]
      exact (hs.holding hc).2.1
  | fail r hc hw =>
    refine .trans .evict (.erase ?_ rfl rfl)
    rw [AppState.onRuntime_runtimes, if_pos rfl]
    exact (hs.holding hc).2.1

/-- The same database, and nothing more in the caches. -/
theorem kept_onRuntime {f : NodeRuntime → NodeRuntime} (hk : S.Kept)
    (hcache : ∀ id e, (f (S.runtimes g)).cache.lookup id = some e →
      (S.runtimes g).cache.lookup id = some e) : (S.onRuntime g f).Kept := by
  refine hk.fewer rfl fun g' id e he => ?_
  rw [AppState.onRuntime_runtimes] at he
  split_ifs at he with hg
  · exact hg ▸ hcache id e he
  · exact he

/-- What is cached now is what loading gives now. -/
theorem kept_storeInCache {s : ConversationState} {id clientId : String} (hk : S.Kept)
    (hload : load S.db id clientId = .ok s) : (S.storeInCache g s).Kept := by
  obtain ⟨rfl, rfl, -⟩ := ConversationState.agrees_of_load (hk.whole _) hload
  refine ⟨hk.whole, fun g' id e he => ?_⟩
  rw [AppState.storeInCache, AppState.onRuntime_runtimes] at he
  split_ifs at he with hg
  · rcases Lru.lookup_put he with ⟨rfl, rfl⟩ | ⟨-, he⟩
    · exact ⟨((load_whole (hk.whole _)).1 hload).1, le_rfl, fun _ => hload,
        fun hlt => absurd hlt (lt_irrefl _)⟩
    · exact hk.faithful g id e he
  · exact hk.faithful g' id e he

/-- A conversation grows, and every cache is left behind. -/
theorem kept_grows {db : Db} {id : String} (hk : S.Kept) (hg : Db.Grows id S.db db)
    (hbehind : ∀ g e, (S.runtimes g).cache.lookup id = some e →
      e.Faithful db id ∧ e.stored < (db.turnsOf id).length) :
    ({ S with db } : AppState).Kept := by
  refine ⟨hg.whole hk.whole, fun g id' e he => ?_⟩
  by_cases hid : id' = id
  · subst hid
    exact (hbehind g e he).1
  · exact (hk.faithful g id' e he).same (hg.same hid)

/-- A dispatch leaves every cache behind when it starts. -/
theorem start_behind {q : ChatRequest} {s : ConversationState} (hk : S.Kept)
    (hload : load S.db q.conversationId q.clientId = .ok s) {e : Cached}
    (he : (S.runtimes g).cache.lookup q.conversationId = some e) :
    e.Faithful (DispatchState.start S.db q.catalog q.mode s q.input).db q.conversationId ∧
      e.stored < ((DispatchState.start S.db q.catalog q.mode s q.input).db.turnsOf
        q.conversationId).length := by
  obtain ⟨hid, hconv, hseq⟩ := load_spec hload
  have hsync : Synced S.db s := ⟨hid ▸ hconv, hid ▸ hseq⟩
  obtain ⟨-, -, happ⟩ := DispatchState.start_stored hsync q.catalog q.mode q.input
  have hrows := happ.turnsOf (List.forall_mem_singleton.2 hid)
  exact (hk.faithful g _ e he).append hload (hk.whole _)
    (hid ▸ DispatchState.grows_start _ _ _ _ _) hrows rfl

theorem Moves.kept (h : c.Moves R nodeId S k S' o) (hs : c.Safe R nodeId S k) (hk : S.Kept) :
    S'.Kept := by
  cases h with
  | enter | reject | prepare => exact hk
  | lock | permit => exact kept_onRuntime hk fun id e he => he
  | hit | miss => exact kept_onRuntime hk fun id e he => by rwa [Lru.lookup_get] at he
  | unavailable =>
    refine kept_onRuntime (kept_onRuntime hk fun id e he => ?_) fun id e he => he
    rwa [Lru.lookup_get] at he
  | cache hc => exact kept_storeInCache hk (hs.holding hc).2.2.1
  | start hc hd =>
    obtain ⟨hload, -⟩ := (hs.holding hc).2.2
    obtain ⟨hid, -⟩ := load_spec hload
    subst hd
    exact kept_grows hk (hid ▸ DispatchState.grows_start _ _ _ _ _) fun g e he =>
      start_behind hk hload he
  | act hc hd =>
    obtain ⟨hserving, hbehind⟩ := (hs.holding hc).2.2
    have hgrows := (DispatchState.step_cases hd).grows.1
    rw [hserving.id_eq] at hgrows
    exact kept_grows hk hgrows fun g e he =>
      (hk.faithful g _ e he).grows hgrows (hbehind g e he)
  | reply hc ho =>
    exact kept_onRuntime (kept_storeInCache hk ((hs.holding hc).2.2.1.replied _ ho))
      fun id e he => he
  | fail =>
    refine kept_onRuntime (kept_onRuntime hk fun id e he => ?_) fun id e he => he
    rw [NodeRuntime.evict, Lru.lookup_pop] at he
    split_ifs at he
    exact he

/-- What is to be found in the cache of its runtime by a request which loads the
    state of its conversation: nothing, or all the turns stored. -/
def FindsAll (S : AppState) (c : Chat) : Prop :=
  ∀ g e, c.phase = .holding g .loading →
    (S.runtimes g).cache.lookup c.request.conversationId = some e →
    e.stored = (S.db.turnsOf c.request.conversationId).length

theorem Moves.safe {c' : Chat} (h : c.Moves R nodeId S k S' (.inl c')) (hs : c.Safe R nodeId S k)
    (hk : S.Kept) (hfinds : c.FindsAll S) : c'.Safe R nodeId S' k := by
  cases h with
  | enter hc => exact le_rfl
  | prepare hc howned =>
    rw [Safe, hc] at hs
    exact ⟨hs, howned⟩
  | lock hc hfree =>
    rw [Safe, hc] at hs
    refine ⟨hs.1, hs.2, ?_, trivial⟩
    rw [AppState.onRuntime_runtimes, if_pos rfl]
    exact Finmap.lookup_insert _
  | permit hc =>
    obtain ⟨hle, hlock, -⟩ := hs.holding hc
    refine ⟨hle, hs.owned hc, ?_, trivial⟩
    rw [AppState.onRuntime_runtimes, if_pos rfl]
    exact hlock
  | hit hc he hclient =>
    obtain ⟨hle, hlock, -⟩ := hs.holding hc
    -- a hit serves the cached turns, which must be all that are stored
    have hall := hfinds _ _ hc he
    have hload := (hk.faithful _ _ _ he).load hall
    rw [hclient] at hload
    refine ⟨hle, hs.owned hc, ?_, hload, fun e' he' => ?_⟩
    · rw [AppState.onRuntime_runtimes, if_pos rfl]
      exact hlock
    · rw [AppState.onRuntime_runtimes, if_pos rfl, Lru.lookup_get] at he'
      obtain rfl := Option.some.inj (he.symm.trans he')
      exact hall
  | miss hc he hload =>
    obtain ⟨hle, hlock, -⟩ := hs.holding hc
    refine ⟨hle, hs.owned hc, ?_, hload, fun e' he' => ?_⟩
    · rw [AppState.onRuntime_runtimes, if_pos rfl]
      exact hlock
    · rw [AppState.onRuntime_runtimes, if_pos rfl, Lru.lookup_get] at he'
      exact absurd (he.symm.trans he') (Option.some_ne_none _).symm
  | cache hc =>
    obtain ⟨hle, hlock, hload, -⟩ := hs.holding hc
    refine ⟨hle, hs.owned hc, ?_, hload, fun e' he' => ?_⟩
    · rw [AppState.storeInCache, AppState.onRuntime_runtimes, if_pos rfl]
      exact hlock
    · rw [AppState.storeInCache, AppState.onRuntime_runtimes, if_pos rfl] at he'
      -- what this request caches counts the turns it has just read
      rcases Lru.lookup_put he' with ⟨hid, rfl⟩ | ⟨hne, -⟩
      · rw [AppState.storeInCache_db]
        exact congrArg (fun id => (S.db.turnsOf id).length) hid.symm
      · exact absurd (hs.id_eq hc).symm hne
  | start hc hd =>
    obtain ⟨hle, hlock, hload, -⟩ := hs.holding hc
    subst hd
    have hserving := @DispatchState.Serving.start _ R nodeId _ _ _ hload (hk.whole _)
    exact ⟨hle, hserving.owned, hlock, hserving, fun g e he =>
      (start_behind hk hload he).2⟩
  | act hc hd =>
    obtain ⟨hle, hlock, hserving, hbehind⟩ := hs.holding hc
    have hgrows := (DispatchState.step_cases hd).grows.1
    rw [hserving.id_eq] at hgrows
    exact ⟨hle, hgrows.owned hserving.owned, hlock, hserving.step hk.whole hd, fun g e he =>
      ((hk.faithful g _ e he).grows hgrows (hbehind g e he)).2⟩

/-! ## Interference -/

theorem Safe.mono (h : c.Safe R nodeId S k) (hcur : S.current ≤ S'.current)
    (hlock : ∀ g ≤ S.current, ∀ id, (S.runtimes g).convLocks.lookup id = some k →
      (S'.runtimes g).convLocks.lookup id = some k)
    (howned : ∀ {id clientId}, S.db.Owned id clientId → S'.db.Owned id clientId)
    (hsame : ∀ id, c.Dispatches id → Db.Same id S.db S'.db)
    (hcache : ∀ g id e, c.Dispatches id → (S'.runtimes g).cache.lookup id = some e →
      (S.runtimes g).cache.lookup id = some e) : c.Safe R nodeId S' k := by
  rw [Safe] at h ⊢
  cases hc : c.phase with
  | entered => exact trivial
  | preparing g =>
    rw [hc] at h
    exact le_trans h hcur
  | waiting g =>
    rw [hc] at h
    exact ⟨h.1.trans hcur, howned h.2⟩
  | holding g w =>
    rw [hc] at h
    obtain ⟨hle, ho, hheld, hw⟩ := h
    refine ⟨hle.trans hcur, howned ho, hlock g hle _ hheld, ?_⟩
    have hown (hd : w.dispatches) : c.Dispatches c.request.conversationId :=
      dispatches_of_phase hc hd
    cases w with
    | locked | loading => exact trivial
    | loaded s | ready s =>
      have hs := hsame _ (hown trivial)
      refine ⟨(hs.load _).trans hw.1, fun e he => ?_⟩
      rw [hs.turns]
      exact hw.2 e (hcache g _ e (hown trivial) he)
    | running d =>
      have hs := hsame _ (hown trivial)
      refine ⟨hw.1.same hs, fun g e he => ?_⟩
      rw [hs.turns]
      exact hw.2 g e (hcache g _ e (hown trivial) he)

/-- The steps of others do not matter, when they write to other conversations. -/
theorem Safe.others (h : c.Safe R nodeId S k) {k' : ℕ} {own : String → Prop} (hk : k ≠ k')
    (ho : Others k' own S S') (hown : ∀ id, c.Dispatches id → ¬own id) : c.Safe R nodeId S' k :=
  h.mono ho.current.ge (fun g _ id hl => ho.locks g id k hk hl) ho.owned
    (fun id hid => ho.same id (hown id hid)) fun g id e hid => ho.cache g id e (hown id hid)

/-- A request that is dropped only releases what it holds. -/
theorem abort_others (h : c.abort S = some S') (hs : c.Safe R nodeId S k) :
    Others k (fun _ => False) S S' ∧ S'.db = S.db ∧
      ∀ g, (S'.runtimes g).cache = (S.runtimes g).cache := by
  have herase {g : ℕ} {w : ChatWork} (hc : c.phase = .holding g w)
      {f : NodeRuntime → NodeRuntime}
      (hf : ∀ rt, (f rt).convLocks = rt.convLocks.erase c.request.conversationId ∧
        (f rt).cache = rt.cache) :
      Others k (fun _ => False) S (S.onRuntime g f) ∧ (S.onRuntime g f).db = S.db ∧
        ∀ g', ((S.onRuntime g f).runtimes g').cache = (S.runtimes g').cache := by
    refine ⟨.erase (hs.holding hc).2.1 (hf _).1 (hf _).2, rfl, fun g' => ?_⟩
    rw [AppState.onRuntime_runtimes]
    split_ifs with hg
    · rw [(hf _).2, hg]
    · rfl
  rw [abort] at h
  split at h
  · exact Option.some.inj h ▸ ⟨.refl, rfl, fun _ => rfl⟩
  · exact Option.some.inj h ▸ ⟨.refl, rfl, fun _ => rfl⟩
  · exact Option.some.inj h ▸ ⟨.refl, rfl, fun _ => rfl⟩
  · rename_i hc
    exact Option.some.inj h ▸ herase hc fun rt => ⟨rfl, rfl⟩
  · rename_i hc
    exact Option.some.inj h ▸ herase hc fun rt => ⟨rfl, rfl⟩

/-- What happens around the requests leaves conversations, locks and caches as
    they are, but for caches that lose entries. -/
theorem env_safe {v : ChatEnv} (h : S.env v = some S') (hk : S.Kept) :
    S'.Kept ∧ ∀ k (c : Chat), c.Safe R nodeId S k → c.Safe R nodeId S' k := by
  cases v with
  | hotReload =>
    obtain rfl := Option.some.inj h
    have hcache : ∀ g id e, (S.hotReload.runtimes g).cache.lookup id = some e →
        (S.runtimes g).cache.lookup id = some e := fun g id e he => by
      rw [AppState.hotReload_runtimes] at he
      split_ifs at he
      · exact absurd he (Option.some_ne_none e).symm
      · exact he
    refine ⟨hk.fewer rfl hcache, fun k c hs => hs.mono (Nat.le_succ _) (fun g hle id hl => ?_)
      (fun h => h) (fun _ _ => .refl _ _) fun g id e _ he => hcache g id e he⟩
    rw [AppState.hotReload_runtimes, if_neg (Nat.lt_succ_of_le hle).ne]
    exact hl
  | evict g id =>
    obtain rfl := Option.some.inj h
    have ho (k : ℕ) : Others k (fun _ => False) S (S.onRuntime g (·.evict id)) := .evict
    refine ⟨hk.fewer rfl fun g' id' e he => (ho 0).cache g' id' e not_false he, fun k c hs => ?_⟩
    exact hs.others (Nat.succ_ne_self k).symm (ho (k + 1)) fun _ _ => not_false
  | create id clientId =>
    simp only [AppState.env] at h
    split at h
    · rename_i db s hcreate
      obtain rfl := Option.some.inj h
      obtain ⟨hturns, hsame⟩ := create_same hcreate
      refine ⟨⟨fun id => ?_, fun g id e he => ?_⟩, fun k c hs => hs.mono le_rfl
        (fun _ _ _ hl => hl) (fun ho => (hsame _ ho.mem_conversations).owned ho)
        (fun id hid => hsame id (hs.owned_of_dispatches hid).mem_conversations)
        fun _ _ _ _ he => he⟩
      · rw [Db.turnsOf, hturns, ← Db.turnsOf]
        exact hk.whole id
      · have hf := hk.faithful g id e he
        exact hf.same (hsame id hf.owned.mem_conversations)
    · exact absurd h (Option.some_ne_none _).symm

end Chat

end N3ur0n
