import N3ur0n.Planner.Ledger

/-!
# Sessions

A conversation in the node is idle, with its state in the cache or not, or it is
in a dispatch: messages to a conversation are handled one at a time. A message
is dispatched from the cached state, or else from the stored one; after a
dispatch that succeeds, its state is cached, and after one that fails, the next
message loads the conversation again. The node may be killed at any point, and
only its database is left.

* `sound_run`: in every run of a session, the turns stored are `Whole`, and the
  ledger of the dispatch in progress holds;
* `recovery`: whenever the node is killed, the stored calls have their results,
  and no dispatch ever has a turn refused;
* `dispatch_recorded`: what a dispatch stores, and pushes.
-/

namespace N3ur0n

open Slots

/-- The state of a conversation to dispatch a message of this client from. -/
def loadState (db : Db) (cache : Option ConversationState) (id clientId : String) :
    Except ConversationError ConversationState :=
  match cache with
  | some state => if state.clientId ≠ clientId then .error .ownershipMismatch else .ok state
  | none => load db id clientId

inductive Session
  | idle (db : Db) (cache : Option ConversationState)
  | running (d : DispatchState)

inductive SessionAction (ω : Type)
  /-- A message of a client. -/
  | message (clientId : String) (catalog : Catalog) (mode : DispatchMode) (input : UserInput)
  | dispatch (a : DispatchAction ω)
  /-- The dispatch returns. -/
  | returned
  /-- The cache drops the conversation. -/
  | evict
  /-- The node stops, and starts again. -/
  | kill

namespace Session

variable {ω : Type} (R : Runtime ω) (nodeId id : String)

def db : Session → Db
  | .idle db _ => db
  | .running d => d.db

def step : Session → SessionAction ω → Option Session
  | .idle db cache, .message clientId catalog mode input =>
    match loadState db cache id clientId with
    | .ok state => some (.running (.start db catalog mode state input))
    | .error _ => some (.idle db cache)
  | .running d, .dispatch a => (d.step R nodeId a).map .running
  | .running d, .returned =>
    match d.stage with
    | .replied _ => some (.idle d.db (some d.state))
    | .failed _ => some (.idle d.db none)
    | _ => none
  | .idle db _, .evict => some (.idle db none)
  | σ, .kill => some (.idle σ.db none)
  | _, _ => none

end Session

/-! ## Whole turns -/

/-- A call and its result, next to each other. -/
def IsPair (call result : TurnRecord) : Prop :=
  result.seq = call.seq + 1 ∧ ∃ callId peerId capability args value error,
    call.payload = .toolCall callId peerId capability args ∧
      result.payload = .toolResult callId peerId capability value error

/-- Calls followed by their results, and turns that are neither. -/
inductive Whole : List TurnRecord → Prop
  | nil : Whole []
  | turn {r : TurnRecord} {rs : List TurnRecord} (hr : r.payload.isTool = false) (hrs : Whole rs) :
      Whole (r :: rs)
  | pair {call result : TurnRecord} {rs : List TurnRecord} (hp : IsPair call result)
      (hrs : Whole rs) : Whole (call :: result :: rs)

/-- Every call has its result, and every result its call. -/
def Paired (rs : List TurnRecord) : Prop :=
  ∀ r ∈ rs, r.payload.isTool → ∃ r' ∈ rs, IsPair r r' ∨ IsPair r' r

theorem IsPair.isTool {call result : TurnRecord} (h : IsPair call result) :
    call.payload.isTool ∧ result.payload.isTool := by
  obtain ⟨-, _, _, _, _, _, _, hc, hr⟩ := h
  rw [hc, hr]
  exact ⟨rfl, rfl⟩

/-- No turn is both a call and a result. -/
theorem IsPair.not_chain {r₁ r₂ r₃ : TurnRecord} (h : IsPair r₁ r₂) : ¬IsPair r₂ r₃ := fun h' => by
  obtain ⟨-, _, _, _, _, _, _, -, hr⟩ := h
  obtain ⟨-, _, _, _, _, _, _, hc, -⟩ := h'
  exact absurd (hr.symm.trans hc) (by simp)

theorem Whole.append {rs rs' : List TurnRecord} (h : Whole rs) (h' : Whole rs') :
    Whole (rs ++ rs') := by
  induction h with
  | nil => exact h'
  | turn hr _ ih => exact .turn hr ih
  | pair hp _ ih => exact .pair hp ih

theorem Whole.paired {rs : List TurnRecord} (h : Whole rs) : Paired rs := by
  induction h with
  | nil => exact fun r hr => absurd hr List.not_mem_nil
  | @turn r rs hr _ ih =>
    refine List.forall_mem_cons.2 ⟨fun ht => absurd (hr.symm.trans ht) (by simp), fun x hx ht => ?_⟩
    obtain ⟨x', hx', hp⟩ := ih x hx ht
    exact ⟨x', List.mem_cons_of_mem _ hx', hp⟩
  | @pair call result rs hp _ ih =>
    refine List.forall_mem_cons.2 ⟨fun _ => ⟨result, by simp, .inl hp⟩,
      List.forall_mem_cons.2 ⟨fun _ => ⟨call, by simp, .inr hp⟩, fun x hx ht => ?_⟩⟩
    obtain ⟨x', hx', hp⟩ := ih x hx ht
    exact ⟨x', by simp [hx'], hp⟩

/-- Turns without a partner among the first ones. -/
theorem Paired.of_append {rs rs' : List TurnRecord} (h : Paired (rs ++ rs'))
    (hsep : ∀ x ∈ rs', ∀ y ∈ rs, ¬IsPair x y ∧ ¬IsPair y x) : Paired rs' := by
  intro x hx ht
  obtain ⟨y, hy, hp⟩ := h x (List.mem_append_right _ hx) ht
  rcases List.mem_append.1 hy with hy | hy
  · exact absurd hp (not_or.2 (hsep x hx y hy))
  · exact ⟨y, hy, hp⟩

/-- In the order of their numbers, the first of paired turns is a call, if it is
    about one, and its result is next: there is no number between theirs. -/
theorem Paired.next {r : TurnRecord} {rs : List TurnRecord} (h : Paired (r :: rs))
    (hs : (r :: rs).Pairwise fun r r' => r.seq < r'.seq) (ht : r.payload.isTool) :
    ∃ x rs', rs = x :: rs' ∧ IsPair r x := by
  obtain ⟨hlt, hs'⟩ := List.pairwise_cons.1 hs
  obtain ⟨r', hr', hp⟩ := h r List.mem_cons_self ht
  -- The partner of the first turn comes later, so it is the result.
  have hseq : r' = r ∨ r.seq < r'.seq := (List.mem_cons.1 hr').imp id (hlt r')
  have hpair : IsPair r r' := hp.resolve_right fun hp => by
    have hback := hp.1
    rcases hseq with rfl | hseq
    · omega
    · omega
  have hr'rs : r' ∈ rs := (List.mem_cons.1 hr').resolve_left fun he => by
    have hnext := hpair.1
    rw [he] at hnext
    omega
  cases rs with
  | nil => exact absurd hr'rs List.not_mem_nil
  | cons x rs =>
    refine ⟨x, rs, rfl, ?_⟩
    rcases List.mem_cons.1 hr'rs with rfl | hr'
    · exact hpair
    · have h₁ := hlt x List.mem_cons_self
      have h₂ := (List.pairwise_cons.1 hs').1 r' hr'
      have hnext := hpair.1
      omega

/-- In the order of their numbers, paired turns are whole. -/
theorem Paired.whole {rs : List TurnRecord} (h : Paired rs)
    (hs : rs.Pairwise fun r r' => r.seq < r'.seq) : Whole rs := by
  -- One turn goes, or two, so the induction is on the length.
  induction hn : rs.length using Nat.strong_induction_on generalizing rs with
  | _ n ih =>
    subst hn
    cases rs with
    | nil => exact .nil
    | cons r rs =>
      obtain ⟨hlt, hs'⟩ := List.pairwise_cons.1 hs
      cases ht : r.payload.isTool with
      | false =>
        have htool (hr : r.payload.isTool) : False := absurd (ht.symm.trans hr) (by simp)
        have hrest : Paired rs := @Paired.of_append [r] rs h fun x hx y hy => by
          obtain rfl := List.mem_singleton.1 hy
          exact ⟨fun hp => htool hp.isTool.2, fun hp => htool hp.isTool.1⟩
        exact .turn ht (ih _ (Nat.lt_succ_self _) hrest hs' rfl)
      | true =>
        obtain ⟨x, rs, rfl, hp⟩ := h.next hs ht
        obtain ⟨hltx, hs''⟩ := List.pairwise_cons.1 hs'
        have hrest : Paired rs := @Paired.of_append [r, x] rs h fun y hy z hz => by
          have hx := hltx y hy
          have hr := hp.1
          rcases List.mem_cons.1 hz with rfl | hz
          · exact ⟨fun hp' => absurd hp'.1 (by omega), fun hp' => absurd hp'.1 (by omega)⟩
          · obtain rfl := List.mem_singleton.1 hz
            exact ⟨fun hp' => absurd hp'.1 (by omega), hp.not_chain⟩
        exact .pair hp (ih _ (Nat.lt_succ_of_lt (Nat.lt_succ_self _)) hrest hs'' rfl)

/-- The numbers of the turns of a conversation are distinct. -/
theorem Db.seq_nodup (db : Db) (id : String) : ((db.turnsOf id).map (·.seq)).Nodup := by
  have hkeys : ((db.turnsOf id).map (·.key)).Nodup :=
    db.turns_nodup.sublist (List.filter_sublist.map _)
  have hmap : (db.turnsOf id).map (·.key) = ((db.turnsOf id).map (·.seq)).map (Prod.mk id) := by
    rw [List.map_map]
    refine List.map_congr_left fun r hr => ?_
    have hid : r.conversationId = id := by simpa using (List.mem_filter.1 hr).2
    rw [TurnRecord.key, hid]
    rfl
  exact (hmap ▸ hkeys).of_map

theorem Db.loadTurns_perm (db : Db) (id : String) : (db.loadTurns id).Perm (db.turnsOf id) :=
  List.perm_insertionSort _ _

/-- The turns of a conversation are loaded in the order of their numbers. -/
theorem Db.pairwise_loadTurns (db : Db) (id : String) :
    (db.loadTurns id).Pairwise fun r r' => r.seq < r'.seq := by
  have hle : (db.loadTurns id).Pairwise fun r r' => r.seq ≤ r'.seq :=
    List.pairwise_insertionSort (fun r r' : TurnRecord => r.seq ≤ r'.seq) _
  have hne : (db.loadTurns id).Pairwise fun r r' => r.seq ≠ r'.seq :=
    List.pairwise_map.1 (((db.loadTurns_perm id).map TurnRecord.seq).nodup_iff.2 (db.seq_nodup id))
  exact hle.imp₂ (fun _ _ h h' => lt_of_le_of_ne h h') hne

/-- The turns of a conversation, as they are loaded, are whole when those stored
    are. -/
theorem Whole.loadTurns {db : Db} {id : String} (h : Whole (db.turnsOf id)) :
    Whole (db.loadTurns id) := by
  have hpaired : Paired (db.loadTurns id) := by
    intro r hr ht
    obtain ⟨r', hr', hp⟩ := h.paired r ((db.loadTurns_perm id).mem_iff.1 hr) ht
    exact ⟨r', (db.loadTurns_perm id).mem_iff.2 hr', hp⟩
  exact hpaired.whole (db.pairwise_loadTurns id)

/-- The rows of steps are whole. -/
theorem whole_pairRows (nodeId id : String) (base : ℕ) (w : List (ℕ × TraceEntry)) :
    Whole (w.flatMap (pairRows nodeId id base)) := by
  induction w with
  | nil => exact .nil
  | cons y w ih => exact .pair ⟨rfl, _, _, _, _, _, _, rfl, rfl⟩ ih

/-! ## Stored turns stay -/

theorem persistLast_turns {db db' : Db} {s : ConversationState} (h : persistLast db s = .ok db') :
    db.turns <+: db'.turns := by
  rw [persistLast] at h
  split at h
  · exact absurd h (by simp)
  · exact (Db.appended_of_appendTurns (Except.mapError_eq_ok.1 h)).turns ▸ List.prefix_append _ _

namespace DispatchState

variable {ω : Type} {R : Runtime ω} (nodeId : String)

theorem turns_foldl_persist (d : DispatchState) (baseSeq : ℕ) (l : List (ℕ × TraceEntry)) :
    d.db.turns <+: (l.foldl (fun d y => d.persist nodeId baseSeq y) d).db.turns := by
  induction l generalizing d with
  | nil => exact List.prefix_rfl
  | cons y l ih =>
    refine List.IsPrefix.trans ?_ (ih (d.persist nodeId baseSeq y))
    rw [persist]
    split
    · rename_i hdb
      exact (Db.appended_of_appendTurns (Except.mapError_eq_ok.1 hdb)).turns ▸
        List.prefix_append _ _
    · exact List.prefix_rfl

theorem turns_start (db : Db) (catalog : Catalog) (mode : DispatchMode)
    (state : ConversationState) (input : UserInput) :
    db.turns <+: (start db catalog mode state input).db.turns := by
  rw [start]
  split
  · exact List.prefix_rfl
  · rename_i hdb
    cases mode with
    | auto => exact persistLast_turns hdb
    | direct => exact persistLast_turns hdb

variable {nodeId}

theorem turns_step {d d' : DispatchState} {a : DispatchAction ω} (hs : Step R nodeId d a d') :
    d.db.turns <+: d'.db.turns := by
  cases hs with
  | fail | skip | finish | stop => exact List.prefix_rfl
  | begin ha hd hv hdb => exact (Db.insertPlanRun_eq_ok hdb).1 ▸ List.prefix_rfl
  | act hd hσ => exact turns_foldl_persist nodeId d _ _
  | next used hd hn =>
    exact (Db.insertPlanRun_eq_ok (continuation_eq_some hn).2).1 ▸ List.prefix_rfl
  | reply hd =>
    rw [reply]
    split
    · exact List.prefix_rfl
    · rename_i hdb
      exact persistLast_turns hdb

end DispatchState

/-! ## The invariant -/

namespace Session

open ExecState (observing oneTool)
open DispatchState (newDb)

variable {ω : Type} {R : Runtime ω} {nodeId id : String}

variable (R nodeId id) in
/-- The conversation is stored, its turns are whole, and the state in the cache
    goes beyond them; a dispatch in progress started so. -/
def Sound : Session → Prop
  | .idle db cache => id ∈ db.conversations.map (·.id) ∧ Whole (db.turnsOf id) ∧
    ∀ s ∈ cache, s.id = id ∧ Synced db s
  | .running d => ∃ rows₀ s₀ input, s₀.id = id ∧ (∀ r ∈ rows₀, r.seq ≤ s₀.highestSeq) ∧
    Whole rows₀ ∧ d.Ledger nodeId rows₀ s₀ input ∧
    ∃ plans as rounds h, DispatchState.Traced R plans as d rounds h

/-- Killed or not, a session that is sound stores whole turns. -/
theorem Sound.whole {σ : Session} (h : Sound R nodeId id σ) :
    id ∈ σ.db.conversations.map (·.id) ∧ Whole (σ.db.turnsOf id) := by
  cases σ with
  | idle db cache => exact ⟨h.1, h.2.1⟩
  | running d =>
    obtain ⟨rows₀, s₀, input, rfl, -, hwhole, hl, -⟩ := h
    -- The rows of the dispatch, up to now: the user, some steps, maybe the reply.
    obtain ⟨-, hconv, w, closing, hrows, hclosing⟩ := hl.rows
    have hlast : Whole closing := by
      rcases hclosing with rfl | ⟨r, rfl, hr⟩
      · exact .nil
      · exact .turn hr .nil
    refine ⟨hconv, ?_⟩
    rw [db, hrows]
    exact hwhole.append (.turn rfl ((whole_pairRows nodeId _ _ w).append hlast))

/-- The state a message is dispatched from. -/
theorem Sound.loadState {db : Db} {cache : Option ConversationState}
    (h : Sound R nodeId id (.idle db cache)) {clientId : String} {s : ConversationState}
    (hs : loadState db cache id clientId = .ok s) : s.id = id ∧ Synced db s := by
  obtain ⟨-, -, hcache⟩ := h
  cases cache with
  | none =>
    obtain ⟨rfl, hconv, hseq⟩ := load_spec hs
    exact ⟨rfl, hconv, hseq⟩
  | some s' =>
    simp only [N3ur0n.loadState] at hs
    split_ifs at hs
    exact Except.ok.inj hs ▸ hcache s' rfl

/-- A message starts a dispatch. -/
theorem Sound.start {db : Db} {cache : Option ConversationState}
    (h : Sound R nodeId id (.idle db cache)) {clientId : String} {s : ConversationState}
    (hs : N3ur0n.loadState db cache id clientId = .ok s) (catalog : Catalog) (mode : DispatchMode)
    (input : UserInput) :
    Sound R nodeId id (.running (.start db catalog mode s input)) := by
  obtain ⟨rfl, hsync⟩ := h.loadState hs
  exact ⟨_, s, input, rfl, hsync.seq_le, h.whole.2,
    DispatchState.ledger_start hsync catalog mode input,
    _, _, _, _, DispatchState.traced_start db catalog mode s input⟩

theorem sound_step {σ σ' : Session} {a : SessionAction ω} (h : Sound R nodeId id σ)
    (hstep : σ.step R nodeId id a = some σ') : Sound R nodeId id σ' := by
  -- Without a state in the cache, only the rows matter.
  have hkill {db : Db} (hdb : db = σ.db) : Sound R nodeId id (.idle db none) :=
    ⟨hdb ▸ h.whole.1, hdb ▸ h.whole.2, fun s hs => absurd hs (by simp)⟩
  unfold step at hstep
  split at hstep
  · -- A message.
    split at hstep
    · rename_i hs
      obtain rfl := Option.some.inj hstep
      exact h.start hs _ _ _
    · obtain rfl := Option.some.inj hstep
      exact h
  · -- A step of the dispatch.
    obtain ⟨d', hd, rfl⟩ := Option.map_eq_some_iff.1 hstep
    obtain ⟨rows₀, s₀, input, hid, hseq, hwhole, hl, plans, as, rounds, h', ht⟩ := h
    have hcases := DispatchState.step_cases hd
    obtain ⟨rounds', h'', ht'⟩ := DispatchState.traced_step ht hcases
    exact ⟨rows₀, s₀, input, hid, hseq, hwhole, DispatchState.ledger_step hseq ht.ongoing hcases hl,
      plans, _, rounds', h'', ht'⟩
  · -- The dispatch returns.
    split at hstep
    · rename_i o ho
      obtain rfl := Option.some.inj hstep
      obtain ⟨hconv, hwhole⟩ := h.whole
      obtain ⟨rows₀, s₀, input, rfl, hseq, -, hl, -⟩ := h
      obtain ⟨hsync, hid⟩ := hl.synced hseq ho
      exact ⟨hconv, hwhole, fun s hs => Option.some.inj hs ▸ ⟨hid, hsync⟩⟩
    · obtain rfl := Option.some.inj hstep
      exact hkill rfl
    · exact absurd hstep (by simp)
  · obtain rfl := Option.some.inj hstep
    exact hkill rfl
  · obtain rfl := Option.some.inj hstep
    exact hkill rfl
  · exact absurd hstep (by simp)

/-- Every run of a session of a conversation that was created is sound. -/
theorem sound_run {db₀ db : Db} {clientId : String} {s : ConversationState}
    (hc : create db₀ id clientId = .ok (db, s)) {as : List (SessionAction ω)} {σ : Session}
    (h : Run.run (step R nodeId id) (.idle db none) as = some σ) : Sound R nodeId id σ := by
  obtain ⟨hconv, hnil⟩ := create_spec hc
  have h₀ : Sound R nodeId id (.idle db none) :=
    ⟨hconv, hnil ▸ .nil, fun s hs => absurd hs (by simp)⟩
  exact Run.run_invariant (fun σ a σ' => sound_step) h₀ h

theorem turns_step {σ σ' : Session} {a : SessionAction ω}
    (hstep : σ.step R nodeId id a = some σ') : σ.db.turns <+: σ'.db.turns := by
  unfold step at hstep
  split at hstep
  · split at hstep
    · obtain rfl := Option.some.inj hstep
      exact DispatchState.turns_start _ _ _ _ _
    · obtain rfl := Option.some.inj hstep
      exact List.prefix_rfl
  · obtain ⟨d', hd, rfl⟩ := Option.map_eq_some_iff.1 hstep
    exact DispatchState.turns_step (DispatchState.step_cases hd)
  · split at hstep
    · obtain rfl := Option.some.inj hstep
      exact List.prefix_rfl
    · obtain rfl := Option.some.inj hstep
      exact List.prefix_rfl
    · exact absurd hstep (by simp)
  · obtain rfl := Option.some.inj hstep
    exact List.prefix_rfl
  · obtain rfl := Option.some.inj hstep
    exact List.prefix_rfl
  · exact absurd hstep (by simp)

/-- Whatever happens to a session, the turns stored stay. -/
theorem turns_run {σ σ' : Session} {as : List (SessionAction ω)}
    (h : Run.run (step R nodeId id) σ as = some σ') : σ.db.turnsOf id <+: σ'.db.turnsOf id := by
  have hturns : σ.db.turns <+: σ'.db.turns :=
    Run.run_invariant (I := fun σ' => σ.db.turns <+: σ'.db.turns)
      (fun _ _ _ h hstep => h.trans (turns_step hstep)) List.prefix_rfl h
  exact hturns.filter _

/-! ## What is stored -/

/-- At any point of any run of a session, where the node may be killed, the turns
    stored are calls with their results, and other turns. A conversation loaded
    then numbers its next turn beyond those stored; and in whatever happens after,
    the turns stored stay, and no turn is refused, as its number would be taken. -/
theorem recovery {db₀ db : Db} {clientId : String} {s : ConversationState}
    (hc : create db₀ id clientId = .ok (db, s)) {as : List (SessionAction ω)} {σ : Session}
    (h : Run.run (step R nodeId id) (.idle db none) as = some σ) :
    Whole (σ.db.loadTurns id) ∧
    (∀ clientId s, load σ.db id clientId = .ok s →
      s.id = id ∧ ∀ r ∈ σ.db.turnsOf id, r.seq < s.nextSeq) ∧
    ∀ bs σ', Run.run (step R nodeId id) σ bs = some σ' →
      σ.db.turnsOf id <+: σ'.db.turnsOf id ∧ ∀ d, σ' = .running d → d.refused = [] := by
  have hsound : Sound R nodeId id σ := sound_run hc h
  refine ⟨hsound.whole.2.loadTurns, fun clientId s hs => ?_, fun bs σ' h' => ⟨turns_run h', ?_⟩⟩
  · obtain ⟨hid, -, hseq⟩ := load_spec hs
    exact ⟨hid, fun r hr => Nat.lt_succ_of_le (hseq r hr)⟩
  · rintro d rfl
    obtain ⟨_, _, _, -, -, -, hl, -⟩ : Sound R nodeId id (.running d) :=
      Run.run_invariant (fun σ a σ' => sound_step) hsound h'
    exact hl.rows.1

/-- Two steps which wait for nothing. -/
def twoAlone : Plan := ⟨["a", "b"].map fun id => ⟨id, "abc", "t", .object [], []⟩⟩

/-- The second step is done before the first one. -/
def outOfOrder : List (DispatchAction (Except String Value)) :=
  [.compiled 0 "r1" (fun n => if n = 0 then "x" else "y") (.ok twoAlone) [],
    .act (.start "a"), .act (.start "b"), .act (.returned "b" (.ok .null))]

/-- The node is killed then; the next message is answered directly. -/
def killedRun : List (SessionAction (Except String Value)) :=
  .message "me" oneTool .auto ⟨"hi", []⟩ :: outOfOrder.map .dispatch ++
    [.kill, .message "me" oneTool .direct ⟨"again", []⟩,
      .dispatch (.composed (some "hello") none), .returned]

theorem recovery_killedRun :
    ∃ σ, Run.run (step observing "n3:me" "c") (.idle newDb none) killedRun = some σ ∧
      (σ.db.loadTurns "c").map (·.seq) = [1, 4, 5, 6, 7] ∧ Whole (σ.db.loadTurns "c") ∧
      ∀ clientId s, load σ.db "c" clientId = .ok s →
        s.id = "c" ∧ ∀ r ∈ σ.db.turnsOf "c", r.seq < s.nextSeq := by
  have hend : (Run.run (step observing "n3:me" "c") (.idle newDb none) killedRun).map
      (fun σ => (σ.db.loadTurns "c").map (·.seq)) = some [1, 4, 5, 6, 7] := by decide
  obtain ⟨σ, hσ, hseq⟩ := Option.map_eq_some_iff.1 hend
  have hc : create ⟨[], [], [], List.nodup_nil, by simp⟩ "c" "me" =
      .ok (newDb, ⟨"c", "me", [], 0⟩) := rfl
  obtain ⟨hwhole, hload, -⟩ := recovery hc hσ
  exact ⟨σ, hσ, hseq, hwhole, hload⟩

/-- In any dispatch of a session, of any mode and with any plans, whose rounds
    are over: the steps of the rounds, in order, are the trace, and the turns of
    the trace are stored in the block after the turn of the user, with the
    numbers they are given in memory. -/
theorem dispatch_recorded {db₀ db db₁ : Db} {clientId clientId' : String}
    {s s₁ : ConversationState} (hc : create db₀ id clientId = .ok (db, s))
    {as : List (SessionAction ω)} {cache : Option ConversationState}
    (h : Run.run (step R nodeId id) (.idle db none) as = some (.idle db₁ cache))
    (hs : N3ur0n.loadState db₁ cache id clientId' = .ok s₁) {catalog : Catalog}
    {mode : DispatchMode} {input : UserInput} {bs : List (DispatchAction ω)} {d : DispatchState}
    (hd : Run.run (DispatchState.step R nodeId) (.start db₁ catalog mode s₁ input) bs = some d)
    {trace : List TraceEntry} (ht : d.stage.trace? = some trace)
    (hover : d.stage.current = none) :
    ∃ (rounds : List (Round ω)) (tools : List TurnRecord),
      (∀ r ∈ rounds, r.Complete R d.catalog ∧ r.InPlanOrder) ∧
      d.db.plans = db₁.plans ++ rounds.map (·.plan) ∧ trace = rounds.flatMap Round.trace ∧
      trace.length = DispatchState.planned (rounds.map (·.plan)) ∧ s₁.id = id ∧
      DispatchState.Recorded nodeId (db₁.turnsOf id) s₁ input d trace tools := by
  have hsound : Sound R nodeId id (.idle db₁ cache) := sound_run hc h
  obtain ⟨rfl, hsync⟩ := hsound.loadState hs
  obtain ⟨⟨rounds, h', htraced⟩, hl⟩ := DispatchState.ledger_run hsync hd
  obtain ⟨tools, hrec⟩ := hl.recorded ht hover
  have htrace := htraced.trace trace ht
  refine ⟨rounds, tools, fun r hr => ⟨htraced.complete r hr, (htraced.complete r hr).inPlanOrder⟩,
    ?_, htrace, ?_, rfl, hrec⟩
  · rw [htraced.plans, hover]
    simp
  · rw [htrace, (DispatchState.lengths_of_complete htraced.complete).1]

/-- The first step fails at last, and a continuation has another step; then there is no
    other round, and the reply is written. -/
def inTheEnd : List (DispatchAction (Except String Value)) :=
  outOfOrder ++ [.act (.returned "a" (.error "down")),
    .finished [("a", .object [("error", .string "down")]), ("b", .null)],
    .continued 1 "r2" (fun _ => "z") (.ok ⟨[⟨"c", "abc", "t", .object [("n", .null)], []⟩]⟩) [],
    .act (.start "c"), .act (.returned "c" (.ok .null)), .finished [("c", .null)],
    .continued 2 "r3" (fun _ => "w") (.error "none") [], .composed (some "done") none]

theorem dispatch_recorded_inTheEnd :
    ∃ d trace tools, Run.run (DispatchState.step observing "n3:me") DispatchState.saidHi inTheEnd =
        some d ∧ d.stage.trace? = some trace ∧ trace.map (·.callId) = ["x", "y", "z"] ∧
      DispatchState.Recorded "n3:me" [] ⟨"c", "me", [], 0⟩ ⟨"hi", []⟩ d trace tools := by
  have hend : (Run.run (DispatchState.step observing "n3:me") DispatchState.saidHi inTheEnd).map
      (fun d => (d.stage.trace?.map fun trace => trace.map (·.callId), d.stage.current.isNone)) =
        some (some ["x", "y", "z"], true) := by decide +kernel
  obtain ⟨d, hd, heq⟩ := Option.map_eq_some_iff.1 hend
  obtain ⟨htrace, hover⟩ := Prod.mk.inj heq
  obtain ⟨trace, ht, hids⟩ := Option.map_eq_some_iff.1 htrace
  have hc : create ⟨[], [], [], List.nodup_nil, by simp⟩ "c" "me" =
      .ok (newDb, ⟨"c", "me", [], 0⟩) := rfl
  have hidle : Run.run (step observing "n3:me" "c") (.idle newDb none) [] =
      some (.idle newDb none) := rfl
  have hload : N3ur0n.loadState newDb none "c" "me" = .ok ⟨"c", "me", [], 0⟩ := rfl
  obtain ⟨-, tools, -, -, -, -, -, hrec⟩ :=
    dispatch_recorded hc hidle hload hd ht (Option.isNone_iff_eq_none.1 hover)
  exact ⟨d, trace, tools, hd, ht, hids, hrec⟩

end Session

end N3ur0n
