import N3ur0n.Chats.Exclusion

/-!
# The cache of one runtime

As long as the runtime of a node is not replaced, its locks keep the requests
for a conversation in turn, whatever becomes of them. What remains is that the
cache falls behind: a dispatch stores turns as it goes, and only when it returns
the cache is told. When its future is dropped in between, nobody does.

* `Coherent`: a conversation in the cache that is not dispatched agrees with the
  turns stored, dispatches start so, and no turn is refused;
* `DropsInTime`: a dispatch is dropped before it has stored anything, or when
  the cache does not have the conversation any more;
* `coherent_iff_dropsInTime`: a run has the one throughout exactly if it has the
  other.
-/

namespace N3ur0n

/-- The node, with one runtime. -/
def NodeRuntime.single {ω : Type} (R : Runtime ω) (nodeId : String) :
    Program AppState ChatRequest Chat (ChatEvent ω) ChatResponse ChatEnv :=
  { NodeRuntime.program R nodeId with
    env := fun S v =>
      match v with
      | .hotReload => none
      | v => S.env v }

/-- No request dispatches the conversation. -/
def Idle (t : Pool AppState Chat) (id : String) : Prop :=
  ∀ k c, t.threads.lookup k = some c → ¬c.Dispatches id

/-- What the next dispatch of a conversation finds in the cache agrees with what
    is stored, what a dispatch starts from does, and no turn is refused. -/
structure Coherent (t : Pool AppState Chat) : Prop where
  cached : ∀ id e, (t.shared.runtimes t.shared.current).cache.lookup id = some e → Idle t id →
    e.state.id = id ∧ e.state.Agrees t.shared.db
  ready : ∀ k c g s, t.threads.lookup k = some c → c.phase = .holding g (.ready s) →
    s.id = c.request.conversationId ∧ s.Agrees t.shared.db
  stored : ∀ k c g d, t.threads.lookup k = some c → c.phase = .holding g (.running d) →
    d.refused = []

/-- A request is dropped before its dispatch has stored the turn of the user, or
    when its conversation is not in the cache. -/
def DropsInTime {ω : Type} (t : Pool AppState Chat) : ChatAction ω → Prop
  | .abort k => ∀ c, t.threads.lookup k = some c → ∀ g d, c.phase = .holding g (.running d) →
    (t.shared.runtimes g).cache.lookup c.request.conversationId = none
  | _ => True

section Single

variable {ω : Type} {R : Runtime ω} {nodeId : String} {t t' : Pool AppState Chat}
  {a : ChatAction ω}

/-- A step without a new runtime is a step. -/
theorem poolStep_of_single (h : (NodeRuntime.single R nodeId).poolStep t a = some t') :
    (NodeRuntime.program R nodeId).poolStep t a = some t' ∧ a ≠ .env .hotReload := by
  cases a with
  | enter | act | abort => exact ⟨h, fun he => by cases he⟩
  | env v =>
    obtain ⟨S, hs, rfl⟩ := Program.env_eq_some.1 h
    cases v with
    | hotReload => exact absurd hs (Option.some_ne_none S).symm
    | evict | create => exact ⟨Program.env_eq_some.2 ⟨S, hs, rfl⟩, fun he => by cases he⟩

variable (R nodeId) in
/-- There is one runtime, and the conversations that nobody dispatches are as
    they were put in its cache. -/
structure Settled (t : Pool AppState Chat) : Prop where
  orderly : Orderly R nodeId t
  current : t.shared.current = 0
  fresh : ∀ id e, (t.shared.runtimes 0).cache.lookup id = some e → Idle t id →
    e.stored = (t.shared.db.turnsOf id).length

namespace Settled

theorem runtime_eq (h : Settled R nodeId t) {k g : ℕ} {c : Chat} {w : ChatWork}
    (hk : t.threads.lookup k = some c) (hc : c.phase = .holding g w) : g = 0 :=
  Nat.le_zero.1 (h.current ▸ ((h.orderly.holds.2 k c hk).holding hc).1)

theorem coherent (h : Settled R nodeId t) : Coherent t := by
  have hserved := h.orderly.served
  refine ⟨fun id e he hidle => ?_, hserved.ready, hserved.stored⟩
  rw [h.current] at he
  have hload := (h.orderly.holds.1.faithful 0 id e he).load (h.fresh id e he hidle)
  obtain ⟨hid, -, hagrees⟩ := ConversationState.agrees_of_load (h.orderly.holds.1.whole _) hload
  exact ⟨hid, hagrees⟩

/-- The lock keeps the requests in turn. -/
theorem inTurn (h : Settled R nodeId t) (a : ChatAction ω) : InTurn t a := by
  cases a with
  | enter | abort | env => exact trivial
  | act k e =>
    intro c hk g hc
    obtain rfl := h.runtime_eq hk hc
    refine ⟨fun k' c' hk' g' w' hc' _ _ => h.runtime_eq hk' hc', fun e he => ?_⟩
    -- Whoever dispatches it holds the lock, as this request does.
    refine h.fresh _ e he fun k' c' hk' hd => ?_
    obtain ⟨hid, g', w', hc', hw'⟩ := hd
    obtain rfl := h.runtime_eq hk' hc'
    obtain rfl := h.orderly.alone hk hk' hc hc' hid.symm
    obtain rfl := Option.some.inj (hk.symm.trans hk')
    obtain ⟨-, rfl⟩ := ChatPhase.holding.inj (hc.symm.trans hc')
    exact hw'

/-- What a request leaves in the cache when it returns. -/
theorem fresh_act (h : Settled R nodeId t) {k : ℕ} {c : Chat} {S : AppState}
    {o : Chat ⊕ ChatResponse} (hk : t.threads.lookup k = some c)
    (hmoves : c.Moves R nodeId t.shared k S o) {id : String} {e : Cached}
    (he : (S.runtimes 0).cache.lookup id = some e) (hidle : Idle (t.settle k S o) id) :
    e.stored = (S.db.turnsOf id).length := by
  have hsafe := h.orderly.holds.2 k c hk
  -- either this request dispatches in the conversation, and has just stopped, or it does not
  -- touch its turns
  by_cases hd : c.Dispatches id
  · have hgoesOn (phase : ChatPhase) (ho : o = .inl { c with phase }) {g : ℕ} {w : ChatWork}
        (hp : phase = .holding g w) (hw : w.dispatches) : False := by
      refine hidle k { c with phase } (Pool.settle_lookup.2 ho) ⟨hd.1, g, w, hp, hw⟩
    obtain ⟨rfl, g, w, hc, hw⟩ := hd
    have hnot {g' : ℕ} {w' : ChatWork} (hp : c.phase = .holding g' w') (hw' : ¬w'.dispatches) :
        False := by
      obtain ⟨-, rfl⟩ := ChatPhase.holding.inj (hc.symm.trans hp)
      exact hw' hw
    cases hmoves with
    | enter hp | reject _ hp | prepare hp | lock hp => exact absurd (hp.symm.trans hc) (by simp)
    | permit hp | hit hp | miss hp | unavailable _ hp => exact (hnot hp not_false).elim
    | cache hp | start hp | act hp => exact (hgoesOn _ rfl rfl trivial).elim
    -- what is cached at the end has all the turns that are stored
    | reply hp ho =>
      obtain rfl := h.runtime_eq hk hp
      obtain ⟨hserving, -⟩ := (hsafe.holding hp).2.2
      rw [AppState.onRuntime_runtimes, if_pos rfl, AppState.storeInCache,
        AppState.onRuntime_runtimes, if_pos rfl] at he
      rcases Lru.lookup_put he with ⟨hid, rfl⟩ | ⟨hne, -⟩
      · rw [hid]
        rfl
      · exact absurd hserving.id_eq.symm hne
    -- a dispatch that fails evicts its conversation
    | fail _ hp =>
      obtain rfl := h.runtime_eq hk hp
      rw [AppState.onRuntime_runtimes, if_pos rfl, AppState.onRuntime_runtimes, if_pos rfl] at he
      rw [NodeRuntime.release, NodeRuntime.unlock, NodeRuntime.evict, Lru.lookup_pop,
        if_pos rfl] at he
      exact absurd he (Option.some_ne_none e).symm
  · have hothers := hmoves.others hsafe
    rw [(hothers.same id hd).turns]
    refine h.fresh id e (hothers.cache 0 id e hd he) fun k' c' hk' hd' => ?_
    by_cases hkk' : k' = k
    · rw [hkk', hk] at hk'
      exact hd (Option.some.inj hk' ▸ hd')
    · exact hidle k' c' ((Pool.settle_lookup_ne t S o hkk').trans hk') hd'

/-- What a request leaves in the cache when it is dropped. -/
theorem fresh_abort (h : Settled R nodeId t) {k : ℕ} {c : Chat} {S : AppState}
    (hdrop : DropsInTime t (.abort k : ChatAction ω)) (hk : t.threads.lookup k = some c)
    (hs : c.abort t.shared = some S) {id : String} {e : Cached}
    (he : (S.runtimes 0).cache.lookup id = some e)
    (hidle : Idle ⟨S, t.threads.erase k⟩ id) : e.stored = (S.db.turnsOf id).length := by
  have hsafe := h.orderly.holds.2 k c hk
  obtain ⟨-, hdb, hcache⟩ := Chat.abort_others hs hsafe
  rw [hcache] at he
  rw [hdb]
  by_cases hd : c.Dispatches id
  · obtain ⟨rfl, g, w, hc, hw⟩ := hd
    obtain rfl := h.runtime_eq hk hc
    have hwork := (hsafe.holding hc).2.2
    cases w with
    | locked | loading => exact hw.elim
    | loaded s | ready s => exact hwork.2 e he
    | running d => exact absurd ((hdrop c hk 0 d hc).symm.trans he) (Option.some_ne_none e).symm
  · refine h.fresh id e he fun k' c' hk' hd' => ?_
    by_cases hkk' : k' = k
    · rw [hkk', hk] at hk'
      exact hd (Option.some.inj hk' ▸ hd')
    · exact hidle k' c' ((Finmap.lookup_erase_ne hkk').trans hk') hd'

/-- What happens around the requests puts nothing in the cache. -/
theorem fresh_env (h : Settled R nodeId t) {v : ChatEnv} {S : AppState} (hv : v ≠ .hotReload)
    (hs : t.shared.env v = some S) : S.current = 0 ∧ ∀ id e,
      (S.runtimes 0).cache.lookup id = some e → Idle t id →
        e.stored = (S.db.turnsOf id).length := by
  cases v with
  | hotReload => exact absurd rfl hv
  | evict g id =>
    obtain rfl := Option.some.inj hs
    have hothers : t.shared.Others 0 (fun _ => False) (t.shared.onRuntime g (·.evict id)) := .evict
    exact ⟨h.current, fun id' e he => h.fresh id' e (hothers.cache 0 id' e not_false he)⟩
  | create id clientId =>
    have hturns := AppState.env_turns hs
    simp only [AppState.env] at hs
    split at hs
    · obtain rfl := Option.some.inj hs
      refine ⟨h.current, fun id e he hidle => ?_⟩
      rw [Db.turnsOf, hturns, ← Db.turnsOf]
      exact h.fresh id e he hidle
    · exact absurd hs (Option.some_ne_none _).symm

theorem step (h : Settled R nodeId t) (hdrop : DropsInTime t a)
    (hstep : (NodeRuntime.single R nodeId).poolStep t a = some t') : Settled R nodeId t' := by
  obtain ⟨hstep, hne⟩ := poolStep_of_single hstep
  have horderly := orderly_step h.orderly (h.inTurn a) hstep
  cases a with
  | enter k q =>
    obtain ⟨hk, rfl⟩ := Program.enter_eq_some.1 hstep
    refine ⟨horderly, h.current, fun id e he hidle => h.fresh id e he fun k' c hk' => ?_⟩
    refine hidle k' c ((Finmap.lookup_insert_of_ne _ ?_).trans hk')
    rintro rfl
    exact hk (Finmap.lookup_isSome.1 (by rw [hk']; rfl))
  | act k e =>
    obtain ⟨c, S, o, hk, hs, rfl⟩ := Program.act_eq_some.1 hstep
    have hmoves := Chat.step_moves hs
    have hothers := hmoves.others (h.orderly.holds.2 k c hk)
    refine ⟨horderly, ?_, fun id e he hidle => ?_⟩
    · rw [Pool.settle_shared]
      exact hothers.current.trans h.current
    · rw [Pool.settle_shared] at he ⊢
      exact h.fresh_act hk hmoves he hidle
  | abort k =>
    obtain ⟨c, S, hk, hs, rfl⟩ := Program.abort_eq_some.1 hstep
    have hothers := (Chat.abort_others hs (h.orderly.holds.2 k c hk)).1
    exact ⟨horderly, hothers.current.trans h.current, fun id e he hidle =>
      h.fresh_abort hdrop hk hs he hidle⟩
  | env v =>
    obtain ⟨S, hs, rfl⟩ := Program.env_eq_some.1 hstep
    obtain ⟨hcur, hfresh⟩ := h.fresh_env (fun hv => hne (congrArg _ hv)) hs
    exact ⟨horderly, hcur, hfresh⟩

/-- A dispatch that stored turns and is dropped leaves the cache behind. -/
theorem not_coherent (h : Settled R nodeId t) (hdrop : ¬DropsInTime t a)
    (hstep : (NodeRuntime.single R nodeId).poolStep t a = some t') : ¬Coherent t' := by
  cases a with
  | enter | act | env => exact absurd trivial hdrop
  | abort k =>
    obtain ⟨c, S, hk, hs, rfl⟩ := Program.abort_eq_some.1 hstep
    have hsafe := h.orderly.holds.2 k c hk
    obtain ⟨hothers, hdb, hcache⟩ := Chat.abort_others hs hsafe
    intro hcoherent
    refine hdrop fun c' hk' g d hc => ?_
    obtain rfl := Option.some.inj (hk.symm.trans hk')
    obtain rfl := h.runtime_eq hk hc
    refine Option.eq_none_iff_forall_ne_some.2 fun e he => ?_
    have hidle : Idle ⟨S, t.threads.erase k⟩ c.request.conversationId := fun k' c' hk' hd' => by
      have hkk' : k' ≠ k := by
        rintro rfl
        exact absurd ((Finmap.lookup_erase k' _).symm.trans hk') (Option.some_ne_none c').symm
      refine hkk' (h.orderly.exclusive k' k c' c _ ?_ hk hd' ⟨rfl, 0, _, hc, trivial⟩)
      exact (Finmap.lookup_erase_ne hkk').symm.trans hk'
    have he' : (S.runtimes S.current).cache.lookup c.request.conversationId = some e := by
      rw [hcache, hothers.current, h.current]
      exact he
    obtain ⟨hid, hagrees⟩ := hcoherent.cached _ e he' hidle
    have hfaithful := h.orderly.holds.1.faithful 0 _ e he
    have hbehind := (hsafe.holding hc).2.2.2 0 e he
    exact hbehind.ne (hfaithful.stored_eq hid (hdb ▸ hagrees))

end Settled

end Single

/-! ## Requests dropped -/

instance decidableRunning (c : Chat) (P : ℕ → DispatchState → Prop) [∀ g d, Decidable (P g d)] :
    Decidable (∀ g d, c.phase = .holding g (.running d) → P g d) :=
  match hc : c.phase with
  | .holding g (.running d) => decidable_of_iff (P g d)
    ⟨fun h g' d' he => by
      obtain ⟨rfl, hw⟩ := ChatPhase.holding.inj he
      exact ChatWork.running.inj hw ▸ h, fun h => h g d rfl⟩
  | .holding _ .locked | .holding _ .loading | .holding _ (.loaded _) | .holding _ (.ready _)
  | .entered | .preparing _ | .waiting _ => .isTrue fun _ _ he => by cases he

instance DropsInTime.decidable {ω : Type} (t : Pool AppState Chat) :
    (a : ChatAction ω) → Decidable (DropsInTime t a)
  | .abort _ => by
    dsimp only [DropsInTime]
    infer_instance
  | .enter _ _ | .act _ _ | .env _ => .isTrue trivial

open ExecState (observing)

/-- A request is dropped before it is dispatched; another one is answered, from
    the cache, and a third one too. -/
def droppedInTime : List (ChatAction (Except String Value)) :=
  .env (.create "c" "me") :: .enter 0 hi :: goes 0 6 ++ [.abort 0, .enter 1 hi] ++ goes 1 6 ++
    [.act 1 (.dispatch (.composed (some "hello") none)), .act 1 .go, .enter 2 hi] ++ goes 2 6

/-- A request is dropped while the model is asked for the reply; the next one is
    dispatched from the cache. -/
def droppedLate : List (ChatAction (Except String Value)) :=
  .env (.create "c" "me") :: .enter 0 hi :: goes 0 7 ++ [.abort 0, .enter 1 hi] ++ goes 1 6

end N3ur0n
