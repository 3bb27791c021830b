import N3ur0n.Chats.Safe

/-!
# One dispatch at a time

Two requests for one conversation do not dispatch it at the same time as long as
they have the same runtime, whose lock they share. The state that one of them
leaves in the cache of this runtime is the one that the next one would load from
the database, unless turns were stored since then by someone else.

* `Served`: at most one request dispatches a conversation, from a state that has
  all the turns stored, and no turn is refused;
* `InTurn`: when the requests of several runtimes do not come into each other's
  way;
* `served_iff_inTurn`: a run has the one throughout exactly if it has the other.
-/

namespace N3ur0n

/-! ## Requests in turn -/

/-- The requests at work, with what happens around them. -/
abbrev ChatAction (ω : Type) := Pool.Action ChatRequest (ChatEvent ω) ChatEnv

/-- At most one request at a time dispatches a conversation. -/
def Exclusive (t : Pool AppState Chat) : Prop :=
  ∀ k k' c c' id, t.threads.lookup k = some c → t.threads.lookup k' = some c' →
    c.Dispatches id → c'.Dispatches id → k = k'

/-- When a request loads the state of its conversation, no request of another
    runtime dispatches it; and when its own runtime has the state in the cache,
    no turn of the conversation was stored since it was put there. -/
def InTurn {ω : Type} (t : Pool AppState Chat) : ChatAction ω → Prop
  | .act k _ => ∀ c, t.threads.lookup k = some c → ∀ g, c.phase = .holding g .loading →
    (∀ k' c', t.threads.lookup k' = some c' → ∀ g' w, c'.phase = .holding g' w → w.dispatches →
      c'.request.conversationId = c.request.conversationId → g' = g) ∧
    ∀ e, (t.shared.runtimes g).cache.lookup c.request.conversationId = some e →
      e.stored = (t.shared.db.turnsOf c.request.conversationId).length
  | _ => True

/-- At most one request at a time dispatches a conversation, from a state that
    has all the turns stored; and no turn is refused, as its number would be
    taken. -/
structure Served (t : Pool AppState Chat) : Prop where
  exclusive : Exclusive t
  ready : ∀ k c g s, t.threads.lookup k = some c → c.phase = .holding g (.ready s) →
    s.id = c.request.conversationId ∧ s.Agrees t.shared.db
  stored : ∀ k c g d, t.threads.lookup k = some c → c.phase = .holding g (.running d) →
    d.refused = []

section Turns

variable {ω : Type} {R : Runtime ω} {nodeId : String}

variable (R nodeId) in
/-- The assertions hold, and the requests exclude each other. -/
structure Orderly (t : Pool AppState Chat) : Prop where
  holds : t.Holds AppState.Kept fun S k c => c.Safe R nodeId S k
  exclusive : Exclusive t

/-- A request begins to dispatch when it loads the state. -/
theorem Chat.Moves.dispatches {S S' : AppState} {k : ℕ} {c c' : Chat}
    (h : c.Moves R nodeId S k S' (.inl c')) {id : String} (hd : c'.Dispatches id) :
    c.Dispatches id ∨ ∃ g, c.phase = .holding g .loading ∧ c.request.conversationId = id := by
  obtain ⟨hid, g, w, hc', hw⟩ := hd
  cases h with
  | enter | prepare => exact absurd hc' (by simp)
  | lock | permit =>
    obtain ⟨-, rfl⟩ := ChatPhase.holding.inj hc'
    exact hw.elim
  | hit hc | miss hc => exact .inr ⟨_, hc, hid⟩
  | cache hc | start hc | act hc => exact .inl ⟨hid, _, _, hc, trivial⟩

/-- The lock of the runtime excludes the others that have the same runtime. -/
theorem Orderly.alone {t : Pool AppState Chat} (h : Orderly R nodeId t) {k k' g : ℕ} {c c' : Chat}
    {w w' : ChatWork} (hk : t.threads.lookup k = some c) (hk' : t.threads.lookup k' = some c')
    (hc : c.phase = .holding g w) (hc' : c'.phase = .holding g w')
    (hid : c.request.conversationId = c'.request.conversationId) : k = k' := by
  have hlock := ((h.holds.2 k c hk).holding hc).2.1
  have hlock' := ((h.holds.2 k' c' hk').holding hc').2.1
  rw [hid] at hlock
  exact Option.some.inj (hlock.symm.trans hlock')

/-- Whoever dispatches after a step did before, or nobody else does. -/
theorem exclusive_act {t : Pool AppState Chat} {k : ℕ} {e : ChatEvent ω} {c : Chat} {S : AppState}
    {o : Chat ⊕ ChatResponse} (h : Orderly R nodeId t) (hturn : InTurn t (.act k e : ChatAction ω))
    (hk : t.threads.lookup k = some c) (hmoves : c.Moves R nodeId t.shared k S o) :
    Exclusive (t.settle k S o) := by
  -- What the moving request has in common with another one.
  have hmoved {k' : ℕ} {c' c₁ : Chat} {id : String} (hne : k' ≠ k)
      (hk' : t.threads.lookup k' = some c') (hc₁ : (t.settle k S o).threads.lookup k = some c₁)
      (hd : c₁.Dispatches id) (hd' : c'.Dispatches id) : False := by
    obtain rfl := Pool.settle_lookup.1 hc₁
    rcases hmoves.dispatches hd with hd | ⟨g, hc, rfl⟩
    · exact hne (h.exclusive k' k c' c id hk' hk hd' hd)
    · obtain ⟨hid, g', w', hc', hw'⟩ := hd'
      obtain rfl := (hturn c hk g hc).1 k' c' hk' g' w' hc' hw' hid
      exact hne (h.alone hk' hk hc' hc hid)
  intro k₁ k₂ c₁ c₂ id h₁ h₂ hd₁ hd₂
  by_cases hk₁ : k₁ = k
  · by_cases hk₂ : k₂ = k
    · rw [hk₁, hk₂]
    · rw [Pool.settle_lookup_ne t S o hk₂] at h₂
      exact (hmoved hk₂ h₂ (hk₁ ▸ h₁) hd₁ hd₂).elim
  · rw [Pool.settle_lookup_ne t S o hk₁] at h₁
    by_cases hk₂ : k₂ = k
    · exact (hmoved hk₁ h₁ (hk₂ ▸ h₂) hd₂ hd₁).elim
    · rw [Pool.settle_lookup_ne t S o hk₂] at h₂
      exact h.exclusive k₁ k₂ c₁ c₂ id h₁ h₂ hd₁ hd₂

theorem exclusive_step {t t' : Pool AppState Chat} {a : ChatAction ω} (h : Orderly R nodeId t)
    (hturn : InTurn t a) (hstep : (NodeRuntime.program R nodeId).poolStep t a = some t') :
    Exclusive t' := by
  cases a with
  | enter k q =>
    obtain ⟨-, rfl⟩ := Program.enter_eq_some.1 hstep
    have hold {k' : ℕ} {c : Chat} {id : String} (hd : c.Dispatches id)
        (hk' : (t.threads.insert k ⟨q, .entered⟩).lookup k' = some c) :
        t.threads.lookup k' = some c := by
      rw [Finmap.lookup_insert_ite] at hk'
      split_ifs at hk'
      · obtain rfl := Option.some.inj hk'
        obtain ⟨-, g, w, hc, -⟩ := hd
        exact absurd hc (by simp)
      · exact hk'
    exact fun k₁ k₂ c₁ c₂ id h₁ h₂ hd₁ hd₂ =>
      h.exclusive k₁ k₂ c₁ c₂ id (hold hd₁ h₁) (hold hd₂ h₂) hd₁ hd₂
  | act k e =>
    obtain ⟨c, S, o, hk, hs, rfl⟩ := Program.act_eq_some.1 hstep
    exact exclusive_act h hturn hk (Chat.step_moves hs)
  | abort k =>
    obtain ⟨c, S, hk, hs, rfl⟩ := Program.abort_eq_some.1 hstep
    have hold {k' : ℕ} {c : Chat} (hk' : (t.threads.erase k).lookup k' = some c) :
        t.threads.lookup k' = some c := by
      have hne : k' ≠ k := by
        rintro rfl
        exact absurd ((Finmap.lookup_erase k' _).symm.trans hk') (Option.some_ne_none c).symm
      exact (Finmap.lookup_erase_ne hne).symm.trans hk'
    exact fun k₁ k₂ c₁ c₂ id h₁ h₂ => h.exclusive k₁ k₂ c₁ c₂ id (hold h₁) (hold h₂)
  | env v =>
    obtain ⟨S, hs, rfl⟩ := Program.env_eq_some.1 hstep
    exact h.exclusive

theorem orderly_step {t t' : Pool AppState Chat} {a : ChatAction ω} (h : Orderly R nodeId t)
    (hturn : InTurn t a)
    (hstep : (NodeRuntime.program R nodeId).poolStep t a = some t') : Orderly R nodeId t' := by
  refine ⟨h.holds.step hstep (fun k q ha => trivial) (fun k e c S o ha hk hs => ?_)
    (fun k c S ha hk hs => ?_) fun v S ha hs => ?_, exclusive_step h hturn hstep⟩
  · subst ha
    have hmoves := Chat.step_moves hs
    have hsafe := h.holds.2 k c hk
    refine ⟨hmoves.kept hsafe h.holds.1, fun c' hc' => ?_, fun k' c' hne hk' => ?_⟩
    · subst hc'
      exact hmoves.safe hsafe h.holds.1 fun g e hc he => (hturn c hk g hc).2 e he
    · exact (h.holds.2 k' c' hk').others hne (hmoves.others hsafe) fun id hd' hd =>
        hne (h.exclusive k' k c' c id hk' hk hd' hd)
  · obtain ⟨hothers, hdb, hcache⟩ := Chat.abort_others hs (h.holds.2 k c hk)
    refine ⟨h.holds.1.fewer hdb fun g id e he => hcache g ▸ he, fun k' c' hne hk' => ?_⟩
    exact (h.holds.2 k' c' hk').others hne hothers fun _ _ => not_false
  · obtain ⟨hkept, hsafe⟩ := Chat.env_safe hs h.holds.1
    exact ⟨hkept, fun k c hk => hsafe k c (h.holds.2 k c hk)⟩

theorem Orderly.served {t : Pool AppState Chat} (h : Orderly R nodeId t) : Served t := by
  refine ⟨h.exclusive, fun k c g s hk hc => ?_, fun k c g d hk hc => ?_⟩
  · have hload := ((h.holds.2 k c hk).holding hc).2.2.1
    obtain ⟨hid, -, hagrees⟩ := ConversationState.agrees_of_load (h.holds.1.whole _) hload
    exact ⟨hid, hagrees⟩
  · exact ((h.holds.2 k c hk).holding hc).2.2.1.refused

/-- What is cached has all the turns stored only if none was stored since. -/
theorem Cached.Faithful.stored_eq {db : Db} {id : String} {e : Cached} (h : e.Faithful db id)
    (hid : e.state.id = id) (ha : e.state.Agrees db) : e.stored = (db.turnsOf id).length := by
  refine h.stored_le.eq_of_not_lt fun hlt => ?_
  obtain ⟨r, hr, hseq⟩ := h.behind hlt
  exact absurd (ha.seq_le r (hid ▸ hr)) (not_le.2 hseq)

/-- A request which loads the state of its conversation goes on to dispatch. -/
theorem Orderly.moves_loading {t : Pool AppState Chat} (h : Orderly R nodeId t) {k g : ℕ}
    {c : Chat} {S : AppState} {o : Chat ⊕ ChatResponse} (hk : t.threads.lookup k = some c)
    (hc : c.phase = .holding g .loading) (hmoves : c.Moves R nodeId t.shared k S o) :
    ∃ w, o = .inl { c with phase := .holding g w } ∧ w.dispatches ∧ S.db = t.shared.db ∧
      ∀ e, (t.shared.runtimes g).cache.lookup c.request.conversationId = some e →
        w = .ready e.state := by
  have hother {phase : ChatPhase} (hp : c.phase = phase) : phase = .holding g .loading :=
    hp.symm.trans hc
  cases hmoves with
  | enter hp | reject _ hp | prepare hp => exact absurd (hother hp) (by simp)
  | lock hp | permit hp | cache hp | start hp | act hp | reply hp =>
    exact absurd (hother hp) (by simp)
  | fail _ hp hw =>
    obtain ⟨-, rfl⟩ := ChatPhase.holding.inj (hother hp)
    exact hw.elim
  | hit hp he hclient =>
    obtain ⟨rfl, -⟩ := ChatPhase.holding.inj (hother hp)
    refine ⟨_, rfl, trivial, rfl, fun e' he' => ?_⟩
    obtain rfl := Option.some.inj (he.symm.trans he')
    rfl
  | miss hp he hload =>
    obtain ⟨rfl, -⟩ := ChatPhase.holding.inj (hother hp)
    exact ⟨_, rfl, trivial, rfl, fun e' he' =>
      absurd (he.symm.trans he') (Option.some_ne_none _).symm⟩
  | unavailable r hp hwhy =>
    -- The conversation was found to be the client's, and stays so.
    have howned := (h.holds.2 k c hk).owned hc
    obtain ⟨rfl, -⟩ := ChatPhase.holding.inj (hother hp)
    rename_i g
    cases he : (t.shared.runtimes g).cache.lookup c.request.conversationId with
    | some e =>
      rw [he] at hwhy
      obtain ⟨record, hfind, hclient⟩ := howned
      obtain ⟨record', hfind', hclient'⟩ := (h.holds.1.faithful g _ e he).owned
      obtain rfl := Option.some.inj (hfind.symm.trans hfind')
      exact absurd (hclient'.symm.trans hclient) hwhy
    | none =>
      rw [he] at hwhy
      exact absurd ((load_whole (h.holds.1.whole _)).2 ⟨howned, rfl⟩) (hwhy _)

/-- A step of requests that were served serves them exactly if it is in turn. -/
theorem Orderly.served_iff {t t' : Pool AppState Chat} {a : ChatAction ω} (h : Orderly R nodeId t)
    (hstep : (NodeRuntime.program R nodeId).poolStep t a = some t') : Served t' ↔ InTurn t a := by
  refine ⟨fun hserved => ?_, fun hturn => (orderly_step h hturn hstep).served⟩
  cases a with
  | enter | abort | env => exact trivial
  | act k e =>
    intro c hk g hc
    obtain ⟨c', S, o, hk', hs, rfl⟩ := Program.act_eq_some.1 hstep
    obtain rfl := Option.some.inj (hk.symm.trans hk')
    obtain ⟨w, rfl, hw, hdb, hfound⟩ := h.moves_loading hk hc (Chat.step_moves hs)
    have hmoved : (t.settle k S (.inl { c with phase := .holding g w } :
        Chat ⊕ ChatResponse)).threads.lookup k = some { c with phase := .holding g w } :=
      Pool.settle_lookup.2 rfl
    refine ⟨fun k' c' hk' g' w' hc' hw' hid => ?_, fun e he => ?_⟩
    · by_cases hkk' : k' = k
      · rw [hkk', hk] at hk'
        obtain rfl := Option.some.inj hk'
        exact (ChatPhase.holding.inj (hc'.symm.trans hc)).1
      · -- The other one still dispatches, and so does this one now.
        rw [← Pool.settle_lookup_ne t S (.inl { c with phase := .holding g w }) hkk'] at hk'
        exact absurd (hserved.exclusive k' k c' _ _ hk' hmoved ⟨hid, g', w', hc', hw'⟩
          ⟨rfl, g, w, rfl, hw⟩) hkk'
    · obtain rfl := hfound e he
      obtain ⟨hid, hagrees⟩ := hserved.ready k _ g e.state hmoved rfl
      rw [Pool.settle_shared, hdb] at hagrees
      exact (h.holds.1.faithful g _ e he).stored_eq hid hagrees

/-! ## Whole runs -/

theorem Db.nodup_nil : (([] : List TurnRecord).map (·.key)).Nodup := List.nodup_nil

theorem Db.foreign_nil :
    ∀ r ∈ ([] : List TurnRecord), r.conversationId ∈ ([] : List ConversationRecord).map (·.id) :=
  List.forall_mem_nil _

/-- A database with nothing in it. -/
def Db.empty : Db := ⟨[], [], [], Db.nodup_nil, Db.foreign_nil⟩

variable (R nodeId) in
/-- The databases a node may find when it starts: whatever its chats have left
    up to some point, where it was stopped. -/
def LeftBehind (db : Db) : Prop :=
  ∃ config as t, Run.run (NodeRuntime.program R nodeId).poolStep (.idle (.boot config .empty)) as =
    some t ∧ t.shared.db = db

/-- A step of a request only adds whole turns. -/
theorem Chat.Moves.whole {S S' : AppState} {k : ℕ} {c : Chat} {o : Chat ⊕ ChatResponse}
    (h : c.Moves R nodeId S k S' o) (hw : ∀ id, Whole (S.db.turnsOf id)) (id : String) :
    Whole (S'.db.turnsOf id) := by
  cases h with
  | enter | reject | prepare | lock | permit | hit | miss | unavailable | cache | reply | fail =>
    exact hw id
  | start hc hd => exact hd ▸ (DispatchState.grows_start _ _ _ _ _).whole hw id
  | act hc hd => exact (DispatchState.step_cases hd).grows.1.whole hw id

theorem Chat.abort_db {S S' : AppState} {c : Chat} (h : c.abort S = some S') : S'.db = S.db := by
  rw [abort] at h
  split at h
  all_goals exact Option.some.inj h ▸ rfl

theorem AppState.env_turns {S S' : AppState} {v : ChatEnv} (h : S.env v = some S') :
    S'.db.turns = S.db.turns := by
  cases v with
  | hotReload | evict => exact Option.some.inj h ▸ rfl
  | create id clientId =>
    simp only [env] at h
    split at h
    · rename_i hcreate
      exact Option.some.inj h ▸ (create_same hcreate).1
    · exact absurd h (Option.some_ne_none _).symm

/-- Whatever happened before, with requests dropped and runtimes replaced, the
    turns which a node finds when it starts are whole. -/
theorem LeftBehind.whole {db : Db} (h : LeftBehind R nodeId db) (id : String) :
    Whole (db.turnsOf id) := by
  obtain ⟨config, as, t, hrun, rfl⟩ := h
  have hempty : ∀ id, Whole (Db.empty.turnsOf id) := fun _ => .nil
  refine Run.run_invariant (I := fun t : Pool AppState Chat => ∀ id, Whole (t.shared.db.turnsOf id))
    (fun t a t' hw hstep => ?_) hempty hrun id
  refine Program.shared_step (I := fun S => ∀ id, Whole (S.db.turnsOf id)) hw hstep
    (fun k e c S o ha hk hs => (Chat.step_moves hs).whole hw) (fun k c S ha hk hs => ?_)
    fun v S ha hs id => ?_
  · exact Chat.abort_db hs ▸ hw
  · rw [Db.turnsOf, AppState.env_turns hs, ← Db.turnsOf]
    exact hw id

theorem orderly_boot {db : Db} (h : ∀ id, Whole (db.turnsOf id)) (config : RuntimeConfig) :
    Orderly R nodeId (.idle (.boot config db)) := by
  refine ⟨Pool.holds_idle ⟨h, fun g id e he => ?_⟩, fun k k' c c' id hk => ?_⟩
  · exact absurd he (Option.some_ne_none e).symm
  · exact absurd ((Finmap.lookup_empty k).symm.trans hk) (Option.some_ne_none c).symm

/-- In any run of any requests for any conversations, with runtimes replaced at
    any time, requests dropped at any time, and conversations created, renamed
    and pushed out of the caches: one request at a time dispatches a
    conversation, from a state with all the turns stored, and no turn is refused
    as its number is taken, exactly if the requests are in turn. -/
theorem served_iff_inTurn {db : Db} (hdb : LeftBehind R nodeId db) {config : RuntimeConfig}
    {as : List (ChatAction ω)} {t : Pool AppState Chat}
    (h : Run.run (NodeRuntime.program R nodeId).poolStep (.idle (.boot config db)) as = some t) :
    Run.Always (NodeRuntime.program R nodeId).poolStep Served (.idle (.boot config db)) as ↔
      Run.Along (NodeRuntime.program R nodeId).poolStep InTurn (.idle (.boot config db)) as := by
  have hboot : Orderly R nodeId (.idle (.boot config db)) := orderly_boot hdb.whole config
  exact Run.always_iff_along hboot hboot.served (fun t a t' ht _ => orderly_step ht)
    (fun t a t' ht _ => ht.served_iff) h

end Turns

/-! ## Two runtimes -/

section Decidable

instance ChatWork.decidableDispatches (w : ChatWork) : Decidable w.dispatches :=
  match w with
  | .locked | .loading => .isFalse not_false
  | .loaded _ | .ready _ | .running _ => .isTrue trivial

instance decidableSome {α : Type*} (o : Option α) (P : α → Prop) [∀ a, Decidable (P a)] :
    Decidable (∀ a, o = some a → P a) := inferInstanceAs (Decidable (∀ a ∈ o, P a))

instance decidableThreads (t : Pool AppState Chat) (P : ℕ → Chat → Prop)
    [∀ k c, Decidable (P k c)] : Decidable (∀ k c, t.threads.lookup k = some c → P k c) :=
  decidable_of_iff (∀ k ∈ t.threads.keys, ∀ c ∈ t.threads.lookup k, P k c)
    ⟨fun h k c hk => h k (Finmap.mem_keys.2 (Finmap.lookup_isSome.1 (by rw [hk]; rfl))) c hk,
      fun h k _ c hk => h k c hk⟩

instance decidableHolding (c : Chat) (P : ℕ → ChatWork → Prop) [∀ g w, Decidable (P g w)] :
    Decidable (∀ g w, c.phase = .holding g w → P g w) :=
  match hc : c.phase with
  | .holding g w => decidable_of_iff (P g w)
    ⟨fun h g' w' he => by obtain ⟨rfl, rfl⟩ := ChatPhase.holding.inj he; exact h,
      fun h => h g w rfl⟩
  | .entered | .preparing _ | .waiting _ => .isTrue fun _ _ he => by cases he

instance decidableLoading (c : Chat) (P : ℕ → Prop) [∀ g, Decidable (P g)] :
    Decidable (∀ g, c.phase = .holding g .loading → P g) :=
  match hc : c.phase with
  | .holding g .loading => decidable_of_iff (P g)
    ⟨fun h g' he => by obtain ⟨rfl, -⟩ := ChatPhase.holding.inj he; exact h, fun h => h g rfl⟩
  | .holding _ .locked | .holding _ (.loaded _) | .holding _ (.ready _) | .holding _ (.running _)
  | .entered | .preparing _ | .waiting _ => .isTrue fun _ he => by cases he

instance InTurn.decidable {ω : Type} (t : Pool AppState Chat) :
    (a : ChatAction ω) → Decidable (InTurn t a)
  | .act _ _ => by
    dsimp only [InTurn]
    infer_instance
  | .enter _ _ | .abort _ | .env _ => .isTrue trivial

end Decidable

open ExecState (observing oneTool)

/-- A node without conversations. -/
def freshNode : Pool AppState Chat := .idle (.boot ⟨4, 50⟩ .empty)

/-- The message `hi` to the conversation `c`, to be answered directly. -/
def hi : ChatRequest := ⟨"me", "c", "hi", [], .direct, oneTool⟩

/-- The request takes some steps on its own. -/
def goes (k n : ℕ) : List (ChatAction (Except String Value)) := List.replicate n (.act k .go)

/-- A request is answered; the runtime is replaced; then, another request is. -/
def swapped : List (ChatAction (Except String Value)) :=
  .env (.create "c" "me") :: .enter 0 hi :: goes 0 7 ++
    [.act 0 (.dispatch (.composed (some "hello") none)), .act 0 .go, .env .hotReload,
      .enter 1 hi] ++ goes 1 7

theorem served_iff_inTurn_swapped : ∃ t,
    Run.run (NodeRuntime.program observing "n3:me").poolStep freshNode swapped = some t ∧
    (t.shared.db.loadTurns "c").map (·.seq) = [1, 2, 3] ∧ t.shared.current = 1 ∧
    Run.Always (NodeRuntime.program observing "n3:me").poolStep Served freshNode swapped := by
  have hend : (Run.run (NodeRuntime.program observing "n3:me").poolStep freshNode swapped).map
      (fun t => ((t.shared.db.loadTurns "c").map (·.seq), t.shared.current)) =
        some ([1, 2, 3], 1) := by decide
  obtain ⟨t, ht, heq⟩ := Option.map_eq_some_iff.1 hend
  obtain ⟨hseq, hcur⟩ := Prod.mk.inj heq
  exact ⟨t, ht, hseq, hcur, (served_iff_inTurn ⟨⟨4, 50⟩, [], _, rfl, rfl⟩ ht).2 (by decide)⟩

/-- The runtime is replaced while a request dispatches, and another request for
    the same conversation takes the new one: both start from the same state. -/
def overlapping : List (ChatAction (Except String Value)) :=
  .env (.create "c" "me") :: .enter 0 hi :: goes 0 6 ++ [.env .hotReload, .enter 1 hi] ++
    goes 1 6 ++ goes 0 1 ++ goes 1 1

/-- The dispatch in progress of a request, and its conversation. -/
def Chat.dispatch? (c : Chat) : Option (String × DispatchState) :=
  match c.phase with
  | .holding _ (.running d) => some (c.request.conversationId, d)
  | _ => none

theorem Chat.dispatch?_eq_some {c : Chat} {id : String} {d : DispatchState}
    (h : c.dispatch? = some (id, d)) :
    c.request.conversationId = id ∧ ∃ g, c.phase = .holding g (.running d) := by
  rw [dispatch?] at h
  split at h
  · rename_i g d' hc
    obtain ⟨rfl, rfl⟩ := Prod.mk.inj (Option.some.inj h)
    exact ⟨rfl, g, hc⟩
  · exact absurd h (Option.some_ne_none _).symm

/-- Two dispatches of one conversation at a time, and a turn refused. -/
theorem overlapping_not_served : ∃ t d d',
    Run.run (NodeRuntime.program observing "n3:me").poolStep freshNode overlapping = some t ∧
    (t.threads.lookup 0).bind Chat.dispatch? = some ("c", d) ∧
    (t.threads.lookup 1).bind Chat.dispatch? = some ("c", d') ∧
    d'.refused = [.storage .unique] ∧ ¬Exclusive t ∧ ¬Served t := by
  have hend : (Run.run (NodeRuntime.program observing "n3:me").poolStep freshNode overlapping).any
      (fun t => ((t.threads.lookup 0).bind Chat.dispatch?).any (fun x => x.1 = "c") &&
        ((t.threads.lookup 1).bind Chat.dispatch?).any
          (fun x => x.1 = "c" && x.2.refused = [.storage .unique])) = true := by decide
  obtain ⟨t, ht, hthreads⟩ := (Option.any_eq_true _ _).1 hend
  obtain ⟨h₀, h₁⟩ := Bool.and_eq_true_iff.1 hthreads
  obtain ⟨⟨id, d⟩, hd, hid⟩ := (Option.any_eq_true _ _).1 h₀
  obtain ⟨⟨id', d'⟩, hd', hx⟩ := (Option.any_eq_true _ _).1 h₁
  obtain ⟨hid', hrefused⟩ := Bool.and_eq_true_iff.1 hx
  obtain rfl := of_decide_eq_true hid
  obtain rfl := of_decide_eq_true hid'
  have hrefused := of_decide_eq_true hrefused
  have hexcl : ¬Exclusive t := fun h => by
    obtain ⟨c, hk, hc⟩ := Option.bind_eq_some_iff.1 hd
    obtain ⟨c', hk', hc'⟩ := Option.bind_eq_some_iff.1 hd'
    obtain ⟨hid, g, hphase⟩ := Chat.dispatch?_eq_some hc
    obtain ⟨hid', g', hphase'⟩ := Chat.dispatch?_eq_some hc'
    exact absurd (h 0 1 c c' _ hk hk' ⟨hid, g, _, hphase, trivial⟩
      ⟨hid', g', _, hphase', trivial⟩) (by decide)
  exact ⟨t, d, d', ht, hd, hd', hrefused, hexcl, fun h => hexcl h.exclusive⟩

end N3ur0n
