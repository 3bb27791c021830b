import N3ur0n.Lib.Slots
import N3ur0n.Planner.Executor

/-!
# Safety of the executor

Whatever the order in which jobs get a permit and complete, and whatever the
invocations return, the execution of an accepted plan keeps the invariant `Inv`:

* the steps in flight are those which are ready and not done, where the steps
  done are those on the blackboard: the counters are a countdown of the
  dependency graph (`DepGraph.Countdown`);
* every step in flight was prepared from an earlier blackboard, which held what
  the step waits for (`Spawned`); every step done was recorded once, with the
  outcome of its job (`Recorded`);
* no step starts, or is done, before the steps it waits for (`InOrder`).

From the invariant, no order loses, duplicates or stalls a step
(`execute_safe`).
-/

namespace N3ur0n

/-- The step an event is about. -/
def DispatchEvent.stepId : DispatchEvent → String
  | .stepStart id => id
  | .stepDone id _ _ _ => id

/-- The steps which have started, in order. -/
def started (events : List DispatchEvent) : List String :=
  events.filterMap fun
    | .stepStart id => some id
    | _ => none

/-- The steps which are done, in order. -/
def finished (events : List DispatchEvent) : List String :=
  events.filterMap fun
    | .stepDone id _ _ _ => some id
    | _ => none

/-- The steps which got a permit, in order. -/
def starts {ω : Type} (as : List (Action ω)) : List String :=
  as.filterMap fun
    | .start id => some id
    | _ => none

/-- The steps which completed, in order. -/
def completions {ω : Type} (as : List (Action ω)) : List String :=
  as.filterMap fun
    | .start _ => none
    | .failed id | .returned id _ => some id

theorem starts_append {ω : Type} (as bs : List (Action ω)) :
    starts (as ++ bs) = starts as ++ starts bs := List.filterMap_append

theorem completions_append {ω : Type} (as bs : List (Action ω)) :
    completions (as ++ bs) = completions as ++ completions bs := List.filterMap_append

theorem length_eq_starts_add {ω : Type} (as : List (Action ω)) :
    as.length = (starts as).length + (completions as).length := by
  induction as with
  | nil => rfl
  | cons a as ih =>
    cases a with
    | start id =>
      simp only [starts, completions, List.length_cons, List.filterMap_cons] at ih ⊢
      omega
    | failed id | returned id obs =>
      simp only [starts, completions, List.length_cons, List.filterMap_cons] at ih ⊢
      omega

/-- When a step starts or is done, the other steps of the plan it declares to
    wait for, or refers to, are done. -/
def InOrder (p : Plan) (events : List DispatchEvent) : Prop :=
  ∀ i e, events[i]? = some e → ∀ s ∈ p.plan, s.id = e.stepId →
    ∀ d, d ∈ s.dependsOn ∨ d ∈ collectRefs s.args → d ≠ s.id → d ∈ p.ids →
      d ∈ finished (events.take i)

theorem inOrder_snoc {p : Plan} {events : List DispatchEvent} {e : DispatchEvent}
    (h : InOrder p events) (hn : p.ids.Nodup)
    (he : p.graph.deps e.stepId ⊆ (finished events).toFinset) : InOrder p (events ++ [e]) := by
  intro i e' hi s hs hse d hd hds hdp
  -- An earlier event, or the new one: what its step waits for is done by now.
  rcases lt_or_ge i events.length with hlt | hge
  · rw [List.getElem?_append_left hlt] at hi
    rw [List.take_append_of_le_length hlt.le]
    exact h i e' hi s hs hse d hd hds hdp
  · rw [List.getElem?_append_right hge, List.getElem?_singleton] at hi
    obtain ⟨hi0, rfl⟩ : i - events.length = 0 ∧ e = e' := by simpa using hi
    have hi' : i = events.length := by omega
    rw [hi', List.take_left]
    refine List.mem_toFinset.1 (he ?_)
    rw [← hse]
    exact (Plan.mem_graph_deps hn hs).2 ⟨(s.mem_deps d).2 hd, hds, hdp⟩

/-- The work of a job once it holds a permit. -/
def Work.permitted : Work → Work
  | .queued tool args => .running tool args
  | w => w

namespace ExecState

variable {ω : Type} {R : Runtime ω} {catalog : Catalog} {p : Plan}

variable (R) in
/-- What a job may result in, after the actions `h`. -/
def Outcome (h : List (Action ω)) (id : String) : Work → Except String Value → Prop
  | .failed err, r => .failed id ∈ h ∧ r = .error err
  | .queued tool args, r | .running tool args, r =>
    ∃ obs, .returned id obs ∈ h ∧ r = R.invoke obs tool args

theorem Outcome.mono {h h' : List (Action ω)} {id : String} {w : Work} {r : Except String Value}
    (ho : Outcome R h id w r) (hsub : h ⊆ h') : Outcome R h' id w r := by
  cases w with
  | failed err => exact ⟨hsub ho.1, ho.2⟩
  | queued tool args | running tool args =>
    obtain ⟨obs, hobs, hr⟩ := ho
    exact ⟨obs, hsub hobs, hr⟩

variable (R catalog p) in
/-- The step was prepared from an earlier blackboard `B`, as soon as it held
    what the step waits for. -/
def Spawned (σ : ExecState) (s : PlanStep) (e : TraceEntry) (w : Work) : Prop :=
  ∃ B callId, prepare R.compile catalog s callId B = (e, w) ∧ σ.blackboard.Extends B ∧
    B.keys ⊆ p.graph.ready B.keys ∧ p.graph.Prompt B.keys s.id

variable (R catalog p) in
/-- The step was prepared, and its outcome recorded. -/
def Recorded (h : List (Action ω)) (σ : ExecState) (s : PlanStep) : Prop :=
  ∃ e w r, Spawned R catalog p σ s e w ∧ Outcome R h s.id w r ∧
    σ.blackboard.lookup s.id = some (settle r) ∧ σ.traceById.lookup s.id = some (e.close r)

variable (R catalog p) in
structure Inv (h : List (Action ω)) (σ : ExecState) : Prop where
  countdown : p.graph.Countdown σ.blackboard.keys σ.indeg σ.live
  trace_keys : σ.traceById.keys = p.graph.ready σ.blackboard.keys
  inFlight : ∀ s ∈ p.plan, s.id ∈ σ.live → ∃ e w, Spawned R catalog p σ s e w ∧
    σ.traceById.lookup s.id = some e ∧ (σ.work s.id = some w ∨ σ.work s.id = some w.permitted)
  recorded : ∀ s ∈ p.plan, s.id ∈ σ.blackboard → Recorded R catalog p h σ s
  inOrder : InOrder p σ.events
  finished_nodup : (finished σ.events).Nodup
  finished_keys : (finished σ.events).toFinset = σ.blackboard.keys
  started_nodup : (started σ.events).Nodup
  started_sub : ∀ a ∈ started σ.events, a ∈ σ.blackboard ∨
    ∃ tool args, σ.work a = some (.running tool args)
  hooked_nodup : (σ.hooked.map Prod.fst).Nodup
  hooked_iff : ∀ i e, (i, e) ∈ σ.hooked ↔ ∃ a, p.ids[i]? = some a ∧ a ∈ σ.blackboard ∧
    σ.traceById.lookup a = some e
  started_eq : started σ.events = starts h
  finished_eq : finished σ.events = completions h

/-! ## Spawning -/

theorem work_append (σ : ExecState) (l : List Job) (a : String) (t : Table String TraceEntry)
    (m : ℕ) : ({ σ with traceById := t, inFlight := σ.inFlight ++ l, minted := m } : ExecState).work
      a = (σ.work a).or ((l.find? (·.id = a)).map (·.work)) := by
  simp [work, Option.map_or]

theorem work_eq_none {σ : ExecState} {a : String} : σ.work a = none ↔ a ∉ σ.live := by
  simp [work, live]

variable (R catalog p) in
/-- The state `σ'` after spawning the steps `new` in the state `σ`. -/
structure AfterSpawn (new : List String) (σ σ' : ExecState) : Prop where
  indeg : σ'.indeg = σ.indeg
  blackboard : σ'.blackboard = σ.blackboard
  events : σ'.events = σ.events
  hooked : σ'.hooked = σ.hooked
  live : σ'.live = σ.live ++ new
  trace_keys : σ'.traceById.keys = σ.traceById.keys ∪ new.toFinset
  lookup_of_notMem : ∀ a ∉ new, σ'.traceById.lookup a = σ.traceById.lookup a
  work_of_notMem : ∀ a ∉ new, σ'.work a = σ.work a
  prepared : ∀ s ∈ p.plan, s.id ∈ new → ∃ callId,
    σ'.traceById.lookup s.id = some (prepare R.compile catalog s callId σ.blackboard).1 ∧
      σ'.work s.id = some (prepare R.compile catalog s callId σ.blackboard).2

theorem afterSpawn_step (hn : p.ids.Nodup) {σ : ExecState} {s : PlanStep} (hs : s ∈ p.plan)
    (hl : s.id ∉ σ.live) : AfterSpawn R catalog p [s.id] σ (σ.spawnStep R catalog p s.id) := by
  have hwork := work_eq_none.2 hl
  rw [spawnStep, (Plan.lookup_byId hn).2 ⟨hs, rfl⟩]
  refine ⟨rfl, rfl, rfl, rfl, ?_, ?_, fun a ha => ?_, fun a ha => ?_, fun t ht hts => ?_⟩
  · simp [live]
  · rw [Finmap.keys_insert]
    ext b
    simp
  · rw [Finmap.lookup_insert_ite, if_neg (List.ne_of_not_mem_cons ha)]
  · simp [work_append, Ne.symm (List.ne_of_not_mem_cons ha)]
  · obtain rfl := Plan.eq_of_id_eq hn ht hs (List.mem_singleton.1 hts)
    exact ⟨_, Finmap.lookup_insert _, by simp [work_append, hwork]⟩

theorem afterSpawn_foldl (hn : p.ids.Nodup) {new : List String} (hnew : new.Nodup)
    {σ : ExecState} (hp : ∀ a ∈ new, a ∈ p.ids ∧ a ∉ σ.live) :
    AfterSpawn R catalog p new σ (new.foldl (spawnStep R catalog p) σ) := by
  induction new generalizing σ with
  | nil =>
    exact ⟨rfl, rfl, rfl, rfl, by simp, by simp, fun _ _ => rfl, fun _ _ => rfl,
      fun s _ h => absurd h List.not_mem_nil⟩
  | cons a new ih =>
    obtain ⟨hanew, hnew'⟩ := List.nodup_cons.1 hnew
    obtain ⟨hap, hal⟩ := hp a List.mem_cons_self
    obtain ⟨s, hs, rfl⟩ := Plan.mem_ids.1 hap
    -- Spawning a step leaves the blackboard alone, so the others are prepared from
    -- the same one.
    have h1 : AfterSpawn R catalog p [s.id] σ (σ.spawnStep R catalog p s.id) :=
      afterSpawn_step hn hs hal
    have h2 := ih hnew' (σ := σ.spawnStep R catalog p s.id) fun b hb => by
      refine ⟨(hp b (List.mem_cons_of_mem _ hb)).1, ?_⟩
      rw [h1.live, List.mem_append, List.mem_singleton, not_or]
      exact ⟨(hp b (List.mem_cons_of_mem _ hb)).2, fun e => hanew (e ▸ hb)⟩
    rw [List.foldl_cons]
    refine ⟨h2.indeg.trans h1.indeg, h2.blackboard.trans h1.blackboard,
      h2.events.trans h1.events, h2.hooked.trans h1.hooked, ?_, ?_, fun b hb => ?_,
      fun b hb => ?_, fun t ht htn => ?_⟩
    · rw [h2.live, h1.live, List.append_assoc, List.singleton_append]
    · rw [h2.trace_keys, h1.trace_keys, List.toFinset_cons, List.toFinset_cons,
        List.toFinset_nil, Finset.union_assoc, Finset.insert_union, Finset.empty_union]
    · rw [List.mem_cons, not_or] at hb
      rw [h2.lookup_of_notMem b hb.2, h1.lookup_of_notMem b (by simp [hb.1])]
    · rw [List.mem_cons, not_or] at hb
      rw [h2.work_of_notMem b hb.2, h1.work_of_notMem b (by simp [hb.1])]
    · by_cases htnew : t.id ∈ new
      · rw [← h1.blackboard]
        exact h2.prepared t ht htnew
      · have hts : t.id ∈ [s.id] := by
          simpa using (List.mem_cons.1 htn).resolve_right htnew
        obtain ⟨c, hc⟩ := h1.prepared t ht hts
        exact ⟨c, by rwa [h2.lookup_of_notMem _ htnew, h2.work_of_notMem _ htnew]⟩

/-! ## The invariant -/

theorem inv_initial (hn : p.ids.Nodup) : Inv R catalog p [] (initial R catalog p) := by
  have hc := Plan.countdown_seeds hn
  have hsp : AfterSpawn R catalog p p.seeds _ (initial R catalog p) :=
    afterSpawn_foldl hn hc.nodup fun a ha =>
      ⟨Plan.mem_graph_nodes.1 (p.graph.mem_ready.1 ((hc.mem_live a).1 ha).1).1, List.not_mem_nil⟩
  have hbb : (initial R catalog p).blackboard = ∅ := hsp.blackboard
  have hev : (initial R catalog p).events = [] := hsp.events
  have hhk : (initial R catalog p).hooked = [] := hsp.hooked
  have hlive : (initial R catalog p).live = p.seeds := hsp.live
  -- Nothing has happened yet: most of the invariant is about nothing.
  have hempty (a : String) : a ∉ (initial R catalog p).blackboard := hbb ▸ Finmap.notMem_empty
  refine ⟨?_, ?_, fun s hs hsl => ?_, fun s _ h => absurd h (hempty _), ?_, ?_, ?_, ?_, ?_, ?_, ?_,
    ?_, ?_⟩
  · rw [hbb, hlive, hsp.indeg, Finmap.keys_empty]
    exact hc
  · rw [hbb, hsp.trace_keys, Finmap.keys_empty, Finmap.keys_empty]
    ext a
    simp [hc.mem_live]
  · rw [hlive] at hsl
    obtain ⟨c, hte, hw⟩ := hsp.prepared s hs hsl
    refine ⟨_, _, ⟨∅, c, rfl, hbb ▸ Finmap.Extends.refl _, ?_, ?_, ?_⟩, hte, .inl hw⟩
    · rw [Finmap.keys_empty]
      exact Finset.empty_subset _
    · rw [Finmap.keys_empty]
      exact ((hc.mem_live _).1 hsl).1
    · intro b hb
      rw [Finmap.keys_empty] at hb
      exact absurd hb (Finset.notMem_empty b)
  · rw [hev]
    intro i e he
    exact absurd he (by simp)
  · simp [hev, finished]
  · simp [hev, hbb, finished]
  · simp [hev, started]
  · simp [hev, started]
  · simp [hhk]
  · simp [hhk, hempty]
  · simp [hev, started, starts]
  · simp [hev, finished, completions]

theorem work_acquire (σ : ExecState) (id : String) (tool : ToolDef) (args : Value) (a : String) :
    (σ.acquire id tool args).work a =
      if a = id ∧ a ∈ σ.live then some (.running tool args) else σ.work a := by
  have hid (j : Job) :
      (if j.id = id then (⟨id, .running tool args⟩ : Job) else j).id = j.id := by
    split_ifs with h
    · exact h.symm
    · rfl
  have hcomp : ((fun j : Job => decide (j.id = a)) ∘
      fun j => if j.id = id then (⟨id, .running tool args⟩ : Job) else j) =
        fun j : Job => decide (j.id = a) := funext fun j => by simp only [Function.comp_apply, hid]
  rw [work, acquire, List.find?_map, hcomp, work]
  cases hf : σ.inFlight.find? (·.id = a) with
  | none =>
    have ha : a ∉ σ.live := work_eq_none.1 (by rw [work, hf, Option.map_none])
    simp [ha]
  | some j =>
    have hja : j.id = a := by simpa using List.find?_some hf
    have hal : a ∈ σ.live := List.mem_map.2 ⟨j, List.mem_of_find?_eq_some hf, hja⟩
    by_cases haid : a = id
    · subst haid
      simp [hja, hal]
    · simp [hja, haid]

theorem live_acquire (σ : ExecState) (id : String) (tool : ToolDef) (args : Value) :
    (σ.acquire id tool args).live = σ.live := by
  rw [live, acquire, List.map_map]
  refine List.map_congr_left fun j _ => ?_
  rw [Function.comp_apply]
  split_ifs with h
  · exact h.symm
  · rfl

/-- What is in flight waits for nothing any more. -/
theorem Inv.deps_subset {h : List (Action ω)} {σ : ExecState} (hI : Inv R catalog p h σ)
    {id : String} (hid : id ∈ σ.live) : p.graph.deps id ⊆ (finished σ.events).toFinset := by
  rw [hI.finished_keys]
  exact (p.graph.mem_ready.1 (hI.countdown.live_not_done hid).1).2

theorem inv_start (hn : p.ids.Nodup) {h : List (Action ω)} {σ : ExecState}
    (hI : Inv R catalog p h σ) {id : String} {tool : ToolDef} {args : Value}
    (hw : σ.work id = some (.queued tool args)) :
    Inv R catalog p (h ++ [.start id]) (σ.acquire id tool args) := by
  have hid : id ∈ σ.live := by
    by_contra hc
    exact absurd (hw.symm.trans (work_eq_none.2 hc)) (by simp)
  have hsub : h ⊆ h ++ [.start id] := List.subset_append_left _ _
  -- A step that has started is done or holds a permit; this one is queued.
  have hnew : id ∉ started σ.events := fun hs => by
    rcases hI.started_sub id hs with hb | ⟨_, _, hr⟩
    · exact (hI.countdown.live_not_done hid).2 (Finmap.mem_keys.2 hb)
    · exact absurd (hw.symm.trans hr) (by simp)
  refine ⟨?_, hI.trace_keys, fun s hs hsl => ?_, fun s hs hb => ?_, ?_, ?_, ?_, ?_, fun a ha => ?_,
    hI.hooked_nodup, hI.hooked_iff, ?_, ?_⟩
  · rw [live_acquire]
    exact hI.countdown
  · rw [live_acquire] at hsl
    obtain ⟨e, w, hsp, hte, hor⟩ := hI.inFlight s hs hsl
    refine ⟨e, w, hsp, hte, ?_⟩
    rw [work_acquire]
    by_cases hsid : s.id = id
    · -- A queued job has just been prepared, or it would hold a permit.
      rw [if_pos ⟨hsid, hsl⟩]
      rw [hsid, hw] at hor
      rcases hor with hor | hor
      · obtain rfl := Option.some.inj hor
        exact .inr rfl
      · cases w <;> simp [Work.permitted] at hor
    · rwa [if_neg fun h => hsid h.1]
  · obtain ⟨e, w, r, hsp, ho, hb', ht⟩ := hI.recorded s hs hb
    exact ⟨e, w, r, hsp, ho.mono hsub, hb', ht⟩
  · exact inOrder_snoc hI.inOrder hn (hI.deps_subset hid)
  · simpa [acquire, finished] using hI.finished_nodup
  · simpa [acquire, finished] using hI.finished_keys
  · have : started (σ.acquire id tool args).events = started σ.events ++ [id] := by
      simp [acquire, started]
    rw [this]
    exact hI.started_nodup.append (List.nodup_singleton _) (by simpa using hnew)
  · rw [work_acquire]
    by_cases haid : a = id
    · subst haid
      exact .inr ⟨tool, args, if_pos ⟨rfl, hid⟩⟩
    · rw [if_neg fun h => haid h.1]
      refine hI.started_sub a ?_
      simpa [acquire, started, haid] using ha
  · simpa [acquire, started, starts] using hI.started_eq
  · simpa [acquire, finished, completions] using hI.finished_eq

theorem eraseP_map_id (l : List Job) (id : String) :
    (l.eraseP (·.id = id)).map (·.id) = (l.map (·.id)).erase id := by
  induction l with
  | nil => rfl
  | cons j l ih =>
    by_cases hj : j.id = id
    · simp [hj]
    · simp [hj, ih]

theorem find?_eraseP (l : List Job) {id a : String} (ha : a ≠ id) :
    (l.eraseP (·.id = id)).find? (·.id = a) = l.find? (·.id = a) := by
  induction l with
  | nil => rfl
  | cons j l ih =>
    by_cases hj : j.id = id
    · have hja : j.id ≠ a := fun h => ha (h.symm.trans hj)
      rw [List.eraseP_cons_of_pos (by simpa using hj), List.find?_cons_of_neg (by simpa using hja)]
    · rw [List.eraseP_cons_of_neg (by simpa using hj), List.find?_cons, List.find?_cons, ih]

variable (R catalog p) in
/-- The state `σ'` after the step `s` has completed with the result `r` in the
    state `σ`. -/
structure AfterComplete (s : PlanStep) (r : Except String Value) (σ σ' : ExecState) : Prop where
  blackboard : σ'.blackboard = σ.blackboard.insert s.id (settle r)
  countdown : p.graph.Countdown σ'.blackboard.keys σ'.indeg σ'.live
  trace_keys : σ'.traceById.keys = p.graph.ready σ'.blackboard.keys
  closed : ∃ idx e, p.ids[idx]? = some s.id ∧ σ.traceById.lookup s.id = some e ∧
    σ'.traceById.lookup s.id = some (e.close r) ∧ σ'.hooked = σ.hooked ++ [(idx, e.close r)]
  events : ∃ args, σ'.events = σ.events ++ [doneEvent s.id args r]
  kept : ∀ a ∈ p.graph.ready σ.blackboard.keys, a ≠ s.id →
    σ'.traceById.lookup a = σ.traceById.lookup a ∧ σ'.work a = σ.work a
  live : ∀ t ∈ p.plan, t.id ∈ σ'.live → t.id ∈ σ.live ∧ t.id ≠ s.id ∨
    p.graph.Prompt σ'.blackboard.keys t.id ∧ ∃ callId,
      σ'.traceById.lookup t.id = some (prepare R.compile catalog t callId σ'.blackboard).1 ∧
      σ'.work t.id = some (prepare R.compile catalog t callId σ'.blackboard).2

theorem afterComplete (hn : p.ids.Nodup) {h : List (Action ω)} {σ : ExecState}
    (hI : Inv R catalog p h σ) {s : PlanStep} (hs : s ∈ p.plan) (hsl : s.id ∈ σ.live)
    (r : Except String Value) :
    AfterComplete R catalog p s r σ (σ.complete R catalog p s.id r) := by
  obtain ⟨hready, hnd⟩ := hI.countdown.live_not_done hsl
  obtain ⟨e, w, -, hte, -⟩ := hI.inFlight s hs hsl
  obtain ⟨idx, hidx⟩ := List.mem_iff_getElem?.1 (Plan.mem_ids.2 ⟨s, hs, rfl⟩)
  have hstep := hI.countdown.step (Plan.adjacent_outs hn) hsl
  have hrel := (DepGraph.release_spec hI.countdown.counts (Plan.adjacent_outs hn)
    (Plan.mem_graph_nodes.2 (Plan.mem_ids.2 ⟨s, hs, rfl⟩)) hnd).2
  have hdone := hI.countdown.done_ready
  set new := (DepGraph.release σ.indeg (p.outs s.id)).2
  have hnew {b : String} (hb : b ∈ new) : b ∉ p.graph.ready σ.blackboard.keys := ((hrel b).1 hb).2
  -- The state between the record of the result and the spawning of the steps it
  -- frees, which were not ready before (`hnew`).
  let σ₁ : ExecState := { σ.record p s.id r with
    indeg := (DepGraph.release σ.indeg (p.outs s.id)).1 }
  have hlive₁ : σ₁.live = σ.live.erase s.id := eraseP_map_id _ _
  have hsp : AfterSpawn R catalog p new σ₁ (σ.complete R catalog p s.id r) :=
    afterSpawn_foldl hn (List.nodup_append.1 hstep.nodup).2.1 fun b hb => by
      refine ⟨Plan.mem_graph_nodes.1 (p.graph.mem_ready.1 ((hrel b).1 hb).1).1, fun hbl => ?_⟩
      rw [hlive₁] at hbl
      exact hnew hb (hI.countdown.live_not_done (List.mem_of_mem_erase hbl)).1
  have hbb : (σ.complete R catalog p s.id r).blackboard = σ.blackboard.insert s.id (settle r) :=
    hsp.blackboard
  have hkeys : (σ.complete R catalog p s.id r).blackboard.keys =
      insert s.id σ.blackboard.keys := by rw [hbb, Finmap.keys_insert]
  have hclose : σ₁.traceById.lookup s.id = some (e.close r) := by
    refine (Finmap.lookup_modify _ _ _ _).trans ?_
    rw [if_pos rfl, hte, Option.map_some]
  refine ⟨hbb, ?_, ?_, ⟨idx, e, hidx, hte, ?_, ?_⟩, ⟨_, hsp.events⟩, fun a ha has => ⟨?_, ?_⟩,
    fun t ht htl => ?_⟩
  · rw [hkeys, hsp.indeg, hsp.live, hlive₁]
    exact hstep
  · rw [hkeys, hsp.trace_keys]
    ext b
    have := p.graph.ready_mono (Finset.subset_insert s.id σ.blackboard.keys)
    have hmod : σ₁.traceById.keys = p.graph.ready σ.blackboard.keys :=
      (Finmap.keys_modify _ _ _).trans hI.trace_keys
    rw [hmod, Finset.mem_union, List.mem_toFinset, hrel]
    exact ⟨fun hb => hb.elim (fun hb => this hb) fun hb => hb.1, fun hb => or_iff_not_imp_left.2
      fun hnb => ⟨hb, hnb⟩⟩
  · rw [hsp.lookup_of_notMem _ fun hs => hnew hs hready, hclose]
  · rw [hsp.hooked]
    change σ.hooked ++ _ = _
    simp only [(Plan.lookup_planIdx hn).2 hidx, show (σ.traceById.modify s.id (·.close r)).lookup
      s.id = some (e.close r) from hclose]
  · rw [hsp.lookup_of_notMem _ fun hs => hnew hs ha]
    exact (Finmap.lookup_modify _ _ _ _).trans (if_neg has)
  · rw [hsp.work_of_notMem _ fun hs => hnew hs ha]
    exact congrArg _ (find?_eraseP _ has)
  · rw [hsp.live, hlive₁, List.mem_append] at htl
    rcases htl with htl | htl
    · exact .inl ((hI.countdown.nodup.mem_erase_iff.1 htl).symm)
    · refine .inr ⟨?_, ?_⟩
      · rw [hkeys]
        exact DepGraph.prompt_of_released hdone hready ((hrel _).1 htl).1 (hnew htl)
      · rw [hsp.blackboard]
        exact hsp.prepared t ht htl

theorem mem_live_of_work {σ : ExecState} {id : String} {w : Work} (hw : σ.work id = some w) :
    id ∈ σ.live := by
  by_contra hc
  exact absurd (hw.symm.trans (work_eq_none.2 hc)) (by simp)

theorem Outcome.of_permitted {h : List (Action ω)} {id : String} {w : Work}
    {r : Except String Value} (ho : Outcome R h id w.permitted r) : Outcome R h id w r := by
  cases w with
  | failed err => exact ho
  | queued tool args => exact ho
  | running tool args => exact ho

theorem Spawned.mono {σ σ' : ExecState} {s : PlanStep} {e : TraceEntry} {w : Work}
    (hs : Spawned R catalog p σ s e w) (hext : σ'.blackboard.Extends σ.blackboard) :
    Spawned R catalog p σ' s e w := by
  obtain ⟨B, c, hprep, hB, hclosed, hprompt⟩ := hs
  exact ⟨B, c, hprep, hext.trans hB, hclosed, hprompt⟩

theorem started_snoc_done (events : List DispatchEvent) (id : String) (args : Value)
    (r : Except String Value) : started (events ++ [doneEvent id args r]) = started events := by
  rcases r with err | value
  · simp [started, doneEvent]
  · simp [started, doneEvent]

theorem finished_snoc_done (events : List DispatchEvent) (id : String) (args : Value)
    (r : Except String Value) :
    finished (events ++ [doneEvent id args r]) = finished events ++ [id] := by
  rcases r with err | value
  · simp [finished, doneEvent]
  · simp [finished, doneEvent]

theorem stepId_doneEvent (id : String) (args : Value) (r : Except String Value) :
    (doneEvent id args r).stepId = id := by
  rcases r with err | value
  · rfl
  · rfl

theorem inv_complete (hn : p.ids.Nodup) {h : List (Action ω)} {σ : ExecState}
    (hI : Inv R catalog p h σ) {id : String} {a : Action ω} {w : Work} {r : Except String Value}
    (hw : σ.work id = some w) (ho : Outcome R (h ++ [a]) id w r) (hst : starts [a] = [])
    (hco : completions [a] = [id]) :
    Inv R catalog p (h ++ [a]) (σ.complete R catalog p id r) := by
  have hid := mem_live_of_work hw
  obtain ⟨hready, hnd⟩ := hI.countdown.live_not_done hid
  have hnb : id ∉ σ.blackboard := fun hb => hnd (Finmap.mem_keys.2 hb)
  have hsub : h ⊆ h ++ [a] := List.subset_append_left _ _
  obtain ⟨s, hs, rfl⟩ := Plan.mem_ids.1 (Plan.mem_graph_nodes.1 (p.graph.mem_ready.1 hready).1)
  have hc := afterComplete hn hI hs hid r
  obtain ⟨idx, e, hidx, hte, hclose, hhook⟩ := hc.closed
  obtain ⟨args, hev⟩ := hc.events
  have hext : (σ.complete R catalog p s.id r).blackboard.Extends σ.blackboard :=
    hc.blackboard ▸ Finmap.Extends.insert hnb
  have hmem (b : String) : b ∈ (σ.complete R catalog p s.id r).blackboard ↔
      b = s.id ∨ b ∈ σ.blackboard := by rw [hc.blackboard, Finmap.mem_insert]
  have hdone {b : String} (hb : b ∈ σ.blackboard) : b ∈ p.graph.ready σ.blackboard.keys ∧
      b ≠ s.id := ⟨hI.countdown.done_ready (Finmap.mem_keys.2 hb), fun h => hnb (h ▸ hb)⟩
  refine ⟨hc.countdown, hc.trace_keys, fun t ht htl => ?_, fun t ht htb => ?_, ?_, ?_, ?_, ?_,
    fun b hb => ?_, ?_, fun i e' => ?_, ?_, ?_⟩
  -- In flight: since before, or just spawned.
  · rcases hc.live t ht htl with ⟨htl', hts⟩ | ⟨hprompt, c, ht1, ht2⟩
    · obtain ⟨e', w', hsp, hte', hor⟩ := hI.inFlight t ht htl'
      obtain ⟨hk1, hk2⟩ := hc.kept t.id (hI.countdown.live_not_done htl').1 hts
      exact ⟨e', w', hsp.mono hext, hk1.trans hte', by rwa [hk2]⟩
    · exact ⟨_, _, ⟨_, c, rfl, Finmap.Extends.refl _, hc.countdown.done_ready, hprompt⟩, ht1,
        .inl ht2⟩
  -- Done: just now, with the work it was prepared to, or since before.
  · rcases (hmem _).1 htb with hts | htb'
    · obtain rfl := Plan.eq_of_id_eq hn ht hs hts
      obtain ⟨e', w', hsp, hte', hor⟩ := hI.inFlight t ht hid
      obtain rfl : e = e' := Option.some.inj (hte.symm.trans hte')
      refine ⟨e, w', r, hsp.mono hext, ?_, ?_, hclose⟩
      · rw [hw] at hor
        rcases hor with hor | hor
        · exact Option.some.inj hor ▸ ho
        · exact Outcome.of_permitted (Option.some.inj hor ▸ ho)
      · rw [hc.blackboard, Finmap.lookup_insert]
    · obtain ⟨hr, hts⟩ := hdone htb'
      obtain ⟨e', w', r', hsp, ho', hb', ht'⟩ := hI.recorded t ht htb'
      exact ⟨e', w', r', hsp.mono hext, ho'.mono hsub, hext _ _ hb', (hc.kept _ hr hts).1.trans ht'⟩
  · rw [hev]
    refine inOrder_snoc hI.inOrder hn ?_
    rw [stepId_doneEvent]
    exact hI.deps_subset hid
  · rw [hev, finished_snoc_done]
    refine hI.finished_nodup.append (List.nodup_singleton _) ?_
    rw [List.disjoint_singleton, ← List.mem_toFinset, hI.finished_keys]
    exact hnd
  · rw [hev, finished_snoc_done, List.toFinset_append, hI.finished_keys, hc.blackboard,
      Finmap.keys_insert]
    ext b
    simp
  · rw [hev, started_snoc_done]
    exact hI.started_nodup
  · rw [hev, started_snoc_done] at hb
    rw [hmem]
    by_cases hbs : b = s.id
    · exact .inl (.inl hbs)
    · rcases hI.started_sub b hb with hb' | ⟨tool, args', hr⟩
      · exact .inl (.inr hb')
      · refine .inr ⟨tool, args', ?_⟩
        rw [(hc.kept b (hI.countdown.live_not_done (mem_live_of_work hr)).1 hbs).2, hr]
  · rw [hhook, List.map_append, List.map_singleton]
    refine hI.hooked_nodup.append (List.nodup_singleton _) ?_
    rw [List.disjoint_singleton, List.mem_map]
    rintro ⟨⟨i, e'⟩, hie, rfl⟩
    -- A step is handed to the hook when it is done.
    obtain ⟨b, hb, hbb, -⟩ := (hI.hooked_iff i e').1 hie
    exact (hdone hbb).2 (Option.some.inj (hb.symm.trans hidx))
  · rw [hhook, List.mem_append, List.mem_singleton, hI.hooked_iff, Prod.mk.injEq]
    constructor
    · rintro (⟨b, hb, hbb, hbt⟩ | ⟨rfl, rfl⟩)
      · obtain ⟨hr, hbs⟩ := hdone hbb
        exact ⟨b, hb, (hmem b).2 (.inr hbb), (hc.kept b hr hbs).1.trans hbt⟩
      · exact ⟨s.id, hidx, (hmem _).2 (.inl rfl), hclose⟩
    · rintro ⟨b, hb, hbb, hbt⟩
      rcases (hmem b).1 hbb with rfl | hbb'
      · exact .inr ⟨(List.getElem?_inj (List.getElem?_eq_some_iff.1 hb).1 hn).1
          (hb.trans hidx.symm), Option.some.inj (hbt.symm.trans hclose)⟩
      · obtain ⟨hr, hbs⟩ := hdone hbb'
        exact .inl ⟨b, hb, hbb', (hc.kept b hr hbs).1.symm.trans hbt⟩
  · rw [hev, started_snoc_done, hI.started_eq, starts_append, hst, List.append_nil]
  · rw [hev, finished_snoc_done, hI.finished_eq, completions_append, hco]

/-- Every action keeps the invariant. -/
theorem inv_step (hn : p.ids.Nodup) {h : List (Action ω)} {σ σ' : ExecState} {a : Action ω}
    (hI : Inv R catalog p h σ) (hstep : σ.step R catalog p a = some σ') :
    Inv R catalog p (h ++ [a]) σ' := by
  cases a with
  | start id =>
    simp only [step] at hstep
    split at hstep
    · rename_i tool args hw
      rw [Option.ite_none_right_eq_some, Option.some.injEq] at hstep
      exact hstep.2 ▸ inv_start hn hI hw
    · exact absurd hstep (by simp)
  | failed id =>
    simp only [step] at hstep
    split at hstep
    · rename_i err hw
      exact Option.some.inj hstep ▸ inv_complete hn hI hw ⟨by simp, rfl⟩ rfl rfl
    · exact absurd hstep (by simp)
  | returned id obs =>
    simp only [step] at hstep
    split at hstep
    · rename_i tool args hw
      exact Option.some.inj hstep ▸ inv_complete hn hI hw ⟨obs, by simp, rfl⟩ rfl rfl
    · exact absurd hstep (by simp)

/-- The invariant holds in every state of every execution. -/
theorem inv_execute (hn : p.ids.Nodup) {as : List (Action ω)} {σ : ExecState}
    (h : execute R catalog p as = some σ) : Inv R catalog p as σ :=
  Run.run_induction (inv_initial hn) (fun _ _ _ _ hI hstep => inv_step hn hI hstep) h

/-! ## The end of the execution -/

theorem work_of_mem {σ : ExecState} (hn : σ.live.Nodup) {j : Job} (hj : j ∈ σ.inFlight) :
    σ.work j.id = some j.work := by
  cases hf : σ.inFlight.find? (·.id = j.id) with
  | none => exact absurd (List.find?_eq_none.1 hf j hj) (by simp)
  | some k =>
    have hk : k.id = j.id := by simpa using List.find?_some hf
    obtain rfl := List.inj_on_of_nodup_map hn (List.mem_of_find?_eq_some hf) hj hk
    rw [work, hf, Option.map_some]

/-- As long as some step is in flight, some job can get a permit, or complete:
    with no job holding a permit, one that waits for it gets it. -/
theorem exists_step {σ : ExecState} (hn : σ.live.Nodup) (h : σ.inFlight ≠ []) :
    ∃ id, (σ.step R catalog p (.start id)).isSome ∨ (σ.step R catalog p (.failed id)).isSome ∨
      ∀ obs, (σ.step R catalog p (.returned id obs)).isSome := by
  by_cases hrun : ∃ id tool args, σ.work id = some (.running tool args)
  -- A job that holds a permit may return; otherwise, all the permits are free.
  · obtain ⟨id, tool, args, hw⟩ := hrun
    exact ⟨id, .inr (.inr fun obs => by simp [step, hw])⟩
  · obtain ⟨j, hj⟩ := List.exists_mem_of_ne_nil _ h
    have hw := work_of_mem hn hj
    have hzero : σ.permits = 0 := List.countP_eq_zero.2 fun k hk => by
      have hwk := work_of_mem hn hk
      split
      · rename_i tool args hk'
        exact absurd ⟨k.id, tool, args, hk' ▸ hwk⟩ hrun
      · simp
    cases hjw : j.work with
    | failed err => exact ⟨j.id, .inr (.inl (by simp [step, hw, hjw]))⟩
    | queued tool args =>
      exact ⟨j.id, .inl (by simp [step, hw, hjw, hzero, maxConcurrentSteps])⟩
    | running tool args => exact absurd ⟨j.id, tool, args, hjw ▸ hw⟩ hrun

/-- What a step is prepared to: an entry without a result, whose error is that
    of its job, and arguments as resolved from the blackboard. -/
theorem prepare_spec {compile : SchemaCompiler} {s : PlanStep} {callId : String}
    {B : Blackboard} {e : TraceEntry} {w : Work}
    (h : prepare compile catalog s callId B = (e, w)) :
    e.capability = s.capability ∧ e.args = resolveValue s.args B ∧ e.result = none ∧
      ((∃ err, w = .failed err ∧ e.error = some err) ∨
        ∃ tool, w = .queued tool e.args ∧ e.error = none ∧ e.peerId = tool.peerId ∧
          catalog.find s.toolName = some tool) := by
  simp only [prepare] at h
  split at h
  · obtain ⟨rfl, rfl⟩ := Prod.mk.inj h
    exact ⟨rfl, rfl, rfl, .inl ⟨_, rfl, rfl⟩⟩
  · split at h
    · obtain ⟨rfl, rfl⟩ := Prod.mk.inj h
      exact ⟨rfl, rfl, rfl, .inl ⟨_, rfl, rfl⟩⟩
    · rename_i tool htool
      split at h
      · obtain ⟨rfl, rfl⟩ := Prod.mk.inj h
        exact ⟨rfl, rfl, rfl, .inl ⟨_, rfl, rfl⟩⟩
      · obtain ⟨rfl, rfl⟩ := Prod.mk.inj h
        exact ⟨rfl, rfl, rfl, .inr ⟨tool, rfl, rfl, rfl, htool⟩⟩

/-- The entry of the trace tells what the blackboard holds for the step. -/
def EntryOf (blackboard : Blackboard) (s : PlanStep) (e : TraceEntry) : Prop :=
  e.capability = s.capability ∧
    ((∃ value, e.result = some value ∧ e.error = none ∧ blackboard.lookup s.id = some value) ∨
      ∃ err, e.result = none ∧ e.error = some err ∧
        blackboard.lookup s.id = some (.object [("error", .string err)]))

theorem Recorded.entryOf {h : List (Action ω)} {σ : ExecState} {s : PlanStep}
    (hr : Recorded R catalog p h σ s) :
    ∃ e, σ.traceById.lookup s.id = some e ∧ EntryOf σ.blackboard s e := by
  obtain ⟨e, w, r, ⟨B, c, hprep, -⟩, ho, hb, ht⟩ := hr
  obtain ⟨hcap, -, hres, hw⟩ := prepare_spec hprep
  refine ⟨_, ht, ?_, ?_⟩
  · rcases r with err | value
    · exact hcap
    · exact hcap
  · rcases r with err | value
    · exact .inr ⟨err, hres, rfl, hb⟩
    · rcases hw with ⟨err, rfl, -⟩ | ⟨tool, -, herr, -⟩
      · exact absurd ho (by simp [Outcome])
      · exact .inl ⟨value, rfl, herr, hb⟩

theorem reassemble_eq {l : List PlanStep} (hn : (l.map (·.id)).Nodup) {t : Table String TraceEntry}
    {f : PlanStep → TraceEntry} (hf : ∀ s ∈ l, t.lookup s.id = some (f s)) :
    reassemble l t = l.map f := by
  induction l generalizing t with
  | nil => rfl
  | cons s l ih =>
    obtain ⟨hs, hn⟩ := List.nodup_cons.1 hn
    rw [reassemble, hf s List.mem_cons_self, List.map_cons]
    refine congrArg _ (ih hn fun s' hs' => ?_)
    rw [Finmap.lookup_erase_ne fun h => hs (List.mem_map.2 ⟨s', hs', h⟩)]
    exact hf s' (List.mem_cons_of_mem _ hs')

/-- When nothing is in flight any more, every step is done. -/
theorem Inv.all_done (hg : p.graph.Acyclic) {h : List (Action ω)} {σ : ExecState}
    (hI : Inv R catalog p h σ) (hnil : σ.inFlight = []) : σ.blackboard.keys = p.ids.toFinset := by
  have hlive : σ.live = [] := by rw [live, hnil, List.map_nil]
  exact (hlive ▸ hI.countdown).done_of_live_nil hg

/-- At the end, the trace holds the entry of every step, in plan order. -/
theorem Inv.planRun_trace (hn : p.ids.Nodup) (hg : p.graph.Acyclic) {h : List (Action ω)}
    {σ : ExecState} (hI : Inv R catalog p h σ) (hnil : σ.inFlight = []) :
    ∃ f : PlanStep → TraceEntry, (σ.planRun p).trace = p.plan.map f ∧
      ∀ s ∈ p.plan, σ.traceById.lookup s.id = some (f s) ∧ EntryOf σ.blackboard s (f s) := by
  have hrec (s : PlanStep) (hs : s ∈ p.plan) := (hI.recorded s hs (by
    rw [← Finmap.mem_keys, hI.all_done hg hnil, List.mem_toFinset]
    exact Plan.mem_ids.2 ⟨s, hs, rfl⟩)).entryOf
  have : Nonempty TraceEntry := ⟨⟨"", "", "", .null, none, none⟩⟩
  choose! f hf using hrec
  exact ⟨f, reassemble_eq hn fun s hs => (hf s hs).1, hf⟩

/-! ## The durability hook -/

theorem foldl_spawnStep_hooked (l : List String) (σ : ExecState) :
    (l.foldl (spawnStep R catalog p) σ).hooked = σ.hooked := by
  induction l generalizing σ with
  | nil => rfl
  | cons a l ih =>
    rw [List.foldl_cons, ih]
    rw [spawnStep]
    split
    · rfl
    · rfl

theorem initial_hooked : (initial R catalog p).hooked = [] := foldl_spawnStep_hooked _ _

/-- The calls of the hook are only added to. -/
theorem step_hooked {σ σ' : ExecState} {a : Action ω} (h : σ.step R catalog p a = some σ') :
    σ.hooked <+: σ'.hooked := by
  have hcomplete (id : String) (r : Except String Value) :
      σ.hooked <+: (σ.complete R catalog p id r).hooked := by
    -- Only the record of the result calls the hook.
    rw [complete, freeDownstream, foldl_spawnStep_hooked]
    exact List.prefix_append _ _
  cases a with
  | start id =>
    simp only [step] at h
    split at h
    · obtain rfl := Option.some.inj (Option.ite_none_right_eq_some.1 h).2
      exact List.prefix_refl _
    · exact absurd h (by simp)
  | failed id =>
    simp only [step] at h
    split at h
    · exact Option.some.inj h ▸ hcomplete _ _
    · exact absurd h (by simp)
  | returned id obs =>
    simp only [step] at h
    split at h
    · exact Option.some.inj h ▸ hcomplete _ _
    · exact absurd h (by simp)

/-- At the end, the hook was called with the entries of the trace, at their
    places, in some order. -/
theorem Inv.hooked_perm (hn : p.ids.Nodup) (hg : p.graph.Acyclic) {h : List (Action ω)}
    {σ : ExecState} (hI : Inv R catalog p h σ) (hnil : σ.inFlight = []) :
    σ.hooked.Perm (Slots.numbered (σ.planRun p).trace) := by
  obtain ⟨f, hf, hentries⟩ := hI.planRun_trace hn hg hnil
  refine Slots.perm_numbered hI.hooked_nodup fun i e => ?_
  rw [hI.hooked_iff, hf, List.getElem?_map, Plan.ids, List.getElem?_map]
  cases hs : p.plan[i]? with
  | none => simp
  | some s =>
    have hsp := List.mem_of_getElem? hs
    -- The hook was called for the steps done, which are all of them.
    have hb : s.id ∈ σ.blackboard := by
      rw [← Finmap.mem_keys, hI.all_done hg hnil, List.mem_toFinset]
      exact Plan.mem_ids.2 ⟨s, hsp, rfl⟩
    simp [hb, (hentries s hsp).1]

/-- A step completes once. -/
theorem Inv.completion_inj {h : List (Action ω)} {σ : ExecState} (hI : Inv R catalog p h σ)
    {id : String} {a b : Action ω} (ha : a ∈ h) (hb : b ∈ h) (hca : completions [a] = [id])
    (hcb : completions [b] = [id]) : a = b := by
  have hn := hI.finished_eq ▸ hI.finished_nodup
  clear hI
  induction h with
  | nil => exact absurd ha List.not_mem_nil
  | cons c h ih =>
    rw [← List.singleton_append, completions_append] at hn
    have hmem {a : Action ω} (ha : a ∈ h) (hca : completions [a] = [id]) : id ∈ completions h := by
      obtain ⟨l, l', rfl⟩ := List.append_of_mem ha
      rw [completions_append, ← List.singleton_append, completions_append, hca]
      simp
    have hdisj := (List.nodup_append.1 hn).2.2
    rcases List.mem_cons.1 ha with rfl | hah
    · rcases List.mem_cons.1 hb with rfl | hbh
      · rfl
      · exact absurd rfl (hdisj id (by simp [hca]) id (hmem hbh hcb))
    · rcases List.mem_cons.1 hb with rfl | hbh
      · exact absurd rfl (hdisj id (by simp [hcb]) id (hmem hah hca))
      · exact ih hah hbh (List.nodup_append.1 hn).2.1

/-- A step whose entry has a result was invoked, and returned it. -/
theorem Inv.returned_of_result {h : List (Action ω)} {σ : ExecState} (hI : Inv R catalog p h σ)
    {s : PlanStep} (hs : s ∈ p.plan) {entry : TraceEntry} {value : Value}
    (hent : σ.traceById.lookup s.id = some entry) (hres : entry.result = some value) :
    ∃ tool o, catalog.find s.toolName = some tool ∧ entry.peerId = tool.peerId ∧
      .returned s.id o ∈ h ∧ R.invoke o tool entry.args = .ok value := by
  have hready : s.id ∈ p.graph.ready σ.blackboard.keys :=
    hI.trace_keys ▸ Finmap.mem_keys.2 (Finmap.mem_of_lookup_eq_some hent)
  by_cases hb : s.id ∈ σ.blackboard
  · obtain ⟨e, w, r, ⟨B, c, hprep, -⟩, ho, -, ht⟩ := hI.recorded s hs hb
    obtain rfl : entry = e.close r := Option.some.inj (hent.symm.trans ht)
    obtain ⟨-, -, hnone, hw⟩ := prepare_spec hprep
    rcases r with err | v
    · exact absurd (hnone.symm.trans hres) (by simp)
    · obtain rfl : v = value := Option.some.inj hres
      rcases hw with ⟨err, rfl, -⟩ | ⟨tool, rfl, -, hpeer, htool⟩
      · exact absurd ho (by simp [Outcome])
      · obtain ⟨o, hret, hr⟩ := ho
        exact ⟨tool, o, htool, hpeer, hret, hr.symm⟩
  · -- A step in flight has no result yet.
    obtain ⟨e, w, ⟨B, c, hprep, -⟩, hte, -⟩ := hI.inFlight s hs
      ((hI.countdown.mem_live _).2 ⟨hready, fun hk => hb (Finmap.mem_keys.1 hk)⟩)
    obtain rfl : entry = e := Option.some.inj (hent.symm.trans hte)
    exact absurd ((prepare_spec hprep).2.2.1.symm.trans hres) (by simp)

/-- A step that returned was attributed to the peer of its tool, and has its
    result in its entry. -/
theorem Inv.result_of_returned {h : List (Action ω)} {σ : ExecState} (hI : Inv R catalog p h σ)
    {s : PlanStep} (hs : s ∈ p.plan) {tool : ToolDef} (htool : catalog.find s.toolName = some tool)
    {entry : TraceEntry} (hent : σ.traceById.lookup s.id = some entry) {o : ω}
    (hret : .returned s.id o ∈ h) : entry.peerId = tool.peerId ∧
      ∀ value, R.invoke o tool entry.args = .ok value → entry.result = some value := by
  have hb : s.id ∈ σ.blackboard := by
    rw [← Finmap.mem_keys, ← hI.finished_keys, List.mem_toFinset, hI.finished_eq]
    exact List.mem_filterMap.2 ⟨_, hret, rfl⟩
  obtain ⟨e, w, r, ⟨B, c, hprep, -⟩, ho, -, ht⟩ := hI.recorded s hs hb
  obtain rfl : entry = e.close r := Option.some.inj (hent.symm.trans ht)
  -- The action that completed the step is the one it returned with.
  rcases (prepare_spec hprep).2.2.2 with ⟨err, rfl, -⟩ | ⟨tool', rfl, -, hpeer, htool'⟩
  · exact absurd (hI.completion_inj ho.1 hret rfl rfl) (by simp)
  · obtain rfl : tool' = tool := Option.some.inj (htool'.symm.trans htool)
    obtain ⟨o', hret', rfl⟩ := ho
    obtain rfl : o' = o := (Action.returned.inj (hI.completion_inj hret' hret rfl rfl)).2
    refine ⟨?_, fun value hval => ?_⟩
    · cases hr : R.invoke o' tool' e.args with
      | error err => exact hpeer
      | ok v => exact hpeer
    · have hargs (r : Except String Value) : (e.close r).args = e.args := by
        rcases r with err | v
        · rfl
        · rfl
      rw [hargs] at hval
      rw [hval]
      rfl

/-- Steps which start, or complete, are steps of the plan, once. -/
theorem Inv.starts_completions_le {h : List (Action ω)} {σ : ExecState}
    (hI : Inv R catalog p h σ) :
    (starts h).length ≤ p.plan.length ∧ (completions h).length ≤ p.plan.length := by
  have hnodes {a : String} (ha : a ∈ p.graph.ready σ.blackboard.keys) : a ∈ p.ids :=
    Plan.mem_graph_nodes.1 (p.graph.mem_ready.1 ha).1
  have hdone {a : String} (ha : a ∈ σ.blackboard) : a ∈ p.ids :=
    hnodes (hI.countdown.done_ready (Finmap.mem_keys.2 ha))
  have hlen : p.ids.length = p.plan.length := List.length_map _
  rw [← hI.started_eq, ← hI.finished_eq, ← hlen]
  constructor
  · exact (hI.started_nodup.subperm fun a ha => (hI.started_sub a ha).elim hdone fun ⟨_, _, hr⟩ =>
      hnodes (hI.countdown.live_not_done (mem_live_of_work hr)).1).length_le
  · exact (hI.finished_nodup.subperm fun a ha => hdone (by
      rwa [← Finmap.mem_keys, ← hI.finished_keys, List.mem_toFinset])).length_le

/-- Every action is the start or the end of a step: executions are bounded. -/
theorem Inv.length_le {h : List (Action ω)} {σ : ExecState} (hI : Inv R catalog p h σ) :
    h.length ≤ 2 * p.plan.length := by
  have hlength := length_eq_starts_add h
  obtain ⟨hs, hc⟩ := hI.starts_completions_le
  omega

/-- At the end, every step has completed. -/
theorem Inv.finished_perm (hn : p.ids.Nodup) (hg : p.graph.Acyclic) {h : List (Action ω)}
    {σ : ExecState} (hI : Inv R catalog p h σ) (hnil : σ.inFlight = []) :
    (finished σ.events).Perm p.ids := by
  refine (List.perm_ext_iff_of_nodup hI.finished_nodup hn).2 fun a => ?_
  rw [← List.mem_toFinset, hI.finished_keys, hI.all_done hg hnil, List.mem_toFinset]

/-- The execution of an accepted plan, in any order and with any outcomes:

    * no step starts or is done before the steps it waits for are done, and what
      it waits for is on the blackboard already when it is prepared;
    * every step starts once, and is done once;
    * the execution can always go on until nothing is in flight, and ends;
    * then every step is done: the blackboard has its result, and the trace its
      entry, in plan order. -/
theorem execute_safe (hv : validatePlan R.compile p catalog = .ok ()) {as : List (Action ω)}
    {σ : ExecState} (h : execute R catalog p as = some σ) :
    InOrder p σ.events ∧
      (∀ s ∈ p.plan, s.id ∈ σ.traceById → ∀ d, d ∈ s.dependsOn ∨ d ∈ collectRefs s.args →
        d ≠ s.id → d ∈ p.ids → d ∈ σ.blackboard) ∧
      (started σ.events).Nodup ∧ (finished σ.events).Nodup ∧
      as.length ≤ 2 * p.plan.length ∧
      (σ.inFlight ≠ [] → ∃ id, (σ.step R catalog p (.start id)).isSome ∨
        (σ.step R catalog p (.failed id)).isSome ∨
          ∀ obs, (σ.step R catalog p (.returned id obs)).isSome) ∧
      (σ.inFlight = [] → (finished σ.events).Perm p.ids ∧
        (σ.planRun p).blackboard.keys = p.ids.toFinset ∧
        List.Forall₂ (EntryOf (σ.planRun p).blackboard) p.plan (σ.planRun p).trace) := by
  have hval := Plan.valid_of_validatePlan hv
  have hI := inv_execute hval.nodup h
  refine ⟨hI.inOrder, fun s hs hst d hd hds hdp => ?_, hI.started_nodup, hI.finished_nodup,
    hI.length_le, exists_step hI.countdown.nodup, fun hnil => ?_⟩
  · rw [← Finmap.mem_keys, hI.trace_keys] at hst
    exact Finmap.mem_keys.1 ((p.graph.mem_ready.1 hst).2
      ((Plan.mem_graph_deps hval.nodup hs).2 ⟨(s.mem_deps d).2 hd, hds, hdp⟩))
  · obtain ⟨f, htrace, hf⟩ := hI.planRun_trace hval.nodup hval.acyclic hnil
    refine ⟨hI.finished_perm hval.nodup hval.acyclic hnil, hI.all_done hval.acyclic hnil, ?_⟩
    rw [htrace, List.forall₂_map_right_iff, List.forall₂_same]
    exact fun s hs => (hf s hs).2

/-! ## An example -/

/-- A runtime whose invocations return what is observed. -/
def observing : Runtime (Except String Value) where
  callId n := String.ofList (List.replicate n 'c')
  compile _ := .ok fun _ => []
  invoke obs _ _ := obs

/-- A catalogue of one capability, without constraints. -/
def oneTool : Catalog := ⟨[⟨"n3:abc", none, ⟨"t", .object [], .object []⟩⟩]⟩

/-- The second step refers to the first one. -/
def twoSteps : Plan := ⟨[
  ⟨"s1", "abc", "t", .object [], []⟩,
  ⟨"s2", "abc", "t", .object [("a", .string "$\x7bs1.v\x7d")], []⟩]⟩

def twoStepsRun : List (Action (Except String Value)) :=
  [.start "s1", .returned "s1" (.ok (.object [("v", .null)])),
    .start "s2", .returned "s2" (.error "down")]

theorem execute_safe_twoSteps : ∃ σ, execute observing oneTool twoSteps twoStepsRun = some σ ∧
    InOrder twoSteps σ.events ∧ (finished σ.events).Perm twoSteps.ids ∧
      List.Forall₂ (EntryOf (σ.planRun twoSteps).blackboard) twoSteps.plan
        (σ.planRun twoSteps).trace := by
  have hend : (execute observing oneTool twoSteps twoStepsRun).map (·.inFlight) = some [] := by
    decide
  obtain ⟨σ, hσ, hnil⟩ := Option.map_eq_some_iff.1 hend
  obtain ⟨hord, -, -, -, -, -, hfin⟩ := execute_safe (by decide) hσ
  exact ⟨σ, hσ, hord, (hfin hnil).1, (hfin hnil).2.2⟩

end ExecState

end N3ur0n
