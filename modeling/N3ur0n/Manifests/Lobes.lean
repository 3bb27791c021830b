import N3ur0n.Lib.Threads
import N3ur0n.Manifests.Reload

/-!
# Lobes and capabilities

The lobes of the instance and the registry are two cells, each of them read and
replaced at once, but not both together: a change of lobes replaces the lobes,
then the registry by a copy of it without the other lobes; a reload reads the
lobes, then replaces the registry; and a descriptor shows the lobes, then the
capabilities. The steps of other threads come in between.

* `lobes_kept`: as long as nothing comes in between that matters, every
  descriptor shows the lobes of its capabilities, and the registry comes from
  the last reload;
* `lobes_mixed`: otherwise, neither need be the case.
-/

namespace N3ur0n

/-- The cells, and the directory of manifests. What the reloads have loaded, one
    after the other, is not read again. -/
structure LobeCells where
  lobes : List String
  registry : CapabilityRegistry
  caps : ManifestDir
  reloads : List (List RegistryEntry)

inductive LobeOp
  | setLobes (lobes : List String)
  | reload
  | describeSelf

/-- The next access of an operation. -/
inductive LobeAccess
  | storeLobes (lobes : List String)
  | loadRegistry (lobes : List String)
  | storeRegistry (lobes : List String) (snapshot : CapabilityRegistry)
  | scan
  | countFiles
  | loadLobes (entries : List RegistryEntry)
  | swapRegistry (entries : List RegistryEntry) (lobes : List String)
  | readLobes
  | readRegistry (lobes : List String) (reloads : ℕ)

/-- The lobes and the capabilities are those of a descriptor. -/
inductive LobeReply
  | lobesSet
  | reloaded (result : Except String ℕ)
  | described (lobeIds : List String) (capabilities : List CapabilityDescriptor)

namespace LobeOp

def enter : LobeOp → LobeAccess
  | .setLobes lobes => .storeLobes lobes
  | .reload => .scan
  | .describeSelf => .readLobes

end LobeOp

namespace CapNode

variable (N : CapNode)

def access (σ : LobeCells) : LobeAccess → LobeCells × (LobeAccess ⊕ LobeReply)
  | .storeLobes lobes => ({ σ with lobes := lobes }, .inl (.loadRegistry lobes))
  | .loadRegistry lobes => (σ, .inl (.storeRegistry lobes σ.registry))
  | .storeRegistry lobes snapshot =>
    ({ σ with registry := snapshot.enforceInstanceLobes lobes }, .inr .lobesSet)
  | .scan =>
    match N.manifestDir with
    | none => (σ, .inr (.reloaded (.error (invalidPayload
        "node was not built in manifest mode — cap hot-reload unavailable"))))
    | some _ =>
      match N.backends with
      | none => (σ, .inr (.reloaded (.error (invalidPayload
          "node has no backends registry — cap hot-reload unavailable"))))
      | some _ =>
        if N.loadable σ.caps = [] then (σ, .inl .countFiles)
        else (σ, .inl (.loadLobes (N.loadable σ.caps)))
  | .countFiles =>
    let files := (N.loadCapDir σ.caps).length
    let dir := N.manifestDir.getD ""
    if 0 < files then
      (σ, .inr (.reloaded (.error (invalidPayload
        (s!"none of the {files} cap manifest(s) in {dir}/caps " ++
          "could be loaded — check the backend each one binds to")))))
    else (σ, .inr (.reloaded (.ok 0)))
  | .loadLobes entries => (σ, .inl (.swapRegistry entries σ.lobes))
  | .swapRegistry entries lobes =>
    let registry := (CapabilityRegistry.fromEntries entries).enforceInstanceLobes lobes
    ({ σ with registry := registry, reloads := σ.reloads ++ [entries] },
      .inr (.reloaded (.ok registry.entries.length)))
  | .readLobes => (σ, .inl (.readRegistry σ.lobes σ.reloads.length))
  | .readRegistry lobes _ => (σ, .inr (.described lobes σ.registry.publicDecls))

/-- The operations as threads, when the files may change at any time. None of them
    can be given up midway. -/
def lobeProgram : Program LobeCells LobeOp LobeAccess Unit LobeReply ManifestDir where
  enter := LobeOp.enter
  step σ _ l _ := some (N.access σ l)
  abort _ _ _ := none
  env σ dir := some { σ with caps := dir }

/-- What an action answers. -/
def lobeReply (t : Pool LobeCells LobeAccess) :
    Pool.Action LobeOp Unit ManifestDir → Option LobeReply
  | .act k _ => (t.threads.lookup k).bind fun l => (N.access t.shared l).2.getRight?
  | _ => none

/-- The node as it starts: the lobes that its instance does not declare are dropped. -/
def started (lobes : List String) (R : CapabilityRegistry) (caps : ManifestDir) :
    Pool LobeCells LobeAccess :=
  .idle ⟨lobes, R.enforceInstanceLobes lobes, caps, []⟩

/-- With nothing in between, a reload is that of the node. -/
theorem reload_alone (σ : LobeCells) : ∃ n σ',
    N.lobeProgram.alone 0 σ .scan (List.replicate n ()) = some (σ', .reloaded
      (N.reloadCaps ⟨σ.caps, σ.lobes, σ.registry⟩).2) ∧
    (N.reloadCaps ⟨σ.caps, σ.lobes, σ.registry⟩).1 = ⟨σ'.caps, σ'.lobes, σ'.registry⟩ := by
  cases hdir : N.manifestDir with
  | none =>
    refine ⟨1, σ, ?_, ?_⟩
    · simp [Program.alone, lobeProgram, access, reloadCaps, hdir]
    · simp [reloadCaps, hdir]
  | some dir =>
    cases hbackends : N.backends with
    | none =>
      refine ⟨1, σ, ?_, ?_⟩
      · simp [Program.alone, lobeProgram, access, reloadCaps, hdir, hbackends]
      · simp [reloadCaps, hdir, hbackends]
    | some backends =>
      by_cases hload : N.loadable σ.caps = []
      · by_cases hfiles : 0 < (N.loadCapDir σ.caps).length
        · refine ⟨2, σ, ?_, ?_⟩
          · simp [List.replicate, Program.alone, lobeProgram, access, reloadCaps, hdir, hbackends,
              hload, hfiles]
          · simp [reloadCaps, hdir, hbackends, hload, hfiles]
        · refine ⟨2, σ, ?_, ?_⟩
          · simp [List.replicate, Program.alone, lobeProgram, access, reloadCaps, hdir, hbackends,
              hload, hfiles]
          · simp [reloadCaps, hdir, hbackends, hload, hfiles]
      · refine ⟨3, { σ with
          registry := N.declared σ.caps σ.lobes
          reloads := σ.reloads ++ [N.loadable σ.caps] }, ?_, ?_⟩
        · simp [List.replicate, Program.alone, lobeProgram, access, reloadCaps, hdir, hbackends,
            hload, declared]
        · simp [reloadCaps, hdir, hbackends, hload]

end CapNode

/-! ## Which lobes the capabilities have -/

namespace CapabilityRegistry

/-- The lobes of every capability are among these. -/
def Within (R : CapabilityRegistry) (lobes : List String) : Prop :=
  ∀ e ∈ R.entries, ∀ lobe ∈ e.decl.lobeIds, lobe ∈ lobes

variable {R : CapabilityRegistry} {lobes lobes' : List String}

theorem within_enforce : (R.enforceInstanceLobes lobes).Within lobes := by
  intro e he lobe hlobe
  obtain ⟨e', -, rfl⟩ := List.mem_map.1 he
  exact of_decide_eq_true (List.mem_filter.1 hlobe).2

theorem Within.enforce (h : R.Within lobes) : (R.enforceInstanceLobes lobes').Within lobes := by
  intro e he lobe hlobe
  obtain ⟨e', he', rfl⟩ := List.mem_map.1 he
  exact h e' he' lobe (List.mem_of_mem_filter hlobe)

/-- The lobes that are dropped, in two times or at once. -/
theorem enforce_enforce : (R.enforceInstanceLobes lobes).enforceInstanceLobes lobes' =
    R.enforceInstanceLobes (lobes.filter (· ∈ lobes')) := by
  rw [enforceInstanceLobes, enforceInstanceLobes, enforceInstanceLobes, mk.injEq, List.map_map]
  refine List.map_congr_left fun e _ => ?_
  simp only [Function.comp_apply, RegistryEntry.enforceLobes, CapabilityDescriptor.enforceLobes,
    List.filter_filter, List.mem_filter, Bool.decide_and, decide_eq_true_eq, Bool.and_comm]

theorem mem_publicDecls {d : CapabilityDescriptor} (h : d ∈ R.publicDecls) :
    ∃ e ∈ R.entries, e.decl = d := by
  obtain ⟨e, he, rfl⟩ := List.mem_map.1 h
  exact ⟨e, List.mem_of_mem_filter he, rfl⟩

/-- What these entries declare, with only some of the lobes. -/
def ComesFrom (R : CapabilityRegistry) (entries : List RegistryEntry) : Prop :=
  ∃ lobes, R = (fromEntries entries).enforceInstanceLobes lobes

end CapabilityRegistry

/-! ## What comes in between -/

/-- The lobes that a change has stored, when it has not replaced the registry yet. -/
def LobeAccess.enforcing : LobeAccess → Option (List String)
  | .loadRegistry lobes | .storeRegistry lobes _ => some lobes
  | _ => none

/-- A change to these lobes has not replaced the registry yet. -/
def Enforcing (t : Pool LobeCells LobeAccess) (lobes : List String) : Prop :=
  ∃ k l, t.threads.lookup k = some l ∧ l.enforcing = some lobes

/-- Nothing has come in between that makes what the thread has read out of date:
    * a change of lobes replaces the registry that it has copied;
    * a reload has read the lobes as they are, or a change to these will go on to
      replace the registry;
    * a descriptor shows the lobes as they are, or no reload has ended since it
      read them; and no change of lobes is midway. -/
def Undisturbed (t : Pool LobeCells LobeAccess) : Pool.Action LobeOp Unit ManifestDir → Prop
  | .act k _ => ∀ l, t.threads.lookup k = some l →
    match l with
    | .storeRegistry _ snapshot => snapshot = t.shared.registry
    | .swapRegistry _ lobes => lobes = t.shared.lobes ∨ Enforcing t t.shared.lobes
    | .readRegistry lobes reloads => (lobes = t.shared.lobes ∨ reloads = t.shared.reloads.length) ∧
      ∀ lobes', ¬Enforcing t lobes'
    | _ => True
  | _ => True

/-- The capabilities have no other lobes, or will not have them. -/
def Covered (t : Pool LobeCells LobeAccess) (lobes : List String) : Prop :=
  t.shared.registry.Within lobes ∨ Enforcing t lobes

/-- What holds as long as nothing comes in between. -/
structure LobesOk (t : Pool LobeCells LobeAccess) : Prop where
  covered : Covered t t.shared.lobes
  readers : ∀ k lobes reloads, t.threads.lookup k = some (.readRegistry lobes reloads) →
    reloads ≤ t.shared.reloads.length ∧ (reloads = t.shared.reloads.length → Covered t lobes)
  reflects : ∀ entries, t.shared.reloads.getLast? = some entries →
    t.shared.registry.ComesFrom entries

section

variable {N : CapNode} {t t' : Pool LobeCells LobeAccess} {lobes : List String} {k : ℕ}
  {l : LobeAccess}

/-- It writes something. -/
def LobeAccess.writes : LobeAccess → Bool
  | .storeLobes _ | .storeRegistry .. | .swapRegistry .. => true
  | _ => false

theorem access_of_not_writes {σ : LobeCells} (h : ¬l.writes) : (N.access σ l).1 = σ := by
  cases l with
  | storeLobes _ | storeRegistry _ _ | swapRegistry _ _ => exact absurd rfl h
  | scan =>
    rw [CapNode.access]
    split
    · rfl
    · split
      · rfl
      · split <;> rfl
  | countFiles =>
    rw [CapNode.access]
    split <;> rfl
  | _ => rfl

/-- What a descriptor has read first. -/
theorem reads_of_access {σ : LobeCells} {reloads : ℕ}
    (h : (N.access σ l).2 = .inl (.readRegistry lobes reloads)) :
    l = .readLobes ∧ lobes = σ.lobes ∧ reloads = σ.reloads.length := by
  cases l with
  | readLobes =>
    obtain ⟨rfl, rfl⟩ := LobeAccess.readRegistry.inj (Sum.inl.inj h)
    exact ⟨rfl, rfl, rfl⟩
  | scan =>
    rw [CapNode.access] at h
    split at h
    · cases h
    · split at h
      · cases h
      · split at h <;> cases h
  | countFiles =>
    rw [CapNode.access] at h
    split at h <;> cases h
  | _ => cases h

/-- What a descriptor shows. -/
theorem shows_of_access {σ : LobeCells} {decls : List CapabilityDescriptor}
    (h : (N.access σ l).2 = .inr (.described lobes decls)) :
    ∃ reloads, l = .readRegistry lobes reloads ∧ decls = σ.registry.publicDecls := by
  cases l with
  | readRegistry lobes' reloads =>
    obtain ⟨rfl, rfl⟩ := LobeReply.described.inj (Sum.inr.inj h)
    exact ⟨reloads, rfl, rfl⟩
  | scan =>
    rw [CapNode.access] at h
    split at h
    · cases h
    · split at h
      · cases h
      · split at h <;> cases h
  | countFiles =>
    rw [CapNode.access] at h
    split at h <;> cases h
  | _ => cases h

/-- A thread that takes a step stays in the middle of its change, or else it replaces
    the registry. -/
theorem Enforcing.settle (h : Enforcing t lobes) (hl : t.threads.lookup k = some l)
    (hstore : ∀ snapshot, l ≠ .storeRegistry lobes snapshot) :
    Enforcing (t.settle k (N.access t.shared l).1 (N.access t.shared l).2) lobes := by
  obtain ⟨k', l', hl', henforcing⟩ := h
  by_cases hk : k' = k
  · obtain rfl : l' = l := by
      subst hk
      exact Option.some.inj (hl'.symm.trans hl)
    cases l' with
    | loadRegistry lobes' =>
      obtain rfl := Option.some.inj henforcing
      exact ⟨k, _, Pool.settle_lookup.2 rfl, rfl⟩
    | storeRegistry lobes' snapshot =>
      obtain rfl := Option.some.inj henforcing
      exact absurd rfl (hstore snapshot)
    | _ => cases henforcing
  · exact ⟨k', l', (Pool.settle_lookup_ne t _ _ hk).trans hl', henforcing⟩

/-- Only a reload adds lobes to the capabilities. -/
theorem Covered.settle (h : Covered t lobes) (hl : t.threads.lookup k = some l)
    (hQ : Undisturbed t (.act k ())) (hswap : ∀ entries lobes, l ≠ .swapRegistry entries lobes) :
    Covered (t.settle k (N.access t.shared l).1 (N.access t.shared l).2) lobes := by
  have henforcing (h : Enforcing t lobes) (hstore : ∀ snapshot, l ≠ .storeRegistry lobes snapshot) :=
    h.settle (N := N) hl hstore
  rw [Covered, Pool.settle_shared]
  by_cases hw : l.writes
  · cases l with
    | storeLobes lobes' => exact h.imp_right fun h => henforcing h fun _ he => nomatch he
    | storeRegistry lobes' snapshot =>
      have hcurrent : snapshot = t.shared.registry := hQ _ hl
      rcases h with h | h
      · exact .inl (hcurrent ▸ h.enforce)
      · by_cases hlobes : lobes' = lobes
        · exact .inl (hlobes ▸ CapabilityRegistry.within_enforce)
        · exact .inr (henforcing h fun _ he => hlobes (LobeAccess.storeRegistry.inj he).1)
    | swapRegistry entries lobes' => exact absurd rfl (hswap entries lobes')
    | _ => cases hw
  · refine h.imp (fun h => ?_) fun h => henforcing h fun snapshot he => hw (he ▸ rfl)
    rwa [access_of_not_writes hw]

/-- The lobes are those that the capabilities have, or will have. -/
theorem LobesOk.covered_settle (h : LobesOk t) (hl : t.threads.lookup k = some l)
    (hQ : Undisturbed t (.act k ())) :
    Covered (t.settle k (N.access t.shared l).1 (N.access t.shared l).2)
      (N.access t.shared l).1.lobes := by
  by_cases hw : l.writes
  · cases l with
    | storeLobes lobes' => exact .inr ⟨k, _, Pool.settle_lookup.2 rfl, rfl⟩
    | storeRegistry lobes' snapshot =>
      exact h.covered.settle hl hQ fun _ _ he => nomatch he
    | swapRegistry entries lobes' =>
      rcases hQ _ hl with hlobes | henforcing
      · exact .inl (hlobes ▸ CapabilityRegistry.within_enforce)
      · exact .inr (henforcing.settle hl fun _ he => nomatch he)
    | _ => cases hw
  · have hcovered := h.covered.settle (N := N) hl hQ fun _ _ he => hw (he ▸ rfl)
    rwa [access_of_not_writes hw] at hcovered ⊢

theorem LobesOk.readers_settle (h : LobesOk t) (hl : t.threads.lookup k = some l)
    (hQ : Undisturbed t (.act k ())) {k' reloads : ℕ}
    (hk' : (t.settle k (N.access t.shared l).1 (N.access t.shared l).2).threads.lookup k' =
      some (.readRegistry lobes reloads)) :
    reloads ≤ (N.access t.shared l).1.reloads.length ∧
      (reloads = (N.access t.shared l).1.reloads.length →
        Covered (t.settle k (N.access t.shared l).1 (N.access t.shared l).2) lobes) := by
  -- What was so before the step, and is not changed unless it ends a reload.
  have hkeep (hreloads : reloads ≤ t.shared.reloads.length)
      (hcovered : reloads = t.shared.reloads.length → Covered t lobes) :
      reloads ≤ (N.access t.shared l).1.reloads.length ∧
        (reloads = (N.access t.shared l).1.reloads.length →
          Covered (t.settle k (N.access t.shared l).1 (N.access t.shared l).2) lobes) := by
    by_cases hswap : ∃ entries lobes, l = .swapRegistry entries lobes
    · obtain ⟨entries, lobes', rfl⟩ := hswap
      simp only [CapNode.access, List.length_append, List.length_singleton]
      exact ⟨Nat.le_succ_of_le hreloads, fun he => absurd he (by omega)⟩
    · have hsame : (N.access t.shared l).1.reloads = t.shared.reloads := by
        by_cases hw : l.writes
        · cases l with
          | swapRegistry entries lobes' => exact absurd ⟨_, _, rfl⟩ hswap
          | storeLobes _ | storeRegistry _ _ => rfl
          | _ => cases hw
        · rw [access_of_not_writes hw]
      rw [hsame]
      exact ⟨hreloads, fun he => (hcovered he).settle hl hQ fun _ _ he => hswap ⟨_, _, he⟩⟩
  by_cases hk : k' = k
  · subst hk
    obtain ⟨rfl, rfl, rfl⟩ := reads_of_access (Pool.settle_lookup.1 hk')
    exact hkeep le_rfl fun _ => h.covered
  · rw [Pool.settle_lookup_ne t _ _ hk] at hk'
    exact hkeep (h.readers k' lobes reloads hk').1 (h.readers k' lobes reloads hk').2

theorem LobesOk.reflects_settle (h : LobesOk t) (hl : t.threads.lookup k = some l)
    (hQ : Undisturbed t (.act k ())) {entries : List RegistryEntry}
    (hlast : (N.access t.shared l).1.reloads.getLast? = some entries) :
    (N.access t.shared l).1.registry.ComesFrom entries := by
  by_cases hw : l.writes
  · cases l with
    | storeLobes lobes' => exact h.reflects entries hlast
    | storeRegistry lobes' snapshot =>
      have hcurrent : snapshot = t.shared.registry := hQ _ hl
      obtain ⟨lobes, hfrom⟩ := h.reflects entries hlast
      refine ⟨lobes.filter (· ∈ lobes'), ?_⟩
      rw [← CapabilityRegistry.enforce_enforce, ← hfrom, ← hcurrent]
      rfl
    | swapRegistry entries' lobes' =>
      obtain rfl : entries' = entries := Option.some.inj (List.getLast?_concat.symm.trans hlast)
      exact ⟨lobes', rfl⟩
    | _ => cases hw
  · rw [access_of_not_writes hw] at hlast ⊢
    exact h.reflects entries hlast

theorem Covered.enter (h : Covered t lobes) (hk : k ∉ t.threads) :
    Covered ⟨t.shared, t.threads.insert k l⟩ lobes := by
  refine h.imp_right fun ⟨k', l', hl', henforcing⟩ => ⟨k', l', ?_, henforcing⟩
  have hne : k' ≠ k := fun he => hk (Finmap.lookup_isSome.1 (Option.isSome_of_eq_some (he ▸ hl')))
  exact (Finmap.lookup_insert_of_ne _ hne).trans hl'

/-- What a step keeps, if nothing has come in between. -/
theorem LobesOk.step {a : Pool.Action LobeOp Unit ManifestDir} (h : LobesOk t)
    (hQ : Undisturbed t a) (hstep : N.lobeProgram.poolStep t a = some t') : LobesOk t' := by
  cases a with
  | enter k q =>
    obtain ⟨hk, rfl⟩ := Program.enter_eq_some.1 hstep
    refine ⟨h.covered.enter hk, fun k' lobes reloads hk' => ?_, h.reflects⟩
    rw [Finmap.lookup_insert_ite] at hk'
    split at hk'
    · cases q <;> cases hk'
    · obtain ⟨hreloads, hcovered⟩ := h.readers k' lobes reloads hk'
      exact ⟨hreloads, fun he => (hcovered he).enter hk⟩
  | act k e =>
    obtain ⟨l, s, o, hl, hs, rfl⟩ := Program.act_eq_some.1 hstep
    obtain ⟨rfl, rfl⟩ := Prod.mk.inj (Option.some.inj hs)
    refine ⟨?_, fun k' lobes reloads hk' => ?_, fun entries hlast => ?_⟩
    · rw [Pool.settle_shared]
      exact h.covered_settle hl hQ
    · rw [Pool.settle_shared]
      exact h.readers_settle hl hQ hk'
    · rw [Pool.settle_shared] at hlast ⊢
      exact h.reflects_settle hl hQ hlast
  | abort k =>
    obtain ⟨l, s, -, hs, -⟩ := Program.abort_eq_some.1 hstep
    cases hs
  | env dir =>
    obtain ⟨s, hs, rfl⟩ := Program.env_eq_some.1 hstep
    obtain rfl := Option.some.inj hs
    exact ⟨h.covered, h.readers, h.reflects⟩

theorem started_ok {R : CapabilityRegistry} {caps : ManifestDir} :
    LobesOk (CapNode.started lobes R caps) where
  covered := .inl CapabilityRegistry.within_enforce
  readers k lobes reloads h := absurd ((Finmap.lookup_empty k).symm.trans h) (by simp)
  reflects entries h := absurd h (by simp [CapNode.started, Pool.idle])

/-- What a descriptor shows then. -/
theorem LobesOk.described {a : Pool.Action LobeOp Unit ManifestDir} (h : LobesOk t)
    (hQ : Undisturbed t a) {decls : List CapabilityDescriptor}
    (hreply : N.lobeReply t a = some (.described lobes decls)) :
    ∀ d ∈ decls, ∀ lobe ∈ d.lobeIds, lobe ∈ lobes := by
  cases a with
  | act k e =>
    obtain ⟨l, hl, hreply⟩ := Option.bind_eq_some_iff.1 hreply
    obtain ⟨reloads, rfl, rfl⟩ := shows_of_access (Sum.getRight?_eq_some_iff.1 hreply)
    obtain ⟨hcurrent, hnone⟩ := hQ _ hl
    have hcovered : Covered t lobes := by
      rcases hcurrent with rfl | hreloads
      · exact h.covered
      · exact (h.readers k lobes reloads hl).2 hreloads
    intro d hd lobe hlobe
    obtain ⟨e, he, rfl⟩ := CapabilityRegistry.mem_publicDecls hd
    exact hcovered.resolve_right (hnone lobes) e he lobe hlobe
  | _ => cases hreply

end

/-- Over any interleaving along which nothing comes in between, every descriptor
    only shows capabilities of the lobes that it shows, and after every step the
    registry has what the last reload has loaded, if there was one. When no change
    of lobes is midway, the capabilities only have lobes of the instance. -/
theorem lobes_kept (N : CapNode) (lobes : List String) (R : CapabilityRegistry)
    (caps : ManifestDir) (as : List (Pool.Action LobeOp Unit ManifestDir))
    (hQ : Run.Along N.lobeProgram.poolStep Undisturbed (CapNode.started lobes R caps) as) :
    Run.Along N.lobeProgram.poolStep (fun t a => ∀ ids decls,
        N.lobeReply t a = some (.described ids decls) →
          ∀ d ∈ decls, ∀ lobe ∈ d.lobeIds, lobe ∈ ids) (CapNode.started lobes R caps) as ∧
      Run.Always N.lobeProgram.poolStep (fun t =>
        (∀ entries, t.shared.reloads.getLast? = some entries →
          t.shared.registry.ComesFrom entries) ∧
        ((∀ lobes, ¬Enforcing t lobes) → t.shared.registry.Within t.shared.lobes))
        (CapNode.started lobes R caps) as := by
  constructor
  · exact hQ.imp_of_invariant started_ok (fun _ _ _ h hQ hs => h.step hQ hs)
      fun t a h hQ ids decls hreply => h.described hQ hreply
  · refine (Run.always_of_along (fun _ _ _ h hQ hs => LobesOk.step h hQ hs) started_ok hQ).imp
      fun t h => ⟨h.reflects, fun hnone => h.covered.resolve_right (hnone _)⟩

/-! ## Two threads -/

/-- A capability of the lobe `x`. -/
def lobedEntry : RegistryEntry :=
  ⟨{ (toyFile "greet").descriptor with lobeIds := ["x"] }, none⟩

/-- Every file declares the capability `part`. -/
def lobedNode : CapNode where
  reader := ⟨fun _ => .ok (toyFile "part"), fun _ => .ok (), fun _ => .ok ()⟩
  configDir := "config"
  manifestDir := some "config"
  backends := some ((∅ : Table String BackendInstance).insert "b" (.mcp ⟨.stdio, "cmd", [], ∅⟩))

def lobedStart : Pool LobeCells LobeAccess :=
  CapNode.started ["x"] (.fromEntries [lobedEntry]) (ManifestDir.empty.write "a.toml" "")

/-- A thread that takes some steps. -/
def accesses (k n : ℕ) : List (Pool.Action LobeOp Unit ManifestDir) := List.replicate n (.act k ())

/-- A descriptor is asked for in the middle of a change of lobes. -/
def midway : List (Pool.Action LobeOp Unit ManifestDir) :=
  [.enter 0 (.setLobes [])] ++ accesses 0 1 ++ [.enter 1 .describeSelf] ++ accesses 1 1

/-- A reload takes place between the accesses of a change of lobes to the registry. -/
def overwriting : List (Pool.Action LobeOp Unit ManifestDir) :=
  [.enter 0 (.setLobes [])] ++ accesses 0 2 ++ [.enter 1 .reload] ++ accesses 1 3 ++ accesses 0 1

/-- The descriptor shows a capability of a lobe that it does not show, and the
    capability that the reload has found is lost. -/
theorem lobes_mixed :
    (∃ t, Run.run lobedNode.lobeProgram.poolStep lobedStart midway = some t ∧
      lobedNode.lobeReply t (.act 1 ()) = some (.described [] [lobedEntry.decl]) ∧
      lobedEntry.decl.lobeIds = ["x"]) ∧
    (Run.run lobedNode.lobeProgram.poolStep lobedStart overwriting).map (fun t =>
      (t.threads.keys, t.shared.reloads.map (·.map (·.name)),
        t.shared.registry.entries.map (·.name))) = some (∅, [["part"]], ["greet"]) := by
  refine ⟨⟨_, rfl, rfl, rfl⟩, ?_⟩
  decide

/-- One after the other, they show the lobes as they have become. -/
theorem lobes_kept_apart : Run.Along lobedNode.lobeProgram.poolStep (fun t a => ∀ ids decls,
    lobedNode.lobeReply t a = some (.described ids decls) →
      ∀ d ∈ decls, ∀ lobe ∈ d.lobeIds, lobe ∈ ids) lobedStart
    ([.enter 0 (.setLobes [])] ++ accesses 0 3 ++ [.enter 1 .describeSelf] ++ accesses 1 2) := by
  refine (lobes_kept lobedNode ["x"] (.fromEntries [lobedEntry])
    (ManifestDir.empty.write "a.toml" "") _ ?_).1
  -- The change is done when the descriptor is read.
  have hdone (R : CapabilityRegistry) (lobes : List String) (k : ℕ) (l : LobeAccess)
      (h : (if k = 1 then some (.readRegistry [] 0) else Finmap.lookup k (Finmap.erase 0
        ((∅ : Table ℕ LobeAccess).insert 0 (.storeRegistry [] R)))) = some l) :
      ¬l.enforcing = some lobes := by
    split at h
    · rw [← Option.some.inj h]
      exact fun henforcing => nomatch henforcing
    · by_cases hk : k = 0
      · rw [hk, Finmap.lookup_erase] at h
        cases h
      · rw [Finmap.lookup_erase_ne hk, Finmap.lookup_insert_of_ne _ hk, Finmap.lookup_empty] at h
        cases h
  simpa [Run.Along, accesses, List.replicate, Program.poolStep, CapNode.lobeProgram, LobeOp.enter,
    CapNode.access, Pool.settle, Undisturbed, CapNode.started, Pool.idle, Enforcing,
    Finmap.lookup_insert_ite, Finmap.mem_erase] using fun _ _ => hdone _

end N3ur0n
