import N3ur0n.Lib.Run
import N3ur0n.Manifests.Lobes
import N3ur0n.Manifests.Live

/-!
# The capabilities that a node publishes

An operator may name the capabilities that a node is to publish, in a variable of
the environment. When the node starts, the others are dropped from its registry
(`retainPublished`); the reloads that come later build the registry anew, from
all the manifests there are.

* `ManifestRuntime.loadNode`: the node when it starts;
* `published_along`: the capabilities remain among those that are named exactly as
  long as every reload only finds manifests of these.
-/

namespace N3ur0n

open Cut

/-- `N3UR0N_CAPS`: the names are separated by commas or white space. -/
def envPublishedCaps (env : Option String) : List String :=
  (env.map fun raw =>
    (((raw.toList.splitOnP fun c => c = ',' || isWhitespace c).map (trim isWhitespace)).filter
      (· ≠ [])).map String.ofList).getD []

namespace CapabilityRegistry

variable (R : CapabilityRegistry)

/-- Only the capabilities of the list are kept, unless it is empty; with the names of
    the list under which there is none. -/
def retainPublished (allow : List String) : CapabilityRegistry × List String :=
  if allow = [] then (R, [])
  else (⟨R.entries.filter (·.name ∈ allow), Rows.nodup_delete R.names_nodup _⟩,
    allow.filter fun name => ¬R.Serves name)

/-- The peers are shown a capability of this name, or it can be invoked. -/
def Offers (name : String) : Prop := (∃ d ∈ R.publicDecls, d.name = name) ∨ R.Serves name

variable {R} {allow : List String} {name : String}

theorem serves_iff_mem : R.Serves name ↔ ∃ e ∈ R.entries, e.name = name := by
  rw [Serves, get, List.find?_isSome]
  simp

/-- What is shown to the peers can be invoked. -/
theorem offers_iff_serves : R.Offers name ↔ R.Serves name := by
  refine ⟨?_, .inr⟩
  rintro (⟨d, hd, rfl⟩ | h)
  · obtain ⟨e, he, rfl⟩ := mem_publicDecls hd
    exact serves_iff_mem.2 ⟨e, he, rfl⟩
  · exact h

theorem serves_retainPublished (hallow : allow ≠ []) :
    (R.retainPublished allow).1.Serves name ↔ R.Serves name ∧ name ∈ allow := by
  rw [retainPublished, if_neg hallow, serves_iff_mem, serves_iff_mem]
  constructor
  · rintro ⟨e, he, rfl⟩
    obtain ⟨he, hname⟩ := List.mem_filter.1 he
    exact ⟨⟨e, he, rfl⟩, of_decide_eq_true hname⟩
  · rintro ⟨⟨e, he, rfl⟩, hname⟩
    exact ⟨e, List.mem_filter.2 ⟨he, decide_eq_true hname⟩, rfl⟩

end CapabilityRegistry

/-! ## The start -/

def applyPublishedCaps (env : Option String) (R : CapabilityRegistry) : CapabilityRegistry :=
  let allow := envPublishedCaps env
  if allow = [] then R else (R.retainPublished allow).1

/-- Where the first capabilities come from: a backend that is compiled in, with what
    it answers when it is asked to describe itself, or the manifests. -/
inductive BackendSelector
  | compiled (describe : Except String (List CapabilityDescriptor))
  | manifest

/-- What happens to a node, besides the requests that it serves. -/
inductive NodeAction
  | reloadCaps
  | reloadBackends
  | editCaps (dir : ManifestDir)
  | editBackends (dir : ManifestDir)
  | setLobes (lobes : List String)

namespace ManifestRuntime

variable (N : ManifestRuntime)

/-- `load_node`, from the files of the manifests. -/
def loadNode (env : Option String) (kind : BackendSelector) (lobeIds : List String)
    (caps backendFiles : ManifestDir) : Except String LiveNode :=
  match kind with
  | .manifest => do
    let (registry, backends) ← N.loadManifestRegistry caps backendFiles
    let registry := applyPublishedCaps env registry
    .ok ⟨caps, backendFiles, backends, lobeIds, registry.enforceInstanceLobes lobeIds⟩
  | .compiled describe => do
    let registry := applyPublishedCaps env (.fromDecls (← describe))
    .ok ⟨caps, backendFiles, N.loadBackendsOnly backendFiles, lobeIds,
      registry.enforceInstanceLobes lobeIds⟩

def setLobes (σ : LiveNode) (lobes : List String) : LiveNode :=
  { σ with lobes := lobes, registry := σ.registry.enforceInstanceLobes lobes }

def act (σ : LiveNode) : NodeAction → LiveNode
  | .reloadCaps => (N.reloadCaps σ).1
  | .reloadBackends => (N.reloadBackends σ).1
  | .editCaps dir => { σ with caps := dir }
  | .editBackends dir => { σ with backendFiles := dir }
  | .setLobes lobes => setLobes σ lobes

def nodeStep (σ : LiveNode) (a : NodeAction) : Option LiveNode := some (N.act σ a)

/-- Everything that the node offers is named in the list. -/
def Published (allow : List String) (σ : LiveNode) : Prop :=
  ∀ name, σ.registry.Offers name → name ∈ allow

/-- With these backends, every manifest that can be loaded is of a capability named in
    the list. -/
def Listed (allow : List String) (σ : LiveNode) (backends : Table String BackendInstance) : Prop :=
  ∀ e ∈ (N.capNode backends).loadable σ.caps, e.name ∈ allow

/-- The reload that is about to take place, if it is one, finds only such manifests. -/
def ReloadsListed (allow : List String) (σ : LiveNode) : NodeAction → Prop
  | .reloadCaps => N.Listed allow σ σ.backends
  | .reloadBackends => ∀ backends,
    N.fromManifests (N.backendManifests σ.backendFiles) = .ok backends → N.Listed allow σ backends
  | _ => True

section

variable {N} {σ σ' : LiveNode} {allow : List String}

theorem published_iff : Published allow σ ↔ ∀ name, σ.registry.Serves name → name ∈ allow :=
  forall_congr' fun _ => imp_congr_left CapabilityRegistry.offers_iff_serves

/-! ## One step -/

/-- The node starts with the capabilities that are named. -/
theorem published_loadNode {env : Option String} {kind : BackendSelector} {lobeIds : List String}
    {caps backendFiles : ManifestDir} (hallow : envPublishedCaps env ≠ [])
    (h : N.loadNode env kind lobeIds caps backendFiles = .ok σ) :
    Published (envPublishedCaps env) σ := by
  have hkey (R : CapabilityRegistry) {name : String}
      (h : ((applyPublishedCaps env R).enforceInstanceLobes lobeIds).Serves name) :
      name ∈ envPublishedCaps env := by
    rw [CapabilityRegistry.serves_enforceInstanceLobes, applyPublishedCaps, if_neg hallow,
      CapabilityRegistry.serves_retainPublished hallow] at h
    exact h.2
  rw [published_iff]
  intro name hname
  rcases kind with describe | _
  · obtain ⟨decls, -, h⟩ := Except.bind_eq_ok.1 h
    obtain rfl := Except.ok.inj h
    exact hkey _ hname
  · obtain ⟨⟨registry, backends⟩, -, h⟩ := Except.bind_eq_ok.1 h
    obtain rfl := Except.ok.inj h
    exact hkey _ hname

theorem published_reloadCaps (h : Published allow σ) :
    Published allow (N.reloadCaps σ).1 ↔ N.Listed allow σ σ.backends := by
  rw [registry_reloadCaps]
  split_ifs with hload
  · refine iff_of_true h fun e he => ?_
    rw [hload] at he
    exact absurd he List.not_mem_nil
  · simp only [published_iff, CapNode.serves_declared]
    constructor
    · intro h e he
      exact h e.name ⟨e, he, rfl⟩
    · rintro h name ⟨e, he, rfl⟩
      exact h e he

/-- A reload only leaves capabilities that are named exactly when it finds only
    manifests of these, and the other steps add no capability. -/
theorem published_act (h : Published allow σ) (a : NodeAction) :
    Published allow (N.act σ a) ↔ N.ReloadsListed allow σ a := by
  match a with
  | .reloadCaps => exact published_reloadCaps h
  | .reloadBackends =>
    rw [act, ReloadsListed]
    rcases N.reloadBackends_cases σ with ⟨e, herror, hσ⟩ | ⟨backends, hok, hσ⟩
    · rw [hσ, herror]
      exact iff_of_true h fun _ hok => nomatch hok
    · have hbackends : Published allow { σ with backends := backends } := h
      rw [hσ, published_reloadCaps hbackends, hok]
      simp only [Except.ok.injEq, forall_eq']
      exact Iff.rfl
  | .editCaps dir => exact iff_of_true h trivial
  | .editBackends dir => exact iff_of_true h trivial
  | .setLobes lobes =>
    refine iff_of_true (published_iff.2 fun name hname => published_iff.1 h name ?_) trivial
    exact CapabilityRegistry.serves_enforceInstanceLobes.1 hname

end

/-! ## Runs -/

theorem run_nodeStep (σ : LiveNode) (as : List NodeAction) :
    Run.run N.nodeStep σ as = some (as.foldl N.act σ) := by
  induction as generalizing σ with
  | nil => rfl
  | cons a as ih => exact ih _

/-- From the start of the node on, everything that it offers is named, if and only
    if every reload finds only manifests of capabilities that are named. -/
theorem published_along (N : ManifestRuntime) (env : Option String) (kind : BackendSelector)
    (lobeIds : List String) (caps backendFiles : ManifestDir) (σ : LiveNode)
    (hallow : envPublishedCaps env ≠ [])
    (hload : N.loadNode env kind lobeIds caps backendFiles = .ok σ) (as : List NodeAction) :
    Run.Always N.nodeStep (Published (envPublishedCaps env)) σ as ↔
      Run.Along N.nodeStep (N.ReloadsListed (envPublishedCaps env)) σ as := by
  refine Run.always_iff_along (I := fun _ => True) trivial (published_loadNode hallow hload)
    (fun _ _ _ _ _ _ _ => trivial) ?_ (N.run_nodeStep σ as)
  rintro t a t' - hpublished hstep
  obtain rfl := Option.some.inj hstep
  exact published_act hpublished a

end ManifestRuntime

/-! ## Two manifests -/

/-- One backend, and the capabilities of the examples. -/
def toyManifests : ManifestRuntime where
  reader := toyReader
  parser := readerParser
  client := .ok ()
  manifestDir := "config"

def toyBackends : ManifestDir :=
  ManifestDir.empty.write "b.toml"
    (String.ofList ((BackendBody.mcpServer "stdio" "cmd" [] []).file "b"))

theorem fromManifests_toyBackends :
    toyManifests.fromManifests (toyManifests.backendManifests toyBackends) =
      .ok ((∅ : Table String BackendInstance).insert "b" (.mcp ⟨.stdio, "cmd", [], ∅⟩)) := by
  have hb : (BackendBody.mcpServer "stdio" "cmd" [] []).WellFormed := ⟨by decide, by decide⟩
  have hname : "b" ≠ "" ∧ ∀ c ∈ "b".toList, Toml.isBareKeyChar c := by decide
  have hkeys : (BackendBody.mcpServer "stdio" "cmd" [] []).PlainKeys :=
    fun _ hx => absurd hx List.not_mem_nil
  have hclean : (BackendBody.mcpServer "stdio" "cmd" [] []).Clean :=
    ⟨by decide, by decide, by decide⟩
  have hparse := conforms_readerParser.of_ok ((congrArg Toml.read String.toList_ofList).trans
    ((BackendBody.read_file hname.2 hb hkeys).trans (if_pos hclean)))
  have hlist : toyBackends.listToml = [⟨"b.toml",
      String.ofList ((BackendBody.mcpServer "stdio" "cmd" [] []).file "b")⟩] := by
    have htoml : ManifestDir.isToml "b.toml" := by decide
    simp [toyBackends, ManifestDir.listToml, ManifestDir.write, ManifestDir.empty, htoml]
  rw [ManifestRuntime.backendManifests, ManifestRuntime.loadBackendDir, hlist, List.map_singleton,
    show toyManifests.parser = readerParser from rfl, BackendBody.parse_document hname hb hparse]
  rfl

/-- Its capabilities are bound to the backend. -/
theorem loadNode_toyManifests (env : Option String) (caps : ManifestDir) :
    ∃ registry, toyManifests.loadNode env .manifest [] caps toyBackends = .ok
      ⟨caps, toyBackends, toyCapNode.backends.getD ∅, [], registry⟩ := by
  refine ⟨(applyPublishedCaps env
    (.fromEntries (toyCapNode.loadable caps))).enforceInstanceLobes [], ?_⟩
  rw [ManifestRuntime.loadNode, ManifestRuntime.loadManifestRegistry, fromManifests_toyBackends]
  rfl

/-- The node publishes one of the two, until its manifests are reloaded. -/
theorem reload_publishes :
    envPublishedCaps (some "greet") = ["greet"] ∧
    ∃ σ, toyManifests.loadNode (some "greet") .manifest [] (serving ["greet", "part"]).caps
        toyBackends = .ok σ ∧
      ManifestRuntime.Published ["greet"] σ ∧
      "part" ∈ (toyManifests.act σ .reloadCaps).registry.publicDecls.map (·.name) := by
  have henv : envPublishedCaps (some "greet") = ["greet"] := by decide
  obtain ⟨registry, hσ⟩ := loadNode_toyManifests (some "greet") (serving ["greet", "part"]).caps
  refine ⟨henv, _, hσ, ?_, ?_⟩
  · rw [← henv]
    exact ManifestRuntime.published_loadNode (henv ▸ List.cons_ne_nil _ _) hσ
  · have hfiles : (serving ["greet", "part"]).caps.listToml =
        [⟨"greet.toml", toyText "greet"⟩, ⟨"part.toml", toyText "part"⟩] := by
      have hle : "greet.toml" ≤ "part.toml" := by decide
      simp [serving, ManifestDir.listToml, ManifestDir.write, ManifestDir.empty, isToml_greet,
        isToml_part, hle]
    have hload : toyCapNode.loadable (serving ["greet", "part"]).caps =
        [toyEntry "greet", toyEntry "part"] := by
      rw [CapNode.loadable_eq, hfiles]
      simp only [List.filterMap_cons, List.filterMap_nil, entryOf_greet, entryOf_part]
    have hne : toyCapNode.loadable (serving ["greet", "part"]).caps ≠ [] :=
      hload ▸ List.cons_ne_nil _ _
    have hregistry (σ : LiveNode) (hnode : toyManifests.capNode σ.backends = toyCapNode)
        (hcaps : σ.caps = (serving ["greet", "part"]).caps) (hlobes : σ.lobes = []) :
        (toyManifests.reloadCaps σ).1.registry =
          (CapabilityRegistry.fromEntries [toyEntry "greet", toyEntry "part"]).enforceInstanceLobes
            [] := by
      rw [ManifestRuntime.registry_reloadCaps, hnode, hcaps, hlobes, if_neg hne, CapNode.declared,
        hload]
    rw [ManifestRuntime.act, hregistry _ rfl rfl rfl]
    decide

/-- With one manifest, a reload changes nothing. -/
theorem published_along_greet :
    ∃ σ, toyManifests.loadNode (some "greet") .manifest [] (serving ["greet"]).caps toyBackends =
        .ok σ ∧
      Run.Always toyManifests.nodeStep
        (ManifestRuntime.Published (envPublishedCaps (some "greet"))) σ [.reloadCaps] := by
  have henv : envPublishedCaps (some "greet") = ["greet"] := by decide
  obtain ⟨registry, hσ⟩ := loadNode_toyManifests (some "greet") (serving ["greet"]).caps
  have hallow : envPublishedCaps (some "greet") ≠ [] := henv ▸ List.cons_ne_nil _ _
  refine ⟨_, hσ, (ManifestRuntime.published_along toyManifests _ _ _ _ _ _ hallow hσ _).2 ⟨?_, ?_⟩⟩
  · intro e he
    have he : e ∈ toyCapNode.loadable (serving ["greet"]).caps := he
    rw [loadable_greet, List.mem_singleton] at he
    rw [he, henv]
    exact List.mem_singleton_self _
  · exact fun _ _ => trivial

end N3ur0n
