import N3ur0n.Manifests.Backends
import N3ur0n.Manifests.Reload

/-!
# The backends of a node

The backends are loaded from files of their own, and the capabilities are bound
to them: when the backends are reloaded, so are the capabilities. A file that
cannot be read is skipped; a backend that cannot be built fails the reload, and
those that there were remain.

* `LiveNode`: what a node serves, and the files that it reloads from;
* `ManifestRuntime.loadManifestRegistry`: what it starts with;
* `ManifestRuntime.reloadCaps`, `ManifestRuntime.reloadBackends`: what a reload does, in a few
  cases (`registry_reloadCaps`, `reloadBackends_cases`).
-/

namespace N3ur0n

open Cut

/-- What the node takes from libraries, and the directory of its manifests. A
    client of a chat endpoint may fail to be made. -/
structure ManifestRuntime where
  reader : ManifestReader
  parser : TomlParser
  client : Except String Unit
  manifestDir : String

/-- The capabilities, the lobes and the backends are cells; the directories are
    those of the manifests. -/
structure LiveNode where
  caps : ManifestDir
  backendFiles : ManifestDir
  backends : Table String BackendInstance
  lobes : List String
  registry : CapabilityRegistry

namespace ManifestRuntime

variable (N : ManifestRuntime)

/-! ## Loading -/

def buildBackendInstance (m : BackendManifest) : Except String BackendInstance :=
  match m.kind with
  | .openAICompat cfg =>
    match N.client with
    | .error e => .error (invalidPayload s!"openai backend init: {e}")
    | .ok () => .ok (.openAI { cfg with baseUrl := normalizeOpenaiBaseUrl cfg.baseUrl })
  | .httpBase cfg =>
    if isBlank cfg.baseUrl then
      .error (invalidPayload ("http backend init: invalid base_url `" ++ cfg.baseUrl ++ "`"))
    else .ok (.http { cfg with baseUrl := String.ofList (trimSlashes cfg.baseUrl.toList) })
  | .mcpServer cfg => .ok (.mcp cfg)

/-- `BackendsRegistry::from_manifests`: the last one of a name is kept, and one that
    cannot be built fails them all. -/
def fromManifests (manifests : List BackendManifest) :
    Except String (Table String BackendInstance) :=
  manifests.foldlM (fun t m => (N.buildBackendInstance m).map (t.insert m.name)) ∅

def loadBackendDir (files : ManifestDir) : List (Except ManifestError BackendManifest) :=
  files.listToml.map fun f =>
    parseBackendFile N.parser (N.manifestDir ++ "/backends/" ++ f.name) f.text

/-- The manifests of the files that can be read. -/
def backendManifests (files : ManifestDir) : List BackendManifest :=
  (N.loadBackendDir files).filterMap (·.toOption)

/-- With these backends, the capabilities are loaded and reloaded as before. -/
def capNode (backends : Table String BackendInstance) : CapNode where
  reader := N.reader
  configDir := N.manifestDir
  manifestDir := some N.manifestDir
  backends := some backends

/-- `load_manifest_registry` -/
def loadManifestRegistry (caps backendFiles : ManifestDir) :
    Except String (CapabilityRegistry × Table String BackendInstance) := do
  let backends ← (N.fromManifests (N.backendManifests backendFiles)).mapError
    fun e => s!"backends registry: {e}"
  .ok (.fromEntries ((N.capNode backends).loadable caps), backends)

/-- `load_backends_only`: it starts without backends if one of them cannot be built. -/
def loadBackendsOnly (backendFiles : ManifestDir) : Table String BackendInstance :=
  (N.fromManifests (N.backendManifests backendFiles)).toOption.getD ∅

/-! ## Reloading -/

/-- `reload_caps_from_manifest_dir` -/
def reloadCaps (σ : LiveNode) : LiveNode × Except String ℕ :=
  let (s, result) := (N.capNode σ.backends).reloadCaps ⟨σ.caps, σ.lobes, σ.registry⟩
  ({ σ with registry := s.registry }, result)

/-- `reload_backends_from_manifest_dir`: how many backends, and capabilities, there are
    after it. -/
def reloadBackends (σ : LiveNode) : LiveNode × Except String (ℕ × ℕ) :=
  match N.fromManifests (N.backendManifests σ.backendFiles) with
  | .error e => (σ, .error e)
  | .ok backends =>
    let loaded := backends.keys.card
    match N.reloadCaps { σ with backends := backends } with
    | (σ', .ok caps) => (σ', .ok (loaded, caps))
    | (σ', .error e) => (σ', .error s!"backends reloaded ({loaded}) but cap rebind failed: {e}")

variable {N} {σ : LiveNode}

/-- The registry that a reload leaves: it is kept when nothing can be loaded. -/
theorem registry_reloadCaps : (N.reloadCaps σ).1 =
    if (N.capNode σ.backends).loadable σ.caps = [] then σ
    else { σ with registry := (N.capNode σ.backends).declared σ.caps σ.lobes } := by
  rw [reloadCaps]
  rcases (N.capNode σ.backends).reloadCaps_cases ⟨σ.caps, σ.lobes, σ.registry⟩ with
    ⟨hnot, e, h⟩ | ⟨-, -, hnone, h⟩ | ⟨⟨-, -, hload⟩, n, h⟩
  · rw [h, if_pos]
    exact by_contra fun hload => hnot ⟨rfl, rfl, hload⟩
  · rw [h, if_pos (CapNode.loadable_of_listToml_eq_nil hnone)]
  · rw [h, if_neg hload]

/-- A reload of the backends either fails, and nothing changes, or replaces them,
    and the capabilities are reloaded. -/
theorem reloadBackends_cases (N : ManifestRuntime) (σ : LiveNode) :
    (∃ e, N.fromManifests (N.backendManifests σ.backendFiles) = .error e ∧
      (N.reloadBackends σ).1 = σ) ∨
    (∃ backends, N.fromManifests (N.backendManifests σ.backendFiles) = .ok backends ∧
      (N.reloadBackends σ).1 = (N.reloadCaps { σ with backends := backends }).1) := by
  rw [reloadBackends]
  rcases N.fromManifests (N.backendManifests σ.backendFiles) with e | backends
  · exact .inl ⟨e, rfl, rfl⟩
  · refine .inr ⟨backends, rfl, ?_⟩
    rcases hcaps : N.reloadCaps { σ with backends := backends } with ⟨σ', e | caps⟩
    · simp only [hcaps]
    · simp only [hcaps]

end ManifestRuntime

end N3ur0n
