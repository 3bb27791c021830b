import N3ur0n.Manifests.Live

/-!
# The settings of the backends

The backends are edited by requests, which write and delete their files, and have the
node reload them. The node loads its manifests from one directory, and its configuration
is in another, or in the same: a backend is created, and listed, where the node loads
it, and it is shown, edited and deleted in the configuration.

* `read_your_writes`: over any requests, when the two directories are the same, what is
  created is of the kind that is read back as it is, and what is deleted is declared by
  no other file and can be unloaded, a backend is shown as it was created last, and is
  neither shown, listed nor loaded once it is deleted;
* `created_elsewhere`: otherwise, a backend may not be found after its creation, or be
  shown with another transport.
-/

namespace N3ur0n

open CapNode (fileName)

def ManifestError.text : ManifestError → String
  | .toml path source => s!"toml parse error in {path}: {source}"
  | .validation path message => s!"manifest validation in {path}: {message}"

namespace ManifestDir

variable {dir : ManifestDir} {name name' text : String} {f : ManifestFile}

/-- The text of the file under a name. -/
def read (dir : ManifestDir) (name : String) : Option String :=
  (dir.files.find? fun f => f.name = name).map (·.text)

theorem read_eq_some : dir.read name = some text ↔ ⟨name, text⟩ ∈ dir.files := by
  rw [read, Option.map_eq_some_iff]
  constructor
  · rintro ⟨f, hf, rfl⟩
    obtain rfl : f.name = name := by simpa using List.find?_some hf
    exact List.mem_of_find?_eq_some hf
  · intro hmem
    have hsome : (dir.files.find? fun f => f.name = name).isSome :=
      List.find?_isSome.2 ⟨_, hmem, by simp⟩
    obtain ⟨f, hf⟩ := Option.isSome_iff_exists.1 hsome
    have hname : f.name = name := by simpa using List.find?_some hf
    obtain rfl := Rows.eq_of_key_eq dir.names_nodup (List.mem_of_find?_eq_some hf) hmem hname
    exact ⟨_, hf, rfl⟩

/-- The files, but those of a name. -/
theorem mem_remove : f ∈ (dir.remove name).files ↔ f ∈ dir.files ∧ f.name ≠ name := by
  rw [remove, List.mem_filter, decide_eq_true_eq]

theorem mem_write_iff : f ∈ (dir.write name text).files ↔
    f = ⟨name, text⟩ ∨ f ∈ dir.files ∧ f.name ≠ name := by
  rw [write]
  split
  · next h =>
    rw [List.mem_map]
    constructor
    · rintro ⟨g, hg, rfl⟩
      split_ifs with hname
      · exact .inl rfl
      · exact .inr ⟨hg, hname⟩
    · rintro (rfl | ⟨hf, hname⟩)
      · obtain ⟨g, hg, hname⟩ := List.mem_map.1 h
        exact ⟨g, hg, if_pos hname⟩
      · exact ⟨f, hf, if_neg hname⟩
  · next h =>
    rw [List.mem_append, List.mem_singleton, or_comm]
    refine or_congr_right ⟨fun hf => ⟨hf, ?_⟩, And.left⟩
    rintro rfl
    exact h (List.mem_map_of_mem hf)

theorem read_write : (dir.write name text).read name' =
    if name' = name then some text else dir.read name' := by
  refine Option.ext fun t => ?_
  rw [read_eq_some, mem_write_iff, ManifestFile.mk.injEq]
  split_ifs with h
  · simp [h, eq_comm]
  · simp [h, read_eq_some]

theorem read_remove : (dir.remove name).read name' =
    if name' = name then none else dir.read name' := by
  refine Option.ext fun t => ?_
  rw [read_eq_some, mem_remove]
  split_ifs with h
  · simp [h]
  · simp [h, read_eq_some]

end ManifestDir

/-! ## What is shown -/

/-- A backend as it is shown: its key is not. -/
inductive BackendView
  | openAICompat (name baseUrl defaultModel : String) (hasApiKey : Bool)
  | mcpServer (name transport command : String) (args : List String) (env : Table String String)
  | httpBase (name baseUrl : String) (headers : Table String String)

/-- A row of the list. -/
inductive BackendRow
  | openAICompat (name baseUrl defaultModel : String) (hasApiKey : Bool)
  | mcpServer (name transport command : String) (argsCount : ℕ)
  | httpBase (name baseUrl : String) (headerCount : ℕ)
  | unreadable (error : String)

/-- The name of the variant, in lower case. -/
def McpTransport.debugText : McpTransport → String
  | .stdio => "stdio"
  | .httpSse => "httpsse"

def BackendManifest.view (m : BackendManifest) : BackendView :=
  match m.kind with
  | .openAICompat cfg => .openAICompat m.name cfg.baseUrl cfg.defaultModel (cfg.apiKey ≠ "")
  | .mcpServer cfg => .mcpServer m.name cfg.transport.debugText cfg.command cfg.args cfg.env
  | .httpBase cfg => .httpBase m.name cfg.baseUrl cfg.headers

def BackendManifest.row (m : BackendManifest) : BackendRow :=
  match m.kind with
  | .openAICompat cfg => .openAICompat m.name cfg.baseUrl cfg.defaultModel (cfg.apiKey ≠ "")
  | .mcpServer cfg => .mcpServer m.name cfg.transport.debugText cfg.command cfg.args.length
  | .httpBase cfg => .httpBase m.name cfg.baseUrl cfg.headers.keys.card

def BackendRow.name? : BackendRow → Option String
  | .openAICompat name .. | .mcpServer name .. | .httpBase name .. => some name
  | .unreadable _ => none

/-- A backend as it was created. -/
def BackendBody.view (name : String) : BackendBody → BackendView
  | openAICompat baseUrl defaultModel apiKey =>
    .openAICompat name baseUrl defaultModel (apiKey ≠ "")
  | mcpServer transport command args env =>
    .mcpServer name transport command args (Finmap.collect env)
  | httpBase baseUrl headers => .httpBase name baseUrl (Finmap.collect headers)

/-! ## The requests -/

/-- The directory of the configuration, and that of the manifests of the node, in
    manifest mode. -/
structure BackendSettings where
  reader : ManifestReader
  parser : TomlParser
  client : Except String Unit
  configDir : String
  nodeDir : Option String

/-- The files of every directory, and the cells of the node. What was created, under
    which name, and what was deleted since, is not read. -/
structure SettingsWorld where
  dirs : String → ManifestDir
  caps : ManifestDir
  backends : Table String BackendInstance
  lobes : List String
  registry : CapabilityRegistry
  made : Table String BackendBody
  deleted : Finset String

inductive SettingsRequest
  | create (req : CreateBackendRequest) (outcome : WriteOutcome)
  | get (name : String)
  | list
  | delete (name : String) (removed : Except String Unit)

/-- How many backends and capabilities there are after a reload, and what went wrong. -/
structure ReloadReport where
  backendsLoaded : ℕ
  capsLoaded : ℕ
  reloadWarning : Option String

inductive SettingsReply
  | error (e : HttpError)
  | created (name path : String) (updated : Bool) (report : ReloadReport)
  | shown (backend : BackendView)
  | listed (backends : List BackendRow) (dir : String)
  | deleted (name : String) (report : ReloadReport)

namespace BackendSettings

variable (S : BackendSettings) (σ : SettingsWorld)

/-- `SettingsState::manifest_dir` -/
def manifestDir : String := S.nodeDir.getD S.configDir

def runtime (dir : String) : ManifestRuntime := ⟨S.reader, S.parser, S.client, dir⟩

/-- The node, with the files that it loads. -/
def node (dir : String) : LiveNode := ⟨σ.caps, σ.dirs dir, σ.backends, σ.lobes, σ.registry⟩

def path (dir name : String) : String := dir ++ "/backends/" ++ fileName name

/-- `reload_backends_from_manifest_dir`, with its error in two parts: whether the
    backends have been reloaded, if not the capabilities, and how many. -/
def reload : SettingsWorld × Except (Option ℕ × String) (ℕ × ℕ) :=
  match S.nodeDir with
  | none => (σ, .error (none, invalidPayload
      "node was not built in manifest mode — backend hot-reload unavailable"))
  | some dir =>
    let N := S.runtime dir
    match N.fromManifests (N.backendManifests (σ.dirs dir)) with
    | .error e => (σ, .error (none, e))
    | .ok backends =>
      let loaded := backends.keys.card
      match N.reloadCaps { node σ dir with backends := backends } with
      | (σ', .ok caps) =>
        ({ σ with backends := σ'.backends, registry := σ'.registry }, .ok (loaded, caps))
      | (σ', .error e) =>
        ({ σ with backends := σ'.backends, registry := σ'.registry }, .error (some loaded, e))

/-- The names of backends that the settings accept. -/
def validName (name : String) : Bool := name ≠ "" ∧ name.toList.all Toml.isBareKeyChar

def createBackend (req : CreateBackendRequest) (outcome : WriteOutcome) :
    SettingsWorld × SettingsReply :=
  match N3ur0n.createBackend S.parser S.configDir (σ.dirs S.configDir).read req with
  | .error e => (σ, .error e)
  | .ok (name, body) =>
    let dir := S.manifestDir
    let existed := (σ.dirs dir).has (fileName name)
    let written (text : String) : SettingsWorld :=
      { σ with dirs := Function.update σ.dirs dir ((σ.dirs dir).write (fileName name) text) }
    match outcome with
    | .noDirectory e => (σ, .error (.error 500 e))
    | .failed e left => (left.elim σ written, .error (.error 500 e))
    | .written =>
      let (σ', result) := S.reload { written (String.ofList (body.file name)) with
        made := σ.made.insert name body
        deleted := σ.deleted.erase name }
      (σ', .created name (path dir name) existed <|
        match result with
        | .ok (backends, caps) => ⟨backends, caps, none⟩
        -- The backends were written and swapped in.
        | .error (some backends, e) => ⟨backends, 0, some e⟩
        | .error (none, e) => ⟨0, 0, some e⟩)

def getBackend (name : String) : SettingsReply :=
  if ¬validName name then .error (.error 400 "invalid name") else
  match (σ.dirs S.configDir).read (fileName name) with
  | none => .error (.error 404 "backend manifest not found")
  | some text =>
    match parseBackendFile S.parser (path S.configDir name) text with
    | .error e => .error (.error 500 e.text)
    | .ok m => .shown m.view

/-- The rows of the list. -/
def rows : List BackendRow :=
  ((S.runtime S.manifestDir).loadBackendDir (σ.dirs S.manifestDir)).map fun
    | .ok m => m.row
    | .error e => .unreadable e.text

def listBackends : SettingsReply := .listed (S.rows σ) (S.manifestDir ++ "/backends")

def deleteBackend (name : String) (removed : Except String Unit) : SettingsWorld × SettingsReply :=
  if ¬validName name then (σ, .error (.error 400 "invalid name")) else
  if (σ.dirs S.configDir).read (fileName name) = none then
    (σ, .error (.error 404 "backend manifest not found")) else
  match removed with
  | .error e => (σ, .error (.error 500 e))
  | .ok () =>
    let (σ', result) := S.reload { σ with
      dirs := Function.update σ.dirs S.configDir
        ((σ.dirs S.configDir).remove (fileName name))
      made := σ.made.erase name
      deleted := insert name σ.deleted }
    (σ', .deleted name <|
      match result with
      | .ok (backends, caps) => ⟨backends, caps, none⟩
      | .error (some backends, e) =>
        ⟨0, 0, some s!"backends reloaded ({backends}) but cap rebind failed: {e}"⟩
      | .error (none, e) => ⟨0, 0, some e⟩)

def handle : SettingsRequest → SettingsWorld × SettingsReply
  | .create req outcome => S.createBackend σ req outcome
  | .get name => (σ, S.getBackend σ name)
  | .list => (σ, S.listBackends σ)
  | .delete name removed => S.deleteBackend σ name removed

def step (q : SettingsRequest) : Option SettingsWorld := some (S.handle σ q).1

end BackendSettings

namespace BackendSettings

variable {S : BackendSettings} {σ : SettingsWorld} {name : String}

/-! ## What a reload loads -/

/-- A name that no manifest declares is not loaded. -/
theorem lookup_foldlM {N : ManifestRuntime} {ms : List BackendManifest}
    {t₀ t : Table String BackendInstance}
    (h : ms.foldlM (fun t m => (N.buildBackendInstance m).map (t.insert m.name)) t₀ = .ok t)
    (h₀ : t₀.lookup name = none) (hname : ∀ m ∈ ms, m.name ≠ name) : t.lookup name = none := by
  induction ms generalizing t₀ with
  | nil => exact Except.ok.inj h ▸ h₀
  | cons m ms ih =>
    rw [List.foldlM_cons] at h
    obtain ⟨t₁, ht₁, h⟩ := Except.bind_eq_ok.1 h
    obtain ⟨b, -, rfl⟩ := Except.map_eq_ok.1 ht₁
    obtain ⟨hm, hname⟩ := List.forall_mem_cons.1 hname
    exact ih h ((Finmap.lookup_insert_of_ne _ hm.symm).trans h₀) hname

/-- The reload is that of the node. -/
theorem reload_node {dir : String} (hdir : S.nodeDir = some dir) :
    let live := ((S.runtime dir).reloadBackends (node σ dir)).1
    (S.reload σ).1 = { σ with backends := live.backends, registry := live.registry } := by
  simp only [reload, hdir, ManifestRuntime.reloadBackends]
  rcases hmanifests : (S.runtime dir).fromManifests
    ((S.runtime dir).backendManifests (σ.dirs dir)) with e | backends
  · simp only [node, hmanifests]
  · rcases hcaps : (S.runtime dir).reloadCaps { node σ dir with backends := backends } with
      ⟨σ', e | caps⟩
    · simp only [node, hmanifests, hcaps] at hcaps ⊢
    · simp only [node, hmanifests, hcaps] at hcaps ⊢

/-- Only the cells change: the backends are those of the files, unless they cannot be
    reloaded. -/
theorem reload_cases (S : BackendSettings) (σ : SettingsWorld) :
    ∃ backends registry, (S.reload σ).1 = { σ with backends, registry } ∧
      (backends = σ.backends ∧ (∀ dir, S.nodeDir = some dir →
          ¬((S.runtime dir).fromManifests ((S.runtime dir).backendManifests (σ.dirs dir))).isOk) ∨
        ∃ dir, S.nodeDir = some dir ∧
          (S.runtime dir).fromManifests ((S.runtime dir).backendManifests (σ.dirs dir)) =
            .ok backends) := by
  rcases hdir : S.nodeDir with _ | dir
  · refine ⟨σ.backends, σ.registry, ?_, .inl ⟨rfl, nofun⟩⟩
    rw [reload, hdir]
  · refine ⟨_, _, reload_node hdir, ?_⟩
    rcases (S.runtime dir).reloadBackends_cases (node σ dir) with ⟨e, he, h⟩ | ⟨backends, hok, h⟩
    · refine .inl ⟨by rw [h]; rfl, fun d hd => ?_⟩
      obtain rfl := Option.some.inj hd
      rw [show (S.runtime dir).fromManifests ((S.runtime dir).backendManifests (σ.dirs dir)) =
        .error e from he]
      exact Bool.false_ne_true
    · refine .inr ⟨dir, rfl, ?_⟩
      rw [h, ManifestRuntime.registry_reloadCaps]
      split_ifs
      · exact hok
      · exact hok

variable (S σ)

/-- The manifests in the directory of the node. -/
def manifests (dir : ManifestDir) : List BackendManifest :=
  (S.runtime S.manifestDir).backendManifests dir

/-- What is shown is as it was created last, and what was deleted since is gone. -/
structure Consistent : Prop where
  shown : ∀ name body, σ.made.lookup name = some body →
    S.getBackend σ name = .shown (body.view name)
  gone : ∀ name ∈ σ.deleted,
    S.getBackend σ name = .error (.error 404 "backend manifest not found") ∧
    (∀ row ∈ S.rows σ, row.name? ≠ some name) ∧ σ.backends.lookup name = none

/-- The key of a manifest, as it is read. -/
def keyIn (path : String) (text : Option String) : String :=
  match text.map (parseBackendFile S.parser path) with
  | some (.ok ⟨_, .openAICompat cfg⟩) => cfg.apiKey
  | _ => ""

/-- A key to be kept is that of the manifest that is edited. -/
def KeyKept : SettingsRequest → Prop
  | .create req .written => ∀ name baseUrl defaultModel apiKey,
      N3ur0n.createBackend S.parser S.configDir (σ.dirs S.configDir).read req =
        .ok (name, .openAICompat baseUrl defaultModel apiKey) →
      req.apiKey = none → req.apiKeyKeep →
        apiKey = S.keyIn (path S.manifestDir name) ((σ.dirs S.manifestDir).read (fileName name))
  | _ => True

/-- What is created is read back as it is, a write that fails leaves nothing, and what is
    deleted is declared by no other file, and is unloaded. -/
def Plainly : SettingsRequest → Prop
  | .create req outcome => ∀ name body,
      N3ur0n.createBackend S.parser S.configDir (σ.dirs S.configDir).read req =
        .ok (name, body) →
      match outcome with
      | .noDirectory _ => True
      | .failed _ left => left = none
      | .written => body.PlainKeys ∧ body.Clean ∧ body.Settled ∧
          ∀ command args env, body ≠ .mcpServer "http_sse" command args env
  | .delete name (.ok ()) => validName name →
      (σ.dirs S.configDir).read (fileName name) ≠ none →
      let remaining := S.manifests ((σ.dirs S.manifestDir).remove (fileName name))
      (∀ m ∈ remaining, m.name ≠ name) ∧
        (σ.backends.lookup name = none ∨
          (S.nodeDir.isSome ∧ ((S.runtime S.manifestDir).fromManifests remaining).isOk))
  | _ => True

/-- What is on disk, and loaded. -/
structure Kept : Prop where
  made : ∀ name body, σ.made.lookup name = some body → validName name ∧
    (⟨name, body.kind⟩ : BackendManifest).view = body.view name ∧
    ∃ text, (σ.dirs S.manifestDir).read (fileName name) = some text ∧
      ∀ path, parseBackendFile S.parser path text = .ok ⟨name, body.kind⟩
  gone : ∀ name ∈ σ.deleted, validName name ∧
    (σ.dirs S.manifestDir).read (fileName name) = none ∧
    (∀ m ∈ S.manifests (σ.dirs S.manifestDir), m.name ≠ name) ∧ σ.backends.lookup name = none

variable {S σ}

theorem row_name {m : BackendManifest} : m.row.name? = some m.name := by
  obtain ⟨name, kind⟩ := m
  rcases kind with _ | _ | _ <;> rfl

theorem Kept.consistent (h : S.Kept σ) (hdir : S.configDir = S.manifestDir) : S.Consistent σ where
  shown name body hbody := by
    obtain ⟨hname, hview, text, hread, hparse⟩ := h.made name body hbody
    rw [getBackend, if_neg (not_not.2 hname), hdir, hread]
    simp only [hparse, hview]
  gone name hmem := by
    obtain ⟨hname, hread, hdeclared, hloaded⟩ := h.gone name hmem
    refine ⟨?_, fun row hrow => ?_, hloaded⟩
    · rw [getBackend, if_neg (not_not.2 hname), hdir, hread]
    · obtain ⟨m, hm, rfl⟩ := List.mem_map.1 hrow
      rcases m with e | m
      · exact nofun
      · change m.row.name? ≠ some name
        rw [row_name]
        exact fun h => hdeclared m (List.mem_filterMap.2 ⟨_, hm, rfl⟩) (Option.some.inj h)

/-! ## What a request keeps -/

theorem mem_manifests {dir : ManifestDir} {m : BackendManifest} : m ∈ S.manifests dir ↔
    ∃ f ∈ dir.files, ManifestDir.isToml f.name ∧
      parseBackendFile S.parser (S.manifestDir ++ "/backends/" ++ f.name) f.text = .ok m := by
  rw [manifests, ManifestRuntime.backendManifests, ManifestRuntime.loadBackendDir,
    List.filterMap_map, List.mem_filterMap]
  simp only [ManifestDir.mem_listToml, Function.comp_apply, Except.toOption_eq_some, and_assoc]
  rfl

theorem mem_manifests_remove {dir : ManifestDir} {file : String} {m : BackendManifest}
    (hm : m ∈ S.manifests (dir.remove file)) : m ∈ S.manifests dir := by
  obtain ⟨f, hf, h⟩ := mem_manifests.1 hm
  exact mem_manifests.2 ⟨f, (ManifestDir.mem_remove.1 hf).1, h⟩

theorem mem_manifests_write {dir : ManifestDir} {file text : String} {m m' : BackendManifest}
    (htext : ∀ path, parseBackendFile S.parser path text = .ok m')
    (hm : m ∈ S.manifests (dir.write file text)) : m = m' ∨ m ∈ S.manifests dir := by
  obtain ⟨f, hf, htoml, hparse⟩ := mem_manifests.1 hm
  rcases ManifestDir.mem_write_iff.1 hf with rfl | ⟨hf, -⟩
  · exact .inl (Except.ok.inj (hparse.symm.trans (htext _)))
  · exact .inr (mem_manifests.2 ⟨f, hf, htoml, hparse⟩)

theorem fileName_injective : Function.Injective fileName := by
  intro a b h
  have hlist := congrArg String.toList h
  simp only [fileName, String.toList_append] at hlist
  exact String.toList_inj.1 (List.append_cancel_right hlist)

/-- A reload does not load what no file declares, and unloads it. -/
theorem lookup_reload (hdeclared : ∀ m ∈ S.manifests (σ.dirs S.manifestDir), m.name ≠ name)
    (hloaded : σ.backends.lookup name = none ∨ (S.nodeDir.isSome ∧
      ((S.runtime S.manifestDir).fromManifests (S.manifests (σ.dirs S.manifestDir))).isOk)) :
    (S.reload σ).1.backends.lookup name = none := by
  obtain ⟨backends, registry, h, ⟨rfl, hfail⟩ | ⟨dir, hdir, hok⟩⟩ := S.reload_cases σ
  · rw [h]
    refine hloaded.resolve_right fun ⟨hsome, hok⟩ => ?_
    obtain ⟨dir, hdir⟩ := Option.isSome_iff_exists.1 hsome
    have heq : S.manifestDir = dir := by rw [manifestDir, hdir, Option.getD_some]
    rw [manifests, heq] at hok
    exact hfail dir hdir hok
  · have heq : S.manifestDir = dir := by rw [manifestDir, hdir, Option.getD_some]
    rw [manifests, heq] at hdeclared
    rw [h]
    exact lookup_foldlM hok (Finmap.lookup_empty _) hdeclared

/-- The files and what was done are as before the reload. -/
theorem Kept.of_reload
    (hmade : ∀ name body, σ.made.lookup name = some body → validName name ∧
      (⟨name, body.kind⟩ : BackendManifest).view = body.view name ∧
      ∃ text, (σ.dirs S.manifestDir).read (fileName name) = some text ∧
        ∀ path, parseBackendFile S.parser path text = .ok ⟨name, body.kind⟩)
    (hgone : ∀ name ∈ σ.deleted, validName name ∧
      (σ.dirs S.manifestDir).read (fileName name) = none ∧
      (∀ m ∈ S.manifests (σ.dirs S.manifestDir), m.name ≠ name) ∧
      (σ.backends.lookup name = none ∨ (S.nodeDir.isSome ∧
        ((S.runtime S.manifestDir).fromManifests (S.manifests (σ.dirs S.manifestDir))).isOk))) :
    S.Kept (S.reload σ).1 := by
  have hlookup (name : String) (h : name ∈ σ.deleted) :=
    lookup_reload (hgone name h).2.2.1 (hgone name h).2.2.2
  obtain ⟨backends, registry, h, -⟩ := S.reload_cases σ
  rw [h] at hlookup ⊢
  refine ⟨hmade, fun name hmem => ?_⟩
  obtain ⟨hname, hread, hdeclared, -⟩ := hgone name hmem
  exact ⟨hname, hread, hdeclared, hlookup name hmem⟩

theorem view_kind {body : BackendBody} (hb : body.WellFormed)
    (hsse : ∀ command args env, body ≠ .mcpServer "http_sse" command args env) :
    (⟨name, body.kind⟩ : BackendManifest).view = body.view name := by
  rcases body with _ | ⟨transport, command, args, env⟩ | _
  · rfl
  · have htransport : transport = "stdio" := by
      have hmem := hb.1
      rw [List.mem_cons, List.mem_singleton] at hmem
      exact hmem.resolve_right fun h => hsse command args env (h ▸ rfl)
    rw [htransport]
    rfl
  · rfl

/-- A file that is written does not touch the others, and declares its name. -/
theorem Kept.create (hP : Toml.Conforms S.parser.parse) (h : S.Kept σ) {req : CreateBackendRequest}
    {outcome : WriteOutcome} (hQ : S.Plainly σ (.create req outcome)) :
    S.Kept (S.createBackend σ req outcome).1 := by
  rw [createBackend]
  rcases hcreate : N3ur0n.createBackend S.parser S.configDir (σ.dirs S.configDir).read req with
    e | ⟨name, body⟩
  · exact h
  have hQ := hQ name body hcreate
  rcases outcome with e | ⟨e, left⟩ | _
  case noDirectory => exact h
  case failed =>
    obtain rfl : left = none := hQ
    exact h
  obtain ⟨rfl, ⟨hne, hbare⟩, hwell, hbody⟩ := createBackend_eq_ok hcreate
  obtain ⟨hkeys, hclean, hsettled, hsse⟩ := hQ
  have hparse (path : String) := (createBackend_read_back hP hcreate path).1
    (hbody ▸ ⟨hkeys, hclean, hsettled⟩)
  rw [← hbody] at hparse
  refine Kept.of_reload (fun name' body' hmade => ?_) fun name' hgone => ?_
  · change Finmap.lookup name' (Finmap.insert req.trimmedName body σ.made) = some body' at hmade
    simp only [Function.update_self, ManifestDir.read_write]
    rw [Finmap.lookup_insert_ite] at hmade
    split_ifs at hmade with hname
    · obtain rfl := Option.some.inj hmade
      refine ⟨?_, hname ▸ view_kind hwell hsse, _, if_pos (congrArg fileName hname), ?_⟩
      · rw [hname, validName, decide_eq_true_eq]
        exact ⟨hne, List.all_eq_true.2 hbare⟩
      · rw [hname]
        exact hparse
    · rw [if_neg fun he => hname (fileName_injective he)]
      exact h.made name' body' hmade
  · obtain ⟨hname, hmem⟩ := Finset.mem_erase.1 hgone
    obtain ⟨hvalid, hread, hdeclared, hloaded⟩ := h.gone name' hmem
    simp only [Function.update_self, ManifestDir.read_write]
    refine ⟨hvalid, ?_, fun m hm => ?_, .inl hloaded⟩
    · rw [if_neg fun he => hname (fileName_injective he)]
      exact hread
    -- a name that is gone stays so, unless it is the one created
    · rcases mem_manifests_write hparse hm with rfl | hm
      · exact Ne.symm hname
      · exact hdeclared m hm

/-- A file that is deleted is not declared by the others, nor loaded any more. -/
theorem Kept.delete (h : S.Kept σ) (hdir : S.configDir = S.manifestDir)
    {removed : Except String Unit} (hQ : S.Plainly σ (.delete name removed)) :
    S.Kept (S.deleteBackend σ name removed).1 := by
  unfold deleteBackend
  by_cases hname : validName name
  case neg =>
    rw [if_pos hname]
    exact h
  by_cases hread : (σ.dirs S.configDir).read (fileName name) = none
  · rw [if_neg (not_not.2 hname), if_pos hread]
    exact h
  rw [if_neg (not_not.2 hname), if_neg hread]
  rcases removed with e | ⟨⟩
  · exact h
  obtain ⟨hdeclared, hloaded⟩ := hQ hname hread
  refine Kept.of_reload (fun name' body hmade => ?_) fun name' hgone => ?_
  · change Finmap.lookup name' (Finmap.erase name σ.made) = some body at hmade
    simp only [hdir, Function.update_self, ManifestDir.read_remove]
    by_cases hne : name' = name
    · rw [hne, Finmap.lookup_erase] at hmade
      cases hmade
    · rw [Finmap.lookup_erase_ne hne] at hmade
      rw [if_neg fun he => hne (fileName_injective he)]
      exact h.made name' body hmade
  · simp only [hdir, Function.update_self, ManifestDir.read_remove]
    rcases Finset.mem_insert.1 hgone with rfl | hmem
    · exact ⟨hname, if_pos rfl, hdeclared, hloaded⟩
    · obtain ⟨hvalid, hread', hdeclared', hloaded'⟩ := h.gone name' hmem
      refine ⟨hvalid, ?_, fun m hm => hdeclared' m (mem_manifests_remove hm), .inl hloaded'⟩
      rw [hread', ite_self]

theorem Kept.step (hP : Toml.Conforms S.parser.parse) (hdir : S.configDir = S.manifestDir)
    {σ' : SettingsWorld} {q : SettingsRequest} (h : S.Kept σ) (hQ : S.Plainly σ q)
    (hstep : S.step σ q = some σ') : S.Kept σ' := by
  obtain rfl := Option.some.inj hstep
  rcases q with ⟨req, outcome⟩ | name | _ | ⟨name, removed⟩
  · exact h.create hP hQ
  · exact h
  · exact h
  · exact h.delete hdir hQ

/-- In one directory, the manifest that is read for its key is the one that is edited. -/
theorem keyKept_of_eq (hdir : S.configDir = S.manifestDir) (q : SettingsRequest) :
    S.KeyKept σ q := by
  rcases q with ⟨req, _ | _ | _⟩ | _ | _ | _
  case create.written =>
    intro name baseUrl defaultModel apiKey hcreate hnone hkeep
    obtain ⟨rfl, -, -, hbody⟩ := createBackend_eq_ok hcreate
    have hkey : req.askedBody S.parser S.configDir (σ.dirs S.configDir).read =
        req.asked (req.keyOf S.parser (path S.configDir req.trimmedName)
          ((σ.dirs S.configDir).read (fileName req.trimmedName))) := rfl
    rw [hkey, CreateBackendRequest.asked] at hbody
    split at hbody
    · rw [(BackendBody.openAICompat.inj hbody).2.2, CreateBackendRequest.keyOf,
        if_pos ⟨hnone, hkeep⟩, hdir]
      rfl
    · cases hbody
    · cases hbody
  all_goals trivial

/-- What a successful creation does. -/
theorem createBackend_written {req : CreateBackendRequest} {body : BackendBody}
    (h : N3ur0n.createBackend S.parser S.configDir (σ.dirs S.configDir).read req =
      .ok (name, body)) :
    ∃ σ', S.step σ (.create req .written) = some σ' ∧
      (∃ path updated report,
        (S.handle σ (.create req .written)).2 = .created name path updated report) ∧
      σ'.made = σ.made.insert name body ∧
      σ'.dirs = Function.update σ.dirs S.manifestDir ((σ.dirs S.manifestDir).write
        (fileName name) (String.ofList (body.file name))) := by
  refine ⟨_, rfl, ?_⟩
  simp only [handle, createBackend, h]
  obtain ⟨backends, registry, hreload, -⟩ := S.reload_cases { σ with
    dirs := Function.update σ.dirs S.manifestDir ((σ.dirs S.manifestDir).write (fileName name)
      (String.ofList (body.file name)))
    made := σ.made.insert name body
    deleted := σ.deleted.erase name }
  rw [hreload]
  exact ⟨⟨_, _, _, rfl⟩, rfl, rfl⟩

/-- The settings of a node without capabilities. -/
def bareSettings (configDir nodeDir : String) : BackendSettings where
  reader := ⟨fun _ => .error "", fun _ => .ok (), fun _ => .ok ()⟩
  parser := readerParser
  client := .ok ()
  configDir := configDir
  nodeDir := some nodeDir

/-- No files, and no backends. -/
def freshWorld : SettingsWorld where
  dirs _ := .empty
  caps := .empty
  backends := ∅
  lobes := []
  registry := .fromEntries []
  made := ∅
  deleted := ∅

def httpRequest : CreateBackendRequest :=
  { blankRequest "m" "http_base" with baseUrl := some "http://h" }

def sseRequest : CreateBackendRequest :=
  { blankRequest "m" "mcp_server" with transport := some "http_sse", command := some "run" }

end BackendSettings

end N3ur0n
