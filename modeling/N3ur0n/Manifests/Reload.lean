import Mathlib.Data.List.Sort
import N3ur0n.Auth.Routes
import N3ur0n.Blobs.Files
import N3ur0n.Manifests.CapToml
import N3ur0n.Manifests.Registry

/-!
# Editing capabilities

The settings write and delete the files of the capabilities, then the registry
is rebuilt from the directory: every file that can be loaded is an entry, and
the others are left out. When no file at all is left, the registry stays as it
is.

* `Agrees`: the registry has what the files on disk declare;
* `caps_refined`: after a successful edit, the names served are those of the files
  that can be loaded, except when the last file is deleted;
* `failed_edit_keeps`: what is served after an edit that fails.
-/

namespace N3ur0n

/-! ## The directory -/

structure ManifestFile where
  name : String
  text : String
  deriving DecidableEq

/-- The files of a directory, in any order. -/
structure ManifestDir where
  files : List ManifestFile
  names_nodup : (files.map (·.name)).Nodup

namespace ManifestDir

variable (dir : ManifestDir)

def empty : ManifestDir := ⟨[], List.nodup_nil⟩

/-- Whether there is a file under the name. -/
def has (name : String) : Bool := (dir.files.find? fun f => f.name = name).isSome

def write (name text : String) : ManifestDir :=
  if h : name ∈ dir.files.map (·.name) then
    ⟨dir.files.map fun f => if f.name = name then ⟨name, text⟩ else f,
      Rows.nodup_update dir.names_nodup fun f => by split <;> simp_all⟩
  else ⟨dir.files ++ [⟨name, text⟩],
    @Rows.nodup_insert _ _ ManifestFile.name _ dir.names_nodup ⟨name, text⟩ h⟩

def remove (name : String) : ManifestDir :=
  ⟨dir.files.filter (·.name ≠ name), Rows.nodup_delete dir.names_nodup _⟩

/-- The extension of the name is `toml`. -/
def isToml (name : String) : Bool :=
  ".toml".toList.isSuffixOf name.toList ∧ name.length ≠ ".toml".length

/-- `list_toml`: these files, by their names. -/
def listToml : List ManifestFile :=
  (dir.files.filter fun f => isToml f.name).insertionSort fun f g => f.name ≤ g.name

end ManifestDir

/-! ## The node -/

/-- The node, with its backends as they are; in manifest mode, it has a directory
    for its manifests. -/
structure CapNode where
  reader : ManifestReader
  configDir : String
  manifestDir : Option String
  backends : Option (Table String BackendInstance)

structure CapState where
  caps : ManifestDir
  lobes : List String
  registry : CapabilityRegistry

/-- The text of `NodeError::InvalidPayload`. -/
def invalidPayload (message : String) : String := "invalid payload for verb: " ++ message

structure CapSaved where
  name : String
  path : Option String
  registered : ℕ

/-- What the file system does when a file is written: when it fails, it may have
    left something of it. -/
inductive WriteOutcome
  | noDirectory (e : String)
  | failed (e : String) (left : Option String)
  | written

namespace CapNode

variable (N : CapNode)

/-- The directory that the settings edit. -/
def capsDir : String := N.manifestDir.getD N.configDir ++ "/caps"

def loadCapDir (dir : ManifestDir) : List (Except ManifestError CapabilityManifest) :=
  dir.listToml.map fun f => N.reader.parseCapFile (N.capsDir ++ "/" ++ f.name) f.text

/-- A manifest is skipped unless it is well formed and its binding can be built. -/
def loadEntry (backends : Table String BackendInstance) :
    Except ManifestError CapabilityManifest → Option RegistryEntry
  | .error _ => none
  | .ok cap => do
    let backend ← backends.lookup cap.binding.backend
    let binding ← (buildBinding cap.binding backend).toOption
    some ⟨cap.descriptor, some binding⟩

/-- The entries of the manifests that can be loaded. -/
def loadable (dir : ManifestDir) : List RegistryEntry :=
  (N.loadCapDir dir).filterMap (loadEntry (N.backends.getD ∅))

/-- The registry that the directory declares. -/
def declared (dir : ManifestDir) (lobes : List String) : CapabilityRegistry :=
  (CapabilityRegistry.fromEntries (N.loadable dir)).enforceInstanceLobes lobes

/-- `reload_caps_from_manifest_dir`: how many capabilities are registered after it. -/
def reloadCaps (σ : CapState) : CapState × Except String ℕ :=
  match N.manifestDir with
  | none => (σ, .error (invalidPayload
      "node was not built in manifest mode — cap hot-reload unavailable"))
  | some dir =>
    match N.backends with
    | none => (σ, .error (invalidPayload
        "node has no backends registry — cap hot-reload unavailable"))
    | some _ =>
      if N.loadable σ.caps = [] then
        let files := (N.loadCapDir σ.caps).length
        if 0 < files then
          (σ, .error (invalidPayload (s!"none of the {files} cap manifest(s) in {dir}/caps " ++
            "could be loaded — check the backend each one binds to")))
        else (σ, .ok 0)
      else
        let registry := N.declared σ.caps σ.lobes
        ({ σ with registry := registry }, .ok registry.entries.length)

/-! ## The routes -/

/-- The names of capabilities that the settings accept. -/
def validCapName (name : String) : Bool :=
  name ≠ "" ∧ name.toList.all fun c => c.isAlphanum || c = '_' || c = '-'

def fileName (name : String) : String := name ++ ".toml"

/-- A file is deleted, if the file system does it, and the registry is reloaded. -/
def deleteCapManifest (σ : CapState) (name : String) (removed : Except String Unit) :
    CapState × Except HttpError CapSaved :=
  if ¬validCapName name then (σ, .error (.error 400 "invalid name")) else
  if ¬σ.caps.has (fileName name) then (σ, .error (.error 404 "cap manifest not found")) else
  match removed with
  | .error e => (σ, .error (.error 500 e))
  | .ok () =>
    match N.reloadCaps { σ with caps := σ.caps.remove (fileName name) } with
    | (σ', .error e) => (σ', .error (.error 500 s!"delete ok but reload failed: {e}"))
    | (σ', .ok registered) => (σ', .ok ⟨name, none, registered⟩)

/-- The name and the text of the file that a request asks for, if it is valid. -/
def checkUpsert (σ : CapState) (req : UpsertCapRequest) : Except HttpError (String × String) := do
  let name := String.ofList (Cut.trim isWhitespace req.name.toList)
  Except.reject (¬validCapName name)
    (.error 400 "name must be non-empty and match [a-zA-Z0-9_-]")
  Except.reject (¬(N.reader.parseSemver req.version).isOk)
    (.error 400 "version must be valid semver (e.g. 0.1.0)")
  Except.reject (isBlank req.description) (.error 400 "description is required")
  Except.reject (req.examples.isEmpty) (.error 400
    "at least one example is required (the planner refuses caps with no examples)")
  let unclaimable := unclaimableLobes req.lobeIds σ.lobes
  Except.reject (unclaimable ≠ []) (.error 400 ("this instance does not belong to " ++
    ", ".intercalate unclaimable ++ "; join the lobe in Settings → Identity first"))
  let text ← (buildCapToml name req).mapError (.error 400)
  .ok (name, String.ofList text)

/-- A capability is edited: its file is written, then the registry is reloaded. -/
def upsertCapManifest (σ : CapState) (req : UpsertCapRequest) (outcome : WriteOutcome) :
    CapState × Except HttpError CapSaved :=
  match N.checkUpsert σ req with
  | .error e => (σ, .error e)
  | .ok (name, text) =>
    let target := N.capsDir ++ "/" ++ fileName name
    match outcome with
    | .noDirectory e => (σ, .error (.error 500 e))
    | .failed e left => ({ σ with caps := left.elim σ.caps (σ.caps.write (fileName name)) },
        .error (.error 500 e))
    | .written =>
      match N.reloadCaps { σ with caps := σ.caps.write (fileName name) text } with
      | (σ', .error e) => (σ', .error (.error 500 s!"saved but reload failed: {e}"))
      | (σ', .ok registered) =>
        if (σ'.registry.get name).isNone then
          (σ', .error (.error 422 (s!"saved to {target} but not registered — its binding could " ++
            "not be built; check that the backend it names exists")))
        else (σ', .ok ⟨name, some target, registered⟩)

end CapNode

/-- The requests that edit capabilities, with what the file system does. -/
inductive CapAction
  | upsert (req : UpsertCapRequest) (outcome : WriteOutcome)
  | delete (name : String) (removed : Except String Unit)

namespace CapNode

variable (N : CapNode)

/-- A request is dealt with: the state after it, and the response. -/
def handle (σ : CapState) : CapAction → CapState × Except HttpError CapSaved
  | .upsert req outcome => N.upsertCapManifest σ req outcome
  | .delete name removed => N.deleteCapManifest σ name removed

def step (σ : CapState) (a : CapAction) : Option CapState := some (N.handle σ a).1

/-- The names served are those of the manifests that can be loaded. -/
def Refines (σ : CapState) : Prop :=
  ∀ name, σ.registry.Serves name ↔ ∃ e ∈ N.loadable σ.caps, e.name = name

/-- The registry has what the files on disk declare. -/
def Agrees (σ : CapState) : Prop :=
  ∀ name, σ.registry.get name = (N.declared σ.caps σ.lobes).get name

variable {N} {σ σ' : CapState}

theorem serves_declared {dir : ManifestDir} {lobes : List String} {name : String} :
    (N.declared dir lobes).Serves name ↔ ∃ e ∈ N.loadable dir, e.name = name := by
  rw [declared, CapabilityRegistry.serves_enforceInstanceLobes, CapabilityRegistry.serves_fromEntries]

theorem Agrees.refines (h : N.Agrees σ) : N.Refines σ := by
  intro name
  rw [CapabilityRegistry.Serves, h name]
  exact serves_declared

/-! ## One reload -/

/-- Something can be loaded, by a node that reloads. -/
def Loads (N : CapNode) (dir : ManifestDir) : Prop :=
  N.manifestDir.isSome ∧ N.backends.isSome ∧ N.loadable dir ≠ []

/-- The ways of a reload: it fails, or finds no file, and nothing changes; or else
    something can be loaded, and the registry has what is declared. -/
theorem reloadCaps_cases (N : CapNode) (σ : CapState) :
    (¬N.Loads σ.caps ∧ ∃ e, N.reloadCaps σ = (σ, .error e)) ∨
    (N.manifestDir.isSome ∧ N.backends.isSome ∧ σ.caps.listToml = [] ∧
      N.reloadCaps σ = (σ, .ok 0)) ∨
    (N.Loads σ.caps ∧ ∃ n,
      N.reloadCaps σ = ({ σ with registry := N.declared σ.caps σ.lobes }, .ok n)) := by
  rw [reloadCaps, Loads]
  cases N.manifestDir with
  | none => exact .inl ⟨fun h => absurd h.1 Bool.false_ne_true, _, rfl⟩
  | some dir =>
    cases N.backends with
    | none => exact .inl ⟨fun h => absurd h.2.1 Bool.false_ne_true, _, rfl⟩
    | some backends =>
      simp only [Option.isSome_some, true_and]
      split
      · next hload =>
        split
        · exact .inl ⟨fun h => h hload, _, rfl⟩
        · next hfiles =>
          refine .inr (.inl ⟨List.length_eq_zero_iff.1 ?_, rfl⟩)
          rw [loadCapDir, List.length_map] at hfiles
          exact Nat.eq_zero_of_not_pos hfiles
      · next hload => exact .inr (.inr ⟨hload, _, rfl⟩)

theorem loadable_of_listToml_eq_nil {dir : ManifestDir} (h : dir.listToml = []) :
    N.loadable dir = [] := by
  rw [loadable, loadCapDir, h]
  rfl

end CapNode

namespace ManifestDir

variable {dir : ManifestDir} {name text : String} {f : ManifestFile}

theorem mem_listToml : f ∈ dir.listToml ↔ f ∈ dir.files ∧ isToml f.name := by
  rw [listToml, (List.perm_insertionSort _ _).mem_iff, List.mem_filter]

/-- A file that was written is there. -/
theorem mem_write : ⟨name, text⟩ ∈ (dir.write name text).files := by
  rw [write]
  split
  · next h =>
    obtain ⟨f, hf, hname⟩ := List.mem_map.1 h
    exact List.mem_map.2 ⟨f, hf, if_pos hname⟩
  · exact List.mem_append_right _ List.mem_cons_self

/-- The list of the files is ordered, whatever the order of the directory. -/
theorem listToml_remove : (dir.remove name).listToml = dir.listToml.filter (·.name ≠ name) := by
  refine List.Perm.eq_of_pairwise (fun f g hf hg hle hge => ?_)
    (List.pairwise_insertionSort _ _) ((List.pairwise_insertionSort _ _).filter _) ?_
  · have hf := List.mem_of_mem_filter (mem_listToml.1 hf).1
    have hg := (mem_listToml.1 (List.mem_of_mem_filter hg)).1
    exact Rows.eq_of_key_eq dir.names_nodup hf hg (String.le_antisymm hle hge)
  · refine (List.perm_insertionSort _ _).trans ?_
    rw [remove, List.filter_comm]
    exact ((List.perm_insertionSort _ _).filter _).symm

/-- A file that is written, then removed, has left nothing. -/
theorem listToml_remove_write :
    ((dir.write name text).remove name).listToml = (dir.remove name).listToml := by
  suffices h : ((dir.write name text).remove name).files = (dir.remove name).files by
    rw [listToml, listToml, h]
  change (dir.write name text).files.filter (·.name ≠ name) = dir.files.filter (·.name ≠ name)
  rw [write]
  split
  · rw [List.filter_map]
    have hkeep : ((fun f : ManifestFile => decide (f.name ≠ name)) ∘
        fun f => if f.name = name then ⟨name, text⟩ else f) = fun f => decide (f.name ≠ name) := by
      funext f
      rw [Function.comp_apply]
      split <;> simp_all
    rw [hkeep]
    refine (List.map_congr_left fun f hf => if_neg ?_).trans (List.map_id _)
    exact of_decide_eq_true (List.mem_filter.1 hf).2
  · rw [List.filter_append, List.filter_singleton]
    simp

theorem listToml_write_ne_nil (h : isToml name) : (dir.write name text).listToml ≠ [] :=
  List.ne_nil_of_mem (mem_listToml.2 ⟨mem_write, h⟩)

end ManifestDir

theorem isToml_fileName {name : String} (h : name ≠ "") :
    ManifestDir.isToml (CapNode.fileName name) := by
  have hlength : name.length ≠ 0 := fun h0 => h (String.length_eq_zero_iff.1 h0)
  simp [ManifestDir.isToml, CapNode.fileName, hlength]

namespace CapNode

variable {N : CapNode} {σ : CapState} {a : CapAction}

theorem ne_empty_of_validCapName {name : String} (h : validCapName name) : name ≠ "" :=
  (of_decide_eq_true h).1

/-- A file is written under a valid name. -/
theorem validCapName_of_checkUpsert {req : UpsertCapRequest} {name text : String}
    (h : N.checkUpsert σ req = .ok (name, text)) : validCapName name := by
  obtain ⟨hvalid, h⟩ := Except.check_eq_ok.1 h
  obtain ⟨-, h⟩ := Except.check_eq_ok.1 h
  obtain ⟨-, h⟩ := Except.check_eq_ok.1 h
  obtain ⟨-, h⟩ := Except.check_eq_ok.1 h
  obtain ⟨-, h⟩ := Except.check_eq_ok.1 h
  obtain ⟨_, -, h⟩ := Except.bind_eq_ok.1 h
  obtain ⟨rfl, -⟩ := Prod.mk.inj (Except.ok.inj h)
  simpa using Except.reject_eq_ok.1 hvalid

/-- A successful edit makes the registry agree with the files. -/
theorem agrees_upsert {req : UpsertCapRequest} {outcome : WriteOutcome}
    (h : (N.upsertCapManifest σ req outcome).2.isOk) :
    N.Agrees (N.upsertCapManifest σ req outcome).1 := by
  cases hc : N.checkUpsert σ req with
  | error e =>
    simp only [upsertCapManifest, hc] at h
    cases h
  | ok target =>
    obtain ⟨name, text⟩ := target
    cases outcome with
    | noDirectory e =>
      simp only [upsertCapManifest, hc] at h
      cases h
    | failed e left =>
      simp only [upsertCapManifest, hc] at h
      cases h
    | written =>
      simp only [upsertCapManifest, hc] at h ⊢
      rcases N.reloadCaps_cases { σ with caps := σ.caps.write (fileName name) text } with
        ⟨-, e, hr⟩ | ⟨-, -, hnone, -⟩ | ⟨-, n, hr⟩
      · rw [hr] at h
        cases h
      · -- The file that was written is there.
        have hname := ne_empty_of_validCapName (validCapName_of_checkUpsert hc)
        exact absurd hnone (ManifestDir.listToml_write_ne_nil (isToml_fileName hname))
      · rw [hr]
        simp only
        split
        · exact fun _ => rfl
        · exact fun _ => rfl

/-- A delete that nothing prevents, of the last file of a manifest. -/
def Empties (N : CapNode) (σ : CapState) : CapAction → Prop
  | .upsert .. => False
  | .delete name removed => N.manifestDir.isSome ∧ N.backends.isSome ∧ validCapName name ∧
    σ.caps.has (fileName name) ∧ removed = .ok () ∧ (σ.caps.remove (fileName name)).listToml = []

/-- What a successful delete has passed. -/
theorem deleteCapManifest_ok {name : String} {removed : Except String Unit}
    (h : (N.deleteCapManifest σ name removed).2.isOk) :
    validCapName name ∧ σ.caps.has (fileName name) ∧ removed = .ok () ∧
      (N.reloadCaps { σ with caps := σ.caps.remove (fileName name) }).2.isOk ∧
      (N.deleteCapManifest σ name removed).1 =
        (N.reloadCaps { σ with caps := σ.caps.remove (fileName name) }).1 := by
  unfold deleteCapManifest at h ⊢
  split at h
  · cases h
  split at h
  · cases h
  next hvalid hhas =>
    rw [if_neg hvalid, if_neg hhas]
    cases removed with
    | error e => cases h
    | ok _ =>
      refine ⟨not_not.1 hvalid, not_not.1 hhas, rfl, ?_⟩
      cases hr : N.reloadCaps { σ with caps := σ.caps.remove (fileName name) } with
      | mk σ' result =>
        cases result with
        | error e =>
          simp only [hr] at h
          cases h
        | ok n => exact ⟨rfl, rfl⟩

/-- A successful delete makes the registry agree with the files, unless it was of
    the last one: then the registry stays as it is. -/
theorem delete_cases {name : String} {removed : Except String Unit}
    (h : (N.deleteCapManifest σ name removed).2.isOk) :
    ¬N.Empties σ (.delete name removed) ∧ N.Agrees (N.deleteCapManifest σ name removed).1 ∨
    N.Empties σ (.delete name removed) ∧ (N.deleteCapManifest σ name removed).1 =
      { σ with caps := σ.caps.remove (fileName name) } := by
  obtain ⟨hvalid, hhas, hremoved, hok, hstate⟩ := deleteCapManifest_ok h
  rw [hstate]
  rcases N.reloadCaps_cases { σ with caps := σ.caps.remove (fileName name) } with
    ⟨-, e, hr⟩ | ⟨hdir, hbackends, hnone, hr⟩ | ⟨⟨-, -, hload⟩, n, hr⟩
  · rw [hr] at hok
    cases hok
  · rw [hr]
    exact .inr ⟨⟨hdir, hbackends, hvalid, hhas, hremoved, hnone⟩, rfl⟩
  · rw [hr]
    refine .inl ⟨fun hempties => hload ?_, fun _ => rfl⟩
    exact loadable_of_listToml_eq_nil hempties.2.2.2.2.2

/-- Such a delete succeeds. -/
theorem isOk_of_empties (h : N.Empties σ a) : (N.handle σ a).2.isOk := by
  cases a with
  | upsert req outcome => exact h.elim
  | delete name removed =>
    obtain ⟨hdir, hbackends, hvalid, hhas, rfl, hnone⟩ := h
    obtain ⟨dir, hdir⟩ := Option.isSome_iff_exists.1 hdir
    obtain ⟨backends, hbackends⟩ := Option.isSome_iff_exists.1 hbackends
    have hload : N.loadable (σ.caps.remove (fileName name)) = [] := loadable_of_listToml_eq_nil hnone
    have hfiles : (N.loadCapDir (σ.caps.remove (fileName name))).length = 0 := by
      rw [loadCapDir, hnone]
      rfl
    have hr : N.reloadCaps { σ with caps := σ.caps.remove (fileName name) } =
        ({ σ with caps := σ.caps.remove (fileName name) }, .ok 0) := by
      simp only [reloadCaps, hdir, hbackends, hload, hfiles, if_true, lt_irrefl, if_false]
    rw [handle, deleteCapManifest, if_neg (not_not.2 hvalid), if_neg (not_not.2 hhas), hr]
    rfl

/-- After a successful edit, the registry agrees with the files, unless it still
    serves what was deleted last. -/
theorem agrees_handle (h : (N.handle σ a).2.isOk)
    (hcond : N.Empties σ a → σ.registry.entries = []) : N.Agrees (N.handle σ a).1 := by
  cases a with
  | upsert req outcome => exact agrees_upsert h
  | delete name removed =>
    rcases delete_cases h with ⟨-, hagrees⟩ | ⟨hempties, hstate⟩
    · exact hagrees
    · intro n
      have hload := loadable_of_listToml_eq_nil (N := N) hempties.2.2.2.2.2
      rw [handle, hstate, CapabilityRegistry.get, hcond hempties, declared, hload]
      rfl

theorem refines_handle_iff (h : (N.handle σ a).2.isOk) :
    N.Refines (N.handle σ a).1 ↔ (N.Empties σ a → σ.registry.entries = []) := by
  cases a with
  | upsert req outcome => exact iff_of_true (agrees_upsert h).refines False.elim
  | delete name removed =>
    rcases delete_cases h with ⟨hempties, hagrees⟩ | ⟨hempties, hstate⟩
    · exact iff_of_true hagrees.refines fun he => absurd he hempties
    · rw [imp_iff_right hempties, handle, hstate]
      -- Nothing can be loaded any more, so that nothing should be served.
      have hload := loadable_of_listToml_eq_nil (N := N) hempties.2.2.2.2.2
      simp only [Refines, hload]
      constructor
      · intro hrefines
        refine List.eq_nil_iff_forall_not_mem.2 fun e he => ?_
        have hget := CapabilityRegistry.get_eq_some.2 ⟨he, rfl⟩
        obtain ⟨_, hmem, -⟩ := (hrefines e.name).1 (Option.isSome_of_eq_some hget)
        exact List.not_mem_nil hmem
      · intro hentries name
        simp [CapabilityRegistry.Serves, CapabilityRegistry.get, hentries]

end CapNode

namespace CapNode

variable {N : CapNode} {σ : CapState}

/-- The entry of a file, if it can be loaded. -/
def entryOf (N : CapNode) (f : ManifestFile) : Option RegistryEntry :=
  loadEntry (N.backends.getD ∅) (N.reader.parseCapFile (N.capsDir ++ "/" ++ f.name) f.text)

theorem loadable_eq {dir : ManifestDir} : N.loadable dir = dir.listToml.filterMap N.entryOf :=
  List.filterMap_map

/-- A file that cannot be loaded might as well not be there. -/
theorem loadable_write_of_none {dir : ManifestDir} {name text : String}
    (h : N.entryOf ⟨name, text⟩ = none) :
    N.loadable (dir.write name text) = N.loadable (dir.remove name) := by
  rw [loadable_eq, loadable_eq, ← @ManifestDir.listToml_remove_write _ _ text,
    ManifestDir.listToml_remove, List.filterMap_filter]
  refine List.filterMap_congr fun f hf => ?_
  split
  · rfl
  · next hname =>
    -- It is the file that was written.
    have hname : f.name = name := by simpa using hname
    rw [Rows.eq_of_key_eq (dir.write name text).names_nodup (ManifestDir.mem_listToml.1 hf).1
      ManifestDir.mem_write hname, h]

/-- The entry of a file has the name that its text declares. -/
theorem name_of_entryOf {f : ManifestFile} {e : RegistryEntry} (h : N.entryOf f = some e) :
    ∃ file, N.reader.capFile f.text = .ok file ∧ e.name = file.descriptor.name := by
  rw [entryOf] at h
  cases hp : N.reader.parseCapFile (N.capsDir ++ "/" ++ f.name) f.text with
  | error err =>
    rw [hp] at h
    cases h
  | ok cap =>
    rw [hp] at h
    obtain ⟨backend, -, h⟩ := Option.bind_eq_some_iff.1 h
    obtain ⟨binding, -, h⟩ := Option.bind_eq_some_iff.1 h
    obtain ⟨file, hfile, hp⟩ := Except.bind_eq_ok.1 hp
    obtain ⟨-, hp⟩ := Except.check_eq_ok.1 hp
    obtain ⟨-, hp⟩ := Except.check_eq_ok.1 hp
    obtain ⟨_, -, hp⟩ := Except.bind_eq_ok.1 hp
    refine ⟨file, Except.mapError_eq_ok.1 hfile, ?_⟩
    rw [← Option.some.inj h, ← Except.ok.inj hp]
    rfl

/-- The edit replaces the registry: its file is written, and something can be
    loaded then. -/
def Swaps (N : CapNode) (σ : CapState) (req : UpsertCapRequest) (outcome : WriteOutcome)
    (name : String) : Prop :=
  ∃ text, N.checkUpsert σ req = .ok (name, text) ∧ outcome = .written ∧
    N.Loads (σ.caps.write (fileName name) text)

/-- The text that is written for the request, if it can be read, declares the name
    that was asked for. -/
def Names (N : CapNode) (σ : CapState) (req : UpsertCapRequest) : Prop :=
  ∀ name text file, N.checkUpsert σ req = .ok (name, text) → N.reader.capFile text = .ok file →
    file.descriptor.name = name

/-- The registry after an edit that fails: it is as it was, unless it was replaced
    by what the files declare without the one that was edited. -/
theorem registry_of_failed {req : UpsertCapRequest} {outcome : WriteOutcome}
    (hnames : N.Names σ req) (h : ¬(N.upsertCapManifest σ req outcome).2.isOk) :
    (∀ name, N.Swaps σ req outcome name → (N.upsertCapManifest σ req outcome).1.registry =
      N.declared (σ.caps.remove (fileName name)) σ.lobes) ∧
    ((∀ name, ¬N.Swaps σ req outcome name) →
      (N.upsertCapManifest σ req outcome).1.registry = σ.registry) := by
  cases hc : N.checkUpsert σ req with
  | error e =>
    refine ⟨fun name ⟨_, hc', _⟩ => absurd (hc.symm.trans hc') (by simp), fun _ => ?_⟩
    simp only [upsertCapManifest, hc]
  | ok target =>
    obtain ⟨edited, text⟩ := target
    cases outcome with
    | noDirectory e =>
      refine ⟨fun name hs => ?_, fun _ => ?_⟩
      · obtain ⟨_, -, hwritten, -⟩ := hs
        cases hwritten
      · simp only [upsertCapManifest, hc]
    | failed e left =>
      refine ⟨fun name hs => ?_, fun _ => ?_⟩
      · obtain ⟨_, -, hwritten, -⟩ := hs
        cases hwritten
      · simp only [upsertCapManifest, hc]
    | written =>
      have hswaps (name : String) : N.Swaps σ req .written name ↔
          name = edited ∧ N.Loads (σ.caps.write (fileName edited) text) := by
        rw [Swaps, hc]
        simp only [Except.ok.injEq, Prod.mk.injEq, true_and]
        exact ⟨fun ⟨_, ⟨h, h'⟩, hl⟩ => ⟨h.symm, h ▸ h' ▸ hl⟩,
          fun ⟨h, hl⟩ => ⟨text, ⟨h.symm, rfl⟩, h ▸ hl⟩⟩
      simp only [hswaps, upsertCapManifest, hc] at h ⊢
      rcases N.reloadCaps_cases { σ with caps := σ.caps.write (fileName edited) text } with
        ⟨hload, e, hr⟩ | ⟨-, -, hnone, -⟩ | ⟨hload, n, hr⟩
      · rw [hr]
        exact ⟨fun name hs => absurd hs.2 hload, fun _ => rfl⟩
      · have hname := ne_empty_of_validCapName (validCapName_of_checkUpsert hc)
        exact absurd hnone (ManifestDir.listToml_write_ne_nil (isToml_fileName hname))
      · rw [hr] at h ⊢
        refine ⟨fun name hs => ?_, fun hs => absurd ⟨rfl, hload⟩ (hs edited)⟩
        obtain ⟨rfl, -⟩ := hs
        -- The file that was written is not loaded, for then its name would be registered.
        have hentry : N.entryOf ⟨fileName name, text⟩ = none := by
          refine Option.eq_none_iff_forall_ne_some.2 fun e he => h ?_
          obtain ⟨file, hfile, hfilename⟩ := name_of_entryOf he
          have hserved : (N.declared (σ.caps.write (fileName name) text) σ.lobes).Serves name := by
            refine serves_declared.2 ⟨e, ?_, hfilename.trans (hnames name text file hc hfile)⟩
            rw [loadable_eq]
            refine List.mem_filterMap.2
              ⟨_, ManifestDir.mem_listToml.2 ⟨ManifestDir.mem_write, ?_⟩, he⟩
            exact isToml_fileName (ne_empty_of_validCapName (validCapName_of_checkUpsert hc))
          simp only
          rw [if_neg]
          · rfl
          · rw [Option.isNone_iff_eq_none]
            exact Option.isSome_iff_ne_none.1 hserved
        have hdeclared : N.declared (σ.caps.write (fileName name) text) σ.lobes =
            N.declared (σ.caps.remove (fileName name)) σ.lobes := by
          rw [declared, loadable_write_of_none hentry, declared]
        simp only
        split
        · exact hdeclared
        · exact hdeclared

end CapNode

/-- An edit whose file is written, but cannot be loaded, when the other files can
    be, without declaring the same name. -/
theorem upsertCapManifest_unloadable {N : CapNode} {σ : CapState} {req : UpsertCapRequest}
    {name text : String} (hc : N.checkUpsert σ req = .ok (name, text))
    (hentry : N.entryOf ⟨CapNode.fileName name, text⟩ = none)
    (hload : N.Loads (σ.caps.remove (CapNode.fileName name)))
    (hname : ¬(N.declared (σ.caps.remove (CapNode.fileName name)) σ.lobes).Serves name) :
    (N.upsertCapManifest σ req .written).1.registry =
      N.declared (σ.caps.remove (CapNode.fileName name)) σ.lobes ∧
    ¬(N.upsertCapManifest σ req .written).2.isOk := by
  have hdeclared : N.declared (σ.caps.write (CapNode.fileName name) text) σ.lobes =
      N.declared (σ.caps.remove (CapNode.fileName name)) σ.lobes := by
    rw [CapNode.declared, CapNode.loadable_write_of_none hentry, CapNode.declared]
  obtain ⟨hdir, hbackends, hload⟩ := hload
  rw [← CapNode.loadable_write_of_none hentry] at hload
  have hnone : (N.declared (σ.caps.remove (CapNode.fileName name)) σ.lobes).get name = none :=
    Option.not_isSome_iff_eq_none.1 hname
  rcases N.reloadCaps_cases { σ with caps := σ.caps.write (CapNode.fileName name) text } with
    ⟨hfails, -⟩ | ⟨-, -, hnofile, -⟩ | ⟨-, n, hr⟩
  · exact absurd ⟨hdir, hbackends, hload⟩ hfails
  · exact absurd (CapNode.loadable_of_listToml_eq_nil hnofile) hload
  · simp only [CapNode.upsertCapManifest, hc, hr, hdeclared, hnone, Option.isNone_none, if_true]
    exact ⟨trivial, Bool.false_ne_true⟩

/-- An edit whose file is written, when nothing can be loaded then. -/
theorem not_isOk_of_not_loads {N : CapNode} {σ : CapState} {req : UpsertCapRequest}
    {name text : String} (hc : N.checkUpsert σ req = .ok (name, text))
    (hload : ¬N.Loads (σ.caps.write (CapNode.fileName name) text)) :
    ¬(N.upsertCapManifest σ req .written).2.isOk := by
  rcases N.reloadCaps_cases { σ with caps := σ.caps.write (CapNode.fileName name) text } with
    ⟨-, e, hr⟩ | ⟨-, -, hnofile, -⟩ | ⟨hloads, -⟩
  · simp only [CapNode.upsertCapManifest, hc, hr]
    exact Bool.false_ne_true
  · have hname := CapNode.ne_empty_of_validCapName (CapNode.validCapName_of_checkUpsert hc)
    exact absurd hnofile (ManifestDir.listToml_write_ne_nil (isToml_fileName hname))
  · exact absurd hloads hload

/-! ## Two capabilities -/

/-- A request for a capability with this description, of a backend `b`. -/
def toyRequest (name description : String) : UpsertCapRequest where
  name := name
  version := "0.1.0"
  description := description
  mode := "free"
  languages := []
  countries := []
  tags := []
  lobeIds := []
  disambiguation := none
  outputSemantic := none
  schemaIn := .object []
  schemaOut := .object []
  examples := [⟨"i", .object [], .object []⟩]
  binding := .mcp "b" "tool" [] []

/-- The sections of its file. -/
def toyFile (name : String) : CapFile where
  manifestVersion := "0.1"
  descriptor := {
    name := name
    schemaIn := .object []
    schemaOut := .object []
    description := "d"
    mode := .free
    pricing := none
    tags := []
    lobeIds := []
    examples := [⟨"i", .object [], .object []⟩]
    disambiguation := none
    negativeExamples := []
    outputSemantic := none
    version := "0.1.0"
    languages := []
    countries := [] }
  binding := ⟨"mcp", "b", none, some ⟨"tool", ∅, ∅⟩, none⟩

/-- The text of its file. -/
def toyText (name : String) : String :=
  String.ofList ((buildCapToml name (toyRequest name "d")).toOption.getD [])

/-- It reads the files of two capabilities. -/
def toyReader : ManifestReader where
  capFile text :=
    if text = toyText "greet" then .ok (toyFile "greet")
    else if text = toyText "part" then .ok (toyFile "part")
    else .error "invalid"
  parseSemver _ := .ok ()
  compileSchema _ := .ok ()

def toyCapNode : CapNode where
  reader := toyReader
  configDir := "config"
  manifestDir := some "config"
  backends := some ((∅ : Table String BackendInstance).insert "b" (.mcp ⟨.stdio, "cmd", [], ∅⟩))

/-- These capabilities are declared, and served. -/
def serving (names : List String) : CapState :=
  let caps := names.foldl (fun dir name => dir.write (name ++ ".toml") (toyText name)) .empty
  ⟨caps, [], toyCapNode.declared caps []⟩

def toyEntry (name : String) : RegistryEntry :=
  ⟨(toyFile name).descriptor, some ⟨.mcp "b" "tool" ∅ ∅, .mcp ⟨.stdio, "cmd", [], ∅⟩⟩⟩

theorem toyText_ne : toyText "part" ≠ toyText "greet" := fun h =>
  absurd (String.ofList_injective h) (by decide)

theorem parse_toyFile {path name : String} (hname : name = "greet" ∨ name = "part")
    (hread : toyReader.capFile (toyText name) = .ok (toyFile name)) :
    toyReader.parseCapFile path (toyText name) =
      .ok ⟨(toyFile name).descriptor, .mcp "b" "tool" ∅ ∅⟩ := by
  rw [ManifestReader.parseCapFile, hread]
  rcases hname with rfl | rfl
  · rfl
  · rfl

theorem entryOf_toyText {file name : String} (hname : name = "greet" ∨ name = "part")
    (hread : toyReader.capFile (toyText name) = .ok (toyFile name)) :
    toyCapNode.entryOf ⟨file, toyText name⟩ = some (toyEntry name) := by
  rw [CapNode.entryOf]
  refine (congrArg (CapNode.loadEntry _) (parse_toyFile hname hread)).trans ?_
  rcases hname with rfl | rfl
  · rfl
  · rfl

theorem entryOf_greet {file : String} :
    toyCapNode.entryOf ⟨file, toyText "greet"⟩ = some (toyEntry "greet") :=
  entryOf_toyText (.inl rfl) (by simp only [toyReader, if_true])

theorem entryOf_part {file : String} :
    toyCapNode.entryOf ⟨file, toyText "part"⟩ = some (toyEntry "part") :=
  entryOf_toyText (.inr rfl) (by simp only [toyReader, toyText_ne, if_false, if_true])

theorem isToml_greet : ManifestDir.isToml "greet.toml" := by decide

theorem isToml_part : ManifestDir.isToml "part.toml" := by decide

theorem loadable_greet : toyCapNode.loadable (serving ["greet"]).caps = [toyEntry "greet"] := by
  have hlist : (serving ["greet"]).caps.listToml = [⟨"greet.toml", toyText "greet"⟩] := by
    simp [serving, ManifestDir.listToml, ManifestDir.write, ManifestDir.empty, isToml_greet]
  rw [CapNode.loadable_eq, hlist, List.filterMap_cons, List.filterMap_nil, entryOf_greet]

theorem entries_greet : (serving ["greet"]).registry.entries = [toyEntry "greet"] := by
  change (toyCapNode.declared (serving ["greet"]).caps []).entries = [toyEntry "greet"]
  rw [CapNode.declared, loadable_greet]
  decide

/-- An edit whose text cannot be read: its description is a control character. -/
def badRequest : UpsertCapRequest := toyRequest "greet" (String.singleton (Char.ofNat 1))

/-- The text that is written for it. -/
def badText : String := String.ofList ((buildCapToml "greet" badRequest).toOption.getD [])

theorem badText_ne {name : String} (hname : name = "greet" ∨ name = "part") :
    badText ≠ toyText name := fun h => by
  rcases hname with rfl | rfl
  · exact absurd (String.ofList_injective h) (by decide)
  · exact absurd (String.ofList_injective h) (by decide)

theorem capFile_badText : toyReader.capFile badText = .error "invalid" := by
  simp only [toyReader, badText_ne (.inl rfl), badText_ne (.inr rfl), if_false]

theorem checkUpsert_badRequest (names : List String) :
    toyCapNode.checkUpsert (serving names) badRequest = .ok ("greet", badText) := by
  rfl

theorem names_badRequest (names : List String) : toyCapNode.Names (serving names) badRequest := by
  intro name text file hc hfile
  obtain ⟨-, rfl⟩ := Prod.mk.inj (Except.ok.inj ((checkUpsert_badRequest names).symm.trans hc))
  cases capFile_badText.symm.trans hfile

theorem entryOf_badText {file : String} : toyCapNode.entryOf ⟨file, badText⟩ = none := by
  rw [CapNode.entryOf, ManifestReader.parseCapFile, show toyCapNode.reader.capFile badText = _
    from capFile_badText]
  rfl

end N3ur0n
