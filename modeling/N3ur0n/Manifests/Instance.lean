import N3ur0n.Lib.Threads
import N3ur0n.Manifests.Backends
import N3ur0n.Message

/-!
# The settings of the instance

The alias and the lobes of the instance are live in two cells, and kept in one file,
`instance.toml`. A request that changes one of them reads the file, writes it anew with
the other one as it was read, and replaces the live value. Writing the file empties it
first, and then puts the text at its start, whatever another request has written since.
The steps of other requests come in between.

* `settings_kept`: as long as every request writes back the other setting as the file
  has it, no write fails or leaves the end of a longer text, and a live value is replaced
  as the file was, the file has the settings that were put last, and so do the cells;
* `lobes_lost`: otherwise, a change of lobes may be undone by a change of the alias.
-/

namespace N3ur0n

open Cut

/-! ## What is accepted -/

/-- Longest accepted instance alias. -/
def aliasMaxLen : ℕ := 32

def isAliasChar (c : Char) : Bool := c.isAlphanum || c = '-' || c = '_' || c = '.'

def validateAlias (name : String) : Except CoreError Unit := do
  let n := name.toList.length
  Except.reject (n = 0) (.invalidIdentifier "alias is empty")
  Except.reject (aliasMaxLen < n)
    (.invalidIdentifier s!"alias is longer than {aliasMaxLen} characters")
  Except.reject (idPrefix.toList.isPrefixOf name.toList) (.invalidIdentifier
    s!"alias must not start with `{idPrefix}`: an alias is a label, not an id")
  (name.toList.find? fun c => !isAliasChar c).elim (.ok ()) fun c => .error (.invalidIdentifier
    s!"alias contains `{c}`; allowed: letters, digits, `-`, `_`, `.`")

/-- Maximum number of lobes a single instance may declare. -/
def maxLobesPerInstance : ℕ := 5

def lobeIdMinLen : ℕ := 2

def lobeIdMaxLen : ℕ := 64

def isLobeEdge (c : Char) : Bool := c.isLower || c.isDigit

def isLobeChar (c : Char) : Bool := isLobeEdge c || c = '-' || c = '.'

def validateLobeId (id : String) : Except CoreError Unit := do
  let n := id.toList.length
  Except.reject (n < lobeIdMinLen)
    (.invalidIdentifier s!"lobe id `{id}` is shorter than {lobeIdMinLen} characters")
  Except.reject (lobeIdMaxLen < n)
    (.invalidIdentifier s!"lobe id is longer than {lobeIdMaxLen} characters")
  (id.toList.find? fun c => !isLobeChar c).elim (.ok ()) fun c => .error (.invalidIdentifier
    s!"lobe id `{id}` contains `{c}`; allowed: a-z, 0-9, `-`, `.`")
  Except.reject (¬(isLobeEdge (id.toList.head?.getD (Char.ofNat 0)) ∧
      isLobeEdge (id.toList.getLast?.getD (Char.ofNat 0))))
    (.invalidIdentifier s!"lobe id `{id}` must start and end with a letter or a digit")

/-- The ids that follow those already seen. -/
def validateLobeIds : List String → List String → Except CoreError Unit
  | _, [] => .ok ()
  | seen, id :: ids => do
    validateLobeId id
    Except.reject (id ∈ seen) (.invalidIdentifier s!"lobe id `{id}` is declared twice")
    validateLobeIds (id :: seen) ids

def validateInstanceLobes (ids : List String) : Except CoreError Unit := do
  Except.reject (maxLobesPerInstance < ids.length) (.invalidIdentifier
    s!"an instance may declare at most {maxLobesPerInstance} lobes, got {ids.length}")
  validateLobeIds [] ids

/-! ## The file -/

/-- The `[instance]` table of `instance.toml`. -/
structure InstanceUserConfig where
  alias? : Option String
  lobeIds : List String
  deriving DecidableEq

namespace InstanceUserConfig

/-- The one with nothing. -/
def empty : InstanceUserConfig := ⟨none, []⟩

def ofToml (t : Toml) : Except String InstanceUserConfig := do
  let file ← Document.table t
  let config ← Document.required "instance" Document.table file
  let alias? ← Document.optional "alias" Document.string config
  let lobeIds ← Document.withDefault "lobe_ids" (Document.array Document.string) [] config
  .ok ⟨alias?, lobeIds⟩

/-- What is written, as a document. -/
def document (cfg : InstanceUserConfig) : Toml :=
  .table [("instance", .table (((cfg.alias?.map fun a => ("alias", .string a)).toList) ++
    [("lobe_ids", .array (cfg.lobeIds.map .string))]))]

theorem ofToml_document {cfg : InstanceUserConfig} : ofToml cfg.document = .ok cfg := by
  obtain ⟨alias?, lobeIds⟩ := cfg
  have hlobes : (lobeIds.map Toml.string).mapM Document.string = .ok lobeIds := by
    induction lobeIds with
    | nil => rfl
    | cons id ids ih =>
      rw [List.map_cons, List.mapM_cons, ih]
      rfl
  have harray : Document.array Document.string (.array (lobeIds.map .string)) = .ok lobeIds :=
    hlobes
  rcases alias? with _ | a
  · simp [ofToml, document, Document.table, Document.required, Document.optional,
      Document.withDefault, harray, List.lookup_cons, bind, Except.bind, Except.map]
  · simp [ofToml, document, Document.table, Document.required, Document.optional,
      Document.withDefault, Document.string, harray, List.lookup_cons, bind, Except.bind, Except.map]

/-- A file we would refuse to load is never written. -/
def validate (cfg : InstanceUserConfig) : Except String Unit := do
  (validateInstanceLobes cfg.lobeIds).mapError fun _ => "invalid lobe set"
  (cfg.alias?.elim (.ok ()) validateAlias).mapError fun _ => "invalid alias"

end InstanceUserConfig

/-- What the file takes from libraries: the parser of TOML, and the text of a document. -/
structure InstanceFile where
  parser : TomlParser
  write : InstanceUserConfig → String
  configDir : String

namespace InstanceFile

variable (F : InstanceFile)

/-- A file that is missing or malformed has nothing. -/
def loadInstanceUserConfig (file : Option String) : Option InstanceUserConfig :=
  file.bind fun text => ((F.parser.parse text).bind InstanceUserConfig.ofToml).toOption

/-- The settings in the file. -/
def held (file : Option String) : InstanceUserConfig :=
  (F.loadInstanceUserConfig file).getD .empty

end InstanceFile

/-! ## The settings at startup -/

/-- Parse a CSV / whitespace-separated lobe list. -/
def parseLobeList (raw : String) : List String :=
  (((raw.toList.splitOnP fun c => c = ',' || isWhitespace c).map (trim isWhitespace)).filter
    (· ≠ [])).map String.ofList

/-- Invalid ids and repetitions are dropped, and what is too much. -/
def keepLobes : List String → List String → List String
  | kept, [] => kept
  | kept, id :: raw =>
    match validateLobeId id with
    | .error _ => keepLobes kept raw
    | .ok () =>
      if id ∈ kept then keepLobes kept raw
      else if kept.length = maxLobesPerInstance then kept
      else keepLobes (kept ++ [id]) raw

/-- What a node is started with: its command line, its environment, and the file. -/
structure Startup where
  cliLobes : List String
  envLobes : Option String
  cliAlias : Option String
  envAlias : Option String
  file : Option String

namespace Startup

variable (s : Startup) (F : InstanceFile)

def resolveStartupLobes : List String :=
  let env := (s.envLobes.map parseLobeList).getD []
  keepLobes [] (if s.cliLobes ≠ [] then s.cliLobes
    else if env ≠ [] then env else (F.held s.file).lobeIds)

def resolveStartupAlias : Option String :=
  ((s.cliAlias.or s.envAlias).or (F.held s.file).alias?).bind fun raw =>
    let raw := String.ofList (trim isWhitespace raw.toList)
    match validateAlias raw with
    | .ok () => some raw
    | .error _ => none

/-- The live settings. -/
def live : InstanceUserConfig := ⟨s.resolveStartupAlias F, s.resolveStartupLobes F⟩

end Startup

/-! ## The requests -/

inductive SettingKind
  | alias
  | lobes
  deriving DecidableEq

/-- A setting, with its value. -/
inductive Setting
  | alias (alias? : Option String)
  | lobes (lobeIds : List String)
  deriving DecidableEq

def Setting.kind : Setting → SettingKind
  | .alias _ => .alias
  | .lobes _ => .lobes

namespace InstanceUserConfig

/-- The setting of this kind. -/
def get (cfg : InstanceUserConfig) : SettingKind → Setting
  | .alias => .alias cfg.alias?
  | .lobes => .lobes cfg.lobeIds

/-- The other setting stays as it is. -/
def set (cfg : InstanceUserConfig) : Setting → InstanceUserConfig
  | .alias alias? => { cfg with alias? }
  | .lobes lobeIds => { cfg with lobeIds }

end InstanceUserConfig

/-- `put_alias` and `put_lobes`, with their bodies. -/
inductive PutRequest
  | alias (alias? : Option String)
  | lobes (lobeIds : List String)

/-- The setting that a request asks for, if it is accepted. -/
def PutRequest.setting : PutRequest → Except CoreError Setting
  | .alias alias? =>
    let alias? := (alias?.map fun a => String.ofList (trim isWhitespace a.toList)).filter (· ≠ "")
    ((alias?.elim (.ok ()) validateAlias)).map fun () => .alias alias?
  | .lobes lobeIds =>
    let lobeIds := (lobeIds.map fun l => String.ofList (trim isWhitespace l.toList)).filter (· ≠ "")
    (validateInstanceLobes lobeIds).map fun () => .lobes lobeIds

/-- The content of a file with a text put at its start: `fs::write` after it has opened
    the file. What is written is ASCII, so that an offset is that of a character. -/
def overwritten (text : List Char) (file : Option String) : String :=
  String.ofList (text ++ (file.getD "").toList.drop text.length)

/-- Nothing remains of a content that is not longer. -/
theorem overwritten_of_le {text : List Char} {file : Option String}
    (h : (file.getD "").toList.length ≤ text.length) :
    overwritten text file = String.ofList text := by
  rw [overwritten, List.drop_eq_nil_of_le h, List.append_nil]

example : overwritten "ab".toList (some "wxyz") = "abyz" := by decide

/-- The file and the cells. What the file had last, in full, and the settings that have
    been put, one after the other, are not read again. -/
structure SettingCells where
  file : Option String
  live : InstanceUserConfig
  kept : InstanceUserConfig
  puts : List Setting

/-- The next step of a request: `seen` is what it has read in the file. -/
inductive PutAccess
  | validate (q : PutRequest)
  | load (s : Setting)
  | create (s : Setting) (seen : InstanceUserConfig)
  | write (s : Setting) (seen : InstanceUserConfig)
  | swap (s : Setting)
  | answer (s : Setting)

/-- What the system answers: a directory, or a file, cannot be opened, only a part of a
    text is written; and what the reload of the capabilities makes. -/
inductive DiskEvent
  | done
  | noDir
  | failed (written : ℕ)
  | reloaded (caps : Option ℕ)

/-- An error comes with its status. -/
inductive PutReply
  | error (status : ℕ) (message : String)
  | aliasSet (alias? : Option String)
  | lobesSet (lobeIds : List String) (capsReloaded : Option ℕ)

namespace InstanceFile

variable (F : InstanceFile)

/-- `put_alias` and `put_lobes`. A change of lobes goes on with that of the registry
    (`CapNode`), and a reload. -/
def access (σ : SettingCells) :
    PutAccess → DiskEvent → Option (SettingCells × (PutAccess ⊕ PutReply))
  | .validate q, .done =>
    match q.setting with
    | .error e => some (σ, .inr (.error 400 e.text))
    | .ok s => some (σ, .inl (.load s))
  | .load s, .done => some (σ, .inl (.create s (F.held σ.file)))
  | .load s, .failed _ => some (σ, .inl (.create s .empty))
  | .create s seen, e =>
    match (seen.set s).validate, e with
    | .error message, _ => some (σ, .inr (.error 500 message))
    | .ok (), .done => some ({ σ with file := some "" }, .inl (.write s seen))
    | .ok (), .noDir => some (σ, .inr (.error 500 s!"creating config dir {F.configDir}"))
    | .ok (), .failed _ => some (σ, .inr (.error 500 s!"writing {F.configDir}/instance.toml"))
    | .ok (), .reloaded _ => none
  | .write s seen, .done =>
    some ({ σ with
      file := some (overwritten (F.write (seen.set s)).toList σ.file)
      kept := seen.set s }, .inl (.swap s))
  | .write s seen, .failed written =>
    some ({ σ with
      file := some (overwritten ((F.write (seen.set s)).toList.take written) σ.file) },
      .inr (.error 500 s!"writing {F.configDir}/instance.toml"))
  | .swap s, .done =>
    some ({ σ with live := σ.live.set s, puts := σ.puts ++ [s] }, .inl (.answer s))
  | .answer (.alias _), .done => some (σ, .inr (.aliasSet σ.live.alias?))
  | .answer (.lobes _), .reloaded caps => some (σ, .inr (.lobesSet σ.live.lobeIds caps))
  | _, _ => none

/-- The requests as threads. None of them can be given up midway. -/
def settingsProgram : Program SettingCells PutRequest PutAccess DiskEvent PutReply Empty where
  enter := .validate
  step σ _ l e := F.access σ l e
  abort _ _ _ := none
  env _ v := nomatch v

/-- The node as it starts. -/
def startedWith (s : Startup) : Pool SettingCells PutAccess :=
  .idle ⟨s.file, s.live F, F.held s.file, []⟩

end InstanceFile

/-! ## What comes in between -/

namespace InstanceUserConfig

variable {cfg : InstanceUserConfig} {s : Setting} {kind : SettingKind}

theorem get_set : (cfg.set s).get kind = if kind = s.kind then s else cfg.get kind := by
  rcases s with alias? | lobeIds
  · rcases kind <;> rfl
  · rcases kind <;> rfl

end InstanceUserConfig

/-- The last of the settings of a kind. -/
def lastPut (puts : List Setting) (kind : SettingKind) : Option Setting :=
  (puts.filter fun s => s.kind = kind).getLast?

theorem lastPut_snoc {puts : List Setting} {s : Setting} {kind : SettingKind} :
    lastPut (puts ++ [s]) kind = if kind = s.kind then some s else lastPut puts kind := by
  rw [lastPut, List.filter_append]
  split_ifs with h
  · rw [List.filter_singleton, decide_eq_true h.symm]
    exact List.getLast?_concat
  · rw [List.filter_singleton, decide_eq_false fun hs => h hs.symm]
    exact congrArg List.getLast? (List.append_nil _)

/-- The settings are those that were put last, and for the rest as they were. -/
def LastPut (start : InstanceUserConfig) (puts : List Setting) (cfg : InstanceUserConfig) : Prop :=
  ∀ kind, cfg.get kind = (lastPut puts kind).getD (start.get kind)

theorem LastPut.set {start cfg : InstanceUserConfig} {puts : List Setting} {s : Setting}
    (h : LastPut start puts cfg) : LastPut start (puts ++ [s]) (cfg.set s) := by
  intro kind
  rw [InstanceUserConfig.get_set, lastPut_snoc]
  split_ifs
  · rfl
  · exact h kind

/-- What the library writes is parsed as the document. -/
def InstanceFile.Faithful (F : InstanceFile) : Prop :=
  ∀ cfg : InstanceUserConfig, cfg.validate = .ok () →
    F.parser.parse (F.write cfg) = .ok cfg.document

theorem InstanceFile.held_write {F : InstanceFile} (hF : F.Faithful) {cfg : InstanceUserConfig}
    (hvalid : cfg.validate = .ok ()) : F.held (some (F.write cfg)) = cfg := by
  simp [held, loadInstanceUserConfig, hF cfg hvalid, Except.bind,
    InstanceUserConfig.ofToml_document, Except.toOption]

variable (F : InstanceFile) (t : Pool SettingCells PutAccess)

/-- Another request than `k` has emptied the file, and will write it. -/
def Writing (k : ℕ) : Prop := ∃ k' s seen, k' ≠ k ∧ t.threads.lookup k' = some (.write s seen)

/-- Another request than `k` has written this setting, and will make it live. -/
def Swapping (k : ℕ) (s : Setting) : Prop := ∃ k', k' ≠ k ∧ t.threads.lookup k' = some (.swap s)

/-- Nothing has come in between that makes what the thread does wrong:
    * a request writes the other setting as the file has it;
    * no longer text was written since the file was emptied, or another write follows;
    * a write that fails leaves the file as it was, or another one follows;
    * a setting is made live when the file has it, or another one follows. -/
def PutsApart : Pool.Action PutRequest DiskEvent Empty → Prop
  | .act k e => ∀ l, t.threads.lookup k = some l →
    match l, e with
    | .write s seen, .done =>
      (∀ kind, kind ≠ s.kind → seen.get kind = t.shared.kept.get kind) ∧
        ((t.shared.file.getD "").toList.length ≤ (F.write (seen.set s)).toList.length ∨
          Writing t k)
    | .write s seen, .failed written =>
      F.held (some (overwritten ((F.write (seen.set s)).toList.take written) t.shared.file)) =
        t.shared.kept ∨ Writing t k
    | .swap s, _ => t.shared.kept.get s.kind = s ∨ Swapping t k (t.shared.kept.get s.kind)
    | _, _ => True
  | _ => True

/-- What holds as long as nothing comes in between. -/
structure SettingsOk (s : Startup) : Prop where
  live : LastPut (s.live F) t.shared.puts t.shared.live
  kept : ∀ kind, t.shared.kept.get kind =
      (lastPut t.shared.puts kind).getD ((F.held s.file).get kind) ∨
    t.At (.swap (t.shared.kept.get kind))
  file : F.held t.shared.file = t.shared.kept ∨ ∃ s seen, t.At (.write s seen)
  valid : ∀ s seen, t.At (.write s seen) → (seen.set s).validate = .ok ()

section

variable {F t} {σ σ' : SettingCells} {l : PutAccess} {e : DiskEvent} {o : PutAccess ⊕ PutReply}

/-- What a step does. -/
theorem access_cases (h : F.access σ l e = some (σ', o)) :
    (σ' = σ ∧ (∀ s, l ≠ .swap s) ∧ (∀ s seen, l ≠ .write s seen) ∧
        ∀ s seen, o ≠ .inl (.write s seen)) ∨
      (∃ s seen, l = .create s seen ∧ (seen.set s).validate = .ok () ∧
        σ' = { σ with file := some "" } ∧ o = .inl (.write s seen)) ∨
      (∃ s seen, l = .write s seen ∧ e = .done ∧
        σ' = { σ with
          file := some (overwritten (F.write (seen.set s)).toList σ.file)
          kept := seen.set s } ∧
        o = .inl (.swap s)) ∨
      (∃ s seen written, l = .write s seen ∧ e = .failed written ∧
        σ' = { σ with
          file := some (overwritten ((F.write (seen.set s)).toList.take written) σ.file) } ∧
        ∃ reply, o = .inr reply) ∨
      ∃ s, l = .swap s ∧ σ' = { σ with live := σ.live.set s, puts := σ.puts ++ [s] } ∧
        o = .inl (.answer s) := by
  rcases l with q | s | ⟨s, seen⟩ | ⟨s, seen⟩ | s | s
  case validate =>
    rcases e with _ | _ | _ | _
    case done =>
      simp only [InstanceFile.access] at h
      rcases hq : q.setting with _ | s
      all_goals
        obtain ⟨rfl, rfl⟩ := Prod.mk.inj (Option.some.inj (hq ▸ h))
        exact .inl ⟨rfl, nofun, nofun, nofun⟩
    all_goals cases h
  case load =>
    rcases e with _ | _ | _ | _
    case done | failed =>
      obtain ⟨rfl, rfl⟩ := Prod.mk.inj (Option.some.inj h)
      exact .inl ⟨rfl, nofun, nofun, nofun⟩
    all_goals cases h
  case create =>
    simp only [InstanceFile.access] at h
    split at h
    case h_2 hvalid =>
      obtain ⟨rfl, rfl⟩ := Prod.mk.inj (Option.some.inj h)
      exact .inr (.inl ⟨s, seen, rfl, hvalid, rfl, rfl⟩)
    case h_5 => cases h
    all_goals
      obtain ⟨rfl, rfl⟩ := Prod.mk.inj (Option.some.inj h)
      exact .inl ⟨rfl, nofun, nofun, nofun⟩
  case write =>
    rcases e with _ | _ | written | _
    case done =>
      obtain ⟨rfl, rfl⟩ := Prod.mk.inj (Option.some.inj h)
      exact .inr (.inr (.inl ⟨s, seen, rfl, rfl, rfl, rfl⟩))
    case failed =>
      obtain ⟨rfl, rfl⟩ := Prod.mk.inj (Option.some.inj h)
      exact .inr (.inr (.inr (.inl ⟨s, seen, written, rfl, rfl, rfl, _, rfl⟩)))
    all_goals cases h
  case swap =>
    rcases e with _ | _ | _ | _
    case done =>
      obtain ⟨rfl, rfl⟩ := Prod.mk.inj (Option.some.inj h)
      exact .inr (.inr (.inr (.inr ⟨s, rfl, rfl, rfl⟩)))
    all_goals cases h
  case answer =>
    rcases s with alias? | lobeIds
    all_goals
      rcases e with _ | _ | _ | _
    case alias.done | lobes.reloaded =>
      obtain ⟨rfl, rfl⟩ := Prod.mk.inj (Option.some.inj h)
      exact .inl ⟨rfl, nofun, nofun, nofun⟩
    all_goals cases h

variable {s : Startup} {k : ℕ}

theorem SettingsOk.enter {l : PutAccess} (h : SettingsOk F t s) (hk : k ∉ t.threads)
    (hl : ∀ s seen, l ≠ .write s seen) : SettingsOk F ⟨t.shared, t.threads.insert k l⟩ s where
  live := h.live
  kept kind := (h.kept kind).imp_right fun h => h.enter hk
  file := h.file.imp_right fun ⟨s, seen, h⟩ => ⟨s, seen, h.enter hk⟩
  valid x seen hx := by
    obtain ⟨k', hk'⟩ := hx
    rw [Finmap.lookup_insert_ite] at hk'
    split_ifs at hk'
    · exact absurd (Option.some.inj hk') (hl x seen)
    · exact h.valid x seen ⟨k', hk'⟩

/-- A request that writes the file has been accepted. -/
theorem SettingsOk.valid_settle (h : SettingsOk F t s) (hl : t.threads.lookup k = some l)
    (ho : ∀ x seen, o = .inl (.write x seen) → (seen.set x).validate = .ok ()) (x : Setting)
    (seen : InstanceUserConfig) (hx : (t.settle k σ o).At (.write x seen)) :
    (seen.set x).validate = .ok () := by
  obtain ⟨k', hk'⟩ := hx
  by_cases hk : k' = k
  · subst hk
    exact ho x seen (Pool.settle_lookup.1 hk')
  · exact h.valid x seen ⟨k', (Pool.settle_lookup_ne t σ o hk).symm.trans hk'⟩

/-- The other request goes on. -/
theorem Writing.settle (h : Writing t k) (σ : SettingCells) (o : PutAccess ⊕ PutReply) :
    ∃ x seen, (t.settle k σ o).At (.write x seen) := by
  obtain ⟨k', x, seen, hk, hk'⟩ := h
  exact ⟨x, seen, k', (Pool.settle_lookup_ne t σ o hk).trans hk'⟩

/-- A step that changes nothing. -/
theorem SettingsOk.stay (h : SettingsOk F t s) (hl : t.threads.lookup k = some l)
    (hswap : ∀ x, l ≠ .swap x) (hwrite : ∀ x seen, l ≠ .write x seen)
    (ho : ∀ x seen, o ≠ .inl (.write x seen)) : SettingsOk F (t.settle k t.shared o) s where
  live := by rw [Pool.settle_shared]; exact h.live
  kept kind := by
    rw [Pool.settle_shared]
    exact (h.kept kind).imp_right fun h => h.settle hl (hswap _)
  file := by
    rw [Pool.settle_shared]
    exact h.file.imp_right fun ⟨x, seen, h⟩ => ⟨x, seen, h.settle hl (hwrite x seen)⟩
  valid := h.valid_settle hl fun x seen hx => absurd hx (ho x seen)

/-- The file is emptied. -/
theorem SettingsOk.create {x : Setting} {seen : InstanceUserConfig} (h : SettingsOk F t s)
    (hl : t.threads.lookup k = some (.create x seen)) (hvalid : (seen.set x).validate = .ok ()) :
    SettingsOk F (t.settle k { t.shared with file := some "" }
      (.inl (.write x seen) : PutAccess ⊕ PutReply)) s where
  live := h.live
  kept kind := (h.kept kind).imp_right fun h => h.settle hl nofun
  file := .inr ⟨x, seen, Pool.at_settle⟩
  valid := h.valid_settle hl fun y seen' hy => by
    obtain ⟨rfl, rfl⟩ := PutAccess.write.inj (Sum.inl.inj hy)
    exact hvalid

/-- The file is written. -/
theorem SettingsOk.write (hF : F.Faithful) {x : Setting} {seen : InstanceUserConfig}
    (h : SettingsOk F t s) (hl : t.threads.lookup k = some (.write x seen))
    (hQ : ∀ kind, kind ≠ x.kind → seen.get kind = t.shared.kept.get kind)
    (hfile : (t.shared.file.getD "").toList.length ≤ (F.write (seen.set x)).toList.length ∨
      Writing t k) :
    SettingsOk F (t.settle k
      { t.shared with
        file := some (overwritten (F.write (seen.set x)).toList t.shared.file)
        kept := seen.set x }
      (.inl (.swap x) : PutAccess ⊕ PutReply)) s where
  live := h.live
  kept kind := by
    change (seen.set x).get kind = _ ∨ Pool.At _ (PutAccess.swap ((seen.set x).get kind))
    rw [InstanceUserConfig.get_set]
    split_ifs with hkind
    · exact .inr Pool.at_settle
    · rw [hQ kind hkind]
      exact (h.kept kind).imp_right fun h => h.settle hl nofun
  file := by
    refine hfile.imp (fun hle => ?_) fun h => h.settle _ _
    rw [Pool.settle_shared, overwritten_of_le hle, String.ofList_toList]
    exact InstanceFile.held_write hF (h.valid x seen ⟨k, hl⟩)
  valid := h.valid_settle hl nofun

/-- A write that fails. -/
theorem SettingsOk.fail {x : Setting} {seen : InstanceUserConfig} {text : String} {reply : PutReply}
    (h : SettingsOk F t s) (hl : t.threads.lookup k = some (.write x seen))
    (hQ : F.held (some text) = t.shared.kept ∨ Writing t k) :
    SettingsOk F (t.settle k { t.shared with file := some text }
      (.inr reply : PutAccess ⊕ PutReply)) s where
  live := h.live
  kept kind := (h.kept kind).imp_right fun h => h.settle hl nofun
  file := hQ.imp_right fun h => h.settle _ _
  valid := h.valid_settle hl nofun

/-- A setting is made live. -/
theorem SettingsOk.swap {x : Setting} (h : SettingsOk F t s)
    (hl : t.threads.lookup k = some (.swap x))
    (hQ : t.shared.kept.get x.kind = x ∨ Swapping t k (t.shared.kept.get x.kind)) :
    SettingsOk F (t.settle k
      { t.shared with live := t.shared.live.set x, puts := t.shared.puts ++ [x] }
      (.inl (.answer x) : PutAccess ⊕ PutReply)) s where
  live := h.live.set
  kept kind := by
    change t.shared.kept.get kind = (lastPut (t.shared.puts ++ [x]) kind).getD _ ∨ _
    rw [lastPut_snoc]
    split_ifs with hkind
    · subst hkind
      refine hQ.imp id fun ⟨k', hk, hk'⟩ => ?_
      exact ⟨k', (Pool.settle_lookup_ne t _ _ hk).trans hk'⟩
    · refine (h.kept kind).imp id fun h => h.settle hl fun hx => hkind ?_
      rw [PutAccess.swap.inj hx]
      rcases kind <;> rfl
  file := h.file.imp_right fun ⟨x, seen, h⟩ => ⟨x, seen, h.settle hl nofun⟩
  valid := h.valid_settle hl nofun

/-- What a step keeps, if nothing has come in between. -/
theorem SettingsOk.step (hF : F.Faithful) {t' : Pool SettingCells PutAccess}
    {a : Pool.Action PutRequest DiskEvent Empty} (h : SettingsOk F t s) (hQ : PutsApart F t a)
    (hstep : F.settingsProgram.poolStep t a = some t') : SettingsOk F t' s := by
  rcases a with ⟨k, q⟩ | ⟨k, e⟩ | k | v
  case enter =>
    obtain ⟨hk, rfl⟩ := Program.enter_eq_some.1 hstep
    exact h.enter hk nofun
  case act =>
    obtain ⟨l, σ, o, hl, hs, rfl⟩ := Program.act_eq_some.1 hstep
    have hQ := hQ l hl
    rcases access_cases hs with ⟨rfl, hswap, hwrite, ho⟩ | ⟨x, seen, rfl, hvalid, rfl, rfl⟩ |
      ⟨x, seen, rfl, rfl, rfl, rfl⟩ | ⟨x, seen, written, rfl, rfl, rfl, reply, rfl⟩ |
      ⟨x, rfl, rfl, rfl⟩
    · exact h.stay hl hswap hwrite ho
    · exact h.create hl hvalid
    · exact h.write hF hl hQ.1 hQ.2
    · exact h.fail hl hQ
    · exact h.swap hl hQ
  case abort =>
    obtain ⟨l, s, -, hs, -⟩ := Program.abort_eq_some.1 hstep
    cases hs
  case env => exact nomatch v

theorem settingsOk_startedWith : SettingsOk F (F.startedWith s) s where
  live _ := rfl
  kept _ := .inl rfl
  file := .inl rfl
  valid _ _ h := absurd h (Pool.not_at_idle rfl _)

/-- When no request is at work, the file has the settings as they were put, as the cells. -/
theorem SettingsOk.file_kept (h : SettingsOk F t s) (hidle : t.threads = ∅) :
    LastPut (F.held s.file) t.shared.puts (F.held t.shared.file) := by
  have hfile : F.held t.shared.file = t.shared.kept :=
    h.file.resolve_right fun ⟨_, _, hat⟩ => Pool.not_at_idle hidle _ hat
  intro kind
  rw [hfile]
  exact (h.kept kind).resolve_right (Pool.not_at_idle hidle _)

end

/-- Over any interleaving of requests along which nothing comes in between that matters,
    whatever the node is started with, the live settings are those that were put last,
    and those of the start for the rest. When no request is at work, so are those in the
    file; a setting that was put is the same in both. -/
theorem settings_kept (F : InstanceFile) (hF : F.Faithful) (s : Startup)
    (as : List (Pool.Action PutRequest DiskEvent Empty))
    (hQ : Run.Along F.settingsProgram.poolStep (PutsApart F) (F.startedWith s) as) :
    Run.Always F.settingsProgram.poolStep (fun t =>
      LastPut (s.live F) t.shared.puts t.shared.live ∧
      (t.threads = ∅ → LastPut (F.held s.file) t.shared.puts (F.held t.shared.file) ∧
        ∀ x ∈ t.shared.puts, (F.held t.shared.file).get x.kind = t.shared.live.get x.kind))
      (F.startedWith s) as := by
  refine (Run.always_of_along (fun _ _ _ h hQ hs => SettingsOk.step hF h hQ hs)
    settingsOk_startedWith hQ).imp fun t h => ⟨h.live, fun hidle => ⟨h.file_kept hidle, ?_⟩⟩
  intro x hx
  obtain ⟨y, hy⟩ : ∃ y, lastPut t.shared.puts x.kind = some y := by
    refine Option.ne_none_iff_exists'.1 fun hnone => ?_
    have hnil := List.getLast?_eq_none_iff.1 hnone
    exact absurd (List.mem_filter.2 ⟨hx, decide_eq_true rfl⟩) (hnil ▸ List.not_mem_nil)
  rw [h.file_kept hidle, h.live, hy]
  rfl

/-! ## A file -/

/-- The text that is written, for one lobe at most. -/
def instanceText (cfg : InstanceUserConfig) : List Char :=
  BackendBody.line "[instance]".toList ++
    ((cfg.alias?.map (BackendBody.verbatim "alias = ")).getD [] ++
      BackendBody.line ("lobe_ids = ".toList ++
        ('[' :: Toml.commaJoin (cfg.lobeIds.map (Toml.quoted fun c => [c])) ++ [']'])))

theorem isTokenChar_of_isAliasChar {c : Char} (h : isAliasChar c) : Toml.isTokenChar c := by
  simp only [isAliasChar, Bool.or_eq_true, decide_eq_true_eq] at h
  simp only [Toml.isTokenChar, Toml.isBareKeyChar, decide_eq_true_eq]
  tauto

theorem isTokenChar_of_isLobeChar {c : Char} (h : isLobeChar c) : Toml.isTokenChar c := by
  simp only [isLobeChar, isLobeEdge, Bool.or_eq_true, decide_eq_true_eq] at h
  simp only [Toml.isTokenChar, Toml.isBareKeyChar, Text.isAlphanum_iff, decide_eq_true_eq]
  tauto

/-- No character is refused. -/
theorem forall_of_find {p : Char → Bool} {cs : List Char} {e : Char → CoreError}
    (h : ((cs.find? fun c => !p c).elim (.ok ()) fun c => .error (e c) : Except CoreError Unit) =
      .ok ()) :
    ∀ c ∈ cs, p c := by
  intro c hc
  rcases hfind : cs.find? fun c => !p c with _ | d
  · simpa using List.find?_eq_none.1 hfind c hc
  · rw [hfind] at h
    cases h

theorem isTokenChar_alias {name : String} (h : validateAlias name = .ok ()) :
    ∀ c ∈ name.toList, Toml.isTokenChar c := by
  obtain ⟨-, h⟩ := Except.check_eq_ok.1 h
  obtain ⟨-, h⟩ := Except.check_eq_ok.1 h
  obtain ⟨-, h⟩ := Except.check_eq_ok.1 h
  exact fun c hc => isTokenChar_of_isAliasChar (forall_of_find h c hc)

theorem isTokenChar_lobeId {id : String} (h : validateLobeId id = .ok ()) :
    ∀ c ∈ id.toList, Toml.isTokenChar c := by
  obtain ⟨-, h⟩ := Except.check_eq_ok.1 h
  obtain ⟨-, h⟩ := Except.check_eq_ok.1 h
  obtain ⟨h, -⟩ := Except.check_eq_ok.1 h
  exact fun c hc => isTokenChar_of_isLobeChar (forall_of_find h c hc)

theorem validateLobeIds_eq_ok {seen ids : List String} (h : validateLobeIds seen ids = .ok ()) :
    ∀ id ∈ ids, validateLobeId id = .ok () := by
  induction ids generalizing seen with
  | nil => exact fun id hid => absurd hid List.not_mem_nil
  | cons id ids ih =>
    obtain ⟨hid, h⟩ := Except.check_eq_ok.1 h
    obtain ⟨-, h⟩ := Except.check_eq_ok.1 h
    exact List.forall_mem_cons.2 ⟨hid, ih h⟩

def instanceFile : InstanceFile where
  parser := readerParser
  write cfg := String.ofList (instanceText cfg)
  configDir := "config"

section

open Toml BackendBody

/-- A text of these characters is read as it is. -/
theorem readsValue_verbatim {s : String} (hs : ∀ c ∈ s.toList, isTokenChar c) :
    ReadsValue (quoted (fun c => [c]) s) (some (.string s)) := by
  have hescaped : ∀ c ∈ s.toList, Escaped c [c] := by
    intro c hc
    refine .inl ⟨rfl, ?_, ?_⟩
    all_goals
      rintro rfl
      exact absurd (hs _ hc) (by decide)
  have hexposed : ¬∃ c ∈ s.toList, Exposed (fun c => [c]) c := by
    rintro ⟨c, hc, hcontrol, -⟩
    rw [isControl_of_isTokenChar (hs c hc)] at hcontrol
    exact Bool.false_ne_true hcontrol
  have h := readsValue_quoted hescaped
  rw [unlessExposed, if_neg hexposed] at h
  exact h

theorem readsLines_lobeIds {lobeIds : List String}
    (h : ∀ id ∈ lobeIds, ∀ c ∈ id.toList, isTokenChar c) :
    ReadsLines (line ("lobe_ids = ".toList ++
        ('[' :: commaJoin (lobeIds.map (quoted fun c => [c])) ++ [']'])))
      (some [.entry "lobe_ids" (.array (lobeIds.map .string))]) := by
  have hread := readsLines_field "lobe_ids = " "lobe_ids" 1 (by decide) rfl
    (readsValue_array fun id hid => readsValue_verbatim (h id hid))
  have hmap : (lobeIds.mapM fun id => some (Toml.string id)) = some (lobeIds.map .string) :=
    List.mapM_pure
  rw [hmap] at hread
  exact hread

theorem faithful_instanceFile : instanceFile.Faithful := by
  intro cfg hvalid
  obtain ⟨hlobes, halias⟩ := Except.check_eq_ok.1 hvalid
  obtain ⟨alias?, lobeIds⟩ := cfg
  obtain ⟨-, hlobes⟩ := Except.check_eq_ok.1 (Except.mapError_eq_ok.1 hlobes)
  have hids := readsLines_lobeIds fun id hid =>
    isTokenChar_lobeId (validateLobeIds_eq_ok hlobes id hid)
  have hheader : ReadsLines (line "[instance]".toList) (some [.header ["instance"]]) :=
    readsLines_headerLine (by decide) rfl
  have hfields : ReadsLines ((alias?.map (verbatim "alias = ")).getD [])
      (some (entries ((alias?.map fun a => ("alias", string a)).toList))) := by
    rcases alias? with _ | a
    · exact readsLines_nil
    · exact readsLines_verbatim "alias = " "alias" 1 (by decide) rfl
        (isTokenChar_alias (Except.mapError_eq_ok.1 halias))
  have hread := read_of_readsLines (hheader.append (hfields.append hids))
  change (read (String.toList (String.ofList (instanceText _)))).mapError _ = _
  rw [String.toList_ofList, instanceText, hread]
  rcases alias? with _ | a
  · rfl
  · rfl

end

/-- A node with an alias and a lobe, from its file. -/
def namedStartup : Startup :=
  ⟨[], none, none, none, some (String.ofList (instanceText ⟨some "a", ["xx"]⟩))⟩

/-- A request takes some steps. -/
def putSteps (k : ℕ) (es : List DiskEvent) : List (Pool.Action PutRequest DiskEvent Empty) :=
  es.map (.act k)

/-- A change of lobes takes place while a change of the alias has read the file. -/
def lateAlias : List (Pool.Action PutRequest DiskEvent Empty) :=
  [.enter 0 (.alias (some "b"))] ++ putSteps 0 [.done, .done] ++ [.enter 1 (.lobes ["yy"])] ++
    putSteps 1 [.done, .done, .done, .done, .done, .reloaded none] ++
    putSteps 0 [.done, .done, .done, .done]

/-- The lobes that were put are live, and not in the file: a restart goes back to those
    before. -/
theorem lobes_lost : ∃ t,
    Run.run instanceFile.settingsProgram.poolStep (instanceFile.startedWith namedStartup)
      lateAlias = some t ∧
    t.threads = ∅ ∧ t.shared.puts = [.lobes ["yy"], .alias (some "b")] ∧
    t.shared.live = ⟨some "b", ["yy"]⟩ ∧
    instanceFile.held t.shared.file = ⟨some "b", ["xx"]⟩ ∧
    Startup.live { namedStartup with file := t.shared.file } instanceFile = ⟨some "b", ["xx"]⟩ := by
  have hend : (Run.run instanceFile.settingsProgram.poolStep
      (instanceFile.startedWith namedStartup) lateAlias).map (fun t => (t.threads.keys,
        t.shared.puts, t.shared.live, instanceFile.held t.shared.file,
        Startup.live { namedStartup with file := t.shared.file } instanceFile)) =
      some (∅, [.lobes ["yy"], .alias (some "b")], ⟨some "b", ["yy"]⟩, ⟨some "b", ["xx"]⟩,
        ⟨some "b", ["xx"]⟩) := by
    decide +kernel
  obtain ⟨t, ht, hend⟩ := Option.map_eq_some_iff.1 hend
  simp only [Prod.mk.injEq] at hend
  obtain ⟨hkeys, hend⟩ := hend
  have hidle : t.threads = ∅ := by
    refine Finmap.ext_lookup fun k => ?_
    rw [Finmap.lookup_empty, Finmap.lookup_eq_none, ← Finmap.mem_keys, hkeys]
    exact Finset.notMem_empty k
  exact ⟨t, ht, hidle, hend⟩

/-- One after the other, they are kept. -/
theorem settings_kept_apart : Run.Always instanceFile.settingsProgram.poolStep (fun t =>
      LastPut (namedStartup.live instanceFile) t.shared.puts t.shared.live ∧
      (t.threads = ∅ → LastPut (instanceFile.held namedStartup.file) t.shared.puts
          (instanceFile.held t.shared.file) ∧
        ∀ x ∈ t.shared.puts,
          (instanceFile.held t.shared.file).get x.kind = t.shared.live.get x.kind))
      (instanceFile.startedWith namedStartup)
    ([.enter 0 (.lobes ["yy"])] ++
      putSteps 0 [.done, .done, .done, .done, .done, .reloaded none]) := by
  refine settings_kept instanceFile faithful_instanceFile namedStartup _ ?_
  have hheld : instanceFile.held namedStartup.file = ⟨some "a", ["xx"]⟩ := by decide +kernel
  have hsetting : (PutRequest.lobes ["yy"]).setting = .ok (.lobes ["yy"]) := by rfl
  have hvalid : InstanceUserConfig.validate ⟨some "a", ["yy"]⟩ = .ok () := by rfl
  simp [Run.Along, putSteps, Program.poolStep, InstanceFile.settingsProgram, InstanceFile.access,
    Pool.settle, PutsApart, InstanceFile.startedWith, Pool.idle, hheld, hsetting, hvalid,
    InstanceUserConfig.set, InstanceUserConfig.get, Setting.kind]

end N3ur0n
