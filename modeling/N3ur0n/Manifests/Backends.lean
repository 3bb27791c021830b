import N3ur0n.Manifests.BaseUrl
import N3ur0n.Manifests.Documents

/-!
# The file of a backend

A backend is declared by a file of its own, which the settings write from a
request: its text is put together from the strings of the request, in which
quotes and backslashes are escaped (`tomlEscape`), and nothing else is. The keys
of the environment of a server are written as they are, and only the quotes of
the names of headers are escaped.

* `parseBackendFile`: the manifest in the text of a file;
* `createBackend`, `BackendBody.file`: what a request asks for, and the text
  that is written for it.
-/

namespace N3ur0n

open Cut

/-! ## Reading -/

structure BackendFile where
  manifestVersion : String
  name : String
  kind : String
  extras : List (String × Value)

open Document in
def BackendFile.ofToml (P : TomlParser) (t : Toml) : Except String BackendFile := do
  let fields ← table t
  let manifest ← required "manifest" table fields
  let version ← required "version" string manifest
  let backend ← required "backend" table fields
  let name ← required "name" string backend
  let kind ← required "kind" string backend
  .ok ⟨version, name, kind, P.toObject (fields.filter fun x => x.1 ∉ ["manifest", "backend"])⟩

namespace Backend

/-- The section of a kind. -/
def sectionOf (path kind : String) (extras : List (String × Value)) :
    Except ManifestError (List (String × Value)) :=
  match extras.lookup kind with
  | none => .error (.validation path s!"[{kind}] section missing")
  | some (.object fields) => .ok fields
  | some _ => .error (.validation path s!"[{kind}] must be a table")

/-- The text under a key, if there is one. -/
def text (k : String) (fields : List (String × Value)) : Option String :=
  (fields.lookup k).bind Value.asStr

def requiredText (path kind k : String) (fields : List (String × Value)) :
    Except ManifestError String :=
  (text k fields).elim (.error (.validation path s!"{kind}.{k} required")) .ok

/-- The texts in an array: other items are passed over. -/
def texts (k : String) (fields : List (String × Value)) : List String :=
  match fields.lookup k with
  | some (.array xs) => xs.filterMap Value.asStr
  | _ => []

/-- The texts in a table: other fields are passed over. -/
def textTable (k : String) (fields : List (String × Value)) : Table String String :=
  match fields.lookup k with
  | some (.object entries) =>
    Finmap.collect (entries.filterMap fun x => x.2.asStr.map fun s => (x.1, s))
  | _ => ∅

def takeOpenaiCompat (path : String) (extras : List (String × Value)) :
    Except ManifestError OpenAICompatConfig := do
  let fields ← sectionOf path "openai_compat" extras
  let baseUrl ← requiredText path "openai_compat" "base_url" fields
  let defaultModel ← requiredText path "openai_compat" "default_model" fields
  .ok ⟨normalizeOpenaiBaseUrl baseUrl, defaultModel, (text "api_key" fields).getD ""⟩

def transportOf (path : String) (s : Option String) : Except ManifestError McpTransport :=
  match s.getD "stdio" with
  | "stdio" => .ok .stdio
  | "http_sse" => .ok .httpSse
  | other => .error (.validation path s!"mcp_server.transport `{other}` invalid (stdio|http_sse)")

def takeMcpServer (path : String) (extras : List (String × Value)) :
    Except ManifestError McpServerConfig := do
  let fields ← sectionOf path "mcp_server" extras
  let transport ← transportOf path (text "transport" fields)
  let command ← requiredText path "mcp_server" "command" fields
  .ok ⟨transport, command, texts "args" fields, textTable "env" fields⟩

def takeHttpBase (path : String) (extras : List (String × Value)) :
    Except ManifestError HttpBaseConfig := do
  let fields ← sectionOf path "http_base" extras
  let baseUrl ← requiredText path "http_base" "base_url" fields
  .ok ⟨baseUrl, textTable "headers" fields⟩

def takeKind (path kind : String) (extras : List (String × Value)) :
    Except ManifestError BackendKind :=
  match kind with
  | "openai_compat" => (takeOpenaiCompat path extras).map .openAICompat
  | "mcp_server" => (takeMcpServer path extras).map .mcpServer
  | "http_base" => (takeHttpBase path extras).map .httpBase
  | other => .error (.validation path (s!"unknown backend.kind `{other}` (expected one of: " ++
      "openai_compat, mcp_server, http_base)"))

end Backend

/-- The manifest in a file with this text. -/
def parseBackendFile (P : TomlParser) (path text : String) :
    Except ManifestError BackendManifest := do
  let file ← ((P.parse text).bind (BackendFile.ofToml P)).mapError (.toml path)
  validateFormatVersion path file.manifestVersion
  let kind ← Backend.takeKind path file.kind file.extras
  let name := String.ofList (trim isWhitespace file.name.toList)
  Except.reject (name = "") (.validation path "backend.name is empty")
  .ok ⟨name, kind⟩

/-! ## Writing -/

/-- Backslashes and quotes are escaped. -/
def tomlEscape (c : Char) : List Char :=
  if c = '\\' then ['\\', '\\'] else if c = Toml.quote then ['\\', c] else [c]

/-- The escape of the names of headers: quotes only. -/
def quoteEscape (c : Char) : List Char := if c = Toml.quote then ['\\', c] else [c]

/-- A map of a request has its entries in the order in which it is iterated. -/
structure CreateBackendRequest where
  name : String
  kind : String
  baseUrl : Option String
  defaultModel : Option String
  apiKey : Option String
  apiKeyKeep : Bool
  transport : Option String
  command : Option String
  args : List String
  env : List (String × String)
  headers : List (String × String)
  env_nodup : (env.map Prod.fst).Nodup
  headers_nodup : (headers.map Prod.fst).Nodup

/-- What the file of a backend declares, besides its name. -/
inductive BackendBody
  | openAICompat (baseUrl defaultModel apiKey : String)
  | mcpServer (transport command : String) (args : List String) (env : List (String × String))
  | httpBase (baseUrl : String) (headers : List (String × String))

namespace BackendBody

def line (text : List Char) : List Char := text ++ ['\n']

/-- A line with a string, after what is before its value. -/
def set (before : String) (s : String) : List Char :=
  line (before.toList ++ Toml.quoted tomlEscape s)

/-- A string that needs no escape. -/
def verbatim (before : String) (s : String) : List Char :=
  line (before.toList ++ Toml.quoted (fun c => [c]) s)

/-- The start of a file. -/
def preamble (name kind : String) : List Char :=
  line "[manifest]".toList ++ (verbatim "version = " "0.1" ++ (line [] ++
    (line "[backend]".toList ++ (verbatim "name = " name ++ verbatim "kind = " kind))))

def argsText (args : List String) : List Char :=
  if args = [] then [] else
    line ("args = ".toList ++
      ('[' :: Toml.commaJoin (args.map (Toml.quoted tomlEscape)) ++ [']']))

def envText (env : List (String × String)) : List Char :=
  if env = [] then [] else
    line [] ++ (line "[mcp_server.env]".toList ++
      env.flatMap fun x => line (x.1.toList ++ (" = ".toList ++ Toml.quoted tomlEscape x.2)))

def headersText (headers : List (String × String)) : List Char :=
  if headers = [] then [] else
    line [] ++ (line "[http_base.headers]".toList ++ headers.flatMap fun x =>
      line (Toml.quoted quoteEscape x.1 ++ (" = ".toList ++ Toml.quoted tomlEscape x.2)))

/-- The text of the file. -/
def file (name : String) : BackendBody → List Char
  | openAICompat baseUrl defaultModel apiKey =>
    preamble name "openai_compat" ++ (line [] ++ (line "[openai_compat]".toList ++
      (set "base_url      = " baseUrl ++ (set "default_model = " defaultModel ++
        set "api_key       = " apiKey))))
  | mcpServer transport command args env =>
    preamble name "mcp_server" ++ (line [] ++ (line "[mcp_server]".toList ++
      (verbatim "transport = " transport ++ (set "command   = " command ++
        (argsText args ++ envText env)))))
  | httpBase baseUrl headers =>
    preamble name "http_base" ++ (line [] ++ (line "[http_base]".toList ++
      (set "base_url = " baseUrl ++ headersText headers)))

/-- What the kind is called. -/
def kindName : BackendBody → String
  | openAICompat .. => "openai_compat"
  | mcpServer .. => "mcp_server"
  | httpBase .. => "http_base"

/-- What it is to be read as. -/
def kind : BackendBody → BackendKind
  | openAICompat baseUrl defaultModel apiKey => .openAICompat ⟨baseUrl, defaultModel, apiKey⟩
  | mcpServer transport command args env => .mcpServer
      ⟨if transport = "http_sse" then .httpSse else .stdio, command, args, Finmap.collect env⟩
  | httpBase baseUrl headers => .httpBase ⟨baseUrl, Finmap.collect headers⟩

end BackendBody

namespace CreateBackendRequest

variable (req : CreateBackendRequest)

/-- A field of the kind that has to be there. -/
def field (k kind : String) (v : Option String) : Except HttpError String :=
  v.elim (.error (.error 400 s!"{k} required for {kind}")) .ok

/-- The key of the API: one that is kept is read from the file there is. -/
def keyOf (P : TomlParser) (path : String) (existing : Option String) : String :=
  if req.apiKey = none ∧ req.apiKeyKeep then
    match existing.map (parseBackendFile P path) with
    | some (.ok ⟨_, .openAICompat cfg⟩) => cfg.apiKey
    | _ => ""
  else req.apiKey.getD ""

/-- What a valid request asks for. -/
def body (P : TomlParser) (path : String) (existing : Option String) :
    Except HttpError BackendBody :=
  match req.kind with
  | "openai_compat" => do
    let baseUrl ← field "base_url" "openai_compat" req.baseUrl
    let defaultModel ← field "default_model" "openai_compat" req.defaultModel
    .ok (.openAICompat (normalizeOpenaiBaseUrl baseUrl) defaultModel
      (req.keyOf P path existing))
  | "mcp_server" => do
    let transport := req.transport.getD "stdio"
    Except.reject (transport ∉ ["stdio", "http_sse"])
      (.error 400 "transport must be stdio|http_sse")
    let command ← field "command" "mcp_server" req.command
    Except.reject (isBlank command) (.error 400 "command required for mcp_server")
    .ok (.mcpServer transport command req.args req.env)
  | "http_base" => do
    let baseUrl ← field "base_url" "http_base" req.baseUrl
    .ok (.httpBase baseUrl req.headers)
  | other => .error (.error 400
      s!"unknown kind `{other}` (expected openai_compat|mcp_server|http_base)")

end CreateBackendRequest

/-- The name of the backend that a valid request asks for, and what its file
    declares. There may be a file by that name among those of the configuration,
    given by their texts. -/
def createBackend (P : TomlParser) (configDir : String) (existing : String → Option String)
    (req : CreateBackendRequest) : Except HttpError (String × BackendBody) := do
  let name := String.ofList (trim isWhitespace req.name.toList)
  Except.reject (¬(name ≠ "" ∧ name.toList.all Toml.isBareKeyChar))
    (.error 400 "name must be non-empty and match [a-zA-Z0-9_-]")
  let fileName := name ++ ".toml"
  let body ← req.body P (configDir ++ "/backends/" ++ fileName) (existing fileName)
  .ok (name, body)

/-! ## What the texts are read as -/

namespace BackendBody

open Toml

/-- A text without control characters, tabs apart. -/
def Plain (s : String) : Prop := ∀ c ∈ s.toList, Toml.isControl c = false

instance (s : String) : Decidable (Plain s) := inferInstanceAs (Decidable (∀ c ∈ s.toList, _))

theorem escaped_tomlEscape (c : Char) : Escaped c (tomlEscape c) := by
  rw [tomlEscape]
  split_ifs with hb hq
  · exact .inr ⟨'\\', rfl, by rw [hb]; rfl⟩
  · exact .inr ⟨c, rfl, by rw [hq]; rfl⟩
  · exact .inl ⟨rfl, hq, hb⟩

theorem escaped_quoteEscape {c : Char} (hc : c ≠ '\\') : Escaped c (quoteEscape c) := by
  rw [quoteEscape]
  split_ifs with hq
  · exact .inr ⟨c, rfl, by rw [hq]; rfl⟩
  · exact .inl ⟨rfl, hq, hc⟩

/-- Where control characters are not escaped, only the plain strings are read. -/
theorem unlessExposed_plain {escape : Char → List Char}
    (h : ∀ c, Toml.isControl c → escape c = [c]) {s : String} :
    unlessExposed escape s = if Plain s then some s else none := by
  have hplain : (∃ c ∈ s.toList, Exposed escape c) ↔ ¬Plain s := by
    simp only [Exposed, Plain, not_forall, Bool.not_eq_false]
    exact ⟨fun ⟨c, hc, hx, _⟩ => ⟨c, hc, hx⟩, fun ⟨c, hc, hx⟩ => ⟨c, hc, hx, h c hx⟩⟩
  rw [unlessExposed]
  simp only [hplain]
  split_ifs
  · rfl
  · rfl

theorem tomlEscape_control {c : Char} (h : Toml.isControl c) : tomlEscape c = [c] := by
  rw [tomlEscape, if_neg, if_neg]
  · rintro rfl
    exact absurd h (by decide)
  · rintro rfl
    exact absurd h (by decide)

theorem quoteEscape_control {c : Char} (h : Toml.isControl c) : quoteEscape c = [c] := by
  rw [quoteEscape, if_neg]
  rintro rfl
  exact absurd h (by decide)

theorem readsValue_tomlEscape (s : String) :
    ReadsValue (quoted tomlEscape s) (if Plain s then some (.string s) else none) := by
  have h := readsValue_quoted fun c (_ : c ∈ s.toList) => escaped_tomlEscape c
  rw [unlessExposed_plain fun c => tomlEscape_control] at h
  split_ifs at h ⊢ with hs
  · exact h
  · exact h

theorem readsLines_field (before k : String) (n : ℕ) {v : List Char} {r : Option Toml}
    (hk : k ≠ "" ∧ ∀ c ∈ k.toList, isBareKeyChar c)
    (hbefore : before.toList = k.toList ++ (List.replicate n ' ' ++ ['=', ' ']))
    (hv : ReadsValue v r) :
    ReadsLines (line (before.toList ++ v)) (r.map fun v => [.entry k v]) := by
  have hspaces : ∀ c ∈ List.replicate n ' ', isSpace c := by
    intro c hc
    rw [List.eq_of_mem_replicate hc]
    rfl
  have hspace : ∀ c ∈ [' '], isSpace c := by decide
  have h := readsLines_entry (readsEntry (readsKey_bare hk.2 hk.1) hspaces hspace hv)
  have htext : k.toList ++ (List.replicate n ' ' ++ '=' :: ([' '] ++ v)) = before.toList ++ v := by
    rw [hbefore]
    simp only [List.append_assoc, List.cons_append, List.nil_append]
  rw [htext] at h
  rcases r with _ | v
  · exact h
  · exact h

theorem readsLines_set (before k : String) (n : ℕ) {s : String}
    (hk : k ≠ "" ∧ ∀ c ∈ k.toList, isBareKeyChar c)
    (hbefore : before.toList = k.toList ++ (List.replicate n ' ' ++ ['=', ' '])) :
    ReadsLines (set before s) (if Plain s then some [.entry k (.string s)] else none) := by
  have h := readsLines_field before k n hk hbefore (readsValue_tomlEscape s)
  split_ifs at h ⊢ with hs
  · exact h
  · exact h

/-- A string of the characters of numbers needs no escape. -/
theorem readsLines_verbatim (before k : String) (n : ℕ) {s : String}
    (hk : k ≠ "" ∧ ∀ c ∈ k.toList, isBareKeyChar c)
    (hbefore : before.toList = k.toList ++ (List.replicate n ' ' ++ ['=', ' ']))
    (hs : ∀ c ∈ s.toList, isTokenChar c) :
    ReadsLines (verbatim before s) (some [.entry k (.string s)]) := by
  have hescaped : ∀ c ∈ s.toList, Escaped c [c] := by
    intro c hc
    refine .inl ⟨rfl, ?_, ?_⟩
    all_goals
      rintro rfl
      exact absurd (hs _ hc) (by decide)
  have hexposed : ¬∃ c ∈ s.toList, Exposed (fun c => [c]) c := by
    rintro ⟨c, hc, hcontrol, -⟩
    rw [isControl_of_isTokenChar (hs c hc)] at hcontrol
    exact Bool.false_ne_true hcontrol
  have h := readsLines_field before k n hk hbefore (readsValue_quoted hescaped)
  rw [unlessExposed, if_neg hexposed] at h
  exact h

theorem readsLines_headerLine {text : String} {path : List String} (hpath : BarePath path)
    (htext : text.toList = '[' :: pathText path ++ [']']) :
    ReadsLines (line text.toList) (some [.header path]) := by
  rw [line, htext, List.append_assoc]
  exact readsLines_header hpath

/-- The sections that every file starts with. -/
def preambleSections (name kind : String) : List Section :=
  [⟨["manifest"], false, [("version", .string "0.1")]⟩,
    ⟨["backend"], false, [("name", .string name), ("kind", .string kind)]⟩]

theorem readsLines_preamble {name kind : String} (hname : ∀ c ∈ name.toList, isBareKeyChar c)
    (hkind : ∀ c ∈ kind.toList, isBareKeyChar c) :
    ReadsLines (preamble name kind) (some (ofSections (preambleSections name kind))) := by
  have htoken : ∀ {s : String}, (∀ c ∈ s.toList, isBareKeyChar c) →
      ∀ c ∈ s.toList, isTokenChar c := fun hs c hc => isTokenChar_of_isBareKeyChar (hs c hc)
  have hbackend : BarePath ["backend"] := by decide
  exact (readsLines_headerLine (by decide) rfl).append <|
    (readsLines_verbatim "version = " "version" 1 (by decide) rfl (by decide)).append <|
    readsLines_blank.append <|
    (readsLines_headerLine hbackend rfl).append <|
    (readsLines_verbatim "name = " "name" 1 (by decide) rfl (htoken hname)).append <|
    readsLines_verbatim "kind = " "kind" 1 (by decide) rfl (htoken hkind)

/-! ### The sections of a body -/

/-- Its transport is one there is, and the keys of its map are distinct. -/
def WellFormed : BackendBody → Prop
  | openAICompat .. => True
  | mcpServer transport _ _ env =>
    transport ∈ ["stdio", "http_sse"] ∧ (env.map Prod.fst).Nodup
  | httpBase _ headers => (headers.map Prod.fst).Nodup

/-- Its strings are plain. -/
def Clean : BackendBody → Prop
  | openAICompat baseUrl defaultModel apiKey => Plain baseUrl ∧ Plain defaultModel ∧ Plain apiKey
  | mcpServer _ command args env =>
    Plain command ∧ (∀ a ∈ args, Plain a) ∧ ∀ x ∈ env, Plain x.2
  | httpBase baseUrl headers => Plain baseUrl ∧ ∀ x ∈ headers, Plain x.1 ∧ Plain x.2

/-- Normalizing its base URL again changes nothing. -/
def Settled : BackendBody → Prop
  | openAICompat baseUrl _ _ => ¬EndsBlank baseUrl
  | _ => True

/-- Its keys are read as they are: those of an environment are bare, the names of
    headers have no backslash. -/
def PlainKeys : BackendBody → Prop
  | openAICompat .. => True
  | mcpServer _ _ _ env => ∀ x ∈ env, x.1 ≠ "" ∧ ∀ c ∈ x.1.toList, isBareKeyChar c
  | httpBase _ headers => ∀ x ∈ headers, '\\' ∉ x.1.toList

def argsFields (args : List String) : List (String × Toml) :=
  if args = [] then [] else [("args", .array (args.map .string))]

/-- The section of a table of strings, unless it is empty. -/
def tableSection (path : List String) (entries : List (String × String)) : List Section :=
  if entries = [] then [] else [⟨path, false, entries.map fun x => (x.1, .string x.2)⟩]

def bodySections : BackendBody → List Section
  | openAICompat baseUrl defaultModel apiKey =>
    [⟨["openai_compat"], false, [("base_url", .string baseUrl),
      ("default_model", .string defaultModel), ("api_key", .string apiKey)]⟩]
  | mcpServer transport command args env =>
    ⟨["mcp_server"], false, [("transport", .string transport), ("command", .string command)] ++
      argsFields args⟩ :: tableSection ["mcp_server", "env"] env
  | httpBase baseUrl headers =>
    ⟨["http_base"], false, [("base_url", .string baseUrl)]⟩ ::
      tableSection ["http_base", "headers"] headers

theorem readsLines_argsText {args : List String} : ReadsLines (argsText args)
    (if ∀ a ∈ args, Plain a then some (entries (argsFields args)) else none) := by
  rw [argsText, argsFields]
  split
  · next hargs =>
    rw [hargs, if_pos fun a ha => absurd ha List.not_mem_nil]
    exact readsLines_nil
  · have h := readsLines_field "args = " "args" 1 (by decide) rfl
      (readsValue_array fun a (_ : a ∈ args) => readsValue_tomlEscape a)
    rw [mapM_ite] at h
    split_ifs at h ⊢
    · exact h
    · exact h

/-- A section of strings, from how its lines are read. -/
theorem readsLines_tableSection {header : String} {path : List String}
    {entries : List (String × String)} {txt : String × String → List Char}
    {p : String × String → Prop} [DecidablePred p] (hpath : BarePath path)
    (hheader : header.toList = '[' :: pathText path ++ [']'])
    (h : ∀ x ∈ entries, ReadsLines (txt x)
      (if p x then some [.entry x.1 (.string x.2)] else none)) :
    ReadsLines (if entries = [] then [] else
      line [] ++ (line header.toList ++ entries.flatMap txt))
      (if ∀ x ∈ entries, p x then some (ofSections (tableSection path entries)) else none) := by
  rw [tableSection]
  split
  · next hentries =>
    rw [hentries, if_pos fun a ha => absurd ha List.not_mem_nil]
    exact readsLines_nil
  · have h' := readsLines_blank.append
      ((readsLines_headerLine hpath hheader).append (ReadsLines.flatMap h))
    rw [mapM_ite] at h'
    split_ifs at h' ⊢
    · have hstatements : [Statement.header path] ++ (entries.map fun x =>
          [Statement.entry x.1 (.string x.2)]).flatten =
            ofSections [⟨path, false, entries.map fun x => (x.1, .string x.2)⟩] := by
        rw [← List.flatMap_def, ← List.map_eq_flatMap, ofSections, List.flatMap_singleton,
          Toml.entries, List.map_map]
        rfl
      rw [← hstatements]
      exact h'
    · exact h'

theorem readsLines_envText {env : List (String × String)}
    (hkeys : ∀ x ∈ env, x.1 ≠ "" ∧ ∀ c ∈ x.1.toList, isBareKeyChar c) :
    ReadsLines (envText env) (if ∀ x ∈ env, Plain x.2 then
      some (ofSections (tableSection ["mcp_server", "env"] env)) else none) := by
  refine readsLines_tableSection (by decide) rfl fun x hx => ?_
  obtain ⟨hne, hbare⟩ := hkeys x hx
  have hspace : ∀ c ∈ [' '], isSpace c := by decide
  have h := readsLines_entry
    (readsEntry (readsKey_bare hbare hne) hspace hspace (readsValue_tomlEscape x.2))
  split_ifs at h ⊢
  · exact h
  · exact h

theorem readsLines_headersText {headers : List (String × String)}
    (hkeys : ∀ x ∈ headers, '\\' ∉ x.1.toList) :
    ReadsLines (headersText headers) (if ∀ x ∈ headers, Plain x.1 ∧ Plain x.2 then
      some (ofSections (tableSection ["http_base", "headers"] headers)) else none) := by
  refine readsLines_tableSection (by decide) rfl fun x hx => ?_
  have hescaped : ∀ c ∈ x.1.toList, Escaped c (quoteEscape c) := fun c hc =>
    escaped_quoteEscape fun h => hkeys x hx (h ▸ hc)
  have hkey := readsKey_quoted hescaped
  rw [unlessExposed_plain fun c => quoteEscape_control] at hkey
  have hspace : ∀ c ∈ [' '], isSpace c := by decide
  have hentry := readsEntry hkey hspace hspace (readsValue_tomlEscape x.2)
  rw [entryOf_ite] at hentry
  have h := readsLines_entry hentry
  split_ifs at h ⊢
  · exact h
  · exact h

theorem joinLines_ite {p q : Prop} [Decidable p] [Decidable q] {ss ss' : List Statement} :
    joinLines (if p then some ss else none) (if q then some ss' else none) =
      if p ∧ q then some (ss ++ ss') else none := by
  by_cases hp : p
  · by_cases hq : q
    · simp [joinLines, hp, hq]
    · simp [joinLines, hp, hq]
  · simp [joinLines, hp]

theorem joinLines_some {q : Prop} [Decidable q] {ss ss' : List Statement} :
    joinLines (some ss) (if q then some ss' else none) = if q then some (ss ++ ss') else none := by
  by_cases hq : q
  · simp [joinLines, hq]
  · simp [joinLines, hq]

instance (b : BackendBody) : Decidable b.Clean := by
  cases b with
  | openAICompat baseUrl defaultModel apiKey => exact inferInstanceAs (Decidable (_ ∧ _))
  | mcpServer transport command args env => exact inferInstanceAs (Decidable (_ ∧ _))
  | httpBase baseUrl headers => exact inferInstanceAs (Decidable (_ ∧ _))

/-- The file of a backend has its sections, if its strings are plain, and is invalid
    otherwise. -/
theorem readsLines_file {name : String} {b : BackendBody}
    (hname : ∀ c ∈ name.toList, isBareKeyChar c) (hb : b.WellFormed) (hkeys : b.PlainKeys) : ReadsLines (b.file name)
      (if b.Clean then some (ofSections (preambleSections name b.kindName ++ b.bodySections))
      else none) := by
  cases b with
  | openAICompat baseUrl defaultModel apiKey =>
    have hheader : BarePath ["openai_compat"] := by decide
    have h : ReadsLines (file name (openAICompat baseUrl defaultModel apiKey)) _ :=
      (readsLines_preamble hname (by decide)).append <| readsLines_blank.append <|
      (readsLines_headerLine hheader rfl).append <|
      (readsLines_set "base_url      = " "base_url" 6 (by decide) rfl).append <|
      (readsLines_set "default_model = " "default_model" 1 (by decide) rfl).append <|
      readsLines_set "api_key       = " "api_key" 7 (by decide) rfl
    simp only [joinLines_ite, joinLines_some] at h
    exact h
  | mcpServer transport command args env =>
    have hheader : BarePath ["mcp_server"] := by decide
    have htransport : ∀ c ∈ transport.toList, isTokenChar c := by
      have hmem := hb.1
      rw [List.mem_cons, List.mem_singleton] at hmem
      rcases hmem with rfl | rfl
      · decide
      · decide
    have h : ReadsLines (file name (mcpServer transport command args env)) _ :=
      (readsLines_preamble hname (by decide)).append <| readsLines_blank.append <|
      (readsLines_headerLine hheader rfl).append <|
      (readsLines_verbatim "transport = " "transport" 1 (by decide) rfl htransport).append <|
      (readsLines_set "command   = " "command" 3 (by decide) rfl).append <|
      readsLines_argsText.append (readsLines_envText hkeys)
    simp only [joinLines_ite, joinLines_some] at h
    convert h using 3
    · exact Iff.rfl
    · simp [bodySections, ofSections, entries, kindName]
  | httpBase baseUrl headers =>
    have hheader : BarePath ["http_base"] := by decide
    have h : ReadsLines (file name (httpBase baseUrl headers)) _ :=
      (readsLines_preamble hname (by decide)).append <| readsLines_blank.append <|
      (readsLines_headerLine hheader rfl).append <|
      (readsLines_set "base_url = " "base_url" 1 (by decide) rfl).append
      (readsLines_headersText hkeys)
    simp only [joinLines_ite, joinLines_some] at h
    exact h

/-! ### The tables of a body -/

/-- The field of a table of strings, unless it is empty. -/
def tableField (k : String) (entries : List (String × String)) : List (String × Toml) :=
  if entries = [] then [] else [(k, .table (entries.map fun x => (x.1, .string x.2)))]

/-- The table of the section of the kind. -/
def bodyFields : BackendBody → List (String × Toml)
  | openAICompat baseUrl defaultModel apiKey => [("base_url", .string baseUrl),
      ("default_model", .string defaultModel), ("api_key", .string apiKey)]
  | mcpServer transport command args env =>
    [("transport", .string transport), ("command", .string command)] ++ argsFields args ++
      tableField "env" env
  | httpBase baseUrl headers => ("base_url", .string baseUrl) :: tableField "headers" headers

def document (name : String) (b : BackendBody) : Toml :=
  .table [("manifest", .table [("version", .string "0.1")]),
    ("backend", .table [("name", .string name), ("kind", .string b.kindName)]),
    (b.kindName, .table b.bodyFields)]

/-- A table of strings below the last table. -/
theorem placeAll_tableSection {fields : List (String × Node)} {fs : List (String × Toml)}
    {k l : String} {entries : List (String × String)} (hk : k ∉ fields.map Prod.fst)
    (hl : l ∉ fs.map Prod.fst) (hnodup : (entries.map Prod.fst).Nodup) :
    (placeAll (tableSection [k, l] entries) (fields ++ [(k, .table (nodes fs))])).map toFields =
      .ok (toFields fields ++ [(k, .table (fs ++ tableField l entries))]) := by
  rw [tableSection, tableField]
  split
  · rw [placeAll, List.append_nil]
    refine congrArg Except.ok ?_
    rw [toFields_append, toFields, toFields, Node.toToml, toFields_nodes]
  · have hl' : l ∉ (nodes fs).map Prod.fst := by
      rwa [nodes, List.map_map]
    have hnodup' : ((entries.map fun x => (x.1, string x.2)).map Prod.fst).Nodup := by
      rwa [List.map_map]
    rw [placeAll, place_below hk, place_table hl' hnodup']
    refine congrArg Except.ok ?_
    rw [toFields_append, toFields, toFields, Node.toToml, toFields_append, toFields_nodes,
      toFields, toFields, Node.toToml, toFields_nodes]

def preambleFields (name kind : String) : List (String × Node) :=
  [("manifest", .table (nodes [("version", .string "0.1")])),
    ("backend", .table (nodes [("name", .string name), ("kind", .string kind)]))]

theorem placeAll_preamble {name kind k : String} {fs : List (String × Toml)} {secs : List Section}
    (hk : k ∉ ["manifest", "backend"]) (hfs : (fs.map Prod.fst).Nodup) :
    placeAll (preambleSections name kind ++ ⟨[k], false, fs⟩ :: secs) [] =
      placeAll secs (preambleFields name kind ++ [(k, .table (nodes fs))]) := by
  have hversion : ([("version", string "0.1")].map Prod.fst).Nodup := by decide
  have hbackend : ([("name", string name), ("kind", string kind)].map Prod.fst).Nodup := by simp
  rw [preambleSections, List.cons_append, placeAll, place_table (by simp) hversion]
  change placeAll _ _ = _
  rw [List.cons_append, placeAll, place_table (by simp) hbackend]
  change placeAll _ _ = _
  rw [List.nil_append, placeAll, place_table hk hfs]
  rfl

/-- The sections of a file are those of its document. -/
theorem build_bodySections {name : String} {b : BackendBody} (hb : b.WellFormed) :
    build (ofSections (preambleSections name b.kindName ++ b.bodySections)) =
      .ok (b.document name) := by
  have htables : (placeAll (preambleSections name b.kindName ++ b.bodySections) []).map toFields =
      .ok (toFields (preambleFields name b.kindName) ++ [(b.kindName, .table b.bodyFields)]) := by
    cases b with
    | openAICompat baseUrl defaultModel apiKey =>
      rw [bodySections, placeAll_preamble (by simp) (by simp)]
      rfl
    | mcpServer transport command args env =>
      have hargs : ((([("transport", string transport), ("command", .string command)] ++
          argsFields args)).map Prod.fst).Nodup := by
        rw [argsFields]
        split_ifs
        · simp
        · simp
      rw [bodySections, placeAll_preamble (by simp) hargs]
      refine placeAll_tableSection (by simp [preambleFields]) ?_ hb.2
      rw [argsFields]
      split_ifs
      · simp
      · simp
    | httpBase baseUrl headers =>
      rw [bodySections, placeAll_preamble (by simp) (by simp)]
      exact placeAll_tableSection (by simp [preambleFields]) (by simp) hb
  rw [build_ofSections]
  rcases hplace : placeAll (preambleSections name b.kindName ++ b.bodySections) [] with e | fields
  · rw [hplace] at htables
    exact absurd htables (by simp [Except.map])
  · rw [hplace] at htables
    refine congrArg Except.ok (congrArg Toml.table ((Except.ok.inj htables).trans ?_))
    rfl

/-- A file is read as its document, if its strings are plain, and is invalid otherwise. -/
theorem read_file {name : String} {b : BackendBody} (hname : ∀ c ∈ name.toList, isBareKeyChar c)
    (hb : b.WellFormed) (hkeys : b.PlainKeys) :
    Toml.read (b.file name) = if b.Clean then .ok (b.document name) else .error .invalid := by
  rw [read_of_readsLines (readsLines_file hname hb hkeys)]
  split_ifs
  · exact build_bodySections hb
  · rfl

end BackendBody

/-! ## What a document declares -/

namespace Backend

theorem text_sortFields {fields : List (String × Value)} (hn : (fields.map Prod.fst).Nodup)
    {k : String} : text k (sortFields fields) = text k fields := by
  rw [text, text, lookup_sortFields hn]

theorem texts_sortFields {fields : List (String × Value)} (hn : (fields.map Prod.fst).Nodup)
    {k : String} : texts k (sortFields fields) = texts k fields := by
  rw [texts, texts, lookup_sortFields hn]

theorem textTable_sortFields {fields : List (String × Value)} (hn : (fields.map Prod.fst).Nodup)
    {k : String} : textTable k (sortFields fields) = textTable k fields := by
  rw [textTable, textTable, lookup_sortFields hn]

variable {path kind k : String} {fields : List (String × Value)}

theorem sectionOf_singleton : sectionOf path kind [(kind, .object fields)] = .ok fields := by
  rw [sectionOf, List.lookup_cons_self]

theorem requiredText_of_text {s : String} (h : text k fields = some s) :
    requiredText path kind k fields = .ok s := by
  rw [requiredText, h]
  rfl

theorem takeOpenaiCompat_singleton {baseUrl defaultModel : String}
    (hurl : text "base_url" fields = some baseUrl)
    (hmodel : text "default_model" fields = some defaultModel) :
    takeOpenaiCompat path [("openai_compat", .object fields)] =
      .ok ⟨normalizeOpenaiBaseUrl baseUrl, defaultModel, (text "api_key" fields).getD ""⟩ := by
  rw [takeOpenaiCompat, sectionOf_singleton]
  simp only [bind, Except.bind, requiredText_of_text hurl, requiredText_of_text hmodel]

theorem takeMcpServer_singleton {transport : McpTransport} {command : String}
    (htransport : transportOf path (text "transport" fields) = .ok transport)
    (hcommand : text "command" fields = some command) :
    takeMcpServer path [("mcp_server", .object fields)] =
      .ok ⟨transport, command, texts "args" fields, textTable "env" fields⟩ := by
  rw [takeMcpServer, sectionOf_singleton]
  simp only [bind, Except.bind, htransport, requiredText_of_text hcommand]

theorem takeHttpBase_singleton {baseUrl : String} (hurl : text "base_url" fields = some baseUrl) :
    takeHttpBase path [("http_base", .object fields)] =
      .ok ⟨baseUrl, textTable "headers" fields⟩ := by
  rw [takeHttpBase, sectionOf_singleton]
  simp only [bind, Except.bind, requiredText_of_text hurl]

end Backend

namespace BackendBody

open Toml

variable {P : TomlParser} {path name : String} {b : BackendBody}

/-- What it is read as: the base URL of a chat endpoint is normalized again. -/
def reread : BackendBody → BackendKind
  | openAICompat baseUrl defaultModel apiKey =>
    .openAICompat ⟨normalizeOpenaiBaseUrl baseUrl, defaultModel, apiKey⟩
  | b => b.kind

theorem ofToml_document : BackendFile.ofToml P (b.document name) =
    .ok ⟨"0.1", name, b.kindName,
      [(b.kindName, .object (sortFields (P.toObject b.bodyFields)))]⟩ := by
  cases b <;> rfl

theorem nodup_bodyFields (hb : b.WellFormed) :
    ((P.toObject b.bodyFields).map Prod.fst).Nodup := by
  rw [P.toObject_eq_map, List.map_map]
  cases b with
  | openAICompat => simp [bodyFields]
  | mcpServer transport command args env =>
    rw [bodyFields, argsFields, tableField]
    split_ifs <;> simp
  | httpBase baseUrl headers =>
    rw [bodyFields, tableField]
    split_ifs <;> simp

theorem lookup_toObject {k : String} {fields : List (String × Toml)} :
    (P.toObject fields).lookup k = (fields.lookup k).map P.toValue := by
  induction fields with
  | nil => rfl
  | cons x fields ih =>
    rw [TomlParser.toObject, List.lookup_cons, List.lookup_cons, ih]
    split
    · rfl
    · rfl

/-- A list of strings is read as it is. -/
theorem texts_argsFields {args : List String} {fields : List (String × Toml)}
    (h : fields.lookup "args" = (argsFields args).lookup "args") :
    Backend.texts "args" (P.toObject fields) = args := by
  rw [Backend.texts, lookup_toObject, h, argsFields]
  split_ifs with hargs
  · exact hargs.symm
  · rw [List.lookup_cons_self]
    change (P.toValues (args.map .string)).filterMap Value.asStr = args
    rw [P.toValues_eq_map, List.map_map, List.filterMap_map]
    exact List.filterMap_some

/-- A table of strings is read as it is. -/
theorem textTable_tableField {k : String} {entries : List (String × String)}
    {fields : List (String × Toml)} (hn : (entries.map Prod.fst).Nodup)
    (h : fields.lookup k = (tableField k entries).lookup k) :
    Backend.textTable k (P.toObject fields) = Finmap.collect entries := by
  rw [Backend.textTable, lookup_toObject, h, tableField]
  split_ifs with hentries
  · rw [hentries]
    rfl
  · rw [List.lookup_cons_self]
    change Finmap.collect ((sortFields (P.toObject _)).filterMap _) = _
    have hperm := (sortFields_perm (P.toObject (entries.map fun x => (x.1, string x.2)))).filterMap
      fun x => x.2.asStr.map fun s => (x.1, s)
    have hentries : (P.toObject (entries.map fun x => (x.1, string x.2))).filterMap
        (fun x => x.2.asStr.map fun s => (x.1, s)) = entries := by
      rw [P.toObject_eq_map, List.map_map, List.filterMap_map]
      exact List.filterMap_some
    rw [hentries] at hperm
    exact (collect_eq_of_perm hperm.symm hn).symm

theorem takeKind_document (hb : b.WellFormed) : Backend.takeKind path b.kindName
    [(b.kindName, .object (sortFields (P.toObject b.bodyFields)))] = .ok b.reread := by
  have hn : ((P.toObject b.bodyFields).map Prod.fst).Nodup := nodup_bodyFields hb
  cases b with
  | openAICompat baseUrl defaultModel apiKey =>
    change (Backend.takeOpenaiCompat path [("openai_compat", _)]).map _ = _
    rw [Backend.takeOpenaiCompat_singleton ((Backend.text_sortFields hn).trans rfl)
      ((Backend.text_sortFields hn).trans rfl), Backend.text_sortFields hn]
    rfl
  | mcpServer transport command args env =>
    have htransport : Backend.transportOf path (Backend.text "transport"
        (sortFields (P.toObject (bodyFields (mcpServer transport command args env))))) =
          .ok (if transport = "http_sse" then .httpSse else .stdio) := by
      rw [Backend.text_sortFields hn]
      change Backend.transportOf path (some transport) = _
      have hmem := hb.1
      rw [List.mem_cons, List.mem_singleton] at hmem
      rcases hmem with rfl | rfl
      · rfl
      · rfl
    -- the field of the arguments is left out when there are none, and reads the same
    have hargs : (bodyFields (mcpServer transport command args env)).lookup "args" =
        (argsFields args).lookup "args" := by
      rw [bodyFields, argsFields, tableField]
      split_ifs
      all_goals rfl
    have henv : (bodyFields (mcpServer transport command args env)).lookup "env" =
        (tableField "env" env).lookup "env" := by
      rw [bodyFields, argsFields, tableField]
      split_ifs
      all_goals rfl
    change (Backend.takeMcpServer path [("mcp_server", _)]).map _ = _
    rw [Backend.takeMcpServer_singleton htransport ((Backend.text_sortFields hn).trans rfl),
      Backend.texts_sortFields hn, Backend.textTable_sortFields hn, texts_argsFields hargs,
      textTable_tableField hb.2 henv]
    rfl
  | httpBase baseUrl headers =>
    have hheaders : (bodyFields (httpBase baseUrl headers)).lookup "headers" =
        (tableField "headers" headers).lookup "headers" := rfl
    change (Backend.takeHttpBase path [("http_base", _)]).map _ = _
    rw [Backend.takeHttpBase_singleton ((Backend.text_sortFields hn).trans rfl),
      Backend.textTable_sortFields hn, textTable_tableField hb hheaders]
    rfl

theorem trim_bare {s : List Char} (h : ∀ c ∈ s, isBareKeyChar c) : trim isWhitespace s = s := by
  have hblank : ∀ c, isBareKeyChar c → isWhitespace c = false := by
    intro c hc
    have hbounds := toNat_of_isTokenChar (isTokenChar_of_isBareKeyChar hc)
    simp only [isWhitespace, Bool.or_eq_false_iff, Bool.and_eq_false_iff, decide_eq_false_iff_not]
    omega
  have hdrop : s.dropWhile isWhitespace = s := by
    rcases s with _ | ⟨c, s⟩
    · rfl
    · refine List.dropWhile_cons_of_neg ?_
      rw [hblank c (h c List.mem_cons_self)]
      exact Bool.false_ne_true
  rw [trim, hdrop, List.rdropWhile_eq_self_iff]
  intro hne
  rw [hblank _ (h _ (List.getLast_mem hne))]
  exact Bool.false_ne_true

theorem parse_document {text : String} (hname : name ≠ "" ∧ ∀ c ∈ name.toList, isBareKeyChar c)
    (hb : b.WellFormed) (hparse : P.parse text = .ok (b.document name)) :
    parseBackendFile P path text = .ok ⟨name, b.reread⟩ := by
  have hversion : validateFormatVersion path "0.1" = .ok () := rfl
  rw [parseBackendFile, hparse]
  simp only [Except.bind, ofToml_document, Except.mapError, bind, hversion, takeKind_document hb,
    trim_bare hname.2, String.ofList_toList, Except.reject, if_neg hname.1]

end BackendBody

/-! ## What a request is read back as -/

namespace CreateBackendRequest

variable (req : CreateBackendRequest)

/-- The name that is asked for. -/
def trimmedName : String := String.ofList (trim isWhitespace req.name.toList)

/-- What is asked for, with this key of the API. -/
def asked (apiKey : String) : BackendBody :=
  match req.kind with
  | "openai_compat" => .openAICompat (normalizeOpenaiBaseUrl (req.baseUrl.getD ""))
      (req.defaultModel.getD "") apiKey
  | "mcp_server" => .mcpServer (req.transport.getD "stdio") (req.command.getD "") req.args req.env
  | _ => .httpBase (req.baseUrl.getD "") req.headers

variable {req}

theorem field_eq_ok {k kind : String} {v : Option String} {s : String}
    (h : field k kind v = .ok s) : v.getD "" = s := by
  rw [Except.elim_eq_ok.1 h, Option.getD_some]

theorem body_eq_ok {P : TomlParser} {path : String} {existing : Option String} {b : BackendBody}
    (h : req.body P path existing = .ok b) :
    b = req.asked (req.keyOf P path existing) ∧ b.WellFormed := by
  rw [body] at h
  split at h
  · next hkind =>
    obtain ⟨url, hurl, h⟩ := Except.bind_eq_ok.1 h
    obtain ⟨model, hmodel, h⟩ := Except.bind_eq_ok.1 h
    refine ⟨?_, Except.ok.inj h ▸ trivial⟩
    rw [asked, hkind, ← Except.ok.inj h, ← field_eq_ok hurl, ← field_eq_ok hmodel]
    rfl
  · next hkind =>
    obtain ⟨htransport, h⟩ := Except.check_eq_ok.1 h
    obtain ⟨command, hcommand, h⟩ := Except.bind_eq_ok.1 h
    obtain ⟨-, h⟩ := Except.check_eq_ok.1 h
    refine ⟨?_, Except.ok.inj h ▸ ⟨not_not.1 (Except.reject_eq_ok.1 htransport), req.env_nodup⟩⟩
    rw [asked, hkind, ← Except.ok.inj h, ← field_eq_ok hcommand]
    rfl
  · next hkind =>
    obtain ⟨url, hurl, h⟩ := Except.bind_eq_ok.1 h
    refine ⟨?_, Except.ok.inj h ▸ req.headers_nodup⟩
    rw [asked, hkind, ← Except.ok.inj h, ← field_eq_ok hurl]
    rfl
  · exact absurd h (by simp)

end CreateBackendRequest

/-- What a request asks for, given the files of the configuration. -/
def CreateBackendRequest.askedBody (req : CreateBackendRequest) (P : TomlParser) (dir : String)
    (existing : String → Option String) : BackendBody :=
  let fileName := req.trimmedName ++ ".toml"
  req.asked (req.keyOf P (dir ++ "/backends/" ++ fileName) (existing fileName))

section Created

variable {P : TomlParser} {dir name : String} {existing : String → Option String}
  {req : CreateBackendRequest} {b : BackendBody}

theorem createBackend_eq_ok (h : createBackend P dir existing req = .ok (name, b)) :
    name = req.trimmedName ∧ (name ≠ "" ∧ ∀ c ∈ name.toList, Toml.isBareKeyChar c) ∧
      b.WellFormed ∧ b = req.askedBody P dir existing := by
  obtain ⟨hname, h⟩ := Except.check_eq_ok.1 h
  obtain ⟨b', hbody, h⟩ := Except.bind_eq_ok.1 h
  obtain ⟨rfl, rfl⟩ := Prod.mk.inj (Except.ok.inj h)
  obtain ⟨hb, hwell⟩ := CreateBackendRequest.body_eq_ok hbody
  obtain ⟨hne, hbare⟩ := not_not.1 (Except.reject_eq_ok.1 hname)
  exact ⟨rfl, ⟨hne, List.all_eq_true.1 hbare⟩, hwell, hb⟩

/-- A base URL that was normalized is read as it is if it is settled. -/
theorem reread_askedBody : (req.askedBody P dir existing).reread =
    (req.askedBody P dir existing).kind ↔ (req.askedBody P dir existing).Settled := by
  rw [CreateBackendRequest.askedBody, CreateBackendRequest.asked]
  split
  · rw [BackendBody.Settled, ← normalize_normalize]
    simp [BackendBody.reread, BackendBody.kind]
  · exact iff_of_true rfl trivial
  · exact iff_of_true rfl trivial

/-- The file of a backend is read back as what was asked for, if its keys are read
    as they are, its strings are plain and its base URL is settled; the last two
    are needed. -/
theorem createBackend_read_back (hP : Toml.Conforms P.parse)
    (h : createBackend P dir existing req = .ok (name, b)) (path : String) :
    ((req.askedBody P dir existing).PlainKeys ∧ (req.askedBody P dir existing).Clean ∧
        (req.askedBody P dir existing).Settled →
      parseBackendFile P path (String.ofList (b.file name)) =
        .ok ⟨req.trimmedName, (req.askedBody P dir existing).kind⟩) ∧
    ((req.askedBody P dir existing).PlainKeys →
      parseBackendFile P path (String.ofList (b.file name)) =
        .ok ⟨req.trimmedName, (req.askedBody P dir existing).kind⟩ →
      (req.askedBody P dir existing).Clean ∧ (req.askedBody P dir existing).Settled) := by
  obtain ⟨rfl, hname, hb, rfl⟩ := createBackend_eq_ok h
  have hread : ∀ hkeys : (req.askedBody P dir existing).PlainKeys,
      Toml.read (String.ofList ((req.askedBody P dir existing).file req.trimmedName)).toList =
        if (req.askedBody P dir existing).Clean then
          .ok ((req.askedBody P dir existing).document req.trimmedName)
        else .error .invalid := by
    intro hkeys
    rw [String.toList_ofList]
    exact BackendBody.read_file hname.2 hb hkeys
  constructor
  · rintro ⟨hkeys, hclean, hsettled⟩
    have hparse := hP.of_ok ((hread hkeys).trans (if_pos hclean))
    rw [BackendBody.parse_document hname hb hparse, reread_askedBody.2 hsettled]
  · intro hkeys hok
    have hclean : (req.askedBody P dir existing).Clean := by
      by_contra hclean
      obtain ⟨e, he⟩ := hP.of_invalid ((hread hkeys).trans (if_neg hclean))
      rw [parseBackendFile, he] at hok
      exact absurd hok (by simp [Except.bind, Except.mapError, bind])
    have hparse := hP.of_ok ((hread hkeys).trans (if_pos hclean))
    rw [BackendBody.parse_document hname hb hparse] at hok
    have hkind := (BackendManifest.mk.inj (Except.ok.inj hok)).2
    exact ⟨hclean, reread_askedBody.1 hkind⟩

end Created

/-- The parser that reads what the reader of TOML reads, and nothing else. -/
def readerParser : TomlParser where
  parse text := (Toml.read text.toList).mapError fun _ => "invalid"
  shortest := id

theorem conforms_readerParser : Toml.Conforms readerParser.parse where
  of_ok h := by
    rw [readerParser]
    simp only [h, Except.mapError]
  of_invalid h := by
    rw [readerParser]
    simp only [h, Except.mapError]
    exact ⟨_, rfl⟩

/-- A request for a backend of this kind, with none of the fields of the others. -/
def blankRequest (name kind : String) : CreateBackendRequest where
  name := name
  kind := kind
  baseUrl := none
  defaultModel := none
  apiKey := none
  apiKeyKeep := false
  transport := none
  command := none
  args := []
  env := []
  headers := []
  env_nodup := List.nodup_nil
  headers_nodup := List.nodup_nil

/-- Two headers: quotes in the value of one, a quote in the name of the other and a
    backslash in its value. -/
def quotedHeaders : List (String × String) :=
  [("Accept", "text/\"plain\""), ("X\"", "c:\\d")]

/-- The file of a backend with these headers. -/
theorem createBackend_read_back_http :
    parseBackendFile readerParser "" (String.ofList
      ((BackendBody.httpBase "http://h" quotedHeaders).file "m")) =
        .ok ⟨"m", .httpBase ⟨"http://h", Finmap.collect quotedHeaders⟩⟩ := by
  have h : createBackend readerParser "" (fun _ => none)
      { blankRequest "m" "http_base" with
        baseUrl := some "http://h"
        headers := quotedHeaders
        headers_nodup := by decide } =
        .ok ("m", .httpBase "http://h" quotedHeaders) := rfl
  have hkeys : ∀ x ∈ quotedHeaders, '\\' ∉ x.1.toList := by decide
  have hclean : BackendBody.Plain "http://h" ∧
      ∀ x ∈ quotedHeaders, BackendBody.Plain x.1 ∧ BackendBody.Plain x.2 := by
    decide
  exact (createBackend_read_back conforms_readerParser h "").1 ⟨hkeys, hclean, trivial⟩

/-- A variable of the environment whose name has a value, a line feed and another
    name in it declares two variables. -/
theorem env_injected :
    Toml.Conforms readerParser.parse ∧
    createBackend readerParser "" (fun _ => none)
      { blankRequest "m" "mcp_server" with
        command := some "run"
        env := [("A = \"1\"\nB", "2")]
        env_nodup := List.nodup_singleton _ } =
      .ok ("m", .mcpServer "stdio" "run" [] [("A = \"1\"\nB", "2")]) ∧
    parseBackendFile readerParser "" (String.ofList
      ((BackendBody.mcpServer "stdio" "run" [] [("A = \"1\"\nB", "2")]).file "m")) =
        .ok ⟨"m", .mcpServer ⟨.stdio, "run", [], Finmap.collect [("A", "1"), ("B", "2")]⟩⟩ ∧
    (Finmap.collect [("A = \"1\"\nB", "2")] : Table String String) ≠
      Finmap.collect [("A", "1"), ("B", "2")] := by
  have hb : (BackendBody.mcpServer "stdio" "run" [] [("A", "1"), ("B", "2")]).WellFormed :=
    ⟨by decide, by decide⟩
  have hname : "m" ≠ "" ∧ ∀ c ∈ "m".toList, Toml.isBareKeyChar c := by decide
  have hkeys : ∀ x ∈ [("A", "1"), ("B", "2")], x.1 ≠ "" ∧ ∀ c ∈ x.1.toList, Toml.isBareKeyChar c := by
    decide
  have hclean : BackendBody.Clean (.mcpServer "stdio" "run" [] [("A", "1"), ("B", "2")]) :=
    ⟨by decide, by decide, by decide⟩
  have hfile : (BackendBody.mcpServer "stdio" "run" [] [("A = \"1\"\nB", "2")]).file "m" =
      (BackendBody.mcpServer "stdio" "run" [] [("A", "1"), ("B", "2")]).file "m" := by
    decide +kernel
  have hparse := conforms_readerParser.of_ok ((congrArg Toml.read String.toList_ofList).trans
    ((BackendBody.read_file hname.2 hb hkeys).trans (if_pos hclean)))
  refine ⟨conforms_readerParser, rfl, ?_, fun h => ?_⟩
  · rw [hfile, BackendBody.parse_document hname hb hparse]
    rfl
  · have hlookup := congrArg (Finmap.lookup "A") h
    exact absurd hlookup (by decide)

end N3ur0n
