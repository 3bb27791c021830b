import N3ur0n.Blobs.Ticket
import N3ur0n.Lib.Table
import N3ur0n.Planner.Catalog

/-!
# Manifests

A capability of the node is declared by a file: its *descriptor*, which the
peers are shown, and its *binding* to a backend by the name of that one. A file
is read in two steps: its text into sections (`CapFile`), then these into a
manifest, after checks (`parseCapFile`).
-/

namespace N3ur0n

/-! ## Declarations -/

/-- A message that the capability is for, with its arguments and what it gives. -/
structure CapabilityExample where
  userIntent : String
  args : Value
  expectedOutput : Value
  deriving DecidableEq

/-- A user intent that should not invoke the capability. -/
structure NegativeExample where
  userIntent : String
  whyNot : String
  deriving DecidableEq

/-- Whether the peers may see and invoke it. -/
def AccessMode.isPublic : AccessMode → Bool
  | .private => false
  | .free | .restricted => true

/-- The declaration of a capability, in full: a planner reads what it extends. -/
structure CapabilityDescriptor extends CapabilityDecl where
  description : String
  mode : AccessMode
  pricing : Option String
  tags : List String
  lobeIds : List String
  examples : List CapabilityExample
  disambiguation : Option String
  negativeExamples : List NegativeExample
  outputSemantic : Option String
  version : String
  languages : List String
  countries : List String
  deriving DecidableEq

/-! ## Backends -/

/-- A server that speaks the protocol of OpenAI. -/
structure OpenAICompatConfig where
  baseUrl : String
  defaultModel : String
  apiKey : String
  deriving DecidableEq

/-- How an MCP server is reached. -/
inductive McpTransport
  | stdio
  | httpSse
  deriving DecidableEq

/-- An MCP server, as the command that runs it. -/
structure McpServerConfig where
  transport : McpTransport
  command : String
  args : List String
  env : Table String String
  deriving DecidableEq

/-- A base URL, with the headers of every request. -/
structure HttpBaseConfig where
  baseUrl : String
  headers : Table String String
  deriving DecidableEq

/-- What stands behind a backend, with what it takes to reach it. -/
inductive BackendKind
  | openAICompat (cfg : OpenAICompatConfig)
  | mcpServer (cfg : McpServerConfig)
  | httpBase (cfg : HttpBaseConfig)
  deriving DecidableEq

/-- A backend, by the name that bindings refer to. -/
structure BackendManifest where
  name : String
  kind : BackendKind
  deriving DecidableEq

/-! ## Bindings -/

/-- What the answer of a model is parsed as. -/
inductive OutputParser
  | text
  | json
  deriving DecidableEq

inductive HttpMethod
  | get
  | post
  | put
  | delete
  deriving DecidableEq

/-- How a capability is served by its backend: by a prompt, a tool or a request. -/
inductive BindingSpec
  | prompt (backend systemPrompt : String) (userTemplate : Option String)
    (parameters : Table String Value) (outputParser : OutputParser) (model : Option String)
  | mcp (backend toolName : String) (argMapping resultMapping : Table String Value)
  | http (backend urlTemplate : String) (method : HttpMethod) (headers : Table String String)
    (bodyTemplate : Option Value) (responsePath : Option String) (timeoutMs : Option ℕ)
  deriving DecidableEq

/-- The backend that a binding refers to. -/
def BindingSpec.backend : BindingSpec → String
  | .prompt backend .. | .mcp backend .. | .http backend .. => backend

/-- A capability as a file declares it. -/
structure CapabilityManifest where
  descriptor : CapabilityDescriptor
  binding : BindingSpec
  deriving DecidableEq

/-! ## The sections of a file -/

/-- `[binding.prompt]` -/
structure PromptSection where
  systemPrompt : String
  userTemplate : Option String
  parameters : Table String Value
  outputParser : Option String
  model : Option String
  deriving DecidableEq

/-- `[binding.mcp]` -/
structure McpSection where
  toolName : String
  argMapping : Table String Value
  resultMapping : Table String Value
  deriving DecidableEq

/-- `[binding.http]`, with its method as it is written. -/
structure HttpSection where
  urlTemplate : String
  method : String
  headers : Table String String
  bodyTemplate : Option Value
  responsePath : Option String
  timeoutMs : Option ℕ
  deriving DecidableEq

/-- `[binding]`, with the sections there are: its kind tells which one is meant. -/
structure BindingHeader where
  kind : String
  backend : String
  prompt : Option PromptSection
  mcp : Option McpSection
  http : Option HttpSection
  deriving DecidableEq

/-- The sections of a file, before they are checked. -/
structure CapFile where
  manifestVersion : String
  descriptor : CapabilityDescriptor
  binding : BindingHeader
  deriving DecidableEq

/-- Why a file is not read, with its path. -/
inductive ManifestError
  | toml (path source : String)
  | validation (path message : String)
  deriving DecidableEq

/-- What the reading of manifests takes from libraries, each with the text of its
    error: the sections of a text, the check of a version, and that of a schema. -/
structure ManifestReader where
  capFile : String → Except String CapFile
  parseSemver : String → Except String Unit
  compileSchema : Value → Except String Unit

/-- The only version of the format of files. -/
def supportedFormatVersion : String := "0.1"

/-- Nothing remains of it once trimmed. -/
def isBlank (s : String) : Bool := s.toList.all isWhitespace

/-- For instance `fr`, `en-US`, `zh-Hans-CN`. -/
def isPlausibleBcp47 (tag : String) : Bool :=
  2 ≤ tag.length ∧ tag.length ≤ 35 ∧ tag.toList.all fun c => c.isAlphanum || c = '-'

/-- Two upper case letters: no list of countries is looked at. -/
def isPlausibleIsoCountry (code : String) : Bool :=
  code.length = 2 ∧ code.toList.all Char.isUpper

def Value.isObject : Value → Bool
  | .object _ => true
  | _ => false

/-- A file of another version is refused. -/
def validateFormatVersion (path version : String) : Except ManifestError Unit :=
  Except.reject (version ≠ supportedFormatVersion) (.validation path
    s!"manifest.version is `{version}`; this runtime supports `{supportedFormatVersion}`")

namespace ManifestReader

variable (R : ManifestReader)

/-- A schema of the descriptor has to be an object. -/
def checkSchemaObject (path field : String) (schema : Value) : Except ManifestError Unit :=
  Except.reject (!schema.isObject) (.validation path s!"descriptor.{field} must be a JSON object")

/-- It has to compile. -/
def checkSchema (path field : String) (schema : Value) : Except ManifestError Unit :=
  (R.compileSchema schema).mapError fun e =>
    .validation path s!"descriptor.{field} is not a valid JSON Schema: {e}"

/-- The checks of a descriptor, the first one that fails being reported. -/
def validateDescriptor (path : String) (decl : CapabilityDescriptor) :
    Except ManifestError Unit := do
  Except.reject (isBlank decl.name) (.validation path "descriptor.name is empty")
  Except.reject (isBlank decl.description) (.validation path "descriptor.description is empty")
  (R.parseSemver decl.version).mapError fun e => .validation path
    s!"descriptor.version `{decl.version}` is not valid semver: {e}"
  checkSchemaObject path "schema_in" decl.schemaIn
  checkSchemaObject path "schema_out" decl.schemaOut
  R.checkSchema path "schema_in" decl.schemaIn
  R.checkSchema path "schema_out" decl.schemaOut
  decl.languages.forM fun lang => Except.reject (!isPlausibleBcp47 lang) (.validation path
    s!"descriptor.languages contains implausible BCP 47 tag `{lang}`")
  decl.countries.forM fun cc => Except.reject (!isPlausibleIsoCountry cc) (.validation path
    s!"descriptor.countries contains implausible ISO 3166-1 alpha-2 code `{cc}`")

/-- The parser of outputs that a section asks for. -/
def outputParserOf (path : String) (s : Option String) : Except ManifestError OutputParser :=
  match s.getD "text" with
  | "text" => .ok .text
  | "json" => .ok .json
  | other => .error (.validation path s!"output_parser `{other}` invalid (text|json)")

/-- The method that a section asks for, in any case. -/
def httpMethodOf (path method : String) : Except ManifestError HttpMethod :=
  match method.toUpper with
  | "GET" => .ok .get
  | "POST" => .ok .post
  | "PUT" => .ok .put
  | "DELETE" => .ok .delete
  | other => .error (.validation path s!"http.method `{other}` invalid (GET|POST|PUT|DELETE)")

/-- The section that the kind of the binding requires. -/
def sectionOf {α : Type} (path kind : String) (s : Option α) : Except ManifestError α :=
  s.elim (.error (.validation path s!"binding.type={kind} requires [binding.{kind}] section")) .ok

/-- The binding of a kind, from the section of this kind. -/
def buildBindingSpec (path : String) (b : BindingHeader) : Except ManifestError BindingSpec := do
  Except.reject (isBlank b.backend)
    (.validation path "binding.backend must reference a backend by name")
  match b.kind with
  | "prompt" =>
    let s ← sectionOf path "prompt" b.prompt
    let parser ← outputParserOf path s.outputParser
    .ok (.prompt b.backend s.systemPrompt s.userTemplate s.parameters parser s.model)
  | "mcp" =>
    let s ← sectionOf path "mcp" b.mcp
    Except.reject (isBlank s.toolName) (.validation path "binding.mcp.tool_name is empty")
    .ok (.mcp b.backend s.toolName s.argMapping s.resultMapping)
  | "http" =>
    let s ← sectionOf path "http" b.http
    let method ← httpMethodOf path s.method
    .ok (.http b.backend s.urlTemplate method s.headers s.bodyTemplate s.responsePath s.timeoutMs)
  | other => .error (.validation path s!"binding.type `{other}` invalid (prompt|mcp|http)")

/-- The manifest in a file with this text. -/
def parseCapFile (path text : String) : Except ManifestError CapabilityManifest := do
  let file ← (R.capFile text).mapError (.toml path)
  validateFormatVersion path file.manifestVersion
  R.validateDescriptor path file.descriptor
  let binding ← buildBindingSpec path file.binding
  .ok ⟨file.descriptor, binding⟩

end ManifestReader

end N3ur0n
