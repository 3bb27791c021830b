import N3ur0n.Manifests.Documents

/-!
# The sections of a capability file

What the document of a capability declares (`CapFile.ofToml`): its descriptor,
and its binding with the sections of it that there are.

An access mode is read from a string (one given by a table is left out).
-/

namespace N3ur0n

/-- The access mode that a name in lower case stands for. -/
def AccessMode.ofName : String → Option AccessMode
  | "free" => some .free
  | "restricted" => some .restricted
  | "private" => some .private
  | _ => none

namespace Document

/-- A mode, by its name. -/
def accessMode (t : Toml) : Except String AccessMode := do
  let s ← string t
  (AccessMode.ofName s).elim
    (.error s!"unknown variant `{s}`, expected one of `free`, `restricted`, `private`") .ok

/-- A number of milliseconds. -/
def natural : Toml → Except String ℕ
  | .integer (.ofNat n) => .ok n
  | _ => .error "invalid type"

/-- Any value. -/
def value (P : TomlParser) (t : Toml) : Except String Value := .ok (P.toValue t)

/-- A map of values, in any order. -/
def values (P : TomlParser) (t : Toml) : Except String (Table String Value) :=
  (table t).map fun fields => Finmap.collect (P.toObject fields)

/-- A map of strings. -/
def strings (t : Toml) : Except String (Table String String) := do
  let fields ← table t
  let entries ← fields.mapM fun x => (string x.2).map (x.1, ·)
  .ok (Finmap.collect entries)

end Document

open Document

/-! ## The descriptor -/

/-- An item of `[[descriptor.examples]]`. -/
def CapabilityExample.ofToml (P : TomlParser) (t : Toml) : Except String CapabilityExample := do
  let fields ← table t
  let userIntent ← required "user_intent" string fields
  let args ← required "args" (value P) fields
  let expectedOutput ← required "expected_output" (value P) fields
  .ok ⟨userIntent, args, expectedOutput⟩

/-- An item of `[[descriptor.negative_examples]]`. -/
def NegativeExample.ofToml (t : Toml) : Except String NegativeExample := do
  let fields ← table t
  let userIntent ← required "user_intent" string fields
  let whyNot ← required "why_not" string fields
  .ok ⟨userIntent, whyNot⟩

/-- The section `[descriptor]`: what publishers of earlier versions leave out stands
    for nothing. -/
def CapabilityDescriptor.ofToml (P : TomlParser) (t : Toml) :
    Except String CapabilityDescriptor := do
  let fields ← table t
  let name ← required "name" string fields
  let description ← required "description" string fields
  let schemaIn ← required "schema_in" (value P) fields
  let schemaOut ← required "schema_out" (value P) fields
  let mode ← required "mode" accessMode fields
  let pricing ← optional "pricing" string fields
  let tags ← withDefault "tags" (array string) [] fields
  let lobeIds ← withDefault "lobe_ids" (array string) [] fields
  let examples ← withDefault "examples" (array (CapabilityExample.ofToml P)) [] fields
  let disambiguation ← optional "disambiguation" string fields
  let negativeExamples ← withDefault "negative_examples" (array NegativeExample.ofToml) [] fields
  let outputSemantic ← optional "output_semantic" string fields
  let version ← withDefault "version" string "0.0.0" fields
  let languages ← withDefault "languages" (array string) [] fields
  let countries ← withDefault "countries" (array string) [] fields
  .ok ⟨⟨name, schemaIn, schemaOut⟩, description, mode, pricing, tags, lobeIds, examples,
    disambiguation, negativeExamples, outputSemantic, version, languages, countries⟩

/-! ## The binding -/

/-- The section `[binding.prompt]`. -/
def PromptSection.ofToml (P : TomlParser) (t : Toml) : Except String PromptSection := do
  let fields ← table t
  let systemPrompt ← required "system_prompt" string fields
  let userTemplate ← optional "user_template" string fields
  let parameters ← withDefault "parameters" (values P) ∅ fields
  let outputParser ← optional "output_parser" string fields
  let model ← optional "model" string fields
  .ok ⟨systemPrompt, userTemplate, parameters, outputParser, model⟩

/-- The section `[binding.mcp]`. -/
def McpSection.ofToml (P : TomlParser) (t : Toml) : Except String McpSection := do
  let fields ← table t
  let toolName ← required "tool_name" string fields
  let argMapping ← withDefault "arg_mapping" (values P) ∅ fields
  let resultMapping ← withDefault "result_mapping" (values P) ∅ fields
  .ok ⟨toolName, argMapping, resultMapping⟩

/-- The section `[binding.http]`, with its headers. -/
def HttpSection.ofToml (P : TomlParser) (t : Toml) : Except String HttpSection := do
  let fields ← table t
  let urlTemplate ← required "url_template" string fields
  let method ← required "method" string fields
  let headers ← withDefault "headers" strings ∅ fields
  let bodyTemplate ← optional "body_template" (value P) fields
  let responsePath ← optional "response_path" string fields
  let timeoutMs ← optional "timeout_ms" natural fields
  .ok ⟨urlTemplate, method, headers, bodyTemplate, responsePath, timeoutMs⟩

/-- The section `[binding]`, with those of the kinds that are there. -/
def BindingHeader.ofToml (P : TomlParser) (t : Toml) : Except String BindingHeader := do
  let fields ← table t
  let kind ← required "type" string fields
  let backend ← required "backend" string fields
  let prompt ← optional "prompt" (PromptSection.ofToml P) fields
  let mcp ← optional "mcp" (McpSection.ofToml P) fields
  let http ← optional "http" (HttpSection.ofToml P) fields
  .ok ⟨kind, backend, prompt, mcp, http⟩

/-! ## The file -/

/-- The sections of a file; other sections are passed over. -/
def CapFile.ofToml (P : TomlParser) (t : Toml) : Except String CapFile := do
  let fields ← table t
  let manifest ← required "manifest" table fields
  let version ← required "version" string manifest
  let descriptor ← required "descriptor" (CapabilityDescriptor.ofToml P) fields
  let binding ← required "binding" (BindingHeader.ofToml P) fields
  .ok ⟨version, descriptor, binding⟩

/-- The reader of manifests over a parser of TOML. -/
def ManifestReader.ofParser (P : TomlParser) (parseSemver : String → Except String Unit)
    (compileSchema : Value → Except String Unit) : ManifestReader where
  capFile text := (P.parse text).bind (CapFile.ofToml P)
  parseSemver := parseSemver
  compileSchema := compileSchema

namespace Document

variable {α : Type} {k : String} {r : Toml → Except String α} {fields : List (String × Toml)}
  {v : Toml} {a d : α}

/-! ## Fields that are there -/

/-- A required field that is there is read as it would be on its own. -/
theorem required_of_lookup (h : fields.lookup k = some v) (hv : r v = .ok a) :
    required k r fields = .ok a := by
  rw [required, h]
  exact hv

/-- An optional field is read if it is there. -/
theorem optional_of_lookup {o : Option Toml} {m : Option α} (h : fields.lookup k = o)
    (ho : o.mapM r = .ok m) : optional k r fields = .ok m := by
  rw [optional, h]
  rcases o with _ | v
  · exact ho
  · exact ho

/-- A field that is missing stands for its default. -/
theorem withDefault_of_lookup {o : Option Toml} {m : Option α} (h : fields.lookup k = o)
    (ho : o.mapM r = .ok m) (hd : m.getD d = a) : withDefault k r d fields = .ok a := by
  rw [withDefault, optional_of_lookup h ho]
  exact congrArg Except.ok hd

end Document

end N3ur0n
