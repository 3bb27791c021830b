import N3ur0n.Manifests.Types

/-!
# The file of a capability

A capability is edited through a request, from which the text of its file is
written by hand (`buildCapToml`): strings, keys and values are each escaped in
a way of their own.
-/

namespace N3ur0n

structure CapExampleReq where
  userIntent : String
  args : Value
  expectedOutput : Value

/-- A map of a request is the list of its entries, in the order in which it is
    iterated. -/
inductive CapBindingReq
  | prompt (backend systemPrompt : String) (userTemplate : Option String)
    (parameters : List (String × Value)) (outputParser : String) (model : Option String)
  | mcp (backend toolName : String) (argMapping resultMapping : List (String × Value))
  | http (backend urlTemplate method : String) (headers : List (String × String))
    (bodyTemplate : Option Value) (responsePath : Option String) (timeoutMs : Option ℕ)

structure UpsertCapRequest where
  name : String
  version : String
  description : String
  mode : String
  languages : List String
  countries : List String
  tags : List String
  lobeIds : List String
  disambiguation : Option String
  outputSemantic : Option String
  schemaIn : Value
  schemaOut : Value
  examples : List CapExampleReq
  binding : CapBindingReq

namespace CapToml

/-- A quote, by its code. -/
def quoteChar : Char := Char.ofNat 34

/-- What a character of a string is replaced by. -/
def escape (c : Char) : List Char :=
  match c.toNat with
  | 92 => ['\\', '\\']
  | 34 => ['\\', c]
  | 10 => ['\\', 'n']
  | 13 => ['\\', 'r']
  | 9 => ['\\', 't']
  | _ => [c]

/-- `toml_str`: a string on one line. -/
def str (s : String) : List Char := quoteChar :: s.toList.flatMap escape ++ [quoteChar]

/-- Three quotes in a row are escaped. -/
def escapeTriples : List Char → List Char
  | c₁ :: c₂ :: c₃ :: cs =>
    if c₁ = quoteChar ∧ c₂ = quoteChar ∧ c₃ = quoteChar then
      '\\' :: quoteChar :: '\\' :: quoteChar :: '\\' :: quoteChar :: escapeTriples cs
    else c₁ :: escapeTriples (c₂ :: c₃ :: cs)
  | cs => cs

/-- `toml_multiline`: a string on several lines, if it has some. -/
def multiline (s : String) : List Char :=
  if s.toList.contains '\n' then
    let quotes := List.replicate 3 quoteChar
    quotes ++ '\n' :: escapeTriples s.toList ++ '\n' :: quotes
  else str s

/-- `toml_key`: a key is quoted unless it is bare. -/
def key (k : String) : List Char :=
  if k.toList.all fun c => c.isAlphanum || c = '_' then k.toList
  else quoteChar ::
    k.toList.flatMap (fun c => if c = quoteChar then ['\\', c] else [c]) ++ [quoteChar]

/-- The items, separated by commas. -/
def commaJoin (items : List (List Char)) : List Char := [',', ' '].intercalate items

mutual

/-- `json_to_toml_value`. -/
def value : Value → List Char
  | .null => [quoteChar, quoteChar]
  | .bool b => (if b then "true" else "false").toList
  | .number n => Value.Number.render n
  | .string s => str s
  | .array xs => '[' :: commaJoin (values xs) ++ [']']
  | .object fields => '{' :: ' ' :: commaJoin (pairs fields) ++ [' ', '}']

def values : List Value → List (List Char)
  | [] => []
  | x :: xs => value x :: values xs

/-- The entries of a map, as `key = value`. -/
def pairs : List (String × Value) → List (List Char)
  | [] => []
  | (k, x) :: fields => (key k ++ " = ".toList ++ value x) :: pairs fields

end

/-- A line of the file. -/
def line (parts : List Char) : List Char := parts ++ ['\n']

/-- A line that sets a key. -/
def set (k : String) (v : List Char) : List Char := line (k.toList ++ " = ".toList ++ v)

/-- A list of strings, unless it is empty. -/
def setStrings (k : String) (items : List String) : List Char :=
  if items = [] then [] else set k ('[' :: commaJoin (items.map str) ++ [']'])

/-- An optional text, unless it is blank. -/
def setText (k : String) (print : String → List Char) : Option String → List Char
  | none => []
  | some s => if isBlank s then [] else set k (print s)

/-- A map, unless it is empty. -/
def setMap (k : String) (fields : List (String × Value)) : List Char :=
  if fields = [] then [] else set k ('{' :: ' ' :: commaJoin (pairs fields) ++ [' ', '}'])

/-- The lines of a schema, each a key of it. -/
def schema (e : String) : Value → Except String (List Char)
  | .object fields => .ok ((pairs fields).flatMap line)
  | _ => .error e

def «example» (ex : CapExampleReq) : List Char :=
  line "\n[[descriptor.examples]]".toList ++ set "user_intent" (str ex.userIntent) ++
    set "args" (value ex.args) ++ set "expected_output" (value ex.expectedOutput)

/-- The header of a binding, and that of its section. -/
def bindingHeader (kind backend : String) : List Char :=
  line "\n[binding]".toList ++ set "type" (str kind) ++ set "backend" (str backend) ++
    line ("\n[binding.".toList ++ kind.toList ++ [']'])

def binding : CapBindingReq → Except String (List Char)
  | .prompt backend systemPrompt userTemplate parameters outputParser model =>
    .ok (bindingHeader "prompt" backend ++ set "system_prompt" (multiline systemPrompt) ++
      setText "user_template" multiline userTemplate ++ setMap "parameters" parameters ++
      set "output_parser" (str outputParser) ++ setText "model" str model)
  | .mcp backend toolName argMapping resultMapping => do
    Except.reject (isBlank toolName) "binding.mcp.tool_name is required"
    .ok (bindingHeader "mcp" backend ++ set "tool_name" (str toolName) ++
      setMap "arg_mapping" argMapping ++ setMap "result_mapping" resultMapping)
  | .http backend urlTemplate method headers bodyTemplate responsePath timeoutMs => do
    Except.reject (isBlank urlTemplate) "binding.http.url_template is required"
    let m := method.toUpper
    Except.reject (m ∉ ["GET", "POST", "PUT", "DELETE"])
      s!"binding.http.method `{method}` invalid (GET|POST|PUT|DELETE)"
    .ok (bindingHeader "http" backend ++ set "url_template" (str urlTemplate) ++
      set "method" (str m) ++ (timeoutMs.elim [] fun t => set "timeout_ms" (Nat.repr t).toList) ++
      setText "response_path" str responsePath ++
      (bodyTemplate.elim [] fun b => set "body_template" (value b)) ++
      if headers = [] then [] else line "\n[binding.http.headers]".toList ++
        headers.flatMap fun h => line (key h.1 ++ " = ".toList ++ str h.2))

end CapToml

open CapToml in
/-- The text of the file of a capability, under its trimmed name. -/
def buildCapToml (name : String) (req : UpsertCapRequest) : Except String (List Char) := do
  let schemaIn ← schema "schema_in must be a JSON object" req.schemaIn
  let schemaOut ← schema "schema_out must be a JSON object" req.schemaOut
  let binding ← binding req.binding
  .ok (line "[manifest]".toList ++ line (line "version = \"0.1\"".toList) ++
    line "[descriptor]".toList ++ set "name" (str name) ++ set "version" (str req.version) ++
    set "description" (str req.description) ++ set "mode" (str req.mode) ++
    setStrings "tags" req.tags ++ setStrings "lobe_ids" req.lobeIds ++
    setStrings "languages" req.languages ++ setStrings "countries" req.countries ++
    setText "disambiguation" multiline req.disambiguation ++
    setText "output_semantic" multiline req.outputSemantic ++
    line [] ++ line "[descriptor.schema_in]".toList ++ schemaIn ++
    line [] ++ line "[descriptor.schema_out]".toList ++ schemaOut ++
    req.examples.flatMap CapToml.example ++ binding)

end N3ur0n
