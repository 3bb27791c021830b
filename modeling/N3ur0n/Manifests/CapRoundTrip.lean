import N3ur0n.Manifests.CapDocument
import N3ur0n.Manifests.Reload

/-!
# What a capability is read back as

A request asks for a manifest (`UpsertCapRequest.manifest`): blank optional texts
count for nothing, and methods are in upper case. The file that is written for it
declares what it asks for, with its texts and its values as they are read back.

* `parseCapFile_text`: what the file of a legible request is read as;
* `checkUpsert_read_back`: when this is what was asked for.
-/

namespace N3ur0n

open Toml

/-- What a value is read back as. -/
def TomlParser.reread (P : TomlParser) (v : Value) : Value := P.toValue v.toToml

/-! ## What a request asks for -/

/-- The table of a map, with its values changed. -/
def collectWith (val : Value → Value) (m : List (String × Value)) : Table String Value :=
  Finmap.collect (m.map fun x => (x.1, val x.2))

namespace CapBindingReq

variable (txt : String → String) (val : Value → Value)

/-- The section of a binding, with its texts and its values changed. -/
def header : CapBindingReq → BindingHeader
  | prompt backend systemPrompt userTemplate parameters outputParser model =>
    ⟨"prompt", backend, some ⟨txt systemPrompt, (kept userTemplate).map txt,
      collectWith val parameters, some outputParser, kept model⟩, none, none⟩
  | mcp backend toolName argMapping resultMapping =>
    ⟨"mcp", backend, none,
      some ⟨toolName, collectWith val argMapping, collectWith val resultMapping⟩, none⟩
  | http backend urlTemplate method headers bodyTemplate responsePath timeoutMs =>
    ⟨"http", backend, none, none, some ⟨urlTemplate, method.toUpper, Finmap.collect headers,
      bodyTemplate.map val, kept responsePath, timeoutMs⟩⟩

/-- The binding that is asked for, if there are such a parser and such a method. -/
def spec : CapBindingReq → Option BindingSpec
  | prompt backend systemPrompt userTemplate parameters outputParser model =>
    (ManifestReader.outputParserOf "" (some outputParser)).toOption.map fun parser =>
      .prompt backend (txt systemPrompt) ((kept userTemplate).map txt) (collectWith val parameters)
        parser (kept model)
  | mcp backend toolName argMapping resultMapping =>
    some (.mcp backend toolName (collectWith val argMapping) (collectWith val resultMapping))
  | http backend urlTemplate method headers bodyTemplate responsePath timeoutMs =>
    (ManifestReader.httpMethodOf "" method).toOption.map fun m =>
      .http backend urlTemplate m (Finmap.collect headers) (bodyTemplate.map val)
        (kept responsePath) timeoutMs

end CapBindingReq

namespace UpsertCapRequest

variable (req : UpsertCapRequest) (txt : String → String) (val : Value → Value)

/-- The descriptor that is asked for, with its texts and its values changed. -/
def descriptor (name : String) (mode : AccessMode) : CapabilityDescriptor :=
  ⟨⟨name, val req.schemaIn, val req.schemaOut⟩, req.description, mode, none, req.tags, req.lobeIds,
    req.examples.map fun ex => ⟨ex.userIntent, val ex.args, val ex.expectedOutput⟩,
    (kept req.disambiguation).map txt, [], (kept req.outputSemantic).map txt, req.version,
    req.languages, req.countries⟩

/-- The manifest with the texts and the values changed, if the mode, the parser and
    the method that are named exist. -/
def manifestWith (name : String) : Option CapabilityManifest := do
  let mode ← AccessMode.ofName req.mode
  let spec ← req.binding.spec txt val
  some ⟨req.descriptor txt val name mode, spec⟩

/-- The name that is asked for. -/
def trimmedName : String := String.ofList (Cut.trim isWhitespace req.name.toList)

/-- The manifest that a request asks for. -/
def manifest : Option CapabilityManifest := req.manifestWith id id req.trimmedName

/-- Its values and its texts are read back as they are. -/
structure Exact : Prop where
  values : ∀ v ∈ req.values, v.Filled
  texts : ∀ t ∈ req.texts, '\n' ∉ t.toList

/-- What it asks for passes the checks of a file. -/
def Valid (R : ManifestReader) (path : String) : Prop :=
  ¬isBlank req.binding.backend ∧
    ∃ m ∈ req.manifest, R.validateDescriptor path m.descriptor = .ok ()

end UpsertCapRequest

/-! ## What a document declares -/

namespace Document

variable {α β : Type} {k : String} {fields : List (String × Toml)}

/-- A list is read if each of its items is. -/
theorem mapM_of_forall {γ : Type} {r : γ → Except String α} {xs : List β} {g : β → γ}
    {f : β → α} (h : ∀ x ∈ xs, r (g x) = .ok (f x)) :
    (xs.map g).mapM r = .ok (xs.map f) := by
  induction xs with
  | nil => rfl
  | cons x xs ih =>
    obtain ⟨hx, hxs⟩ := List.forall_mem_cons.1 h
    rw [List.map_cons, List.mapM_cons, hx, ih hxs]
    rfl

/-- A list of strings is read as it is, the empty one by its absence. -/
theorem withDefault_strings (items : List String)
    (h : fields.lookup k = CapToml.stringsField items) :
    withDefault k (array string) [] fields = .ok items := by
  rw [CapToml.stringsField] at h
  split at h
  · next hitems =>
    rw [hitems]
    exact withDefault_of_lookup h rfl rfl
  · refine withDefault_of_lookup (m := some items) h ?_ rfl
    have hread := mapM_of_forall (r := string) (g := Toml.string) (f := id)
      fun s (_ : s ∈ items) => rfl
    rw [List.map_id] at hread
    exact congrArg (Except.map some) hread

/-- An optional text is read as it is. -/
theorem optional_text {o : Option String} {f : String → String}
    (h : fields.lookup k = o.map fun t => .string (f t)) :
    optional k string fields = .ok (o.map f) := by
  refine optional_of_lookup h ?_
  cases o with
  | none => rfl
  | some s => rfl

/-- A map of values is read entry by entry. -/
theorem withDefault_values {P : TomlParser} {m : List (String × Value)}
    (h : fields.lookup k = CapToml.mapField m) :
    withDefault k (values P) ∅ fields = .ok (collectWith P.reread m) := by
  rw [CapToml.mapField] at h
  split at h
  · next hm =>
    rw [hm]
    exact withDefault_of_lookup h rfl rfl
  · refine withDefault_of_lookup (m := some (collectWith P.reread m)) h ?_ rfl
    have hread : values P (.table (Value.toTomlFields m)) = .ok (collectWith P.reread m) := by
      rw [Value.toTomlFields_eq_map, collectWith]
      change Except.ok (Finmap.collect (P.toObject _)) = _
      rw [P.toObject_eq_map, List.map_map]
      rfl
    exact congrArg (Except.map some) hread

/-- The headers are read as they are. -/
theorem withDefault_headers (headers : List (String × String))
    (h : fields.lookup k = if headers = [] then none else
      some (.table (headers.map fun x => (x.1, .string x.2)))) :
    withDefault k strings ∅ fields = .ok (Finmap.collect headers) := by
  split at h
  · next hheaders =>
    rw [hheaders]
    exact withDefault_of_lookup h rfl rfl
  · have hread := mapM_of_forall (g := fun x : String × String => (x.1, Toml.string x.2))
      (r := fun x : String × Toml => (string x.2).map (x.1, ·)) (f := id)
      fun x (_ : x ∈ headers) => rfl
    rw [List.map_id] at hread
    have hstrings : strings (.table (headers.map fun x => (x.1, .string x.2))) =
        .ok (Finmap.collect headers) := by
      simp only [strings, Document.table, bind, Except.bind, hread]
    exact withDefault_of_lookup h (congrArg (Except.map some) hstrings) rfl

end Document

open Document CapToml

variable {P : TomlParser} {name : String} {req : UpsertCapRequest}
  {schemaIn schemaOut : List (String × Value)}

/-- The table of a descriptor declares what is asked for, if there is such a mode. -/
theorem ofToml_descriptor (hin : req.schemaIn = .object schemaIn)
    (hout : req.schemaOut = .object schemaOut) :
    CapabilityDescriptor.ofToml P (.table (present (descriptorTable name req schemaIn schemaOut))) =
      (Document.accessMode (.string req.mode)).map (req.descriptor lined P.reread name) := by
  have hlookup : ∀ k, (present (descriptorTable name req schemaIn schemaOut)).lookup k =
      ((descriptorTable name req schemaIn schemaOut).lookup k).join :=
    fun k => lookup_present (nodup_descriptorTable name req schemaIn schemaOut)
  -- field by field, in the order in which they are read
  have hname := required_of_lookup (hlookup "name") (r := string) (a := name) rfl
  have hdescription := required_of_lookup (hlookup "description") (r := string)
    (a := req.description) rfl
  have hschemaIn := required_of_lookup (hlookup "schema_in") (r := value P)
    (a := P.reread req.schemaIn) (by rw [hin]; rfl)
  have hschemaOut := required_of_lookup (hlookup "schema_out") (r := value P)
    (a := P.reread req.schemaOut) (by rw [hout]; rfl)
  have hmode : required "mode" Document.accessMode
      (present (descriptorTable name req schemaIn schemaOut)) =
        Document.accessMode (.string req.mode) := by
    rw [required, hlookup]
    rfl
  have hpricing := optional_of_lookup (hlookup "pricing") (r := string) (m := none) rfl
  have htags := withDefault_strings req.tags (hlookup "tags")
  have hlobeIds := withDefault_strings req.lobeIds (hlookup "lobe_ids")
  have hlanguages := withDefault_strings req.languages (hlookup "languages")
  have hcountries := withDefault_strings req.countries (hlookup "countries")
  have hdisambiguation := optional_text (o := kept req.disambiguation) (hlookup "disambiguation")
  have houtputSemantic := optional_text (o := kept req.outputSemantic) (hlookup "output_semantic")
  have hversion := withDefault_of_lookup (hlookup "version") (r := string) (d := "0.0.0")
    (m := some req.version) rfl rfl
  have hnegative := withDefault_of_lookup (hlookup "negative_examples") (d := [])
    (r := array NegativeExample.ofToml) (m := none) rfl rfl
  have hexamples : withDefault "examples" (array (CapabilityExample.ofToml P)) []
      (present (descriptorTable name req schemaIn schemaOut)) = .ok (req.examples.map fun ex =>
        ⟨ex.userIntent, P.reread ex.args, P.reread ex.expectedOutput⟩) := by
    have hread := mapM_of_forall (r := CapabilityExample.ofToml P)
      (g := fun ex => .table (exampleFields ex))
      (f := fun ex => ⟨ex.userIntent, P.reread ex.args, P.reread ex.expectedOutput⟩)
      fun ex (_ : ex ∈ req.examples) => rfl
    rw [← Function.comp_def Toml.table, ← List.map_map] at hread
    exact withDefault_of_lookup (hlookup "examples") (congrArg (Except.map some) hread) rfl
  simp only [CapabilityDescriptor.ofToml, Document.table, bind, Except.bind, hname, hdescription,
    hschemaIn, hschemaOut, hmode, hpricing, htags, hlobeIds, hlanguages, hcountries,
    hdisambiguation, houtputSemantic, hversion, hnegative, hexamples]
  rcases Document.accessMode (.string req.mode) with e | mode
  · rfl
  · rfl

/-- The table of a binding declares what is asked for. -/
theorem ofToml_binding (b : CapBindingReq) :
    BindingHeader.ofToml P (.table (present (bindingTable b))) = .ok (b.header lined P.reread) := by
  have hlookup : ∀ k, (present (bindingTable b)).lookup k = ((bindingTable b).lookup k).join :=
    fun k => lookup_present (nodup_bindingTable b)
  have hkind : ∀ k, (present (kindTable b)).lookup k = ((kindTable b).lookup k).join :=
    fun k => lookup_present (nodup_kindTable b)
  have htype := required_of_lookup (hlookup "type") (r := string) (a := b.kind) rfl
  have hbackend := required_of_lookup (hlookup "backend") (r := string) (a := b.backend) rfl
  cases b with
  | prompt backend systemPrompt userTemplate parameters outputParser model =>
    have hsystem := required_of_lookup (hkind "system_prompt") (r := string)
      (a := lined systemPrompt) rfl
    have htemplate := optional_text (o := kept userTemplate) (hkind "user_template")
    have hparameters := withDefault_values (P := P) (m := parameters) (hkind "parameters")
    have hparser := optional_text (o := some outputParser) (f := id) (hkind "output_parser")
    have hmodel := optional_text (o := kept model) (f := id) (hkind "model")
    have hsection : PromptSection.ofToml P (.table (present (kindTable (.prompt backend systemPrompt
        userTemplate parameters outputParser model)))) = .ok ⟨lined systemPrompt,
          (kept userTemplate).map lined, collectWith P.reread parameters, some outputParser,
          kept model⟩ := by
      rw [Option.map_id] at hparser hmodel
      simp only [PromptSection.ofToml, Document.table, bind, Except.bind, hsystem, htemplate,
        hparameters, hparser, hmodel, id]
    have hprompt := optional_of_lookup (hlookup "prompt") (congrArg (Except.map some) hsection)
    have hmcp := optional_of_lookup (hlookup "mcp") (r := McpSection.ofToml P) (m := none) rfl
    have hhttp := optional_of_lookup (hlookup "http") (r := HttpSection.ofToml P)
      (m := none) rfl
    simp only [BindingHeader.ofToml, Document.table, bind, Except.bind, htype, hbackend, hprompt,
      hmcp, hhttp]
    rfl
  | mcp backend toolName argMapping resultMapping =>
    have htool := required_of_lookup (hkind "tool_name") (r := string) (a := toolName) rfl
    have harg := withDefault_values (P := P) (m := argMapping) (hkind "arg_mapping")
    have hresult := withDefault_values (P := P) (m := resultMapping) (hkind "result_mapping")
    have hsection : McpSection.ofToml P (.table (present (kindTable (.mcp backend toolName
        argMapping resultMapping)))) = .ok ⟨toolName, collectWith P.reread argMapping,
          collectWith P.reread resultMapping⟩ := by
      simp only [McpSection.ofToml, Document.table, bind, Except.bind, htool, harg, hresult]
    have hprompt := optional_of_lookup (hlookup "prompt") (r := PromptSection.ofToml P)
      (m := none) rfl
    have hmcp := optional_of_lookup (hlookup "mcp") (congrArg (Except.map some) hsection)
    have hhttp := optional_of_lookup (hlookup "http") (r := HttpSection.ofToml P)
      (m := none) rfl
    simp only [BindingHeader.ofToml, Document.table, bind, Except.bind, htype, hbackend, hprompt,
      hmcp, hhttp]
    rfl
  | http backend urlTemplate method headers bodyTemplate responsePath timeoutMs =>
    have hurl := required_of_lookup (hkind "url_template") (r := string) (a := urlTemplate) rfl
    have hmethod := required_of_lookup (hkind "method") (r := string) (a := method.toUpper) rfl
    have hheaders := withDefault_headers headers (hkind "headers")
    have hbody : optional "body_template" (value P) (present (kindTable (.http backend urlTemplate
        method headers bodyTemplate responsePath timeoutMs))) =
          .ok (bodyTemplate.map P.reread) := by
      refine optional_of_lookup (hkind "body_template") ?_
      cases bodyTemplate with
      | none => rfl
      | some b => rfl
    have hpath := optional_text (o := kept responsePath) (f := id) (hkind "response_path")
    have htimeout : optional "timeout_ms" natural (present (kindTable (.http backend urlTemplate
        method headers bodyTemplate responsePath timeoutMs))) = .ok timeoutMs := by
      refine optional_of_lookup (hkind "timeout_ms") ?_
      cases timeoutMs with
      | none => rfl
      | some t => rfl
    have hsection : HttpSection.ofToml P (.table (present (kindTable (.http backend urlTemplate
        method headers bodyTemplate responsePath timeoutMs)))) = .ok ⟨urlTemplate, method.toUpper,
          Finmap.collect headers, bodyTemplate.map P.reread, kept responsePath, timeoutMs⟩ := by
      rw [Option.map_id] at hpath
      simp only [HttpSection.ofToml, Document.table, bind, Except.bind, hurl, hmethod, hheaders,
        hbody, hpath, htimeout, id]
    have hprompt := optional_of_lookup (hlookup "prompt") (r := PromptSection.ofToml P)
      (m := none) rfl
    have hmcp := optional_of_lookup (hlookup "mcp") (r := McpSection.ofToml P) (m := none) rfl
    have hhttp := optional_of_lookup (hlookup "http") (congrArg (Except.map some) hsection)
    simp only [BindingHeader.ofToml, Document.table, bind, Except.bind, htype, hbackend, hprompt,
      hmcp, hhttp]
    rfl

/-- The file declares what is asked for, if there is such a mode. -/
theorem ofToml_document (hin : req.schemaIn = .object schemaIn)
    (hout : req.schemaOut = .object schemaOut) :
    CapFile.ofToml P (document name req schemaIn schemaOut) =
      (Document.accessMode (.string req.mode)).map fun mode =>
        ⟨"0.1", req.descriptor lined P.reread name mode, req.binding.header lined P.reread⟩ := by
  change ((CapabilityDescriptor.ofToml P (.table (present
    (descriptorTable name req schemaIn schemaOut)))).bind fun descriptor =>
      (BindingHeader.ofToml P (.table (present (bindingTable req.binding)))).bind fun binding =>
        .ok (⟨"0.1", descriptor, binding⟩ : CapFile)) = _
  rw [ofToml_descriptor hin hout, ofToml_binding]
  rcases Document.accessMode (.string req.mode) with e | mode
  · rfl
  · rfl

/-- A mode is read if it has this name. -/
theorem accessMode_eq_ok {s : String} {mode : AccessMode} :
    Document.accessMode (.string s) = .ok mode ↔ AccessMode.ofName s = some mode :=
  Except.elim_eq_ok

/-! ## What a file is read as -/

/-- The section of a request makes the binding that is asked for. -/
theorem buildBindingSpec_header {b : CapBindingReq} {t : List Char} (h : binding b = .ok t)
    (txt : String → String) (val : Value → Value) {path : String} {s : BindingSpec} :
    ManifestReader.buildBindingSpec path (b.header txt val) = .ok s ↔
      ¬isBlank b.backend ∧ b.spec txt val = some s := by
  have hcheck : ∀ {x : Except ManifestError BindingSpec} {o : Option BindingSpec},
      x.toOption = o →
      (((Except.reject (isBlank b.backend) (.validation path
        "binding.backend must reference a backend by name")).bind fun _ => x) = .ok s ↔
          ¬isBlank b.backend ∧ o = some s) := by
    intro x o hx
    rw [Except.check_eq_ok, Except.reject_eq_ok, ← hx, Except.toOption_eq_some]
  cases b with
  | prompt backend systemPrompt userTemplate parameters outputParser model =>
    have hparser : (ManifestReader.outputParserOf path (some outputParser)).toOption =
        (ManifestReader.outputParserOf "" (some outputParser)).toOption := by
      rw [ManifestReader.outputParserOf, ManifestReader.outputParserOf]
      split
      all_goals rfl
    refine hcheck ?_
    rw [CapBindingReq.spec, ← hparser]
    change ((ManifestReader.outputParserOf path (some outputParser)).bind fun parser =>
      .ok _).toOption = _
    rcases ManifestReader.outputParserOf path (some outputParser) with e | parser
    · rfl
    · rfl
  | mcp backend toolName argMapping resultMapping =>
    obtain ⟨htool, -⟩ := Except.check_eq_ok.1 h
    refine hcheck ?_
    change ((Except.reject (isBlank toolName) _).bind fun _ => .ok _).toOption = _
    rw [Except.reject, if_neg (Except.reject_eq_ok.1 htool)]
    rfl
  | http backend urlTemplate method headers bodyTemplate responsePath timeoutMs =>
    obtain ⟨-, h⟩ := Except.check_eq_ok.1 h
    obtain ⟨hmethod, -⟩ := Except.check_eq_ok.1 h
    have hnames : ∀ m ∈ ["GET", "POST", "PUT", "DELETE"],
        m.toList.map Char.toUpper = m.toList := by decide
    -- the method is read in upper case, in which it is written
    have hupper : method.toUpper.toUpper = method.toUpper := String.toList_inj.1
      (String.toList_map.trans (hnames _ (not_not.1 (Except.reject_eq_ok.1 hmethod))))
    have hmethods : (ManifestReader.httpMethodOf path method.toUpper).toOption =
        (ManifestReader.httpMethodOf "" method).toOption := by
      rw [ManifestReader.httpMethodOf, ManifestReader.httpMethodOf, hupper]
      split
      all_goals rfl
    refine hcheck ?_
    rw [CapBindingReq.spec, ← hmethods]
    change ((ManifestReader.httpMethodOf path method.toUpper).bind fun m => .ok _).toOption = _
    rcases ManifestReader.httpMethodOf path method.toUpper with e | m
    · rfl
    · rfl

/-- A manifest is what is left of a file, once it has passed its checks. -/
theorem manifestWith_eq_some {txt : String → String} {val : Value → Value}
    {m : CapabilityManifest} :
    req.manifestWith txt val name = some m ↔ ∃ mode, AccessMode.ofName req.mode = some mode ∧
      m.descriptor = req.descriptor txt val name mode ∧
      req.binding.spec txt val = some m.binding := by
  simp only [UpsertCapRequest.manifestWith, bind, Option.bind_eq_some_iff, Option.some.injEq]
  constructor
  · rintro ⟨mode, hmode, spec, hspec, rfl⟩
    exact ⟨mode, hmode, rfl, hspec⟩
  · rintro ⟨mode, hmode, hdescriptor, hspec⟩
    exact ⟨mode, hmode, m.binding, hspec, by rw [← hdescriptor]⟩

section Read

variable {text : List Char} {parseSemver : String → Except String Unit}
  {compileSchema : Value → Except String Unit} {path : String} {m : CapabilityManifest}

/-- What the file of a legible request declares: what is asked for, with its texts
    and its values as they are read back. -/
theorem capFile_text (hP : Toml.Conforms P.parse) (hw : req.WellFormed P) (hl : req.Legible)
    (hname : PlainText name) (hexamples : req.examples ≠ [])
    (h : buildCapToml name req = .ok text) {file : CapFile} :
    (ManifestReader.ofParser P parseSemver compileSchema).capFile (String.ofList text) = .ok file ↔
      req.Clean ∧ ∃ mode, AccessMode.ofName req.mode = some mode ∧
        file = ⟨"0.1", req.descriptor lined P.reread name mode,
          req.binding.header lined P.reread⟩ := by
  obtain ⟨schemaIn, schemaOut, hin, hout, hread⟩ := readsWhen_file h hname hw hl
  have hmem : Value.object schemaIn ∈ req.values ∧ Value.object schemaOut ∈ req.values := by
    rw [← hin, ← hout]
    exact ⟨List.mem_cons_self, List.mem_cons_of_mem _ List.mem_cons_self⟩
  by_cases hclean : req.Clean
  · have hdocument : Toml.read (String.ofList text).toList =
        .ok (document name req schemaIn schemaOut) := by
      rw [String.toList_ofList, read_of_readsLines (hread.1 hclean)]
      exact build_fileSections (hw.values _ hmem.1).1.1.nodup (hw.values _ hmem.2).1.1.nodup
        hw.headers hexamples
    have hfile : (ManifestReader.ofParser P parseSemver compileSchema).capFile
        (String.ofList text) = (Document.accessMode (.string req.mode)).map fun mode =>
          ⟨"0.1", req.descriptor lined P.reread name mode, req.binding.header lined P.reread⟩ := by
      rw [← ofToml_document hin hout]
      exact congrArg (Except.bind · (CapFile.ofToml P)) (hP.of_ok hdocument)
    rw [hfile, Except.map_eq_ok, and_iff_right hclean]
    exact exists_congr fun _ => and_congr accessMode_eq_ok eq_comm
  · -- nothing is declared by a text that is no TOML
    have hinvalid : Toml.read (String.ofList text).toList = .error .invalid := by
      rw [String.toList_ofList, read_of_readsLines (hread.2 hclean)]
      rfl
    obtain ⟨e, he⟩ := hP.of_invalid hinvalid
    refine iff_of_false (fun hok => ?_) fun hok => hclean hok.1
    obtain ⟨_, hparse, -⟩ := Except.bind_eq_ok.1 hok
    rw [he] at hparse
    cases hparse

/-- What it is read as, if what is asked for is valid. -/
theorem parseCapFile_text (hP : Toml.Conforms P.parse) (hw : req.WellFormed P) (hl : req.Legible)
    (hname : PlainText name) (hexamples : req.examples ≠ [])
    (h : buildCapToml name req = .ok text) :
    (ManifestReader.ofParser P parseSemver compileSchema).parseCapFile path (String.ofList text) =
        .ok m ↔
      req.Clean ∧ req.manifestWith lined P.reread name = some m ∧ ¬isBlank req.binding.backend ∧
        (ManifestReader.ofParser P parseSemver compileSchema).validateDescriptor path
          m.descriptor = .ok () := by
  obtain ⟨_, _, t, _, _, hbinding, _⟩ := buildCapToml_eq_ok h
  rw [manifestWith_eq_some]
  constructor
  · intro hok
    obtain ⟨file, hfile, hok⟩ := Except.bind_eq_ok.1 hok
    obtain ⟨hclean, mode, hmode, rfl⟩ :=
      (capFile_text hP hw hl hname hexamples h).1 (Except.mapError_eq_ok.1 hfile)
    obtain ⟨-, hok⟩ := Except.check_eq_ok.1 hok
    obtain ⟨hvalid, hok⟩ := Except.check_eq_ok.1 hok
    obtain ⟨spec, hspec, hok⟩ := Except.bind_eq_ok.1 hok
    obtain ⟨hblank, hspec⟩ := (buildBindingSpec_header hbinding _ _).1 hspec
    obtain rfl := Except.ok.inj hok
    exact ⟨hclean, ⟨mode, hmode, rfl, hspec⟩, hblank, hvalid⟩
  · rintro ⟨hclean, ⟨mode, hmode, hdescriptor, hspec⟩, hblank, hvalid⟩
    rw [hdescriptor] at hvalid
    refine Except.bind_eq_ok.2 ⟨_, Except.mapError_eq_ok.2
      ((capFile_text hP hw hl hname hexamples h).2 ⟨hclean, mode, hmode, rfl⟩),
        Except.check_eq_ok.2 ⟨rfl, Except.check_eq_ok.2 ⟨hvalid, Except.bind_eq_ok.2 ⟨m.binding,
          (buildBindingSpec_header hbinding _ _).2 ⟨hblank, hspec⟩, ?_⟩⟩⟩⟩
    rw [← hdescriptor]

end Read

/-! ## When it is what was asked for -/

section Exact

variable {txt : String → String} {val : Value → Value}

/-- The entries of a map are those of its table. -/
theorem collectWith_eq_iff {m : List (String × Value)} (hn : (m.map Prod.fst).Nodup) :
    collectWith val m = collectWith id m ↔ ∀ x ∈ m, val x.2 = x.2 := by
  have hkeys : ∀ f : Value → Value, ((m.map fun x => (x.1, f x.2)).map Prod.fst).Nodup := by
    intro f
    rw [List.map_map]
    exact hn
  have hlookup : ∀ f : Value → Value, ∀ x ∈ m, (collectWith f m).lookup x.1 = some (f x.2) :=
    fun f x hx => (Finmap.lookup_collect (hkeys f)).2
      (List.mem_map_of_mem (f := fun x => (x.1, f x.2)) hx)
  constructor
  · intro h x hx
    have hval := hlookup val x hx
    rw [h, hlookup id x hx] at hval
    exact (Option.some.inj hval).symm
  · intro h
    exact congrArg Finmap.collect (List.map_congr_left fun x hx => congrArg (x.1, ·) (h x hx))

/-- A function that leaves an option as it is leaves what is in it. -/
theorem map_eq_map_id {α : Type} {o : Option α} {f : α → α} :
    o.map f = o.map id ↔ ∀ a ∈ o.toList, f a = a := by
  cases o with
  | none => simp
  | some a => simp

/-- A binding tells its maps, its values and its texts. -/
theorem spec_eq_iff {b : CapBindingReq} (hn : ∀ m ∈ b.maps, (m.map Prod.fst).Nodup)
    (h : (b.spec id id).isSome) : b.spec txt val = b.spec id id ↔
      (∀ m ∈ b.maps, ∀ x ∈ m, val x.2 = x.2) ∧ (∀ v ∈ b.values, val v = v) ∧
        ∀ t ∈ b.texts, txt t = t := by
  cases b with
  | prompt backend systemPrompt userTemplate parameters outputParser model =>
    -- the parser does not depend on the texts
    obtain ⟨hparameters, -⟩ := List.forall_mem_cons.1 hn
    rw [CapBindingReq.spec, Option.isSome_map] at h
    obtain ⟨parser, hparser⟩ := Option.isSome_iff_exists.1 h
    simp only [CapBindingReq.spec, hparser, Option.map_some, Option.some.injEq,
      BindingSpec.prompt.injEq, map_eq_map_id, collectWith_eq_iff hparameters, CapBindingReq.maps,
      CapBindingReq.values, CapBindingReq.texts, List.forall_mem_cons, id, true_and, and_true]
    tauto
  | mcp backend toolName argMapping resultMapping =>
    obtain ⟨harg, hmaps⟩ := List.forall_mem_cons.1 hn
    obtain ⟨hresult, -⟩ := List.forall_mem_cons.1 hmaps
    simp only [CapBindingReq.spec, Option.some.injEq, BindingSpec.mcp.injEq,
      collectWith_eq_iff harg, collectWith_eq_iff hresult, CapBindingReq.maps,
      CapBindingReq.values, CapBindingReq.texts, List.forall_mem_cons, true_and]
    tauto
  | http backend urlTemplate method headers bodyTemplate responsePath timeoutMs =>
    rw [CapBindingReq.spec, Option.isSome_map] at h
    obtain ⟨m, hm⟩ := Option.isSome_iff_exists.1 h
    simp only [CapBindingReq.spec, hm, Option.map_some, Option.some.injEq,
      BindingSpec.http.injEq, map_eq_map_id, CapBindingReq.maps, CapBindingReq.values,
      CapBindingReq.texts, true_and, and_true]
    tauto

/-- A descriptor tells its schemas, the values of its examples and its texts. -/
theorem descriptor_eq_iff {mode : AccessMode} :
    req.descriptor txt val name mode = req.descriptor id id name mode ↔
      (val req.schemaIn = req.schemaIn ∧ val req.schemaOut = req.schemaOut) ∧
        (∀ ex ∈ req.examples, val ex.args = ex.args ∧ val ex.expectedOutput = ex.expectedOutput) ∧
        (∀ t ∈ (kept req.disambiguation).toList, txt t = t) ∧
          ∀ t ∈ (kept req.outputSemantic).toList, txt t = t := by
  simp only [UpsertCapRequest.descriptor, CapabilityDescriptor.mk.injEq, CapabilityDecl.mk.injEq,
    map_eq_map_id, List.map_inj_left, CapabilityExample.mk.injEq, id, true_and, and_true]

/-- A manifest tells the values and the texts of its request. -/
theorem manifestWith_eq_iff {m : CapabilityManifest}
    (hn : ∀ m ∈ req.binding.maps, (m.map Prod.fst).Nodup)
    (h : req.manifestWith id id name = some m) : req.manifestWith txt val name = some m ↔
      (∀ v ∈ req.values, val v = v) ∧ ∀ t ∈ req.texts, txt t = t := by
  obtain ⟨mode, hmode, hdescriptor, hspec⟩ := manifestWith_eq_some.1 h
  have hsome : (req.binding.spec id id).isSome := by
    rw [hspec]
    rfl
  have hparts : req.manifestWith txt val name = some m ↔
      req.descriptor txt val name mode = req.descriptor id id name mode ∧
        req.binding.spec txt val = req.binding.spec id id := by
    rw [manifestWith_eq_some, hmode, hdescriptor, hspec]
    simp only [Option.some.injEq, exists_eq_left']
    exact and_congr_left fun _ => eq_comm
  rw [hparts, descriptor_eq_iff, spec_eq_iff hn hsome, UpsertCapRequest.values,
    UpsertCapRequest.texts]
  simp only [List.cons_append, List.forall_mem_cons, List.forall_mem_append, List.forall_mem_map,
    List.forall_mem_flatMap, List.forall_mem_flatten, forall₂_and]
  tauto

end Exact

namespace CapNode

variable {N : CapNode} {σ : CapState}

/-- What a request that is accepted is known to be. -/
theorem checkUpsert_eq_ok {text : String} (h : N.checkUpsert σ req = .ok (name, text)) :
    name = req.trimmedName ∧ validCapName name ∧ req.examples ≠ [] ∧
      ∃ t, buildCapToml name req = .ok t ∧ text = String.ofList t := by
  have hvalid := validCapName_of_checkUpsert h
  obtain ⟨-, h⟩ := Except.check_eq_ok.1 h
  obtain ⟨-, h⟩ := Except.check_eq_ok.1 h
  obtain ⟨-, h⟩ := Except.check_eq_ok.1 h
  obtain ⟨hexamples, h⟩ := Except.check_eq_ok.1 h
  obtain ⟨-, h⟩ := Except.check_eq_ok.1 h
  obtain ⟨t, ht, h⟩ := Except.bind_eq_ok.1 h
  obtain ⟨rfl, rfl⟩ := Prod.mk.inj (Except.ok.inj h)
  refine ⟨rfl, hvalid, ?_, t, Except.mapError_eq_ok.1 ht, rfl⟩
  simpa using Except.reject_eq_ok.1 hexamples

/-- The names of capabilities have no control characters. -/
theorem plainText_of_validCapName (h : validCapName name) : PlainText name := by
  intro c hc hcontrol
  have hchar := List.all_eq_true.1 (of_decide_eq_true h).2 c hc
  simp only [Bool.or_eq_true, decide_eq_true_eq, or_assoc] at hchar
  rw [isControl_of_isTokenChar (isTokenChar_of_isBareKeyChar (decide_eq_true hchar))] at hcontrol
  cases hcontrol

/-- The file that is written for a legible request declares the name asked for. -/
theorem names_of_legible {parseSemver : String → Except String Unit}
    {compileSchema : Value → Except String Unit} (hP : Toml.Conforms P.parse)
    (hw : req.WellFormed P) (hl : req.Legible)
    (hN : N.reader = ManifestReader.ofParser P parseSemver compileSchema) : N.Names σ req := by
  intro name text file hc hfile
  obtain ⟨-, hvalid, hexamples, t, ht, rfl⟩ := checkUpsert_eq_ok hc
  rw [hN] at hfile
  obtain ⟨-, mode, -, rfl⟩ :=
    (capFile_text hP hw hl (plainText_of_validCapName hvalid) hexamples ht).1 hfile
  rfl

/-- The file that is written for a capability is read back as what was asked for, if
    the request is legible, its strings and keys are plain, it has no `null` and no
    text of several lines, and what it asks for is valid; of legible requests, all
    of this is needed. -/
theorem checkUpsert_read_back {text : String} (hP : Toml.Conforms P.parse) (hw : req.WellFormed P)
    (h : N.checkUpsert σ req = .ok (name, text)) (path : String) :
    let R := ManifestReader.ofParser P N.reader.parseSemver N.reader.compileSchema
    (req.Legible ∧ req.Clean ∧ req.Exact ∧ req.Valid R path →
      ∃ m ∈ req.manifest, R.parseCapFile path text = .ok m) ∧
    (req.Legible → (∃ m ∈ req.manifest, R.parseCapFile path text = .ok m) →
      req.Clean ∧ req.Exact ∧ req.Valid R path) := by
  intro R
  obtain ⟨rfl, hvalid, hexamples, t, ht, rfl⟩ := checkUpsert_eq_ok h
  have hname := plainText_of_validCapName hvalid
  have hread : ∀ {m}, m ∈ req.manifest → req.Legible →
      (R.parseCapFile path (String.ofList t) = .ok m ↔
        req.Clean ∧ req.Exact ∧ ¬isBlank req.binding.backend ∧
          R.validateDescriptor path m.descriptor = .ok ()) := by
    intro m hm hl
    -- what is read back is what was asked for if its parts are
    have hexact : ((∀ v ∈ req.values, P.reread v = v) ∧ ∀ t ∈ req.texts, lined t = t) ↔
        req.Exact := by
      constructor
      · rintro ⟨hvalues, htexts⟩
        exact ⟨fun v hv => (Value.toValue_toToml (hw.values v hv)).1 (hvalues v hv),
          fun t ht => lined_eq_self.1 (htexts t ht)⟩
      · intro hexact
        exact ⟨fun v hv => (Value.toValue_toToml (hw.values v hv)).2 (hexact.values v hv),
          fun t ht => lined_eq_self.2 (hexact.texts t ht)⟩
    rw [parseCapFile_text hP hw hl hname hexamples ht, manifestWith_eq_iff hw.maps hm, hexact]
  constructor
  · rintro ⟨hl, hclean, hexact, hblank, m, hm, hvalidated⟩
    exact ⟨m, hm, (hread hm hl).2 ⟨hclean, hexact, hblank, hvalidated⟩⟩
  · rintro hl ⟨m, hm, hok⟩
    obtain ⟨hclean, hexact, hblank, hvalidated⟩ := (hread hm hl).1 hok
    exact ⟨hclean, hexact, hblank, m, hm, hvalidated⟩

end CapNode

/-! ## Two requests -/

/-- A prompt with quotes and backslashes in its texts, its keys and its values. -/
def quotedPrompt : UpsertCapRequest :=
  { toyRequest "quoted" "say \"hi\"" with
    disambiguation := some "not \\d"
    schemaIn := .object [("$schema", .string "a\tb"), ("properties", .object [("a \"b\"",
      .array [.bool true, .number (.float "0.5"), .number (.int 7), .object []])])]
    binding := .prompt "b" "You are \"c:\\d\"." (some "go") [("top p", .number (.float "0.2"))]
      "json" (some "m") }

/-- A prompt of two lines. -/
def twoLines : UpsertCapRequest :=
  { toyRequest "lines" "d" with binding := .prompt "b" "a\nb" none [] "text" none }

namespace CapNode

/-- The file of a prompt with quotes and backslashes is read back as it was asked for. -/
theorem checkUpsert_read_back_quoted : ∃ text,
    toyCapNode.checkUpsert (serving []) quotedPrompt = .ok ("quoted", text) ∧
    ∃ m ∈ quotedPrompt.manifest, (ManifestReader.ofParser readerParser (fun _ => .ok ())
      fun _ => .ok ()).parseCapFile "" text = .ok m := by
  obtain ⟨text, h⟩ : ∃ text,
      toyCapNode.checkUpsert (serving []) quotedPrompt = .ok ("quoted", text) := ⟨_, rfl⟩
  have hw : quotedPrompt.WellFormed readerParser := by
    refine ⟨?_, by decide, by decide⟩
    have hempty : readerParser.IsJson (.object []) :=
      ⟨⟨List.Pairwise.nil, trivial⟩, fun _ hn => absurd hn List.not_mem_nil⟩
    have hfloat : readerParser.IsJson (.number (.float "0.2")) :=
      ⟨trivial, List.forall_mem_singleton.2 ⟨by decide, rfl⟩⟩
    have hschema : readerParser.IsJson quotedPrompt.schemaIn := by
      refine ⟨⟨List.pairwise_pair.2 (by decide), trivial,
        ⟨List.pairwise_singleton _ _, ⟨trivial, trivial, trivial, hempty.1, trivial⟩, trivial⟩,
          trivial⟩, ?_⟩
      exact List.forall_mem_cons.2 ⟨⟨by decide, rfl⟩, List.forall_mem_singleton.2 rfl⟩
    exact List.forall_mem_cons.2 ⟨hschema, List.forall_mem_cons.2 ⟨hempty,
      List.forall_mem_cons.2 ⟨hempty, List.forall_mem_cons.2 ⟨hempty,
        List.forall_mem_singleton.2 hfloat⟩⟩⟩⟩
  have hl : quotedPrompt.Legible := ⟨by decide, by decide, by decide, by decide⟩
  have hc : quotedPrompt.Clean := ⟨by decide, by decide, by decide, by decide⟩
  have he : quotedPrompt.Exact := ⟨by decide, by decide⟩
  have hv : quotedPrompt.Valid (ManifestReader.ofParser readerParser (fun _ => .ok ())
      fun _ => .ok ()) "" := ⟨by decide, _, rfl, rfl⟩
  exact ⟨text, h, (checkUpsert_read_back conforms_readerParser hw h "").1 ⟨hl, hc, he, hv⟩⟩

/-- A prompt of two lines is read back with one more line feed. -/
theorem twoLines_lengthened :
    Toml.Conforms readerParser.parse ∧ twoLines.WellFormed readerParser ∧ ∃ text m m',
      toyCapNode.checkUpsert (serving []) twoLines = .ok ("lines", text) ∧
      twoLines.manifest = some m ∧
      (ManifestReader.ofParser readerParser (fun _ => .ok ())
        fun _ => .ok ()).parseCapFile "" text = .ok m' ∧
      m.binding = .prompt "b" "a\nb" none ∅ .text none ∧
      m'.binding = .prompt "b" "a\nb\n" none ∅ .text none := by
  have hw : twoLines.WellFormed readerParser := by
    have hempty : readerParser.IsJson (.object []) :=
      ⟨⟨List.Pairwise.nil, trivial⟩, fun _ hn => absurd hn List.not_mem_nil⟩
    refine ⟨fun v hv => ?_, by decide, by decide⟩
    have hv' : v = .object [] := by
      revert v
      decide
    exact hv' ▸ hempty
  have hl : twoLines.Legible := ⟨by decide, by decide, by decide, by decide⟩
  have hc : twoLines.Clean := ⟨by decide, by decide, by decide, by decide⟩
  obtain ⟨text, h⟩ : ∃ text, toyCapNode.checkUpsert (serving []) twoLines = .ok ("lines", text) :=
    ⟨_, rfl⟩
  obtain ⟨-, -, hexamples, t, ht, rfl⟩ := checkUpsert_eq_ok h
  have hm : twoLines.manifest = some ⟨twoLines.descriptor id id "lines" .free,
      .prompt "b" "a\nb" none ∅ .text none⟩ := rfl
  have hm' : twoLines.manifestWith lined readerParser.reread "lines" =
      some ⟨twoLines.descriptor lined readerParser.reread "lines" .free,
        .prompt "b" "a\nb\n" none ∅ .text none⟩ := rfl
  exact ⟨conforms_readerParser, hw, _, _, _, h, hm, (parseCapFile_text conforms_readerParser hw hl
    (by decide) hexamples ht).2 ⟨hc, hm', by decide, rfl⟩, rfl, rfl⟩

end CapNode

end N3ur0n
