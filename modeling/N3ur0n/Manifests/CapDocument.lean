import N3ur0n.Manifests.CapTexts

/-!
# The document of a capability

The sections that are read from the text of a request (`UpsertCapRequest.document`),
chunk by chunk of the text: every chunk sets some fields, of which those without
a value are left out.

A request has strings on one line, texts of several lines, keys and values: its
text is read if these are clean, and is invalid otherwise.
-/

namespace N3ur0n

open Toml

/-! ## The parts of a request -/

/-- An optional text, unless it is blank. -/
def kept (s : Option String) : Option String := s.filter fun s => !isBlank s

namespace CapBindingReq

/-- The name of the kind of binding. -/
def kind : CapBindingReq → String
  | prompt .. => "prompt"
  | mcp .. => "mcp"
  | http .. => "http"

/-- The name of the backend. -/
def backend : CapBindingReq → String
  | prompt backend .. | mcp backend .. | http backend .. => backend

/-- The maps of values. -/
def maps : CapBindingReq → List (List (String × Value))
  | prompt _ _ _ parameters _ _ => [parameters]
  | mcp _ _ argMapping resultMapping => [argMapping, resultMapping]
  | http .. => []

/-- The headers of every request. -/
def headers : CapBindingReq → List (String × String)
  | http _ _ _ headers _ _ _ => headers
  | _ => []

/-- The time that a request may take. -/
def timeoutMs : CapBindingReq → Option ℕ
  | http _ _ _ _ _ _ timeoutMs => timeoutMs
  | _ => none

/-- The values that are in no map. -/
def values : CapBindingReq → List Value
  | http _ _ _ _ bodyTemplate _ _ => bodyTemplate.toList
  | _ => []

/-- The texts that may have several lines. -/
def texts : CapBindingReq → List String
  | prompt _ systemPrompt userTemplate _ _ _ => systemPrompt :: (kept userTemplate).toList
  | _ => []

/-- The other strings. -/
def strings : CapBindingReq → List String
  | prompt backend _ _ _ outputParser model => backend :: outputParser :: (kept model).toList
  | mcp backend toolName _ _ => [backend, toolName]
  | http backend urlTemplate _ headers _ responsePath _ =>
    backend :: urlTemplate :: ((kept responsePath).toList ++ headers.map Prod.snd)

end CapBindingReq

namespace UpsertCapRequest

variable (req : UpsertCapRequest)

/-- The keys of the maps and of the headers; those of the values are in these. -/
def keys : List String :=
  req.binding.maps.flatten.map Prod.fst ++ req.binding.headers.map Prod.fst

/-- The values of a request: schemas, examples, maps and the body. -/
def values : List Value :=
  req.schemaIn :: req.schemaOut :: (req.examples.flatMap fun ex => [ex.args, ex.expectedOutput]) ++
    (req.binding.maps.flatten.map Prod.snd ++ req.binding.values)

/-- The texts that may have several lines. -/
def texts : List String :=
  (kept req.disambiguation).toList ++ ((kept req.outputSemantic).toList ++ req.binding.texts)

/-- The strings that are written on one line. -/
def strings : List String :=
  req.version :: req.description :: req.mode :: (req.tags ++ (req.lobeIds ++ (req.languages ++
    (req.countries ++ (req.examples.map (·.userIntent) ++ req.binding.strings)))))

/-- Maps have distinct keys, and values are those of `serde_json`. -/
structure WellFormed (P : TomlParser) : Prop where
  values : ∀ v ∈ req.values, P.IsJson v
  maps : ∀ m ∈ req.binding.maps, (m.map Prod.fst).Nodup
  headers : (req.binding.headers.map Prod.fst).Nodup

/-- What is known of the file of a request is for those that are legible. -/
structure Legible : Prop where
  values : ∀ v ∈ req.values, v.Legible
  keys : ∀ k ∈ req.keys, CapToml.LegibleKey k
  texts : ∀ t ∈ req.texts, CapToml.LegibleText t
  timeout : ∀ t ∈ req.binding.timeoutMs, Toml.inRange t

/-- Its strings and its keys are plain. -/
structure Clean : Prop where
  values : ∀ v ∈ req.values, v.Clean
  keys : ∀ k ∈ req.keys, BackendBody.Plain k
  texts : ∀ t ∈ req.texts, CapToml.PlainText t
  strings : ∀ s ∈ req.strings, CapToml.PlainText s

end UpsertCapRequest

namespace CapToml

/-! ## Lines -/

/-- The lines set the fields that there are, if `p`, and are invalid otherwise. -/
def ReadsFields (t : List Char) (p : Prop) (l : List (String × Option Toml)) : Prop :=
  ReadsWhen t p (entries (present l))

variable {t t' v : List Char} {p q : Prop} {l l' : List (String × Option Toml)} {k : String}

/-- Lines that follow each other set the fields of both. -/
theorem ReadsFields.append (h : ReadsFields t p l) (h' : ReadsFields t' q l') :
    ReadsFields (t ++ t') (p ∧ q) (l ++ l') := by
  rw [ReadsFields, present_append, entries, List.map_append]
  exact ReadsWhen.append h h'

/-- A line that sets a key with a bare name. -/
theorem readsFields_set [Decidable p] {x : Toml} (hk : k ≠ "" ∧ ∀ c ∈ k.toList, isBareKeyChar c)
    (hv : ReadsValue v (if p then some x else none)) :
    ReadsFields (set k v) p [(k, some x)] := by
  have hspace : ∀ c ∈ [' '], isSpace c := by decide
  have h := readsEntry (readsKey_bare hk.2 hk.1) hspace hspace hv
  have hentry : entryOf (some k) (if p then some x else none) =
      if p then some (k, x) else none := by
    split_ifs
    · rfl
    · rfl
  have htext : k.toList ++ ([' '] ++ '=' :: ([' '] ++ v)) = k.toList ++ " = ".toList ++ v := by
    rw [List.append_assoc]
    rfl
  rw [htext, hentry] at h
  exact readsWhen_entry h

/-- Strings, as the field that they make. -/
def stringsField (items : List String) : Option Toml :=
  if items = [] then none else some (.array (items.map .string))

/-- A list of strings is read as it is, if they are plain. -/
theorem readsFields_setStrings (items : List String)
    (hk : k ≠ "" ∧ ∀ c ∈ k.toList, isBareKeyChar c) :
    ReadsFields (setStrings k items) (∀ s ∈ items, PlainText s) [(k, stringsField items)] := by
  rw [setStrings, stringsField]
  split
  · next hitems =>
    rw [hitems]
    exact readsLines_nil.when.congr (iff_of_true trivial (List.forall_mem_nil _))
  · have hread := readsValue_array fun s (_ : s ∈ items) => readsValue_str s
    rw [mapM_ite] at hread
    refine readsFields_set hk ?_
    split_ifs at hread ⊢
    · exact hread
    · exact hread

/-- An optional text, as what it is read as. -/
theorem readsFields_setText {print : String → List Char} {f : String → String} {s : Option String}
    (hk : k ≠ "" ∧ ∀ c ∈ k.toList, isBareKeyChar c)
    (h : ∀ u ∈ kept s, ReadsValue (print u) (if PlainText u then some (.string (f u)) else none)) :
    ReadsFields (setText k print s) (∀ u ∈ (kept s).toList, PlainText u)
      [(k, (kept s).map fun u => .string (f u))] := by
  rcases s with _ | s
  · exact readsLines_nil.when.congr (iff_of_true trivial (List.forall_mem_nil _))
  rw [setText]
  by_cases hs : isBlank s
  · have hkept : kept (some s) = none := by simp [kept, hs]
    rw [if_pos hs, hkept]
    exact readsLines_nil.when.congr (iff_of_true trivial (List.forall_mem_nil _))
  · have hkept : kept (some s) = some s := by simp [kept, hs]
    rw [hkept] at h ⊢
    rw [if_neg hs]
    exact (readsFields_set hk (h s rfl)).congr (List.forall_mem_singleton).symm

/-- A map of values, as the field that it makes. -/
def mapField (fields : List (String × Value)) : Option Toml :=
  if fields = [] then none else some (.table (Value.toTomlFields fields))

variable {P : TomlParser} {fields : List (String × Value)}

/-- An entry of a map is read if its key and its value are legible. -/
theorem readsEntry_of_legible {x : String × Value} (hk : LegibleKey x.1) (hx : P.IsJson x.2)
    (hl : x.2.Legible) : ReadsEntry (pair x)
      (if BackendBody.Plain x.1 ∧ x.2.Clean then some (x.1, x.2.toToml) else none) :=
  readsEntry_pair hk (Value.readsValue_value hx hl)

/-- A map is read if its entries are. -/
theorem readsFields_setMap (hk : k ≠ "" ∧ ∀ c ∈ k.toList, isBareKeyChar c)
    (hn : (fields.map Prod.fst).Nodup) (h : ∀ x ∈ fields, ReadsEntry (pair x)
      (if BackendBody.Plain x.1 ∧ x.2.Clean then some (x.1, x.2.toToml) else none)) :
    ReadsFields (setMap k fields) (∀ x ∈ fields, BackendBody.Plain x.1 ∧ x.2.Clean)
      [(k, mapField fields)] := by
  rw [setMap, mapField]
  split
  · next hfields =>
    rw [hfields]
    exact readsLines_nil.when.congr (iff_of_true trivial (List.forall_mem_nil _))
  · exact (readsFields_set hk (Value.readsValue_fields hn h)).congr Value.clean_object

/-- An optional field, as what it is read as. -/
theorem readsFields_elim {α : Type} {o : Option α} {f : α → List Char} {x : α → Toml}
    {p : α → Prop} [DecidablePred p] (hk : k ≠ "" ∧ ∀ c ∈ k.toList, isBareKeyChar c)
    (h : ∀ a ∈ o, ReadsValue (f a) (if p a then some (x a) else none)) :
    ReadsFields (o.elim [] fun a => set k (f a)) (∀ a ∈ o.toList, p a) [(k, o.map x)] := by
  rcases o with _ | a
  · exact readsLines_nil.when.congr (iff_of_true trivial (List.forall_mem_nil _))
  · exact (readsFields_set hk (h a rfl)).congr (List.forall_mem_singleton).symm

/-! ## Sections -/

/-- The lines of the entries of a schema. -/
theorem readsWhen_pairs (h : ∀ x ∈ fields, ReadsEntry (pair x)
      (if BackendBody.Plain x.1 ∧ x.2.Clean then some (x.1, x.2.toToml) else none)) :
    ReadsWhen ((pairs fields).flatMap line) (Value.object fields).Clean
      (entries (Value.toTomlFields fields)) := by
  have hlines := ReadsWhen.flatMap fun x hx => readsWhen_entry (h x hx)
  rw [pairs_eq_map, List.flatMap_map, entries, Value.toTomlFields_eq_map, List.map_map,
    List.map_eq_flatMap]
  exact hlines.congr Value.clean_object.symm

/-- The entries of an example. -/
def exampleFields (ex : CapExampleReq) : List (String × Toml) :=
  [("user_intent", .string ex.userIntent), ("args", ex.args.toToml),
    ("expected_output", ex.expectedOutput.toToml)]

/-- An example is an item of its array. -/
theorem readsWhen_example {ex : CapExampleReq} (hargs : P.IsJson ex.args)
    (houtput : P.IsJson ex.expectedOutput) (hl : ex.args.Legible ∧ ex.expectedOutput.Legible) :
    ReadsWhen («example» ex)
      (PlainText ex.userIntent ∧ ex.args.Clean ∧ ex.expectedOutput.Clean)
      (ofSections [⟨["descriptor", "examples"], true, exampleFields ex⟩]) := by
  have hitem : BarePath ["descriptor", "examples"] := by decide
  have hheader : ReadsLines (line "\n[[descriptor.examples]]".toList)
      (some [.item ["descriptor", "examples"]]) := readsLines_blank.append (readsLines_item hitem)
  have hfields := (readsFields_set (k := "user_intent") (by decide)
    (readsValue_str ex.userIntent)).append <|
      (readsFields_set (k := "args") (by decide) (Value.readsValue_value hargs hl.1)).append <|
      readsFields_set (k := "expected_output") (by decide) (Value.readsValue_value houtput hl.2)
  have h := readsWhen_section (s := ⟨["descriptor", "examples"], true, exampleFields ex⟩)
    hheader hfields
  rw [«example»]
  simp only [List.append_assoc]
  exact h

/-! ### The binding -/

/-- The fields of the section of a kind. -/
def sectionFields : CapBindingReq → List (String × Option Toml)
  | .prompt _ systemPrompt userTemplate parameters outputParser model =>
    [("system_prompt", some (.string (lined systemPrompt))),
      ("user_template", (kept userTemplate).map fun t => .string (lined t)),
      ("parameters", mapField parameters), ("output_parser", some (.string outputParser)),
      ("model", (kept model).map .string)]
  | .mcp _ toolName argMapping resultMapping =>
    [("tool_name", some (.string toolName)), ("arg_mapping", mapField argMapping),
      ("result_mapping", mapField resultMapping)]
  | .http _ urlTemplate method _ bodyTemplate responsePath timeoutMs =>
    [("url_template", some (.string urlTemplate)), ("method", some (.string method.toUpper)),
      ("timeout_ms", timeoutMs.map fun t : ℕ => .integer t),
      ("response_path", (kept responsePath).map .string),
      ("body_template", bodyTemplate.map Value.toToml)]

/-- The sections of a binding: its header, the section of its kind, and the headers.
    -/
def bindingSections (b : CapBindingReq) : List Section :=
  ⟨["binding"], false, [("type", .string b.kind), ("backend", .string b.backend)]⟩ ::
    ⟨["binding", b.kind], false, present (sectionFields b)⟩ ::
      BackendBody.tableSection ["binding", "http", "headers"] b.headers

/-- The headers of a binding are in front of the fields of its section. -/
theorem readsWhen_bindingHeader (kind backend : String)
    (hkind : kind ∈ ["prompt", "mcp", "http"]) (h : ReadsFields t p l) :
    ReadsWhen (bindingHeader kind backend ++ t) (PlainText backend ∧ p)
      (ofSections [⟨["binding"], false, [("type", .string kind), ("backend", .string backend)]⟩,
        ⟨["binding", kind], false, present l⟩]) := by
  have hbinding : ReadsLines (line "\n[binding]".toList) (some [.header ["binding"]]) :=
    readsLines_blank.append (readsLines_header (show BarePath ["binding"] by decide))
  -- the three names are bare, and need no escape
  have hbare : BarePath ["binding", kind] ∧ PlainText kind ∧
      line ("\n[binding.".toList ++ kind.toList ++ [']']) =
        ['\n'] ++ ('[' :: pathText ["binding", kind] ++ [']', '\n']) := by
    rcases List.mem_cons.1 hkind with rfl | hkind
    · decide
    rcases List.mem_cons.1 hkind with rfl | hkind
    · decide
    · rw [List.mem_singleton.1 hkind]
      decide
  obtain ⟨hpath, hplain, hline⟩ := hbare
  have hheader : ReadsLines (line ("\n[binding.".toList ++ kind.toList ++ [']']))
      (some [.header ["binding", kind]]) := by
    rw [hline]
    exact readsLines_blank.append (readsLines_header hpath)
  have hfields := (readsFields_set (k := "type") (by decide) (readsValue_str kind)).append
    (readsFields_set (k := "backend") (by decide) (readsValue_str backend))
  have h' := (readsWhen_section (s := ⟨["binding"], false,
    [("type", .string kind), ("backend", .string backend)]⟩) hbinding hfields).sections
      (readsWhen_section (s := ⟨["binding", kind], false, present l⟩) hheader h)
  rw [bindingHeader]
  simp only [List.append_assoc] at h' ⊢
  exact h'.congr (and_congr_left fun _ => and_iff_right hplain)

/-- The headers are a section of their own, unless there are none. -/
theorem readsWhen_headers (headers : List (String × String))
    (hkeys : ∀ x ∈ headers, LegibleKey x.1) :
    ReadsWhen (if headers = [] then [] else line "\n[binding.http.headers]".toList ++
        headers.flatMap fun h => line (key h.1 ++ " = ".toList ++ str h.2))
      (∀ x ∈ headers, BackendBody.Plain x.1 ∧ PlainText x.2)
      (ofSections (BackendBody.tableSection ["binding", "http", "headers"] headers)) := by
  rw [BackendBody.tableSection]
  split
  · next hheaders =>
    rw [hheaders]
    exact readsLines_nil.when.congr (iff_of_true trivial (List.forall_mem_nil _))
  · have hpath : BarePath ["binding", "http", "headers"] := by decide
    have hheader : ReadsLines (line "\n[binding.http.headers]".toList)
        (some [.header ["binding", "http", "headers"]]) :=
      readsLines_blank.append (readsLines_header hpath)
    have hlines := ReadsWhen.flatMap fun x hx =>
      readsWhen_entry (readsEntry_pair (hkeys x hx) (readsValue_str x.2))
    refine readsWhen_section (s := ⟨["binding", "http", "headers"], false,
      headers.map fun x => (x.1, .string x.2)⟩) hheader ?_
    rw [entries, List.map_map, List.map_eq_flatMap]
    exact hlines

/-- What there is to say of the parts of a binding. -/
structure LegibleBinding (P : TomlParser) (b : CapBindingReq) : Prop where
  maps : ∀ m ∈ b.maps, (m.map Prod.fst).Nodup ∧ ∀ x ∈ m, ReadsEntry (pair x)
    (if BackendBody.Plain x.1 ∧ x.2.Clean then some (x.1, x.2.toToml) else none)
  values : ∀ v ∈ b.values, P.IsJson v ∧ v.Legible
  headers : ∀ x ∈ b.headers, LegibleKey x.1
  texts : ∀ t ∈ b.texts, LegibleText t
  timeout : ∀ t ∈ b.timeoutMs, Toml.inRange t

/-- The strings and the keys of a binding are plain. -/
def CleanBinding (b : CapBindingReq) : Prop :=
  (∀ m ∈ b.maps, ∀ x ∈ m, BackendBody.Plain x.1 ∧ x.2.Clean) ∧ (∀ v ∈ b.values, v.Clean) ∧
    (∀ x ∈ b.headers, BackendBody.Plain x.1) ∧ (∀ t ∈ b.texts, PlainText t) ∧
      ∀ s ∈ b.strings, PlainText s

/-- The lines of a binding are those of its sections. -/
theorem readsWhen_binding {b : CapBindingReq} {text : List Char} (h : binding b = .ok text)
    (hl : LegibleBinding P b) :
    ReadsWhen text (CleanBinding b) (ofSections (bindingSections b)) := by
  cases b with
  | prompt backend systemPrompt userTemplate parameters outputParser model =>
    obtain rfl := Except.ok.inj h
    obtain ⟨hn, hentries⟩ := hl.maps parameters List.mem_cons_self
    obtain ⟨hsystem, htemplate⟩ := List.forall_mem_cons.1 hl.texts
    have hfields := (readsFields_set (k := "system_prompt") (by decide)
      (readsValue_multiline hsystem)).append <|
        (readsFields_setText (k := "user_template") (s := userTemplate) (by decide)
          fun u hu => readsValue_multiline (htemplate u (Option.mem_toList.2 hu))).append <|
        (readsFields_setMap (k := "parameters") (by decide) hn hentries).append <|
        (readsFields_set (k := "output_parser") (by decide) (readsValue_str outputParser)).append <|
        readsFields_setText (k := "model") (s := model) (by decide) fun u _ => readsValue_str u
    have h' := readsWhen_bindingHeader "prompt" backend (by decide) hfields
    simp only [List.append_assoc] at h' ⊢
    refine h'.congr ?_
    simp only [CleanBinding, CapBindingReq.maps, CapBindingReq.values, CapBindingReq.headers,
      CapBindingReq.texts, CapBindingReq.strings, List.forall_mem_cons]
    tauto
  | mcp backend toolName argMapping resultMapping =>
    obtain ⟨-, h⟩ := Except.check_eq_ok.1 h
    obtain rfl := Except.ok.inj h
    obtain ⟨harg, hmaps⟩ := List.forall_mem_cons.1 hl.maps
    obtain ⟨hresult, -⟩ := List.forall_mem_cons.1 hmaps
    have hfields := (readsFields_set (k := "tool_name") (by decide)
      (readsValue_str toolName)).append <|
        (readsFields_setMap (k := "arg_mapping") (by decide) harg.1 harg.2).append <|
        readsFields_setMap (k := "result_mapping") (by decide) hresult.1 hresult.2
    have h' := readsWhen_bindingHeader "mcp" backend (by decide) hfields
    simp only [List.append_assoc] at h' ⊢
    refine h'.congr ?_
    simp only [CleanBinding, CapBindingReq.maps, CapBindingReq.values, CapBindingReq.headers,
      CapBindingReq.texts, CapBindingReq.strings, List.forall_mem_cons]
    tauto
  | http backend urlTemplate method headers bodyTemplate responsePath timeoutMs =>
    obtain ⟨-, h⟩ := Except.check_eq_ok.1 h
    obtain ⟨hmethod, h⟩ := Except.check_eq_ok.1 h
    obtain rfl := Except.ok.inj h
    -- the method is one of four
    have hplain : PlainText method.toUpper := by
      have hnames : ∀ m ∈ ["GET", "POST", "PUT", "DELETE"], PlainText m := by decide
      exact hnames _ (not_not.1 (Except.reject_eq_ok.1 hmethod))
    have hfields := (readsFields_set (k := "url_template") (by decide)
      (readsValue_str urlTemplate)).append <|
        (readsFields_set (k := "method") (by decide) (readsValue_str method.toUpper)).append <|
        (readsFields_elim (k := "timeout_ms") (o := timeoutMs)
          (f := fun t => (Nat.repr t).toList) (p := fun _ => True) (by decide)
          fun t ht => readsValue_natural (hl.timeout t ht)).append <|
        (readsFields_setText (k := "response_path") (s := responsePath) (by decide)
          fun u _ => readsValue_str u).append <|
        readsFields_elim (k := "body_template") (o := bodyTemplate) (by decide) fun b hb =>
          Value.readsValue_value (hl.values b (Option.mem_toList.2 hb)).1
            (hl.values b (Option.mem_toList.2 hb)).2
    have h' := (readsWhen_bindingHeader "http" backend (by decide) hfields).sections
      (readsWhen_headers headers hl.headers)
    simp only [List.append_assoc] at h' ⊢
    refine h'.congr ?_
    simp only [CleanBinding, CapBindingReq.maps, CapBindingReq.values, CapBindingReq.headers,
      CapBindingReq.texts, CapBindingReq.strings, List.forall_mem_cons, List.forall_mem_append,
      List.forall_mem_map, implies_true, forall₂_and, true_and, hplain]
    tauto

/-! ### The whole file -/

/-- The fields of a descriptor, besides its schemas and its examples. -/
def descriptorFields (name : String) (req : UpsertCapRequest) : List (String × Option Toml) :=
  [("name", some (.string name)), ("version", some (.string req.version)),
    ("description", some (.string req.description)), ("mode", some (.string req.mode)),
    ("tags", stringsField req.tags), ("lobe_ids", stringsField req.lobeIds),
    ("languages", stringsField req.languages), ("countries", stringsField req.countries),
    ("disambiguation", (kept req.disambiguation).map fun t => .string (lined t)),
    ("output_semantic", (kept req.outputSemantic).map fun t => .string (lined t))]

/-- The sections of the file of a request, from the entries of its schemas. -/
def fileSections (name : String) (req : UpsertCapRequest)
    (schemaIn schemaOut : List (String × Value)) : List Section :=
  [⟨["manifest"], false, [("version", .string "0.1")]⟩,
    ⟨["descriptor"], false, present (descriptorFields name req)⟩,
    ⟨["descriptor", "schema_in"], false, Value.toTomlFields schemaIn⟩,
    ⟨["descriptor", "schema_out"], false, Value.toTomlFields schemaOut⟩] ++
      ((req.examples.map exampleFields).map (fun fs => ⟨["descriptor", "examples"], true, fs⟩) ++
        bindingSections req.binding)

/-- The text of a file, section by section. -/
theorem buildCapToml_eq_ok {name : String} {req : UpsertCapRequest} {text : List Char}
    (h : buildCapToml name req = .ok text) : ∃ schemaIn schemaOut t,
      req.schemaIn = .object schemaIn ∧ req.schemaOut = .object schemaOut ∧
      binding req.binding = .ok t ∧
      text = (line "[manifest]".toList ++ line (line "version = \"0.1\"".toList)) ++
        ((line "[descriptor]".toList ++ (set "name" (str name) ++ (set "version" (str req.version) ++
          (set "description" (str req.description) ++ (set "mode" (str req.mode) ++
          (setStrings "tags" req.tags ++ (setStrings "lobe_ids" req.lobeIds ++
          (setStrings "languages" req.languages ++ (setStrings "countries" req.countries ++
          (setText "disambiguation" multiline req.disambiguation ++
            setText "output_semantic" multiline req.outputSemantic)))))))))) ++
        ((line [] ++ (line "[descriptor.schema_in]".toList ++ (pairs schemaIn).flatMap line)) ++
        ((line [] ++ (line "[descriptor.schema_out]".toList ++ (pairs schemaOut).flatMap line)) ++
        (req.examples.flatMap «example» ++ t)))) := by
  have hschema : ∀ {e v t}, schema e v = .ok t →
      ∃ fs, v = .object fs ∧ t = (pairs fs).flatMap line := by
    intro e v t h
    cases v with
    | object fs => exact ⟨fs, rfl, (Except.ok.inj h).symm⟩
    | _ => exact absurd h (by simp [schema])
  obtain ⟨_, hinText, h⟩ := Except.bind_eq_ok.1 h
  obtain ⟨_, houtText, h⟩ := Except.bind_eq_ok.1 h
  obtain ⟨t, hbinding, h⟩ := Except.bind_eq_ok.1 h
  obtain ⟨schemaIn, hin, rfl⟩ := hschema hinText
  obtain ⟨schemaOut, hout, rfl⟩ := hschema houtText
  refine ⟨schemaIn, schemaOut, t, hin, hout, hbinding, ?_⟩
  rw [← Except.ok.inj h]
  simp only [List.append_assoc]

section File

variable {name : String} {req : UpsertCapRequest} {schemaIn schemaOut : List (String × Value)}

/-- The section that every file starts with. -/
theorem readsWhen_manifest :
    ReadsWhen (line "[manifest]".toList ++ line (line "version = \"0.1\"".toList)) True
      (ofSections [⟨["manifest"], false, [("version", .string "0.1")]⟩]) := by
  have hheader := readsLines_header (show BarePath ["manifest"] by decide)
  have hblank : ReadsFields ['\n'] True [] := readsLines_blank.when
  have hversion := (readsFields_set (k := "version") (by decide) (readsValue_str "0.1")).append
    hblank
  have h := readsWhen_section (s := ⟨["manifest"], false, [("version", .string "0.1")]⟩)
    hheader hversion
  exact h.congr (iff_of_true (by decide) trivial)

/-- The fields of the descriptor are read if its strings and its texts are plain. -/
theorem readsWhen_descriptor (hl : req.Legible) :
    ReadsWhen (line "[descriptor]".toList ++ (set "name" (str name) ++
        (set "version" (str req.version) ++ (set "description" (str req.description) ++
        (set "mode" (str req.mode) ++ (setStrings "tags" req.tags ++
        (setStrings "lobe_ids" req.lobeIds ++ (setStrings "languages" req.languages ++
        (setStrings "countries" req.countries ++
        (setText "disambiguation" multiline req.disambiguation ++
          setText "output_semantic" multiline req.outputSemantic))))))))))
      (PlainText name ∧ PlainText req.version ∧ PlainText req.description ∧ PlainText req.mode ∧
        (∀ s ∈ req.tags, PlainText s) ∧ (∀ s ∈ req.lobeIds, PlainText s) ∧
        (∀ s ∈ req.languages, PlainText s) ∧ (∀ s ∈ req.countries, PlainText s) ∧
        (∀ t ∈ (kept req.disambiguation).toList, PlainText t) ∧
          ∀ t ∈ (kept req.outputSemantic).toList, PlainText t)
      (ofSections [⟨["descriptor"], false, present (descriptorFields name req)⟩]) := by
  have hheader := readsLines_header (show BarePath ["descriptor"] by decide)
  have htexts : ∀ t ∈ (kept req.disambiguation).toList ++ (kept req.outputSemantic).toList,
      LegibleText t := fun t ht => hl.texts t (by
    rw [UpsertCapRequest.texts, ← List.append_assoc]
    exact List.mem_append_left _ ht)
  obtain ⟨hdisambiguation, houtput⟩ := List.forall_mem_append.1 htexts
  have hfields := (readsFields_set (k := "name") (by decide) (readsValue_str name)).append <|
    (readsFields_set (k := "version") (by decide) (readsValue_str req.version)).append <|
    (readsFields_set (k := "description") (by decide) (readsValue_str req.description)).append <|
    (readsFields_set (k := "mode") (by decide) (readsValue_str req.mode)).append <|
    (readsFields_setStrings (k := "tags") req.tags (by decide)).append <|
    (readsFields_setStrings (k := "lobe_ids") req.lobeIds (by decide)).append <|
    (readsFields_setStrings (k := "languages") req.languages (by decide)).append <|
    (readsFields_setStrings (k := "countries") req.countries (by decide)).append <|
    (readsFields_setText (k := "disambiguation") (s := req.disambiguation) (by decide)
      fun t ht => readsValue_multiline (hdisambiguation t (Option.mem_toList.2 ht))).append <|
    readsFields_setText (k := "output_semantic") (s := req.outputSemantic) (by decide)
      fun t ht => readsValue_multiline (houtput t (Option.mem_toList.2 ht))
  exact readsWhen_section (s := ⟨["descriptor"], false, present (descriptorFields name req)⟩)
    hheader hfields

/-- The binding of a legible request is legible. -/
theorem legibleBinding (hw : req.WellFormed P) (hl : req.Legible) :
    LegibleBinding P req.binding where
  maps m hm := by
    refine ⟨hw.maps m hm, fun x hx => ?_⟩
    have hmem : x ∈ req.binding.maps.flatten := List.mem_flatten_of_mem hm hx
    have hkey : x.1 ∈ req.keys := List.mem_append_left _ (List.mem_map_of_mem hmem)
    have hvalue : x.2 ∈ req.values :=
      List.mem_append_right _ (List.mem_append_left _ (List.mem_map_of_mem hmem))
    exact readsEntry_of_legible (hl.keys _ hkey) (hw.values _ hvalue) (hl.values _ hvalue)
  values v hv := by
    have hmem : v ∈ req.values := List.mem_append_right _ (List.mem_append_right _ hv)
    exact ⟨hw.values v hmem, hl.values v hmem⟩
  headers x hx := hl.keys _ (List.mem_append_right _ (List.mem_map_of_mem hx))
  texts t ht := hl.texts t (List.mem_append_right _ (List.mem_append_right _ ht))
  timeout := hl.timeout

/-- The request is clean if each part of its file is. -/
theorem clean_iff (hin : req.schemaIn = .object schemaIn)
    (hout : req.schemaOut = .object schemaOut) :
    req.Clean ↔ (PlainText req.version ∧ PlainText req.description ∧ PlainText req.mode ∧
        (∀ s ∈ req.tags, PlainText s) ∧ (∀ s ∈ req.lobeIds, PlainText s) ∧
        (∀ s ∈ req.languages, PlainText s) ∧ (∀ s ∈ req.countries, PlainText s) ∧
        (∀ t ∈ (kept req.disambiguation).toList, PlainText t) ∧
          ∀ t ∈ (kept req.outputSemantic).toList, PlainText t) ∧
      (Value.object schemaIn).Clean ∧ (Value.object schemaOut).Clean ∧
      (∀ ex ∈ req.examples, PlainText ex.userIntent ∧ ex.args.Clean ∧ ex.expectedOutput.Clean) ∧
      CleanBinding req.binding := by
  have hclean : req.Clean ↔ (∀ v ∈ req.values, v.Clean) ∧ (∀ k ∈ req.keys, BackendBody.Plain k) ∧
      (∀ t ∈ req.texts, PlainText t) ∧ ∀ s ∈ req.strings, PlainText s :=
    ⟨fun h => ⟨h.values, h.keys, h.texts, h.strings⟩, fun ⟨hv, hk, ht, hs⟩ => ⟨hv, hk, ht, hs⟩⟩
  rw [hclean, UpsertCapRequest.values, UpsertCapRequest.keys, UpsertCapRequest.texts,
    UpsertCapRequest.strings, CleanBinding, hin, hout]
  simp only [List.forall_mem_append, List.forall_mem_cons, List.forall_mem_map,
    List.forall_mem_flatMap, List.forall_mem_flatten, List.cons_append, forall₂_and]
  tauto

/-- The text of a file has its sections, if the request is clean, and is invalid
    otherwise. -/
theorem readsWhen_file {text : List Char} (h : buildCapToml name req = .ok text)
    (hname : PlainText name) (hw : req.WellFormed P) (hl : req.Legible) :
    ∃ schemaIn schemaOut, req.schemaIn = .object schemaIn ∧ req.schemaOut = .object schemaOut ∧
      ReadsWhen text req.Clean (ofSections (fileSections name req schemaIn schemaOut)) := by
  obtain ⟨schemaIn, schemaOut, t, hin, hout, hbinding, rfl⟩ := buildCapToml_eq_ok h
  refine ⟨schemaIn, schemaOut, hin, hout, ?_⟩
  have hmem : Value.object schemaIn ∈ req.values ∧ Value.object schemaOut ∈ req.values := by
    rw [← hin, ← hout]
    exact ⟨List.mem_cons_self, List.mem_cons_of_mem _ List.mem_cons_self⟩
  obtain ⟨⟨⟨-, hoin⟩, hnin⟩, hlin⟩ := And.intro (hw.values _ hmem.1) (hl.values _ hmem.1)
  obtain ⟨⟨⟨-, hoout⟩, hnout⟩, hlout⟩ := And.intro (hw.values _ hmem.2) (hl.values _ hmem.2)
  -- the entries of a schema are lines of their section
  have hschemaIn := readsWhen_section
    (s := ⟨["descriptor", "schema_in"], false, Value.toTomlFields schemaIn⟩)
    (readsLines_header (show BarePath ["descriptor", "schema_in"] by decide))
    (readsWhen_pairs (Value.readsEntry_pairs hoin hnin hlin))
  have hschemaOut := readsWhen_section
    (s := ⟨["descriptor", "schema_out"], false, Value.toTomlFields schemaOut⟩)
    (readsLines_header (show BarePath ["descriptor", "schema_out"] by decide))
    (readsWhen_pairs (Value.readsEntry_pairs hoout hnout hlout))
  have hexamples : ReadsWhen (req.examples.flatMap «example»)
      (∀ ex ∈ req.examples, PlainText ex.userIntent ∧ ex.args.Clean ∧ ex.expectedOutput.Clean)
      (ofSections ((req.examples.map exampleFields).map
        fun fs => ⟨["descriptor", "examples"], true, fs⟩)) := by
    have h := ReadsWhen.flatMap fun ex (hex : ex ∈ req.examples) => by
      have hargs : ex.args ∈ req.values ∧ ex.expectedOutput ∈ req.values := by
        simp only [UpsertCapRequest.values, List.cons_append, List.mem_cons, List.mem_append,
          List.mem_flatMap]
        exact ⟨.inr (.inr (.inl ⟨ex, hex, by simp⟩)), .inr (.inr (.inl ⟨ex, hex, by simp⟩))⟩
      exact readsWhen_example (hw.values _ hargs.1) (hw.values _ hargs.2)
        ⟨hl.values _ hargs.1, hl.values _ hargs.2⟩
    simp only [ofSections, List.flatMap_map, List.flatMap_singleton] at h ⊢
    exact h
  have hfile := readsWhen_manifest.sections <| (@readsWhen_descriptor name req hl).sections <|
    hschemaIn.blank.sections <| hschemaOut.blank.sections <|
    hexamples.sections (readsWhen_binding hbinding (legibleBinding hw hl))
  refine hfile.congr ?_
  rw [clean_iff hin hout, true_and, and_assoc, and_iff_right hname]

end File

/-! ## The tables -/

/-- The fields of the section of a kind, with the headers. -/
def kindTable (b : CapBindingReq) : List (String × Option Toml) :=
  sectionFields b ++ [("headers", if b.headers = [] then none else
    some (.table (b.headers.map fun x => (x.1, .string x.2))))]

/-- The table of a binding. -/
def bindingTable (b : CapBindingReq) : List (String × Option Toml) :=
  [("type", some (.string b.kind)), ("backend", some (.string b.backend)),
    (b.kind, some (.table (present (kindTable b))))]

/-- The table of a descriptor, with its schemas and its examples. -/
def descriptorTable (name : String) (req : UpsertCapRequest)
    (schemaIn schemaOut : List (String × Value)) : List (String × Option Toml) :=
  descriptorFields name req ++
    [("schema_in", some (.table (Value.toTomlFields schemaIn))),
      ("schema_out", some (.table (Value.toTomlFields schemaOut))),
      ("examples", some (.array ((req.examples.map exampleFields).map .table)))]

/-- The document of the file of a request, from the entries of its schemas. -/
def document (name : String) (req : UpsertCapRequest) (schemaIn schemaOut : List (String × Value)) :
    Toml :=
  .table [("manifest", .table [("version", .string "0.1")]),
    ("descriptor", .table (present (descriptorTable name req schemaIn schemaOut))),
    ("binding", .table (present (bindingTable req.binding)))]

/-- The section of a binding has distinct fields, with the headers. -/
theorem nodup_kindTable (b : CapBindingReq) : ((kindTable b).map Prod.fst).Nodup := by
  cases b with
  | prompt => simp [kindTable, sectionFields]
  | mcp => simp [kindTable, sectionFields]
  | http => simp [kindTable, sectionFields]

/-- No kind has the name of another field. -/
theorem nodup_bindingTable (b : CapBindingReq) : ((bindingTable b).map Prod.fst).Nodup := by
  cases b with
  | prompt => simp [bindingTable, CapBindingReq.kind]
  | mcp => simp [bindingTable, CapBindingReq.kind]
  | http => simp [bindingTable, CapBindingReq.kind]

/-- The sections of a binding make its table. -/
theorem placeAll_bindingSections {b : CapBindingReq} {fields : List (String × Node)}
    (hk : "binding" ∉ fields.map Prod.fst) (hn : (b.headers.map Prod.fst).Nodup) :
    (placeAll (bindingSections b) fields).map toFields =
      .ok (toFields fields ++ [("binding", .table (present (bindingTable b)))]) := by
  have hbinding : (([("type", string b.kind), ("backend", string b.backend)] :
      List (String × Toml)).map Prod.fst).Nodup := by simp
  have hkind : b.kind ∉ (nodes [("type", string b.kind), ("backend", string b.backend)]).map
      Prod.fst := by
    rw [keys_nodes]
    cases b with
    | prompt => simp [CapBindingReq.kind]
    | mcp => simp [CapBindingReq.kind]
    | http => simp [CapBindingReq.kind]
  have hfields : (present (sectionFields b)).map Prod.fst |>.Nodup := by
    have h := nodup_kindTable b
    rw [kindTable, List.map_append] at h
    exact nodup_present (List.nodup_append.1 h).1
  rw [bindingSections, placeAll_cons (place_table hk hbinding),
    placeAll_cons (place_subtable hk hkind hfields)]
  by_cases hheaders : b.headers = []
  · have hkindTable : present (kindTable b) = present (sectionFields b) := by
      rw [kindTable, if_pos hheaders, present_append]
      exact List.append_nil _
    have hnone : BackendBody.tableSection ["binding", "http", "headers"] b.headers = [] :=
      if_pos hheaders
    rw [hnone, placeAll]
    refine congrArg Except.ok ?_
    rw [toFields_append, toFields, toFields, Node.toToml, toFields_append, toFields_nodes,
      toFields, toFields, Node.toToml, toFields_nodes, bindingTable, hkindTable]
    rfl
  · -- only a request of the kind `http` has headers
    have hhttp : b.kind = "http" := by
      cases b with
      | prompt => exact absurd rfl hheaders
      | mcp => exact absurd rfl hheaders
      | http => rfl
    have hsome : BackendBody.tableSection ["binding", "http", "headers"] b.headers =
        [⟨["binding", b.kind, "headers"], false, b.headers.map fun x => (x.1, .string x.2)⟩] := by
      rw [hhttp]
      exact if_neg hheaders
    have hnew : "headers" ∉ (nodes (present (sectionFields b))).map Prod.fst := by
      have h := nodup_kindTable b
      rw [kindTable, List.map_append, List.map_singleton] at h
      rw [keys_nodes]
      exact fun hmem => (List.disjoint_of_nodup_append h) (keys_present.subset hmem)
        (List.mem_singleton_self _)
    have hnodup : ((b.headers.map fun x => (x.1, string x.2)).map Prod.fst).Nodup := by
      rw [List.map_map]
      exact hn
    have hkindTable : present (kindTable b) = present (sectionFields b) ++
        [("headers", .table (b.headers.map fun x => (x.1, .string x.2)))] := by
      rw [kindTable, if_neg hheaders, present_append]
      rfl
    have hplace := (place_below hk).trans
      (congrArg (Except.map _) (place_subtable hkind hnew hnodup))
    rw [hsome, placeAll_cons hplace, placeAll]
    refine congrArg Except.ok ?_
    simp only [toFields_append, toFields, Node.toToml, toFields_nodes, bindingTable, hkindTable]
    rfl

/-- The fields of a descriptor are distinct. -/
theorem nodup_descriptorTable (name : String) (req : UpsertCapRequest)
    (schemaIn schemaOut : List (String × Value)) :
    ((descriptorTable name req schemaIn schemaOut).map Prod.fst).Nodup := by
  simp [descriptorTable, descriptorFields]

/-- The sections of a file are those of its document. -/
theorem build_fileSections {name : String} {req : UpsertCapRequest}
    {schemaIn schemaOut : List (String × Value)} (hin : (schemaIn.map Prod.fst).Nodup)
    (hout : (schemaOut.map Prod.fst).Nodup) (hheaders : (req.binding.headers.map Prod.fst).Nodup)
    (hexamples : req.examples ≠ []) :
    build (ofSections (fileSections name req schemaIn schemaOut)) =
      .ok (document name req schemaIn schemaOut) := by
  have hversion : (([("version", string "0.1")] : List (String × Toml)).map Prod.fst).Nodup :=
    List.nodup_singleton _
  -- what comes below the descriptor has a name of its own
  have hkeys : ∀ k ∈ ["schema_in", "schema_out", "examples"],
      k ∉ (nodes (present (descriptorFields name req))).map Prod.fst := by
    have hnodup := nodup_descriptorTable name req schemaIn schemaOut
    rw [descriptorTable, List.map_append] at hnodup
    rw [keys_nodes]
    exact fun k hk hmem => List.disjoint_of_nodup_append hnodup (keys_present.subset hmem) hk
  have hfields : ((present (descriptorFields name req)).map Prod.fst).Nodup :=
    nodup_present (by simp [descriptorFields])
  have hdescriptor : "descriptor" ∉ (([("manifest", .table (nodes [("version", string "0.1")]))] :
      List (String × Node)).map Prod.fst) := by simp
  have hitems : ∀ fs ∈ req.examples.map exampleFields, (fs.map Prod.fst).Nodup := by
    intro fs hfs
    obtain ⟨ex, -, rfl⟩ := List.mem_map.1 hfs
    simp [exampleFields]
  rw [← Value.keys_toTomlFields] at hin hout
  have htables : (placeAll (fileSections name req schemaIn schemaOut) []).map toFields =
      .ok [("manifest", .table [("version", .string "0.1")]),
        ("descriptor", .table (present (descriptorTable name req schemaIn schemaOut))),
        ("binding", .table (present (bindingTable req.binding)))] := by
    rw [fileSections]
    refine (congrArg (Except.map toFields)
      (placeAll_cons (place_table List.not_mem_nil hversion))).trans ?_
    refine (congrArg _ (placeAll_cons (place_table hdescriptor hfields))).trans ?_
    refine (congrArg _ (placeAll_cons (place_subtable hdescriptor
      (hkeys "schema_in" (by simp)) hin))).trans ?_
    refine (congrArg _ (placeAll_cons (place_subtable hdescriptor
      (by simpa using hkeys "schema_out" (by simp)) hout))).trans ?_
    refine (congrArg _ (placeAll_items hdescriptor (by simpa using hkeys "examples" (by simp))
      hitems (by simpa using hexamples))).trans ?_
    refine (placeAll_bindingSections (by simp) hheaders).trans ?_
    simp only [toFields_append, toFields, Node.toToml, toFields_nodes, descriptorTable,
      present_append]
    simp [present]
  rw [build_ofSections]
  rcases hplace : placeAll (fileSections name req schemaIn schemaOut) [] with e | fields
  · rw [hplace] at htables
    exact absurd htables (by simp [Except.map])
  · rw [hplace] at htables
    exact congrArg Except.ok (congrArg Toml.table (Except.ok.inj htables))

end CapToml

end N3ur0n
