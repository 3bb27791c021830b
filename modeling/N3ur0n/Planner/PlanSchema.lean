import N3ur0n.Planner.GrammarPlans

/-!
# The schema of plans

A model that is not held to a grammar may be held to a JSON schema, which is built
from the same tools. The schema has the peers of the tools and their capabilities,
each in a list of its own.

* `steps_named`: a plan that the schema accepts has steps with one of the peers and
  one of the capabilities, which need not be those of one tool;
* `accepts_of_sampled`: it accepts the plans of the grammar, if their steps have ids.
-/

namespace N3ur0n

open BlobTicketPayload (stringOf)
open PlanGrammar

/-! ## JSON schemas -/

namespace Schema

/-- The value is of a type, by its name. -/
def isType : String → Value → Bool
  | "object", .object _ | "array", .array _ | "string", .string _ => true
  | _, _ => false

/-- The keywords that do not lead to other schemas. The names are those of the
    properties. -/
def assertion (names : List String) (key : String) (arg v : Value) : Bool :=
  match key, arg, v with
  | "type", .string t, v => isType t v
  | "minLength", .number (.int n), .string s => n ≤ s.length
  | "enum", .array xs, v => v ∈ xs
  | "required", .array xs, .object fs =>
    xs.all fun x => fs.any fun f => x = .string f.1
  | "additionalProperties", .bool false, .object fs => fs.all fun f => f.1 ∈ names
  | _, _, _ => true

/-- The names of the properties that a schema describes. -/
def propertyNames (schema : Value) : List String :=
  match schema.get "properties" with
  | some (.object fs) => fs.map Prod.fst
  | _ => []

mutual

/-- The schema accepts the value. -/
def accepts : Value → Value → Bool
  | .object ks, v => acceptsKeys (propertyNames (.object ks)) ks v
  | .bool b, _ => b
  | _, _ => false

def acceptsKeys (names : List String) : List (String × Value) → Value → Bool
  | [], _ => true
  | (key, arg) :: ks, v =>
    (if key = "items" then
      match v with
      | .array xs => xs.all (accepts arg)
      | _ => true
    else if key = "properties" then
      match arg, v with
      | .object ps, .object fs => acceptsProperties ps fs
      | _, _ => true
    else assertion names key arg v) && acceptsKeys names ks v

/-- Each of the properties that are there is accepted. -/
def acceptsProperties : List (String × Value) → List (String × Value) → Bool
  | [], _ => true
  | (name, schema) :: ps, fs => (fs.lookup name).all (accepts schema) && acceptsProperties ps fs

end

end Schema

/-! ## The schema -/

/-- The values, each once, in their order. -/
def uniqueInOrder (items : List String) : List String := Firsts.firsts id ∅ items

/-- A string that is not empty. -/
def someString : Value := .object [("minLength", .number (.int 1)), ("type", .string "string")]

/-- One of the names, or any string if there are none. -/
def nameSchema (names : List String) : Value :=
  if names = [] then someString
  else .object [("enum", .array ((uniqueInOrder names).map .string)), ("type", .string "string")]

/-- The schemas of the fields of a step. -/
def stepProperties (tools : List ToolName) : List (String × Value) := [
  ("args", .object [("type", .string "object")]),
  ("capability", nameSchema (tools.map Prod.snd)),
  ("depends_on", .object [
    ("items", .object [("type", .string "string")]), ("type", .string "array")]),
  ("id", someString),
  ("peer", nameSchema (tools.map Prod.fst))]

/-- The schema of a step. -/
def stepSchema (tools : List ToolName) : Value :=
  .object [
    ("additionalProperties", .bool false),
    ("properties", .object (stepProperties tools)),
    ("required", .array [.string "id", .string "peer", .string "capability", .string "args"]),
    ("type", .string "object")]

def planJsonSchema (tools : List ToolName) : Value :=
  .object [
    ("additionalProperties", .bool false),
    ("properties", .object [("plan", .object [
      ("items", stepSchema (dedup tools)), ("type", .string "array")])]),
    ("required", .array [.string "plan"]),
    ("type", .string "object")]

/-- The schema, as the format of a response. -/
def planResponseFormat (tools : List ToolName) : Value :=
  .object [
    ("json_schema", .object [
      ("name", .string "n3ur0n_plan"), ("schema", planJsonSchema tools), ("strict", .bool true)]),
    ("type", .string "json_schema")]

/-- The step has a peer and a capability of the schema, and an id. -/
def Named (tools : List ToolName) (step : PlanStep) : Prop :=
  step.id ≠ "" ∧ step.peer ∈ tools.map Prod.fst ∧ step.capability ∈ tools.map Prod.snd ∧
    ∃ fs, step.args = .object fs

namespace Schema

variable {names : List String} {k : String} {v : Value}

theorem mem_uniqueInOrder : k ∈ uniqueInOrder names ↔ k ∈ names := by
  constructor
  · exact fun h => Firsts.firsts_sublist.subset h
  · intro h
    obtain ⟨x, hx, hkey⟩ : ∃ x ∈ uniqueInOrder names, id x = id k :=
      Firsts.exists_first h (Finset.notMem_empty _)
    obtain rfl : x = k := hkey
    exact hx

section

attribute [local simp] isType assertion accepts acceptsKeys acceptsProperties

theorem accepts_someString : accepts someString v ↔ ∃ s, v = .string s ∧ s ≠ "" := by
  have hlength (s : String) : 1 ≤ s.length ↔ s ≠ "" := by
    rw [Nat.one_le_iff_ne_zero, ne_eq, String.length_eq_zero_iff]
  rcases v with _ | _ | _ | s | _ | _
  all_goals simp [someString, hlength]

theorem accepts_nameSchema : accepts (nameSchema names) (.string k) ↔
    if names = [] then k ≠ "" else k ∈ names := by
  unfold nameSchema
  split_ifs with hnil
  · simp [accepts_someString]
  · simp [mem_uniqueInOrder]

theorem accepts_type {t : String} : accepts (.object [("type", .string t)]) v ↔ isType t v := by
  simp

theorem isType_object : isType "object" v ↔ ∃ fs, v = .object fs := by
  rcases v with _ | _ | _ | _ | _ | fs
  all_goals simp

theorem acceptsProperties_iff {ps fs : List (String × Value)} : acceptsProperties ps fs ↔
    ∀ x ∈ ps, ∀ w ∈ fs.lookup x.1, accepts x.2 w := by
  induction ps with
  | nil => simp
  | cons x ps ih =>
    obtain ⟨name, schema⟩ := x
    rw [acceptsProperties, Bool.and_eq_true, ih, List.forall_mem_cons, Option.all_eq_true]
    rfl

end

/-- What an object has to be, for the schema of a step. -/
theorem accepts_stepSchema_iff {tools : List ToolName} : accepts (stepSchema tools) v ↔
    ∃ fs, v = .object fs ∧ (∀ f ∈ fs, f.1 ∈ (stepProperties tools).map Prod.fst) ∧
      (∀ x ∈ stepProperties tools, ∀ w ∈ fs.lookup x.1, accepts x.2 w) ∧
      ∀ name ∈ ["id", "peer", "capability", "args"], name ∈ fs.map Prod.fst := by
  have hnames : propertyNames (stepSchema tools) = (stepProperties tools).map Prod.fst := rfl
  rw [stepSchema, accepts, ← stepSchema, hnames]
  rcases v with _ | _ | _ | _ | _ | fs
  all_goals simp [acceptsKeys, assertion, isType, acceptsProperties_iff]

/-- What an object has to be, for the schema of a plan. -/
theorem accepts_planJsonSchema_iff {tools : List ToolName} :
    accepts (planJsonSchema tools) v ↔ ∃ fs, v = .object fs ∧ (∀ f ∈ fs, f.1 = "plan") ∧
      (∀ w ∈ fs.lookup "plan", ∃ xs, w = .array xs ∧
        ∀ x ∈ xs, accepts (stepSchema (dedup tools)) x) ∧ "plan" ∈ fs.map Prod.fst := by
  have hnames : propertyNames (planJsonSchema tools) = ["plan"] := rfl
  have hsteps (w : Value) : accepts (.object [("items", stepSchema (dedup tools)),
      ("type", .string "array")]) w ↔
        ∃ xs, w = .array xs ∧ ∀ x ∈ xs, accepts (stepSchema (dedup tools)) x := by
    rcases w with _ | _ | _ | _ | xs | _
    all_goals simp [accepts, acceptsKeys, assertion, isType]
  rw [planJsonSchema, accepts, ← planJsonSchema, hnames]
  rcases v with _ | _ | _ | _ | _ | fs
  all_goals simp [acceptsKeys, assertion, isType, acceptsProperties_iff, hsteps]

theorem required_string {fs : List (String × Value)} {name k : String}
    (h : required fs name stringOf = some k) : fs.lookup name = some (.string k) := by
  obtain ⟨o, ho, h⟩ := Option.bind_eq_some_iff.1 h
  obtain ⟨w, rfl, hw⟩ := Option.bind_eq_some_iff.1 h
  rw [lookup_of_single ho]
  unfold stringOf at hw
  split at hw
  · rw [Option.some.inj hw]
  · exact absurd hw (Option.some_ne_none k).symm

/-- A step that the schema accepts has one of the peers, one of the capabilities,
    and an id. -/
theorem named_of_accepts {tools : List ToolName} (hne : tools ≠ []) {step : PlanStep}
    (h : accepts (stepSchema tools) v) (hv : PlanStep.ofValue v = some step) :
    Named tools step := by
  obtain ⟨fs, rfl, -, hproperties, hnames⟩ := accepts_stepSchema_iff.1 h
  simp only [stepProperties, List.forall_mem_cons] at hproperties
  obtain ⟨hargs, hcap, -, hid, hpeer, -⟩ := hproperties
  simp only [PlanStep.ofValue, Option.bind_eq_bind, Option.bind_eq_some_iff] at hv
  obtain ⟨id, hid', peer, hpeer', capability, hcap', args, hargs', dependsOn, -, hstep⟩ := hv
  obtain rfl := Option.some.inj hstep
  have hpeers : tools.map Prod.fst ≠ [] := by rwa [ne_eq, List.map_eq_nil_iff]
  have hcaps : tools.map Prod.snd ≠ [] := by rwa [ne_eq, List.map_eq_nil_iff]
  have hid := accepts_someString.1 (hid _ (required_string hid'))
  have hpeer := accepts_nameSchema.1 (hpeer _ (required_string hpeer'))
  have hcap := accepts_nameSchema.1 (hcap _ (required_string hcap'))
  rw [if_neg hpeers] at hpeer
  rw [if_neg hcaps] at hcap
  obtain ⟨k, hk, hne⟩ := hid
  obtain rfl := Value.string.inj hk
  refine ⟨hne, hpeer, hcap, ?_⟩
  -- The arguments are there, as the schema requires them.
  obtain ⟨o, ho, hargs'⟩ := Option.bind_eq_some_iff.1 hargs'
  have hlookup := lookup_of_single ho
  rcases o with _ | w
  · have hmem := hnames "args" (by simp)
    rw [List.lookup_eq_none_iff] at hlookup
    obtain ⟨f, hf, hname⟩ := List.mem_map.1 hmem
    exact absurd (hlookup f hf) (by simp [hname])
  · obtain rfl := Option.some.inj hargs'
    obtain ⟨fs', rfl⟩ := isType_object.1 (accepts_type.1 (hargs _ hlookup))
    exact ⟨_, by rw [Value.collect, Value.sortBy]⟩

/-- The schema of a step accepts what is written for a step. -/
theorem accepts_stepSchema {tools : List ToolName} (hne : tools ≠ []) {step : PlanStep} :
    accepts (stepSchema tools) step.toValue ↔ Named tools step := by
  have hpeers : tools.map Prod.fst ≠ [] := by rwa [ne_eq, List.map_eq_nil_iff]
  have hcaps : tools.map Prod.snd ≠ [] := by rwa [ne_eq, List.map_eq_nil_iff]
  have hnames : (stepProperties tools).map Prod.fst =
      ["args", "capability", "depends_on", "id", "peer"] := rfl
  have hdeps : accepts (.object [("items", .object [("type", .string "string")]),
      ("type", .string "array")]) (.array (step.dependsOn.map .string)) := by
    simp [accepts, acceptsKeys, assertion, isType]
  -- What the schemas of the fields say of the fields that are written.
  have hfields : (∀ x ∈ stepProperties tools, ∀ w ∈ [("id", Value.string step.id),
      ("peer", .string step.peer), ("capability", .string step.capability), ("args", step.args),
      ("depends_on", .array (step.dependsOn.map .string))].lookup x.1, accepts x.2 w) ↔
        (∃ fs, step.args = .object fs) ∧ step.capability ∈ tools.map Prod.snd ∧ step.id ≠ "" ∧
          step.peer ∈ tools.map Prod.fst := by
    simp [stepProperties, List.lookup_cons, accepts_type, isType_object, accepts_nameSchema,
      accepts_someString, hdeps, hpeers, hcaps]
  rw [accepts_stepSchema_iff]
  constructor
  · rintro ⟨fs, hfs, -, hproperties, -⟩
    obtain rfl := Value.object.inj hfs
    obtain ⟨hargs, hcap, hid, hpeer⟩ := hfields.1 hproperties
    exact ⟨hid, hpeer, hcap, hargs⟩
  · rintro ⟨hid, hpeer, hcap, hargs⟩
    refine ⟨_, rfl, ?_, hfields.2 ⟨hargs, hcap, hid, hpeer⟩, ?_⟩
    · rw [hnames]
      simp
    · simp

end Schema

variable {tools : List ToolName} {p : Plan} {v : Value}

theorem named_dedup {step : PlanStep} : Named (dedup tools) step ↔ Named tools step := by
  simp only [Named, List.mem_map, mem_dedup]

/-- A value that the schema accepts is a plan of named steps, if it is a plan. -/
theorem steps_named (hne : tools ≠ []) (h : Schema.accepts (planJsonSchema tools) v)
    (hv : Plan.ofValue v = some p) : ∀ step ∈ p.plan, Named tools step := by
  obtain ⟨fs, rfl, -, hsteps, -⟩ := Schema.accepts_planJsonSchema_iff.1 h
  obtain ⟨l, hl, rfl⟩ := Option.map_eq_some_iff.1 hv
  obtain ⟨o, ho, hl⟩ := Option.bind_eq_some_iff.1 hl
  obtain ⟨w, rfl, hl⟩ := Option.bind_eq_some_iff.1 hl
  obtain ⟨xs, rfl, hxs⟩ := hsteps w (lookup_of_single ho)
  intro step hstep
  obtain ⟨x, hx, hread⟩ := Plan.mem_of_stepsOf hl step hstep
  exact named_dedup.1 (Schema.named_of_accepts (dedup_ne_nil hne) (hxs x hx) hread)

/-- The schema accepts the plans of named steps. -/
theorem accepts_toValue (hne : tools ≠ []) :
    Schema.accepts (planJsonSchema tools) p.toValue ↔ ∀ step ∈ p.plan, Named tools step := by
  have hsteps : (∀ x ∈ p.plan.map PlanStep.toValue, Schema.accepts (stepSchema (dedup tools)) x) ↔
      ∀ step ∈ p.plan, Named tools step := by
    rw [List.forall_mem_map]
    exact forall₂_congr fun step _ =>
      (Schema.accepts_stepSchema (dedup_ne_nil hne)).trans named_dedup
  rw [Schema.accepts_planJsonSchema_iff, ← hsteps]
  constructor
  · rintro ⟨fs, hfs, -, hlookup, -⟩
    obtain rfl := Value.object.inj hfs
    obtain ⟨xs, hxs, hall⟩ := hlookup _ rfl
    exact Value.array.inj hxs ▸ hall
  · intro hall
    refine ⟨_, rfl, by simp, fun w hw => ?_, by simp⟩
    obtain rfl := Option.some.inj hw
    exact ⟨_, rfl, hall⟩

/-- The schema accepts a plan of the grammar, exactly if its steps have ids. -/
theorem accepts_of_sampled {nearest : String → Option String} {text : List Char}
    (hne : tools ≠ []) (h : Sampled tools text) (hp : Plan.ofJson nearest text = some p) :
    Schema.accepts (planJsonSchema tools) p.toValue ↔ ∀ step ∈ p.plan, step.id ≠ "" := by
  rw [accepts_toValue hne]
  refine forall₂_congr fun step hstep => ?_
  obtain ⟨htool, hargs⟩ := usesTool_of_ofJson hne h hp step hstep
  exact ⟨And.left, fun hid => ⟨hid, List.mem_map_of_mem htool, List.mem_map_of_mem htool, hargs⟩⟩

/-! ## One plan -/

theorem accepts_of_sampled_onePlan :
    Schema.accepts (planJsonSchema [("abc", "echo")]) onePlan.toValue ↔
      ∀ step ∈ onePlan.plan, step.id ≠ "" :=
  accepts_of_sampled (by decide) sampled_onePlan
    ((Plan.ofJson_toJson hasJson_onePlan).trans (if_pos (by decide)))

/-- The peer is that of one tool, and the capability that of the other one. -/
theorem steps_named_onePlan : onePlan.plan ≠ [] ∧
    ∀ step ∈ onePlan.plan, Named [("abc", "sum"), ("xyz", "echo")] step := by
  have hnamed : ∀ step ∈ onePlan.plan, Named [("abc", "sum"), ("xyz", "echo")] step := by
    intro step hstep
    obtain rfl := List.mem_singleton.1 hstep
    exact ⟨by decide, by decide, by decide, _, rfl⟩
  exact ⟨List.cons_ne_nil _ _, steps_named (by decide) ((accepts_toValue (by decide)).2 hnamed)
    (Plan.ofValue_toValue hasJson_onePlan)⟩

end N3ur0n
