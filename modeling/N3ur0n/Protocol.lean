import N3ur0n.Inbound
import N3ur0n.Planner.PlanJson

/-!
# Payloads

The payloads of messages are JSON objects: those of requests to invoke a capability,
and the descriptors of instances, with the declarations of their capabilities. The
fields that are empty are left out of some of them, and may be missing from what is
read.

* `Fields.present`: the fields of an object, of which some are left out;
* `ofValue_toValue`: a declaration, or a descriptor, is read back from its value.
-/

namespace N3ur0n

open BlobTicketPayload (stringOf stringsOf optional tag)

/-! ## Fields -/

namespace Fields

/-- The fields that are not left out. -/
def present (es : List (String × Option Value)) : List (String × Value) :=
  es.filterMap fun e => e.2.map (Prod.mk e.1)

/-- A list that is left out if it is empty. -/
def unlessEmpty (xs : List Value) : Option Value := if xs = [] then none else some (.array xs)

/-- The fields of an object, or of an array that has them in order. -/
def ofRecord (names : List String) : Value → Option (List (String × Value))
  | .object fields => some fields
  | .array xs => if xs.length ≤ names.length then some (names.zip xs) else none
  | _ => none

/-- The items of an array, all of which have to be read. -/
def listOf {α : Type} (parse : Value → Option α) : Value → Option (List α)
  | .array xs => xs.mapM parse
  | _ => none

variable {es : List (String × Option Value)} {fs gs : List (String × Value)} {name : String}
  {o : Option Value} {v : Value}

/-- The names that are written are some of those of the fields, in their order. -/
theorem map_fst_present_sublist : ((present es).map Prod.fst).Sublist (es.map Prod.fst) := by
  induction es with
  | nil => exact List.Sublist.refl _
  | cons e es ih =>
    obtain ⟨k, _ | v⟩ := e
    · exact ih.trans (List.sublist_cons_self _ _)
    · exact ih.cons_cons k

/-- A field is written under a name if it is one of that name. -/
theorem filter_present : (present es).filter (fun x => x.1 = name) =
    present (es.filter fun e => e.1 = name) := by
  rw [present, present, List.filter_filterMap, List.filterMap_filter]
  refine List.filterMap_congr fun e _ => ?_
  obtain ⟨k, _ | v⟩ := e
  · simp
  · simp [Option.filter]

/-- A field has the value that is written under its name. -/
theorem single_present (h : (es.map Prod.fst).Nodup) :
    single (present es) name = some (es.lookup name).join := by
  rw [single, filter_present]
  induction es with
  | nil => rfl
  | cons e es ih =>
    obtain ⟨k, o⟩ := e
    obtain ⟨hk, hes⟩ := List.nodup_cons.1 h
    by_cases hname : k = name
    · subst hname
      have hnone : (es.filter fun e => e.1 = k) = [] :=
        List.filter_eq_nil_iff.2 fun e he => by
          simpa using fun hek : e.1 = k => hk (hek ▸ List.mem_map.2 ⟨e, he, rfl⟩)
      rw [List.filter_cons_of_pos (by simp), hnone, List.lookup_cons_self]
      rcases o with _ | v
      · rfl
      · rfl
    · rw [List.filter_cons_of_neg (by simpa using hname), ih hes, List.lookup_cons,
        beq_false_of_ne (Ne.symm hname)]

/-- The order of the fields does not matter, if their names are distinct. -/
theorem single_perm (h : (fs.map Prod.fst).Nodup) (hp : fs.Perm gs) :
    single fs name = single gs name := by
  have hfilter : (fs.filter fun x => x.1 = name).Perm (gs.filter fun x => x.1 = name) :=
    hp.filter _
  have hnodup : ((fs.filter fun x => x.1 = name).map Prod.fst).Nodup :=
    (List.filter_sublist.map _).nodup h
  have hname : ∀ x ∈ fs.filter fun x => x.1 = name, x.1 = name := fun x hx => by
    simpa using (List.mem_filter.1 hx).2
  rw [single, single]
  generalize (fs.filter fun x => x.1 = name) = l at hfilter hnodup hname ⊢
  rcases l with _ | ⟨x, _ | ⟨y, l⟩⟩
  · rw [List.nil_perm.1 hfilter]
  · rw [List.singleton_perm.1 hfilter]
  · -- Two fields of this name would have the same name.
    have hx := hname x List.mem_cons_self
    have hy := hname y (List.mem_cons_of_mem _ List.mem_cons_self)
    exact absurd List.mem_cons_self (hx.trans hy.symm ▸ (List.nodup_cons.1 hnodup).1)

/-- What is made of the values does not change the names they are found under. -/
theorem single_onValue {f : Value → Value} :
    single (fs.map (Value.onValue f)) name = (single fs name).map (Option.map f) := by
  have hfilter : (fs.map (Value.onValue f)).filter (fun x => x.1 = name) =
      (fs.filter fun x => x.1 = name).map (Value.onValue f) := by
    rw [List.filter_map]
    rfl
  rw [single, single, hfilter]
  generalize (fs.filter fun x => x.1 = name) = l
  rcases l with _ | ⟨x, _ | ⟨y, l⟩⟩
  · rfl
  · rfl
  · rfl

/-- The fields, in the map of `serde_json`. -/
def collected (es : List (String × Option Value)) : List (String × Value) :=
  Sorted.sort id ((present es).map (Value.onValue Value.collect))

/-- In the maps of `serde_json`, the fields that are written are in the order of their names. -/
theorem collect_present : (Value.object (present es)).collect = .object (collected es) :=
  congrArg (fun fs => Value.object (Sorted.sort id fs)) Value.sortByFields_eq

/-- Distinct names stay so when the fields are written. -/
theorem nodup_onValue (h : (es.map Prod.fst).Nodup) :
    (Sorted.keys id ((present es).map (Value.onValue Value.collect))).Nodup := by
  rw [Value.keys_onValue]
  exact map_fst_present_sublist.nodup h

/-- Sorting the fields loses none of them. -/
theorem collected_perm (h : (es.map Prod.fst).Nodup) :
    (collected es).Perm ((present es).map (Value.onValue Value.collect)) :=
  Sorted.sort_perm (nodup_onValue h)

/-- A field is found under its name, whatever the order. -/
theorem single_collected (h : (es.map Prod.fst).Nodup) :
    single (collected es) name = some ((es.lookup name).join.map Value.collect) := by
  have hperm := collected_perm h
  rw [single_perm ((hperm.map Prod.fst).nodup_iff.2 (nodup_onValue h)) hperm, single_onValue,
    single_present h]
  rfl

/-- The numbers of an object are those of its fields. -/
theorem mem_numbers_present {n : Number} (hn : n ∈ (Value.object (present es)).numbers) :
    ∃ e ∈ es, ∃ v ∈ e.2, n ∈ v.numbers := by
  rw [Value.numbers, Value.numbersFields_eq] at hn
  obtain ⟨x, hx, hn⟩ := List.mem_flatMap.1 hn
  obtain ⟨e, he, hmap⟩ := List.mem_filterMap.1 hx
  obtain ⟨v, hv, rfl⟩ := Option.map_eq_some_iff.1 hmap
  exact ⟨e, he, v, hv, hn⟩

end Fields

namespace Value

variable {κ : Type} [LinearOrder κ] {key : String → κ}

/-- Fields are ordered as soon as their values are. -/
theorem orderedFields_iff {fs : List (String × Value)} :
    OrderedFields key fs ↔ ∀ x ∈ fs, Ordered key x.2 := by
  induction fs with
  | nil => simp [OrderedFields]
  | cons x fs ih => rw [OrderedFields, ih, List.forall_mem_cons]

/-- A list is ordered as soon as its items are. -/
theorem orderedList_iff {xs : List Value} : OrderedList key xs ↔ ∀ x ∈ xs, Ordered key x := by
  induction xs with
  | nil => simp [OrderedList]
  | cons x xs ih => rw [OrderedList, ih, List.forall_mem_cons]

mutual

/-- The keys of a value that was put in order are in order. -/
theorem ordered_sortBy : ∀ v : Value, Ordered key (sortBy key v)
  | .null | .bool _ | .number _ | .string _ => trivial
  | .array xs => orderedList_sortBy xs
  | .object fs => ⟨Sorted.inOrder_sort, orderedFields_iff.2 fun _ hx =>
      orderedFields_iff.1 (orderedFields_sortBy fs) _ (Sorted.mem_sort hx)⟩

theorem orderedList_sortBy : ∀ xs : List Value, OrderedList key (sortByList key xs)
  | [] => trivial
  | x :: xs => ⟨ordered_sortBy x, orderedList_sortBy xs⟩

theorem orderedFields_sortBy : ∀ fs : List (String × Value), OrderedFields key (sortByFields key fs)
  | [] => trivial
  | (_, x) :: fs => ⟨ordered_sortBy x, orderedFields_sortBy fs⟩

end

end Value

/-! ## Declarations -/

/-- The access mode on the wire, in lower case. -/
def AccessMode.text : AccessMode → String
  | .free => "free"
  | .restricted => "restricted"
  | .private => "private"

/-- The access mode in a value, by its tag. -/
def AccessMode.ofValue (v : Value) : Option AccessMode :=
  match tag v with
  | some "free" => some .free
  | some "restricted" => some .restricted
  | some "private" => some .private
  | _ => none

/-- An array of texts. -/
def strings (l : List String) : Value := .array (l.map .string)

namespace CapabilityExample

def fields (e : CapabilityExample) : List (String × Option Value) :=
  [("user_intent", some (.string e.userIntent)), ("args", some e.args),
    ("expected_output", some e.expectedOutput)]

def toValue (e : CapabilityExample) : Value := .object (Fields.present e.fields)

def ofValue (v : Value) : Option CapabilityExample := do
  let fs ← Fields.ofRecord ["user_intent", "args", "expected_output"] v
  let userIntent ← required fs "user_intent" stringOf
  let args ← required fs "args" some
  let expectedOutput ← required fs "expected_output" some
  return ⟨userIntent, args.collect, expectedOutput.collect⟩

end CapabilityExample

namespace NegativeExample

def fields (e : NegativeExample) : List (String × Option Value) :=
  [("user_intent", some (.string e.userIntent)), ("why_not", some (.string e.whyNot))]

def toValue (e : NegativeExample) : Value := .object (Fields.present e.fields)

def ofValue (v : Value) : Option NegativeExample := do
  let fs ← Fields.ofRecord ["user_intent", "why_not"] v
  let userIntent ← required fs "user_intent" stringOf
  let whyNot ← required fs "why_not" stringOf
  return ⟨userIntent, whyNot⟩

end NegativeExample

namespace CapabilityDescriptor

def fieldNames : List String :=
  ["name", "description", "schema_in", "schema_out", "mode", "pricing", "tags", "lobe_ids",
    "examples", "disambiguation", "negative_examples", "output_semantic", "version", "languages",
    "countries"]

def fields (d : CapabilityDescriptor) : List (String × Option Value) :=
  [("name", some (.string d.name)), ("description", some (.string d.description)),
    ("schema_in", some d.schemaIn), ("schema_out", some d.schemaOut),
    ("mode", some (.string d.mode.text)), ("pricing", d.pricing.map .string),
    ("tags", some (strings d.tags)), ("lobe_ids", some (strings d.lobeIds)),
    ("examples", Fields.unlessEmpty (d.examples.map (·.toValue))),
    ("disambiguation", d.disambiguation.map .string),
    ("negative_examples", Fields.unlessEmpty (d.negativeExamples.map (·.toValue))),
    ("output_semantic", d.outputSemantic.map .string), ("version", some (.string d.version)),
    ("languages", Fields.unlessEmpty (d.languages.map .string)),
    ("countries", Fields.unlessEmpty (d.countries.map .string))]

def toValue (d : CapabilityDescriptor) : Value := .object (Fields.present d.fields)

/-- The declaration in a value, if it is one; the lists and the version may be missing. -/
def ofValue (v : Value) : Option CapabilityDescriptor := do
  let fs ← Fields.ofRecord fieldNames v
  let name ← required fs "name" stringOf
  let description ← required fs "description" stringOf
  let schemaIn ← required fs "schema_in" some
  let schemaOut ← required fs "schema_out" some
  let mode ← required fs "mode" AccessMode.ofValue
  let pricing ← (single fs "pricing").bind (optional stringOf)
  let tags ← defaulted fs "tags" stringsOf []
  let lobeIds ← defaulted fs "lobe_ids" stringsOf []
  let examples ← defaulted fs "examples" (Fields.listOf CapabilityExample.ofValue) []
  let disambiguation ← (single fs "disambiguation").bind (optional stringOf)
  let negativeExamples ← defaulted fs "negative_examples" (Fields.listOf NegativeExample.ofValue) []
  let outputSemantic ← (single fs "output_semantic").bind (optional stringOf)
  let version ← defaulted fs "version" stringOf "0.0.0"
  let languages ← defaulted fs "languages" stringsOf []
  let countries ← defaulted fs "countries" stringsOf []
  return {
    name, description, schemaIn := schemaIn.collect, schemaOut := schemaOut.collect, mode, pricing,
    tags, lobeIds, examples, disambiguation, negativeExamples, outputSemantic, version, languages,
    countries }

end CapabilityDescriptor

namespace SelfDescriptor

def fieldNames : List String :=
  ["instance_id", "endpoint", "alias", "protocol_version", "updated_at", "lobe_ids", "capabilities"]

def fields (d : SelfDescriptor) : List (String × Option Value) :=
  [("instance_id", some (.string d.instanceId)), ("endpoint", d.endpoint.map .string),
    ("alias", d.aliasName.map .string), ("protocol_version", some (.string d.protocolVersion)),
    ("updated_at", some (.string d.updatedAt)), ("lobe_ids", some (strings d.lobeIds)),
    ("capabilities", some (.array (d.capabilities.map (·.toValue))))]

def toValue (d : SelfDescriptor) : Value := .object (Fields.present d.fields)

def ofValue (v : Value) : Option SelfDescriptor := do
  let fs ← Fields.ofRecord fieldNames v
  let instanceId ← required fs "instance_id" stringOf
  let endpoint ← (single fs "endpoint").bind (optional stringOf)
  let aliasName ← (single fs "alias").bind (optional stringOf)
  let protocolVersion ← required fs "protocol_version" stringOf
  let updatedAt ← required fs "updated_at" stringOf
  let lobeIds ← defaulted fs "lobe_ids" stringsOf []
  let capabilities ← defaulted fs "capabilities" (Fields.listOf CapabilityDescriptor.ofValue) []
  return ⟨instanceId, endpoint, aliasName, protocolVersion, updatedAt, lobeIds, capabilities⟩

end SelfDescriptor

/-! ## Requests -/

/-- The request in a payload; the subscription token may be missing. -/
def InvokeRequest.ofValue (v : Value) : Option InvokeRequest := do
  let fs ← Fields.ofRecord ["capability", "args", "subscription_token"] v
  let capability ← required fs "capability" stringOf
  let args ← required fs "args" some
  let subscriptionToken ← (single fs "subscription_token").bind (optional stringOf)
  return ⟨capability, args.collect, subscriptionToken⟩

/-- A number of 32 bits, without a sign. -/
def u32Of : Value → Option ℕ
  | .number (.int i) => if 0 ≤ i ∧ i < 2 ^ 32 then some i.toNat else none
  | _ => none

/-- The request in a payload; without a capability, all peers are asked for. -/
def GetKnownPeersRequest.ofValue (v : Value) : Option GetKnownPeersRequest := do
  let fs ← Fields.ofRecord ["limit", "capability"] v
  let limit ← required fs "limit" u32Of
  let capability ← (single fs "capability").bind (optional stringOf)
  return ⟨limit, capability⟩

/-- A peer in a reply; its endpoint and its alias may be missing. -/
def PeerSummary.ofValue (v : Value) : Option PeerSummary := do
  let fs ← Fields.ofRecord ["instance_id", "endpoint", "alias"] v
  let instanceId ← required fs "instance_id" stringOf
  let endpoint ← (single fs "endpoint").bind (optional stringOf)
  let aliasName ← (single fs "alias").bind (optional stringOf)
  return ⟨instanceId, endpoint, aliasName⟩

/-- `GetKnownPeersResponse`. -/
def knownPeersOf (v : Value) : Option (List PeerSummary) := do
  let fs ← Fields.ofRecord ["peers"] v
  required fs "peers" (Fields.listOf PeerSummary.ofValue)

/-- The value of a JSON text, in the maps of `serde_json`. -/
def WireFormat.parse (W : WireFormat) (text : List Char) : Option Value :=
  (Json.readText (Json.numberOf W.nearest) Json.recursionLimit text).map Value.collect

/-- The payloads, with the text of the error for those that are not read. -/
def WireFormat.codec (W : WireFormat) (serdeError : Value → String) : InboundCodec where
  invoke v := (InvokeRequest.ofValue v).elim (.error (serdeError v)) .ok
  knownPeers v := (GetKnownPeersRequest.ofValue v).elim (.error (serdeError v)) .ok
  cached text :=
    (Json.readText (Json.numberOf W.nearest) Json.recursionLimit text.toList).bind
      SelfDescriptor.ofValue
  descriptor d := d.toValue.collect

/-- The codec reads what is a request, and nothing else. -/
theorem WireFormat.codec_invoke {W : WireFormat} {serdeError : Value → String} {v : Value}
    {req : InvokeRequest} :
    (W.codec serdeError).invoke v = .ok req ↔ InvokeRequest.ofValue v = some req :=
  Except.elim_eq_ok

theorem WireFormat.codec_knownPeers {W : WireFormat} {serdeError : Value → String} {v : Value}
    {req : GetKnownPeersRequest} :
    (W.codec serdeError).knownPeers v = .ok req ↔ GetKnownPeersRequest.ofValue v = some req :=
  Except.elim_eq_ok

/-! ## Reading back -/

/-- An access mode is read back. -/
theorem AccessMode.ofValue_text (mode : AccessMode) : ofValue (.string mode.text) = some mode := by
  cases mode
  all_goals rfl

/-- Arrays keep their order in the maps of `serde_json`. -/
theorem collect_array (xs : List Value) :
    (Value.array xs).collect = .array (xs.map Value.collect) :=
  congrArg Value.array Value.sortByList_eq

/-- Texts are read back from their array. -/
theorem stringsOf_strings (l : List String) : stringsOf (strings l).collect = some l := by
  rw [strings, collect_array, List.map_map]
  exact (List.mapM_map ..).trans (mapM_stringOf l)

theorem stringOf_collect (s : String) : stringOf (Value.string s).collect = some s := rfl

/-- Texts are read one by one. -/
theorem stringsOf_eq_listOf : stringsOf = Fields.listOf stringOf := by
  funext v
  cases v
  all_goals rfl

section

variable {α : Type} {es : List (String × Option Value)} {name : String} {v : Value} {a : α}
  {parse : Value → Option α}

/-- A field that is written is found when it is required. -/
theorem required_collected (hes : (es.map Prod.fst).Nodup) (hv : es.lookup name = some (some v))
    (ha : parse v.collect = some a) : required (Fields.collected es) name parse = some a := by
  rw [required, Fields.single_collected hes, hv]
  exact ha

/-- A field that is written is taken rather than its default. -/
theorem defaulted_collected {default : α} (hes : (es.map Prod.fst).Nodup)
    (hv : es.lookup name = some (some v)) (ha : parse v.collect = some a) :
    defaulted (Fields.collected es) name parse default = some a := by
  rw [defaulted, Fields.single_collected hes, hv]
  exact ha

/-- A text that may be missing is read back as it is. -/
theorem optional_collected {o : Option String} (hes : (es.map Prod.fst).Nodup)
    (ho : es.lookup name = some (o.map .string)) :
    (single (Fields.collected es) name).bind (optional stringOf) = some o := by
  rw [Fields.single_collected hes, ho]
  rcases o with _ | s
  · rfl
  · rfl

/-- The items of a list are read back. -/
theorem listOf_collect {write : α → Value} {l : List α}
    (h : ∀ a ∈ l, parse (write a).collect = some a) :
    Fields.listOf parse (Value.array (l.map write)).collect = some l := by
  rw [collect_array, List.map_map, Fields.listOf]
  induction l with
  | nil => rfl
  | cons a l ih =>
    obtain ⟨ha, hl⟩ := List.forall_mem_cons.1 h
    rw [List.map_cons, List.mapM_cons, Function.comp_apply, ha, ih hl]
    rfl

/-- A list is read back that is left out if it is empty. -/
theorem listed_collected {write : α → Value} {l : List α} (hes : (es.map Prod.fst).Nodup)
    (hl : es.lookup name = some (Fields.unlessEmpty (l.map write)))
    (h : ∀ a ∈ l, parse (write a).collect = some a) :
    defaulted (Fields.collected es) name (Fields.listOf parse) [] = some l := by
  rw [defaulted, Fields.single_collected hes, hl, Option.join_some, Fields.unlessEmpty]
  split
  · next hnil =>
    rw [List.map_eq_nil_iff.1 hnil]
    rfl
  · exact listOf_collect h

end

/-- No two fields of an example have the same name. -/
theorem CapabilityExample.nodup_fields (e : CapabilityExample) :
    (e.fields.map Prod.fst).Nodup := by simp [fields]

theorem NegativeExample.nodup_fields (e : NegativeExample) :
    (e.fields.map Prod.fst).Nodup := by simp [fields]

theorem SelfDescriptor.nodup_fields (d : SelfDescriptor) :
    (d.fields.map Prod.fst).Nodup := by simp [fields]

/-- An example is read back from its value. -/
theorem CapabilityExample.ofValue_toValue {e : CapabilityExample} (hargs : e.args.Ordered id)
    (houtput : e.expectedOutput.Ordered id) : ofValue e.toValue.collect = some e := by
  have hes := e.nodup_fields
  have hintent : required (Fields.collected e.fields) "user_intent" stringOf = some e.userIntent :=
    required_collected hes rfl (stringOf_collect _)
  have hargs' : required (Fields.collected e.fields) "args" some = some e.args :=
    required_collected hes rfl (congrArg some (Value.sortBy_of_ordered hargs))
  have houtput' : required (Fields.collected e.fields) "expected_output" some =
      some e.expectedOutput :=
    required_collected hes rfl (congrArg some (Value.sortBy_of_ordered houtput))
  rw [ofValue, toValue, Fields.collect_present]
  simp only [Fields.ofRecord, Option.bind_eq_bind, Option.bind_some, hintent, hargs', houtput']
  exact congrArg some (congr (congrArg (CapabilityExample.mk _) (Value.sortBy_of_ordered hargs))
    (Value.sortBy_of_ordered houtput))

/-- So is a negative one. -/
theorem NegativeExample.ofValue_toValue (e : NegativeExample) :
    ofValue e.toValue.collect = some e := by
  have hes := e.nodup_fields
  have hintent : required (Fields.collected e.fields) "user_intent" stringOf = some e.userIntent :=
    required_collected hes rfl (stringOf_collect _)
  have hwhy : required (Fields.collected e.fields) "why_not" stringOf = some e.whyNot :=
    required_collected hes rfl (stringOf_collect _)
  rw [ofValue, toValue, Fields.collect_present]
  simp only [Fields.ofRecord, Option.bind_eq_bind, Option.bind_some, hintent, hwhy]
  rfl

/-- A peer is read back from its summary. -/
theorem PeerSummary.ofValue_toValue (p : PeerSummary) : ofValue p.toValue = some p := by
  obtain ⟨instanceId, endpoint, aliasName⟩ := p
  rcases endpoint with _ | e
  all_goals
    rcases aliasName with _ | a
    all_goals simp [ofValue, toValue, Fields.ofRecord, required, single, stringOf,
      BlobTicketPayload.optional]

namespace CapabilityDescriptor

/-- The values of the declaration are those of `serde_json`. -/
structure IsJson (W : WireFormat) (d : CapabilityDescriptor) : Prop where
  schemaIn : W.IsJson d.schemaIn
  schemaOut : W.IsJson d.schemaOut
  examples : ∀ e ∈ d.examples, W.IsJson e.args ∧ W.IsJson e.expectedOutput

variable {W : WireFormat} {d : CapabilityDescriptor}

theorem nodup_fields : (d.fields.map Prod.fst).Nodup := by simp [fields]

theorem ofValue_toValue (hd : d.IsJson W) : ofValue d.toValue.collect = some d := by
  have hcollect {v : Value} (hv : W.IsJson v) : v.collect = v := Value.sortBy_of_ordered hv.1
  have hstring {name s : String} (hs : d.fields.lookup name = some (some (.string s))) :
      required (Fields.collected d.fields) name stringOf = some s :=
    required_collected nodup_fields hs (stringOf_collect s)
  have hstrings {name : String} {l : List String}
      (hl : d.fields.lookup name = some (Fields.unlessEmpty (l.map .string))) :
      defaulted (Fields.collected d.fields) name stringsOf [] = some l :=
    stringsOf_eq_listOf ▸ listed_collected nodup_fields hl fun s _ => stringOf_collect s
  have hoptional {name : String} {o : Option String}
      (ho : d.fields.lookup name = some (o.map .string)) :
      (single (Fields.collected d.fields) name).bind (optional stringOf) = some o :=
    optional_collected nodup_fields ho
  have htags {name : String} {l : List String}
      (hl : d.fields.lookup name = some (some (strings l))) :
      defaulted (Fields.collected d.fields) name stringsOf [] = some l :=
    defaulted_collected nodup_fields hl (stringsOf_strings l)
  -- the schemas are values already, and pass only by their sorting
  have hschemaIn : required (Fields.collected d.fields) "schema_in" some = some d.schemaIn :=
    required_collected nodup_fields rfl (congrArg some (hcollect hd.schemaIn))
  have hschemaOut : required (Fields.collected d.fields) "schema_out" some = some d.schemaOut :=
    required_collected nodup_fields rfl (congrArg some (hcollect hd.schemaOut))
  have hmode : required (Fields.collected d.fields) "mode" AccessMode.ofValue = some d.mode :=
    required_collected nodup_fields rfl (AccessMode.ofValue_text d.mode)
  have hversion : defaulted (Fields.collected d.fields) "version" stringOf "0.0.0" =
      some d.version :=
    defaulted_collected nodup_fields rfl (stringOf_collect _)
  have hexamples : defaulted (Fields.collected d.fields) "examples"
      (Fields.listOf CapabilityExample.ofValue) [] = some d.examples :=
    listed_collected nodup_fields rfl fun e he =>
      CapabilityExample.ofValue_toValue (hd.examples e he).1.1 (hd.examples e he).2.1
  have hnegative : defaulted (Fields.collected d.fields) "negative_examples"
      (Fields.listOf NegativeExample.ofValue) [] = some d.negativeExamples :=
    listed_collected nodup_fields rfl fun e _ => e.ofValue_toValue
  rw [ofValue, toValue, Fields.collect_present, Fields.ofRecord,
    Option.bind_eq_bind, Option.bind_some, hstring (s := d.name) rfl,
    hstring (s := d.description) rfl, hschemaIn, hschemaOut, hmode, hoptional (o := d.pricing) rfl,
    htags (l := d.tags) rfl, htags (l := d.lobeIds) rfl, hexamples,
    hoptional (o := d.disambiguation) rfl, hnegative, hoptional (o := d.outputSemantic) rfl,
    hversion, hstrings (l := d.languages) rfl, hstrings (l := d.countries) rfl]
  simp only [Option.bind_eq_bind, Option.bind_some, hcollect hd.schemaIn, hcollect hd.schemaOut]
  rfl

end CapabilityDescriptor

namespace SelfDescriptor

variable {W : WireFormat} {d : SelfDescriptor}

theorem ofValue_toValue (hd : ∀ cap ∈ d.capabilities, cap.IsJson W) :
    ofValue d.toValue.collect = some d := by
  have hes := d.nodup_fields
  have hstring {name s : String} (hs : d.fields.lookup name = some (some (.string s))) :
      required (Fields.collected d.fields) name stringOf = some s :=
    required_collected hes hs (stringOf_collect s)
  have hoptional {name : String} {o : Option String}
      (ho : d.fields.lookup name = some (o.map .string)) :
      (single (Fields.collected d.fields) name).bind (optional stringOf) = some o :=
    optional_collected hes ho
  have hlobes : defaulted (Fields.collected d.fields) "lobe_ids" stringsOf [] = some d.lobeIds :=
    defaulted_collected hes rfl (stringsOf_strings _)
  have hcapabilities : defaulted (Fields.collected d.fields) "capabilities"
      (Fields.listOf CapabilityDescriptor.ofValue) [] = some d.capabilities :=
    defaulted_collected hes rfl (listOf_collect fun cap hcap =>
      CapabilityDescriptor.ofValue_toValue (hd cap hcap))
  rw [ofValue, toValue, Fields.collect_present, Fields.ofRecord, Option.bind_eq_bind,
    Option.bind_some, hstring (s := d.instanceId) rfl, hoptional (o := d.endpoint) rfl,
    hoptional (o := d.aliasName) rfl, hstring (s := d.protocolVersion) rfl,
    hstring (s := d.updatedAt) rfl, hlobes, hcapabilities]
  rfl

end SelfDescriptor

/-! ## Values of `serde_json` -/

namespace WireFormat

variable {W : WireFormat} {v : Value}

/-- What is put in a map of `serde_json` is in order. -/
theorem isJson_collect (h : ∀ n ∈ v.numbers, n.Valid W.nearest) : W.IsJson v.collect :=
  ⟨Value.ordered_sortBy v, fun n hn => h n (Value.mem_numbers_sortBy hn)⟩

end WireFormat

/-- The numbers of an array are those of its items. -/
theorem mem_numbers_array {n : Number} {xs : List Value} :
    n ∈ (Value.array xs).numbers ↔ ∃ x ∈ xs, n ∈ x.numbers := by
  change n ∈ Value.numbersList xs ↔ _
  induction xs with
  | nil => simp [Value.numbersList]
  | cons x xs ih => rw [Value.numbersList, List.mem_append, ih, List.exists_mem_cons_iff]

/-! ## The fields of declarations

What holds of texts, and of lists of what it holds of, holds of the values of a
declaration if it holds of those that it has. -/

section

variable {P : Value → Prop} (hstring : ∀ s : String, P (.string s))
  (harray : ∀ xs : List Value, (∀ x ∈ xs, P x) → P (.array xs))

include hstring

theorem forall_optional {o : Option String} : ∀ v ∈ o.map Value.string, P v := by
  rintro v hv
  obtain ⟨s, -, rfl⟩ := Option.map_eq_some_iff.1 hv
  exact hstring s

/-- What holds of the arguments of an example, of its output and of texts holds of its fields. -/
theorem CapabilityExample.forall_fields {e : CapabilityExample} (hargs : P e.args)
    (houtput : P e.expectedOutput) : ∀ f ∈ e.fields, ∀ v ∈ f.2, P v := by
  simp [fields, hstring, hargs, houtput]

theorem NegativeExample.forall_fields {e : NegativeExample} : ∀ f ∈ e.fields, ∀ v ∈ f.2, P v := by
  simp [fields, hstring]

include harray

/-- What holds of texts holds of arrays of them. -/
theorem forall_strings {l : List String} : P (strings l) :=
  harray _ (List.forall_mem_map.2 fun s _ => hstring s)

omit hstring in
theorem forall_unlessEmpty {xs : List Value} (h : ∀ x ∈ xs, P x) :
    ∀ v ∈ Fields.unlessEmpty xs, P v := by
  rintro v hv
  rw [Fields.unlessEmpty] at hv
  split at hv
  · exact nomatch hv
  · obtain rfl := Option.some.inj hv
    exact harray xs h

/-- What holds of the schemas and of the examples holds of all fields of a declaration. -/
theorem CapabilityDescriptor.forall_fields {d : CapabilityDescriptor} (hin : P d.schemaIn)
    (hout : P d.schemaOut) (hexamples : ∀ e ∈ d.examples, P e.toValue)
    (hnegative : ∀ e ∈ d.negativeExamples, P e.toValue) : ∀ f ∈ d.fields, ∀ v ∈ f.2, P v := by
  have hone {s : String} : ∀ v ∈ some (Value.string s), P v :=
    fun v hv => Option.some.inj hv ▸ hstring s
  have hlist {l : List String} : ∀ v ∈ some (strings l), P v :=
    fun v hv => Option.some.inj hv ▸ forall_strings hstring harray
  have hstrings {l : List String} : ∀ v ∈ Fields.unlessEmpty (l.map .string), P v :=
    forall_unlessEmpty harray (List.forall_mem_map.2 fun s _ => hstring s)
  simp only [fields, List.forall_mem_cons]
  refine ⟨hone, hone, fun v hv => Option.some.inj hv ▸ hin, fun v hv => Option.some.inj hv ▸ hout,
    hone, forall_optional hstring, hlist, hlist,
    forall_unlessEmpty harray (List.forall_mem_map.2 hexamples), forall_optional hstring,
    forall_unlessEmpty harray (List.forall_mem_map.2 hnegative), forall_optional hstring, hone,
    hstrings, hstrings, fun f hf => absurd hf List.not_mem_nil⟩

/-- What holds of the declarations holds of all fields of a descriptor. -/
theorem SelfDescriptor.forall_fields {d : SelfDescriptor}
    (hcapabilities : ∀ cap ∈ d.capabilities, P cap.toValue) : ∀ f ∈ d.fields, ∀ v ∈ f.2, P v := by
  have hone {s : String} : ∀ v ∈ some (Value.string s), P v :=
    fun v hv => Option.some.inj hv ▸ hstring s
  simp only [fields, List.forall_mem_cons]
  refine ⟨hone, forall_optional hstring, forall_optional hstring, hone, hone,
    fun v hv => Option.some.inj hv ▸ forall_strings hstring harray,
    fun v hv => Option.some.inj hv ▸ harray _ (List.forall_mem_map.2 hcapabilities),
    fun f hf => absurd hf List.not_mem_nil⟩

end

/-! ### Numbers -/

namespace WireFormat

variable (W : WireFormat)

/-- The numbers in a value are those that are read from a text. -/
def HasNumbers (v : Value) : Prop := ∀ n ∈ v.numbers, n.Valid W.nearest

variable {W} {es : List (String × Option Value)}

/-- There are no numbers in a text. -/
theorem hasNumbers_string (s : String) : W.HasNumbers (.string s) :=
  fun _ hn => absurd hn List.not_mem_nil

theorem hasNumbers_array (xs : List Value) (h : ∀ x ∈ xs, W.HasNumbers x) :
    W.HasNumbers (.array xs) := by
  intro n hn
  obtain ⟨x, hx, hn⟩ := mem_numbers_array.1 hn
  exact h x hx n hn

/-- An object has the numbers of the fields that are written. -/
theorem hasNumbers_present (h : ∀ e ∈ es, ∀ v ∈ e.2, W.HasNumbers v) :
    W.HasNumbers (.object (Fields.present es)) := by
  intro n hn
  obtain ⟨e, he, v, hv, hn⟩ := Fields.mem_numbers_present hn
  exact h e he v hv n hn

/-- The numbers of a declaration are those of its schemas and its examples. -/
theorem hasNumbers_capability {d : CapabilityDescriptor} (hd : d.IsJson W) :
    W.HasNumbers d.toValue :=
  hasNumbers_present (CapabilityDescriptor.forall_fields hasNumbers_string hasNumbers_array
    hd.schemaIn.2 hd.schemaOut.2
    (fun e he => hasNumbers_present (CapabilityExample.forall_fields hasNumbers_string
      (hd.examples e he).1.2 (hd.examples e he).2.2))
    fun _ _ => hasNumbers_present (NegativeExample.forall_fields hasNumbers_string))

/-- The numbers of a descriptor are those of its declarations. -/
theorem hasNumbers_descriptor {d : SelfDescriptor} (hd : ∀ cap ∈ d.capabilities, cap.IsJson W) :
    W.HasNumbers d.toValue :=
  hasNumbers_present (SelfDescriptor.forall_fields hasNumbers_string hasNumbers_array
    fun cap hcap => hasNumbers_capability (hd cap hcap))

end WireFormat

/-! ### Depth -/

namespace Value

/-- It is as deep in the maps of `serde_json`, where keys are distinct. -/
def KeepsDepth (v : Value) : Prop := v.collect.depth = v.depth

variable {es : List (String × Option Value)}

/-- What is in order is not moved, and so not nested deeper. -/
theorem keepsDepth_of_ordered {v : Value} (hv : v.Ordered id) : v.KeepsDepth :=
  congrArg depth (sortBy_of_ordered hv)

theorem keepsDepth_string (s : String) : (Value.string s).KeepsDepth := rfl

/-- An array is nested as deep as its items are. -/
theorem keepsDepth_array (xs : List Value) (h : ∀ x ∈ xs, x.KeepsDepth) :
    (Value.array xs).KeepsDepth := by
  refine Nat.le_antisymm depth_sortBy_le ?_
  rw [collect_array]
  refine Nat.succ_le_succ (depthList_le.2 fun x hx => ?_)
  rw [← h x hx]
  exact depthList_le.1 (Nat.le_refl _) _ (List.mem_map_of_mem hx)

/-- An object is nested as deep as its fields are. -/
theorem keepsDepth_present (hes : (es.map Prod.fst).Nodup)
    (h : ∀ e ∈ es, ∀ v ∈ e.2, KeepsDepth v) : (Value.object (Fields.present es)).KeepsDepth := by
  refine Nat.le_antisymm depth_sortBy_le ?_
  rw [Fields.collect_present]
  refine Nat.succ_le_succ (depthFields_le.2 fun x hx => ?_)
  obtain ⟨e, he, hmap⟩ := List.mem_filterMap.1 hx
  obtain ⟨v, hv, rfl⟩ := Option.map_eq_some_iff.1 hmap
  have hmem : (e.1, v.collect) ∈ Fields.collected es :=
    (Fields.collected_perm hes).mem_iff.2 (List.mem_map_of_mem (f := onValue collect) hx)
  change v.depth ≤ _
  rw [← h e he v hv]
  exact depthFields_le.1 (Nat.le_refl _) _ hmem

theorem keepsDepth_capability {W : WireFormat} {d : CapabilityDescriptor} (hd : d.IsJson W) :
    d.toValue.KeepsDepth :=
  keepsDepth_present CapabilityDescriptor.nodup_fields (CapabilityDescriptor.forall_fields
    keepsDepth_string keepsDepth_array (keepsDepth_of_ordered hd.schemaIn.1)
    (keepsDepth_of_ordered hd.schemaOut.1)
    (fun e he => keepsDepth_present e.nodup_fields (CapabilityExample.forall_fields
      keepsDepth_string (keepsDepth_of_ordered (hd.examples e he).1.1)
      (keepsDepth_of_ordered (hd.examples e he).2.1)))
    fun e _ => keepsDepth_present e.nodup_fields (NegativeExample.forall_fields keepsDepth_string))

/-- A descriptor is not nested deeper when its fields are sorted. -/
theorem keepsDepth_descriptor {W : WireFormat} {d : SelfDescriptor}
    (hd : ∀ cap ∈ d.capabilities, cap.IsJson W) : d.toValue.KeepsDepth :=
  keepsDepth_present d.nodup_fields (SelfDescriptor.forall_fields keepsDepth_string keepsDepth_array
    fun cap hcap => keepsDepth_capability (hd cap hcap))

end Value

end N3ur0n
