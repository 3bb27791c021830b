import N3ur0n.JsonStruct
import N3ur0n.Planner.Plan
import N3ur0n.Wire

/-!
# Plans as JSON

A plan is written as an object with a list of steps, each with all of its
fields. It is read from such an object, where the fields of a step may come in
any order, next to unknown ones, which are gone over unread, and its last two may
be missing, or from the arrays of the same fields.

* `ofJson_toJson`: a plan is read back from its text, exactly if its arguments
  are not nested too deep;
* `fits_of_ofJson`: no text is read as a plan whose arguments are.
-/

namespace N3ur0n

open BlobTicketPayload (stringOf stringsOf)

/-- A field that may be missing. -/
def defaulted {α : Type} (fields : List (String × Value)) (name : String)
    (parse : Value → Option α) (default : α) : Option α :=
  (single fields name).bind fun v => v.elim (some default) parse

namespace PlanStep

/-- The step in a value, by the names of its fields or in their order; the last two may be
    missing. -/
def ofValue : Value → Option PlanStep
  | .object fs => do
    let id ← required fs "id" stringOf
    let peer ← required fs "peer" stringOf
    let capability ← required fs "capability" stringOf
    let args ← defaulted fs "args" some .null
    let dependsOn ← defaulted fs "depends_on" stringsOf []
    return ⟨id, peer, capability, args.collect, dependsOn⟩
  | .array (id :: peer :: capability :: rest) => do
    let id ← stringOf id
    let peer ← stringOf peer
    let capability ← stringOf capability
    match rest with
    | [] => return ⟨id, peer, capability, .null, []⟩
    | [args] => return ⟨id, peer, capability, args.collect, []⟩
    | [args, dependsOn] =>
      let dependsOn ← stringsOf dependsOn
      return ⟨id, peer, capability, args.collect, dependsOn⟩
    | _ => none
  | _ => none

/-- The fields, in the order of the struct. -/
def fields : List (String × Json.Shape) :=
  [("id", .any), ("peer", .any), ("capability", .any), ("args", .any), ("depends_on", .any)]

/-- The JSON form of a step, with all its fields. -/
def toValue (s : PlanStep) : Value :=
  .object [("id", .string s.id), ("peer", .string s.peer), ("capability", .string s.capability),
    ("args", s.args), ("depends_on", .array (s.dependsOn.map .string))]

end PlanStep

namespace Plan

/-- The steps in an array. -/
def stepsOf : Value → Option (List PlanStep)
  | .array xs => xs.mapM PlanStep.ofValue
  | _ => none

/-- The plan in a value, by the name of its field or as the only item. -/
def ofValue : Value → Option Plan
  | .object fs => (required fs "plan" stepsOf).map Plan.mk
  | .array [steps] => (stepsOf steps).map Plan.mk
  | _ => none

/-- The JSON form of a plan. -/
def toValue (p : Plan) : Value := .object [("plan", .array (p.plan.map PlanStep.toValue))]

/-- The JSON text of a plan. -/
def toJson (p : Plan) : List Char := p.toValue.render

/-- The only field. -/
def fields : List (String × Json.Shape) := [("plan", .list (.struct PlanStep.fields))]

/-- The plan of a JSON text, if it is one. -/
def ofJson (nearest : String → Option String) (text : List Char) : Option Plan :=
  (Json.readShapeText (Json.numberOf nearest) Json.recursionLimit (.struct fields) text).bind
    Plan.ofValue

/-- A field that is unknown is not read: its text is no string. -/
example : (ofJson some "\x7b\"plan\": [], \"note\": \"\\ud800\"\x7d".toList).isSome := by
  decide

/-- The arguments are values of `serde_json`: the keys of their objects are in
    order, and their numbers are those that are read from a text. Whether a double is
    read back from its text depends on `nearest`, and with `some` every one is. -/
def HasJson (nearest : String → Option String) (p : Plan) : Prop :=
  ∀ s ∈ p.plan, s.args.Ordered id ∧ ∀ n ∈ s.args.numbers, n.Valid nearest

/-- What is read back has the form of a value of `serde_json`, whatever the doubles. -/
theorem HasJson.form {nearest : String → Option String} {p : Plan} (h : p.HasJson nearest) :
    p.HasJson some := by
  refine fun s hs => ⟨(h s hs).1, fun n hn => ?_⟩
  have hvalid := (h s hs).2 n hn
  cases n with
  | int i => exact hvalid
  | float text => exact ⟨hvalid.1, rfl⟩

/-- The arguments are not nested too deep to be read: three levels are those of
    the plan, of its steps and of the step. -/
def Fits (p : Plan) : Prop := ∀ s ∈ p.plan, s.args.depth + 3 ≤ Json.recursionLimit

instance (p : Plan) : Decidable p.Fits :=
  inferInstanceAs (Decidable (∀ s ∈ p.plan, s.args.depth + 3 ≤ Json.recursionLimit))

end Plan

variable {nearest : String → Option String} {p : Plan} {s : PlanStep} {v : Value}

/-! ## Reading back -/

/-- Texts are read back one by one. -/
theorem mapM_stringOf (l : List String) : l.mapM (stringOf ∘ Value.string) = some l := by
  induction l with
  | nil => rfl
  | cons a l ih => simp [List.mapM_cons, stringOf, ih]

/-- A step is read back from its value. -/
theorem ofValue_step (hs : s.args.Ordered id) : PlanStep.ofValue s.toValue = some s := by
  have hargs : s.args.collect = s.args := Value.sortBy_of_ordered hs
  simp [PlanStep.toValue, PlanStep.ofValue, required, defaulted, single, stringOf, stringsOf,
    mapM_stringOf, hargs]

/-- There are no numbers in texts. -/
theorem numbersList_strings (l : List String) : Value.numbersList (l.map Value.string) = [] := by
  induction l with
  | nil => rfl
  | cons a l ih => simp [Value.numbersList, Value.numbers, ih]

/-- The numbers of a step are those of its arguments. -/
theorem numbers_step : s.toValue.numbers = s.args.numbers := by
  simp [PlanStep.toValue, Value.numbers, Value.numbersFields, numbersList_strings]

/-- A step is nested one level deeper than its arguments. -/
theorem depth_step {k : ℕ} : s.toValue.depth ≤ k + 2 ↔ s.args.depth ≤ k + 1 := by
  have hstrings : ∀ l : List String, Value.depthList (l.map Value.string) = 0 := by
    intro l
    induction l with
    | nil => rfl
    | cons a l ih => simp [Value.depthList, Value.depth, ih]
  simp [PlanStep.toValue, Value.depth, Value.depthFields, hstrings]

namespace Plan

/-- A plan is read back from its value. -/
theorem ofValue_toValue (hp : p.HasJson nearest) : ofValue p.toValue = some p := by
  have hsteps : ∀ l : List PlanStep, (∀ s ∈ l, s.args.Ordered id) →
      (l.map PlanStep.toValue).mapM PlanStep.ofValue = some l := by
    intro l hl
    induction l with
    | nil => rfl
    | cons s l ih =>
      obtain ⟨hs, hl⟩ := List.forall_mem_cons.1 hl
      simp [List.mapM_cons, ofValue_step hs, ih hl]
  simp [toValue, ofValue, required, single, stepsOf, hsteps p.plan fun s hs => (hp s hs).1]

/-- The numbers of a plan are those of the arguments of its steps. -/
theorem mem_numbers_toValue {n : Number} (hn : n ∈ p.toValue.numbers) :
    ∃ s ∈ p.plan, n ∈ s.args.numbers := by
  have hsteps : ∀ l : List PlanStep, n ∈ Value.numbersList (l.map PlanStep.toValue) →
      ∃ s ∈ l, n ∈ s.args.numbers := by
    intro l hl
    induction l with
    | nil => exact absurd hl List.not_mem_nil
    | cons s l ih =>
      rw [List.map_cons, Value.numbersList, numbers_step, List.mem_append] at hl
      rcases hl with hn | hn
      · exact ⟨s, List.mem_cons_self, hn⟩
      · obtain ⟨s', hs', hn⟩ := ih hn
        exact ⟨s', List.mem_cons_of_mem _ hs', hn⟩
  refine hsteps p.plan ?_
  simpa [toValue, Value.numbers, Value.numbersFields] using hn

/-- The text of a plan can be read exactly if the arguments are not nested too deep. -/
theorem depth_toValue : p.toValue.depth ≤ Json.recursionLimit ↔ p.Fits := by
  have hlist : p.toValue.depth ≤ Json.recursionLimit ↔
      Value.depthList (p.plan.map PlanStep.toValue) ≤ 125 := by
    simp only [toValue, Value.depth, Value.depthFields, Json.recursionLimit]
    omega
  rw [hlist, Value.depthList_le, List.forall_mem_map]
  exact forall₂_congr fun s _ => depth_step.trans (Nat.add_le_add_iff_right (n := 3)).symm

/-- A step is read where it is written, if the numbers of its arguments are. -/
theorem readsShape_step {num : List Char → Option Number} {limit : ℕ}
    (hn : ∀ n ∈ s.args.numbers, Value.ReadsNumber num n) :
    Json.ReadsShape num (limit + 1) (.struct PlanStep.fields) s.toValue.render
      (Value.within (limit + 1) s.toValue) := by
  have hany {v : Value} (hv : ∀ n ∈ v.numbers, n ∈ s.args.numbers) :
      Json.ReadsShape num limit .any v.render (Value.within limit v) :=
    Json.readsShape_any (Value.readsValue_render fun n hmem => hn n (hv n hmem))
  have hnil {v : Value} (hv : v.numbers = []) : ∀ n ∈ v.numbers, n ∈ s.args.numbers :=
    fun n hmem => absurd (hv ▸ hmem) List.not_mem_nil
  refine Value.readsShape_renderFields (List.cons_ne_nil _ _) ?_
  simp only [List.forall_mem_cons]
  exact ⟨⟨_, rfl, hany (hnil rfl)⟩, ⟨_, rfl, hany (hnil rfl)⟩, ⟨_, rfl, hany (hnil rfl)⟩,
    ⟨_, rfl, hany fun n hmem => hmem⟩,
    ⟨_, rfl, hany (hnil (numbersList_strings s.dependsOn))⟩, List.forall_mem_nil _⟩

/-- A plan is read where it is written, if the numbers of its arguments are. -/
theorem readsShape_toValue {num : List Char → Option Number} {limit : ℕ}
    (hn : ∀ s ∈ p.plan, ∀ n ∈ s.args.numbers, Value.ReadsNumber num n) :
    Json.ReadsShape num (limit + 3) (.struct fields) p.toValue.render
      (Value.within (limit + 3) p.toValue) := by
  refine Value.readsShape_renderFields (List.cons_ne_nil _ _)
    (List.forall_mem_singleton.2 ⟨_, rfl, Value.readsShape_renderList fun x hx => ?_⟩)
  obtain ⟨s, hs, rfl⟩ := List.mem_map.1 hx
  exact readsShape_step (hn s hs)

/-- A plan is read back from its text, exactly if its arguments are not nested
    too deep. -/
theorem ofJson_toJson (hp : p.HasJson nearest) :
    ofJson nearest p.toJson = if p.Fits then some p else none := by
  have hread : Json.ReadsShape (Json.numberOf nearest) Json.recursionLimit (.struct fields)
      p.toValue.render (Value.within Json.recursionLimit p.toValue) :=
    readsShape_toValue fun s hs n hn => ((hp s hs).2 n hn).readsNumber
  rw [ofJson, toJson, Json.readShapeText_of_reads hread, Value.within]
  simp only [depth_toValue]
  split
  · exact ofValue_toValue hp
  · rfl

end Plan

/-! ## Depth -/

/-- What is found under a name is a field of this name. -/
theorem mem_of_single {fs : List (String × Value)} {name : String}
    (h : single fs name = some (some v)) : (name, v) ∈ fs := by
  unfold single at h
  split at h
  · exact absurd h (by simp)
  · rename_i x hx
    have hmem := List.mem_filter.1 (hx ▸ List.mem_singleton_self x)
    obtain ⟨k, w⟩ := x
    obtain rfl : k = name := by simpa using hmem.2
    obtain rfl : w = v := by simpa using h
    exact hmem.1
  · exact absurd h (by simp)

theorem depth_of_single {fs : List (String × Value)} {name : String}
    (h : single fs name = some (some v)) : v.depth + 1 ≤ (Value.object fs).depth :=
  Nat.succ_le_succ (Value.depthFields_le.1 (Nat.le_refl _) _ (mem_of_single h))

theorem depth_of_mem {xs : List Value} (h : v ∈ xs) : v.depth + 1 ≤ (Value.array xs).depth :=
  Nat.succ_le_succ (Value.depthList_le.1 (Nat.le_refl _) _ h)

/-- The arguments of a step are nested less deep than the value it is read from. -/
theorem depth_step_of_ofValue (h : PlanStep.ofValue v = some s) : s.args.depth + 1 ≤ v.depth := by
  have hcollect (args : Value) : args.collect.depth ≤ args.depth := Value.depth_sortBy_le
  unfold PlanStep.ofValue at h
  split at h
  · simp only [Option.bind_eq_bind, Option.bind_eq_some_iff] at h
    obtain ⟨id, -, peer, -, capability, -, args, hargs, dependsOn, -, h⟩ := h
    obtain rfl := Option.some.inj h
    obtain ⟨w, hw, hargs⟩ := Option.bind_eq_some_iff.1 hargs
    rcases w with _ | w
    · obtain rfl := Option.some.inj hargs
      exact Nat.le_add_left _ _
    · obtain rfl := Option.some.inj hargs
      exact (Nat.succ_le_succ (hcollect w)).trans (depth_of_single hw)
  · simp only [Option.bind_eq_bind, Option.bind_eq_some_iff] at h
    obtain ⟨id, -, peer, -, capability, -, h⟩ := h
    split at h
    · obtain rfl := Option.some.inj h
      exact Nat.le_add_left _ _
    · obtain rfl := Option.some.inj h
      exact (Nat.succ_le_succ (hcollect _)).trans (depth_of_mem (by simp))
    · obtain ⟨dependsOn, -, h⟩ := Option.bind_eq_some_iff.1 h
      obtain rfl := Option.some.inj h
      exact (Nat.succ_le_succ (hcollect _)).trans (depth_of_mem (by simp))
    · exact absurd h (by simp)
  · exact absurd h (by simp)

namespace Plan

/-- Every step is read from an item. -/
theorem mem_of_stepsOf {l : List PlanStep} {xs : List Value}
    (h : xs.mapM PlanStep.ofValue = some l) : ∀ s ∈ l, ∃ x ∈ xs, PlanStep.ofValue x = some s := by
  induction xs generalizing l with
  | nil =>
    obtain rfl := Option.some.inj h
    exact fun s hs => absurd hs List.not_mem_nil
  | cons x xs ih =>
    rw [List.mapM_cons] at h
    obtain ⟨s, hs, h⟩ := Option.bind_eq_some_iff.1 h
    obtain ⟨l', hl', h⟩ := Option.bind_eq_some_iff.1 h
    obtain rfl := Option.some.inj h
    refine List.forall_mem_cons.2 ⟨⟨x, List.mem_cons_self, hs⟩, fun s' hs' => ?_⟩
    obtain ⟨y, hy, hread⟩ := ih hl' s' hs'
    exact ⟨y, List.mem_cons_of_mem _ hy, hread⟩

/-- So are those of a list of steps, by one level more. -/
theorem depth_of_stepsOf {l : List PlanStep} (h : stepsOf v = some l) :
    ∀ s ∈ l, s.args.depth + 2 ≤ v.depth := by
  unfold stepsOf at h
  split at h
  · rename_i xs
    intro s hs
    obtain ⟨x, hx, hread⟩ := mem_of_stepsOf h s hs
    exact (Nat.succ_le_succ (depth_step_of_ofValue hread)).trans (depth_of_mem hx)
  · exact absurd h (by simp)

/-- No text is read as a plan whose arguments are nested too deep. -/
theorem fits_of_ofJson {text : List Char} (h : ofJson nearest text = some p) : p.Fits := by
  obtain ⟨v, hv, hplan⟩ := Option.bind_eq_some_iff.1 h
  have hdepth := Json.readShapeText_depth hv
  unfold ofValue at hplan
  split at hplan
  · obtain ⟨l, hl, rfl⟩ := Option.map_eq_some_iff.1 hplan
    obtain ⟨w, hw, hsteps⟩ := Option.bind_eq_some_iff.1 hl
    obtain ⟨w, rfl, hsteps⟩ := Option.bind_eq_some_iff.1 hsteps
    intro s hs
    have hle := depth_of_stepsOf hsteps s hs
    have hobject := depth_of_single hw
    omega
  · rename_i steps
    obtain ⟨l, hsteps, rfl⟩ := Option.map_eq_some_iff.1 hplan
    intro s hs
    have hle := depth_of_stepsOf hsteps s hs
    have harray : steps.depth + 1 ≤ (Value.array [steps]).depth := depth_of_mem (by simp)
    omega
  · exact absurd hplan (by simp)

end Plan

end N3ur0n
