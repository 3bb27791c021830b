import N3ur0n.Lib.Segments
import N3ur0n.Planner.Merge
import N3ur0n.Planner.Rounds

/-!
# Quoting values in a reply

The composer of a reply is given references to the values on the blackboard, one
for each field of an object, and writes them in its text, where they are replaced
by the values (`compose`).

* `referenceableValues`: the references that are given, each with its value;
* `quoted_iff`: a reference is replaced by its value, whatever the blackboard, when
  neither the key nor the field has a dot, and neither of them has a closing brace,
  if there is some text around it; alone, it is when the value is a string;
* `number_lost`: a number alone is replied as an empty text.
-/

namespace N3ur0n

open Cut ExecState

/-- What a reference is written with: a key of the blackboard, and the name of a field
    if its value is an object. -/
def quotePath (key : String) (field : Option String) : List Char :=
  key.toList ++ field.elim [] fun f => '.' :: f.toList

/-- The references to the value under a key, each with what it stands for. -/
def quotable (key : String) : Value → List (String × Value)
  | .object fields => fields.map fun x => (refText (quotePath key (some x.1)), x.2)
  | v => [(refText (quotePath key none), v)]

/-- `referenceable_values`: those of all the keys, in order. How the values are shown
    along with them does not matter to the reply. -/
def referenceableValues (bb : Blackboard) : List (String × Value) :=
  bb.keys.inOrder.flatMap fun key => ((bb.lookup key).map (quotable key)).getD []

theorem map_fst_quotable {key : String} {v : Value} :
    (quotable key v).map Prod.fst = references key v := by
  rcases v with _ | _ | _ | _ | _ | fields <;>
    simp [quotable, references, quotePath, Function.comp_def]

/-- The value of a field, or the value itself when it has no fields. -/
def Value.quotedAt : Option String → Value → Option Value
  | some f, v => v.get f
  | none, .object _ => none
  | none, v => some v

/-- The objects on the blackboard have distinct fields. -/
def Blackboard.WellFormed (bb : Blackboard) : Prop :=
  ∀ key fields, bb.lookup key = some (.object fields) → (fields.map Prod.fst).Nodup

theorem lookup_eq_some_iff_mem {fields : List (String × Value)}
    (hn : (fields.map Prod.fst).Nodup) {k : String} {v : Value} :
    fields.lookup k = some v ↔ (k, v) ∈ fields := by
  induction fields with
  | nil => simp
  | cons x fields ih =>
    rw [List.map_cons, List.nodup_cons] at hn
    obtain ⟨hx, hn⟩ := hn
    obtain ⟨k', v'⟩ := x
    have hnot (w : Value) : (k', w) ∉ fields := fun h => hx (List.mem_map.2 ⟨_, h, rfl⟩)
    rw [List.lookup_cons, List.mem_cons]
    by_cases hk : k = k'
    · subst hk
      simp [hnot, eq_comm]
    · simp [beq_false_of_ne hk, hk, ih hn]

/-- A reference is given for every field, and for every value that is no object. -/
theorem mem_referenceableValues {bb : Blackboard} (hbb : bb.WellFormed) {token : String}
    {v : Value} :
    (token, v) ∈ referenceableValues bb ↔ ∃ key field, token = refText (quotePath key field) ∧
      (bb.lookup key).bind (Value.quotedAt field) = some v := by
  have hkey (key : String) (w : Value) (hw : bb.lookup key = some w) :
      (token, v) ∈ quotable key w ↔
        ∃ field, token = refText (quotePath key field) ∧ Value.quotedAt field w = some v := by
    have hleaf (h : quotable key w = [(refText (quotePath key none), w)])
        (hnone : Value.quotedAt none w = some w) (hsome : ∀ f, w.get f = none) :
        (token, v) ∈ quotable key w ↔
          ∃ field, token = refText (quotePath key field) ∧ Value.quotedAt field w = some v := by
      rw [h, List.mem_singleton, Prod.mk.injEq]
      constructor
      · rintro ⟨rfl, rfl⟩
        exact ⟨none, rfl, hnone⟩
      · rintro ⟨_ | f, ht, hv⟩
        · exact ⟨ht, Option.some.inj (hv.symm.trans hnone)⟩
        · exact absurd ((hsome f).symm.trans hv) (by simp)
    -- an object is quoted field by field, any other value as a whole
    rcases w with _ | _ | _ | _ | _ | fields
    case object =>
      have hn := hbb key fields hw
      simp only [quotable, List.mem_map, Prod.mk.injEq]
      constructor
      · rintro ⟨x, hx, rfl, rfl⟩
        exact ⟨some x.1, rfl, (lookup_eq_some_iff_mem hn).2 hx⟩
      · rintro ⟨_ | f, rfl, hv⟩
        · cases hv
        · exact ⟨(f, v), (lookup_eq_some_iff_mem hn).1 hv, rfl, rfl⟩
    all_goals exact hleaf rfl rfl fun _ => rfl
  simp only [referenceableValues, List.mem_flatMap, Finset.mem_inOrder, Finmap.mem_keys]
  constructor
  · rintro ⟨key, hmem, ht⟩
    obtain ⟨w, hw⟩ := Option.isSome_iff_exists.1 (Finmap.lookup_isSome.2 hmem)
    rw [hw] at ht
    obtain ⟨field, ht, hv⟩ := (hkey key w hw).1 ht
    exact ⟨key, field, ht, by rw [hw]; exact hv⟩
  · rintro ⟨key, field, ht, hv⟩
    obtain ⟨w, hw, hv⟩ := Option.bind_eq_some_iff.1 hv
    refine ⟨key, Finmap.lookup_isSome.1 (Option.isSome_of_eq_some hw), ?_⟩
    rw [hw]
    exact (hkey key w hw).2 ⟨field, ht, hv⟩

/-! ## The blackboards of executions -/

/-- The blackboards which the composer is given: those of executions, and those of
    executions merged into those of the rounds before. -/
inductive Produced : Blackboard → Prop
  | executed {ω : Type} {R : Runtime ω} {catalog : Catalog} {p : Plan} {actions : List (Action ω)}
      {σ : ExecState} (hv : validatePlan R.compile p catalog = .ok ())
      (h : execute R catalog p actions = some σ) (hend : σ.inFlight = []) :
      Produced σ.blackboard
  | merged {ω : Type} {R : Runtime ω} {catalog : Catalog} {p : Plan} {actions : List (Action ω)}
      {σ : ExecState} {round : ℕ} {bb : Blackboard} {entries : List (String × Value)}
      (hbb : Produced bb) (hv : validatePlan R.compile p catalog = .ok ())
      (h : execute R catalog p actions = some σ) (hend : σ.inFlight = [])
      (he : Finmap.Enumerates entries σ.blackboard) :
      Produced (mergeRound round bb entries)

/-- A step without arguments, and the plan of it. -/
def lonelyStep (id : String) : PlanStep := ⟨id, "abc", "t", .object [], []⟩

def lonelyPlan (id : String) : Plan := ⟨[lonelyStep id]⟩

section

variable {id : String}

theorem nodup_ids_lonelyPlan : (lonelyPlan id).ids.Nodup := List.nodup_singleton id

/-- It waits for nothing, and nothing waits for it. -/
theorem wire_lonelyPlan :
    (lonelyPlan id).wire.indeg.lookup id = some 0 ∧ ∀ a, (lonelyPlan id).outs a = [] := by
  have hdeps : (lonelyPlan id).knownDeps (lonelyStep id) = [] := rfl
  refine ⟨?_, fun a => ?_⟩
  · have hspec := (Plan.wire_spec (p := lonelyPlan id) nodup_ids_lonelyPlan).1 (lonelyStep id)
      (List.mem_singleton.2 rfl)
    rw [hdeps] at hspec
    exact hspec
  · have hnone : ∀ s ∈ (lonelyPlan id).plan, ¬decide (a ∈ (lonelyPlan id).knownDeps s) := by
      intro s hs
      obtain rfl := List.mem_singleton.1 hs
      rw [hdeps]
      simp
    rw [Plan.outs_eq nodup_ids_lonelyPlan, List.filter_eq_nil_iff.2 hnone, List.map_nil]

theorem seeds_lonelyPlan : (lonelyPlan id).seeds = [id] := by
  change [id].filter _ = [id]
  simp [wire_lonelyPlan.1]

theorem find_lonelyStep : oneTool.find (lonelyStep id).toolName =
    some ⟨"n3:abc", none, ⟨"t", .object [], .object []⟩⟩ := by
  change oneTool.find ("abc" ++ "::" ++ "t") = _
  decide

theorem prepare_lonelyStep {callId : String} {bb : Blackboard} :
    prepare observing.compile oneTool (lonelyStep id) callId bb =
      (⟨callId, "n3:abc", "t", .object [], none, none⟩,
        .queued ⟨"n3:abc", none, ⟨"t", .object [], .object []⟩⟩ (.object [])) := by
  simp only [prepare, find_lonelyStep]
  rfl

theorem validatePlan_lonelyPlan :
    validatePlan observing.compile (lonelyPlan id) oneTool = .ok () := by
  have hstep : checkStep observing.compile (lonelyPlan id) oneTool (lonelyStep id) = .ok () := by
    rw [checkStep, find_lonelyStep]
    rfl
  have horder : (topologicalOrder (lonelyPlan id)).length = (lonelyPlan id).plan.length := by
    rw [topologicalOrder, seeds_lonelyPlan]
    rfl
  have hsteps : forM (lonelyPlan id).plan (checkStep observing.compile (lonelyPlan id) oneTool) =
      .ok () := by
    refine Except.forM_eq_ok.2 fun s hs => ?_
    obtain rfl := List.mem_singleton.1 hs
    exact hstep
  rw [validatePlan, hsteps, horder]
  rfl

/-- Its result is all there is on the blackboard. -/
theorem produced_insert (id : String) (v : Value) : Produced ((∅ : Blackboard).insert id v) := by
  have hinit : ExecState.initial observing oneTool (lonelyPlan id) = {
      indeg := (lonelyPlan id).wire.indeg
      blackboard := ∅
      traceById := (∅ : Table String TraceEntry).insert id
        ⟨"", "n3:abc", "t", .object [], none, none⟩
      lastId := none
      inFlight := [⟨id, .queued ⟨"n3:abc", none, ⟨"t", .object [], .object []⟩⟩ (.object [])⟩]
      minted := 1
      events := []
      hooked := [] } := by
    have hid : (lonelyPlan id).byId.lookup id = some (lonelyStep id) :=
      (Plan.lookup_byId nodup_ids_lonelyPlan).2 ⟨List.mem_singleton.2 rfl, rfl⟩
    rw [initial, seeds_lonelyPlan, List.foldl_cons, List.foldl_nil, spawnStep, hid]
    simp only [prepare_lonelyStep]
    rfl
  obtain ⟨σ, hσ, hend, hboard⟩ : ∃ σ, execute observing oneTool (lonelyPlan id)
      [.start id, .returned id (.ok v)] = some σ ∧ σ.inFlight = [] ∧
        σ.blackboard = (∅ : Blackboard).insert id v := by
    have hresult (tool : ToolDef) (args : Value) : observing.invoke (.ok v) tool args = .ok v := rfl
    rw [execute, hinit]
    simp [Run.run, ExecState.step, work, permits, maxConcurrentSteps, acquire, complete,
      freeDownstream, wire_lonelyPlan.2, DepGraph.release, record, hresult, settle]
  exact hboard ▸ .executed validatePlan_lonelyPlan hσ hend

end

/-! ## What a path leads to -/

section

variable {key : String} {field : Option String} {bb : Blackboard} {v : Value} {path : List Char}

/-- Neither of them has a dot. -/
def DotFree (key : String) (field : Option String) : Prop :=
  '.' ∉ key.toList ∧ ∀ f ∈ field, '.' ∉ f.toList

instance : Decidable (DotFree key field) := inferInstanceAs (Decidable (_ ∧ _))

theorem splitOn_quotePath (h : DotFree key field) :
    (quotePath key field).splitOn '.' = key.toList :: (field.map String.toList).toList := by
  rcases field with _ | f
  · rw [quotePath, Option.elim_none, List.append_nil]
    exact List.splitOn_eq_singleton h.1
  · rw [quotePath, Option.elim_some, List.splitOn_append_cons_self_of_not_mem h.1,
      List.splitOn_eq_singleton (h.2 f rfl)]
    rfl

/-- Without dots, a reference leads to its value. -/
theorem lookupPath_quotePath (h : DotFree key field)
    (hv : (bb.lookup key).bind (Value.quotedAt field) = some v) :
    lookupPath (quotePath key field) bb = some v := by
  obtain ⟨w, hw, hv⟩ := Option.bind_eq_some_iff.1 hv
  rw [lookupPath, splitOn_quotePath h]
  change (bb.lookup (String.ofList key.toList)).bind _ = some v
  rw [String.ofList_toList, hw, Option.bind_some]
  rcases field with _ | f
  · rcases w with _ | _ | _ | _ | _ | fields
    case object => cases hv
    all_goals exact hv
  · simp only [Option.map_some, Option.toList_some, List.map_singleton, String.ofList_toList, walk]
    rw [show w.get f = some v from hv]
    rfl

/-- A blackboard with one value, in a field or not. -/
def onlyValue (key : String) (field : Option String) (v : Value) : Blackboard :=
  (∅ : Blackboard).insert key (field.elim v fun f => .object [(f, v)])

/-- A value without fields. -/
def Value.IsLeaf (v : Value) : Prop := ∀ f, v.get f = none

/-- There are only two ways into it: to the object as a whole, and to the value. -/
theorem walk_onlyValue (hv : v.IsLeaf) {ps : List String} {w : Value}
    (h : walk ps (field.elim v fun f => .object [(f, v)]) = some w) :
    ps = field.toList ∨ ps = [] ∧ field.isSome := by
  have hleaf (ps : List String) (h : walk ps v = some w) : ps = [] := by
    rcases ps with _ | ⟨p, ps⟩
    · rfl
    · rw [walk, hv p] at h
      cases h
  rcases field with _ | f
  · exact .inl (hleaf ps h)
  · rcases ps with _ | ⟨p, ps⟩
    · exact .inr ⟨rfl, rfl⟩
    · obtain ⟨u, hu, hwalk⟩ := Option.bind_eq_some_iff.1 h
      have hp : p = f := by
        by_contra hp
        simp [Value.get, List.lookup_cons, beq_false_of_ne hp] at hu
      subst hp
      obtain rfl : v = u := by simpa [Value.get] using hu
      exact .inl (by rw [hleaf ps hwalk]; rfl)

/-- No other path than that of the reference leads to anything there, except to the
    object as a whole. -/
theorem lookupPath_onlyValue (hv : v.IsLeaf) {w : Value}
    (h : lookupPath path (onlyValue key field v) = some w) :
    (path = quotePath key field ∧ DotFree key field) ∨ path = key.toList ∧ field.isSome := by
  have hjoin : ['.'].intercalate (path.splitOn '.') = path := List.intercalate_splitOn '.'
  have hfree : ∀ l ∈ path.splitOn '.', '.' ∉ l := fun l hl => Segments.not_mem_of_mem_splitOn hl
  rw [lookupPath] at h
  split at h
  · cases h
  · next id ps hs =>
    obtain ⟨u, hu, hwalk⟩ := Option.bind_eq_some_iff.1 h
    have hid : String.ofList id = key := by
      by_contra hid
      rw [onlyValue, Finmap.lookup_insert_of_ne _ hid, Finmap.lookup_empty] at hu
      cases hu
    obtain rfl : id = key.toList := by rw [← hid, String.toList_ofList]
    rw [onlyValue, hid, Finmap.lookup_insert, Option.some.injEq] at hu
    subst hu
    rw [hs] at hjoin hfree
    have hkey := hfree _ List.mem_cons_self
    rcases walk_onlyValue hv hwalk with hps | ⟨hps, hfield⟩
    · refine .inl ?_
      rcases field with _ | f
      · obtain rfl := List.map_eq_nil_iff.1 hps
        exact ⟨hjoin.symm.trans (by simp [quotePath]), hkey,
          fun f hf => absurd hf (Option.some_ne_none f).symm⟩
      · obtain ⟨l, rfl, hl⟩ := List.map_eq_singleton_iff.1 hps
        obtain rfl : l = f.toList := by rw [← hl, String.toList_ofList]
        refine ⟨hjoin.symm.trans (by simp [quotePath]), hkey, fun g hg => ?_⟩
        obtain rfl := Option.some.inj hg
        exact hfree _ (List.mem_cons_of_mem _ List.mem_cons_self)
    · obtain rfl := List.map_eq_nil_iff.1 hps
      exact .inr ⟨hjoin.symm.trans (by simp), hfield⟩

/-! ## What a text with one reference becomes -/

/-- Without braces and dollar signs. -/
def Unmarked (s : List Char) : Prop := '{' ∉ s ∧ '}' ∉ s ∧ '$' ∉ s

instance {s : List Char} : Decidable (Unmarked s) := inferInstanceAs (Decidable (_ ∧ _ ∧ _))

variable {known : String → Bool} {inner before after : List Char}

theorem cut_unmarked {s t : List Char} (h : Unmarked s) :
    cut (refToken known) 0 (s ++ t) = s.map .inl ++ cut (refToken known) 0 t := by
  obtain ⟨hopen, -, hdollar⟩ := h
  induction s with
  | nil => rfl
  | cons c s ih =>
    rw [List.mem_cons, not_or] at hopen hdollar
    have htoken : refToken known (c :: (s ++ t)) = none := by
      rw [refToken.eq_def]
      split
      · next h => exact absurd (List.cons.inj h).1.symm hdollar.1
      · next h => exact absurd (List.cons.inj h).1.symm hopen.1
      · rfl
    rw [List.cons_append, cut, htoken, List.map_cons, List.cons_append]
    exact congrArg _ (ih hopen.2 hdollar.2)

theorem cut_drop {α β : Type} {token : List β → Option (α × ℕ)} {n : ℕ} {s : List β} :
    cut token n s = cut token 0 (s.drop n) := by
  induction n generalizing s with
  | zero => rfl
  | succ n ih =>
    rcases s with _ | ⟨c, s⟩
    · simp [cut]
    · rw [cut, ih, List.drop_succ_cons]

/-- The scan reads the reference up to its first closing brace. -/
theorem cut_refText {t : List Char} :
    cut (refToken known) 0 ('$' :: '{' :: (inner ++ '}' :: t)) =
      .inr ⟨true, inner.takeWhile (· ≠ '}')⟩ :: cut (refToken known) 0
        ((inner ++ '}' :: t).drop ((inner.takeWhile (· ≠ '}')).length + 1)) := by
  rw [cut, refToken]
  simp only [upTo_append_cons, Option.map_some]
  rw [cut_drop, List.drop_succ_cons]

/-- A text with the reference in it. -/
def quotedText (key : String) (field : Option String) (before after : List Char) : List Char :=
  before ++ ((refText (quotePath key field)).toList ++ after)

/-- The reference is the whole text, and is read as such. -/
def Alone (key : String) (field : Option String) (before after : List Char) : Prop :=
  before = [] ∧ after = [] ∧ '{' ∉ quotePath key field

instance : Decidable (Alone key field before after) :=
  inferInstanceAs (Decidable (_ ∧ _ ∧ _))

theorem wholeTemplate_quotedText (hb : Unmarked before) (ha : Unmarked after)
    (htrim : trim isWhitespace (quotedText key field before after) =
      quotedText key field before after) :
    wholeTemplate (String.ofList (quotedText key field before after)) =
      if Alone key field before after then some (quotePath key field) else none := by
  by_cases hempty : before = [] ∧ after = []
  · obtain ⟨rfl, rfl⟩ := hempty
    rw [quotedText, List.append_nil, List.nil_append, String.ofList_toList, wholeTemplate_refText]
    by_cases hbrace : '{' ∈ quotePath key field
    · rw [if_pos hbrace, if_neg fun h => h.2.2 hbrace]
    · rw [if_neg hbrace, if_pos ⟨rfl, rfl, hbrace⟩]
  · rw [if_neg fun h => hempty ⟨h.1, h.2.1⟩, wholeTemplate, String.toList_ofList, htrim, quotedText]
    rcases before with _ | ⟨c, before⟩
    · have hlast : (quotePath key field ++ ['}'] ++ after).getLast? ≠ some '}' := by
        obtain ⟨c, hc⟩ := Option.ne_none_iff_exists'.1
          (mt List.getLast?_eq_none_iff.1 fun h => hempty ⟨rfl, h⟩)
        rw [List.getLast?_append, hc]
        rintro ⟨⟩
        exact ha.2.1 (List.mem_of_getLast? hc)
      rw [refText, String.toList_ofList, List.nil_append, List.cons_append, List.cons_append]
      exact if_neg fun h => hlast h.1
    · have hc : c ≠ '{' ∧ c ≠ '$' :=
        ⟨fun h => hb.1 (h ▸ List.mem_cons_self), fun h => hb.2.2 (h ▸ List.mem_cons_self)⟩
      split
      · next h => exact absurd (List.cons.inj h).1 hc.2
      · next h => exact absurd (List.cons.inj h).1 hc.1
      · rfl

/-- How the scan begins. -/
theorem substituteInline_quotedText (hb : Unmarked before) :
    (substituteInline (String.ofList (quotedText key field before after)) bb).toList =
      before ++ (substitutePiece bb (.inr ⟨true, (quotePath key field).takeWhile (· ≠ '}')⟩) ++
        (cut (refToken fun id => decide (id ∈ bb)) 0 ((quotePath key field ++ '}' :: after).drop
          (((quotePath key field).takeWhile (· ≠ '}')).length + 1))).flatMap
            (substitutePiece bb)) := by
  have hinl (l : List Char) : (l.map .inl).flatMap (substitutePiece bb) = l := by
    rw [List.flatMap_map]
    exact List.flatMap_singleton' l
  rw [substituteInline, String.toList_ofList, String.toList_ofList, quotedText, refText,
    String.toList_ofList, cut_unmarked hb, List.flatMap_append, hinl]
  simp only [List.cons_append, List.append_assoc, List.nil_append, cut_refText, List.flatMap_cons]

/-- A reference that is read to its end. -/
theorem substituteInline_of_lookupPath (hb : Unmarked before) (ha : Unmarked after)
    (hpath : '}' ∉ quotePath key field) (hv : lookupPath (quotePath key field) bb = some v) :
    (substituteInline (String.ofList (quotedText key field before after)) bb).toList =
      before ++ (valueToText v ++ after) := by
  have hall : (quotePath key field).takeWhile (· ≠ '}') = quotePath key field := by
    refine List.takeWhile_eq_self_iff.2 fun c hc => decide_eq_true ?_
    exact fun h => hpath (h ▸ hc)
  have hafter := @cut_unmarked (fun id => decide (id ∈ bb)) after [] ha
  rw [List.append_nil, cut, List.append_nil] at hafter
  rw [substituteInline_quotedText hb, hall, ← List.drop_drop, List.drop_left, List.drop_one,
    List.tail_cons, hafter, List.flatMap_map]
  simp only [substitutePiece, hv]
  rw [List.flatMap_singleton']

/-- When nothing is found, the reference remains, at least its beginning. -/
theorem exists_verbatim (hb : Unmarked before)
    (hu : lookupPath ((quotePath key field).takeWhile (· ≠ '}')) bb = none) :
    ∃ rest, (substituteInline (String.ofList (quotedText key field before after)) bb).toList =
      before ++ '$' :: rest := by
  rw [substituteInline_quotedText hb]
  simp only [substitutePiece, hu, Ref.verbatim, if_true, List.cons_append]
  exact ⟨_, rfl⟩

theorem compose_some {raw : String} :
    compose (some bb) raw = match (wholeTemplate raw).bind fun inner => lookupPath inner bb with
      | some (.string s) => s
      | some _ => ""
      | none => substituteInline raw bb := by
  rw [compose, resolveValue, Value.mapStrings, resolveString]
  rcases (wholeTemplate raw).bind fun inner => lookupPath inner bb with _ | v
  · rfl
  · rcases v <;> rfl

/-! ## The reply -/

def Value.isString : Value → Bool
  | .string _ => true
  | _ => false

/-- A value of that kind, without fields. -/
def leafOf (isString : Bool) : Value := if isString then .string "" else .null

theorem isLeaf_leafOf {isString : Bool} : (leafOf isString).IsLeaf := by
  intro f
  rcases isString <;> rfl

/-- The references that are given lead to it there. -/
theorem quotedAt_onlyValue {isString : Bool} :
    ((onlyValue key field (leafOf isString)).lookup key).bind (Value.quotedAt field) =
      some (leafOf isString) := by
  rw [onlyValue, Finmap.lookup_insert, Option.bind_some]
  rcases field with _ | f
  · rcases isString <;> rfl
  · simp [Value.quotedAt, Value.get]

theorem wellFormed_insert (hv : ∀ fields, v = .object fields → (fields.map Prod.fst).Nodup) :
    Blackboard.WellFormed ((∅ : Blackboard).insert key v) := by
  intro k fields h
  rw [Finmap.lookup_insert_ite] at h
  split_ifs at h
  · exact hv fields (Option.some.inj h)
  · rw [Finmap.lookup_empty] at h
    cases h

theorem wellFormed_onlyValue {isString : Bool} :
    (onlyValue key field (leafOf isString)).WellFormed := by
  refine wellFormed_insert fun fields h => ?_
  rcases field with _ | f
  · rcases isString <;> cases h
  · obtain rfl := Value.object.inj h
    exact List.nodup_singleton f

theorem takeWhile_quotePath_ne (hfield : field.isSome) :
    (quotePath key field).takeWhile (· ≠ '}') ≠ key.toList := by
  obtain ⟨f, rfl⟩ := Option.isSome_iff_exists.1 hfield
  intro h
  have hkey : ∀ c ∈ key.toList, decide (c ≠ '}') := fun c hc => by
    rw [← h] at hc
    exact List.mem_takeWhile_imp (p := fun c => decide (c ≠ '}')) hc
  rw [quotePath, List.takeWhile_append_of_pos hkey, Option.elim_some] at h
  simp at h

/-- The reference is not found there, unless it is read as it is. -/
theorem lookupPath_takeWhile {isString : Bool}
    (h : '}' ∈ quotePath key field ∨ ¬DotFree key field) :
    lookupPath ((quotePath key field).takeWhile (· ≠ '}'))
      (onlyValue key field (leafOf isString)) = none := by
  by_contra hsome
  obtain ⟨w, hw⟩ := Option.ne_none_iff_exists'.1 hsome
  rcases lookupPath_onlyValue isLeaf_leafOf hw with ⟨hpath, hfree⟩ | ⟨hpath, hfield⟩
  · rcases h with h | h
    · rw [← hpath] at h
      exact absurd (List.mem_takeWhile_imp (p := fun c => decide (c ≠ '}')) h) (by simp)
    · exact h hfree
  · exact takeWhile_quotePath_ne hfield hpath

/-- It is found nowhere if it has a dot. -/
theorem lookupPath_dotted {isString : Bool} (h : ¬DotFree key field) :
    lookupPath (quotePath key field) (onlyValue key field (leafOf isString)) = none := by
  by_contra hsome
  obtain ⟨w, hw⟩ := Option.ne_none_iff_exists'.1 hsome
  rcases lookupPath_onlyValue isLeaf_leafOf hw with ⟨-, hfree⟩ | ⟨hpath, hfield⟩
  · exact h hfree
  · obtain ⟨f, rfl⟩ := Option.isSome_iff_exists.1 hfield
    simp [quotePath] at hpath

theorem dollar_not_mem_leafOf {isString : Bool} : '$' ∉ valueToText (leafOf isString) := by
  rcases isString
  · decide
  · decide

section

variable {ω : Type} (R : Runtime ω) (nodeId : String) (d : DispatchState) (rounds : ℕ)
  (trace : List TraceEntry) (model : Option String)

/-- The dispatch with a reply to be composed, given this blackboard. -/
def reflectingOn (bb : Blackboard) : DispatchState :=
  { d with stage := .reflecting rounds (some bb) trace }

/-- Whatever the blackboard of the rounds, when the composer writes the reference in its
    text, the text that is stored and replied has the value in its place, for values that
    are strings, or that are not. -/
def Quoted (key : String) (field : Option String) (before after : List Char) (isString : Bool) :
    Prop :=
  ∀ (bb : Blackboard) (v : Value), Produced bb → bb.WellFormed →
    (bb.lookup key).bind (Value.quotedAt field) = some v → v.isString = isString →
    ∀ content : String, trim isWhitespace content.toList = quotedText key field before after →
      (reflectingOn d rounds trace bb).step R nodeId (.composed (some content) model) =
        some ((reflectingOn d rounds trace bb).reply rounds
          (String.ofList (before ++ (valueToText v ++ after))) model trace)

end

variable {ω : Type} {R : Runtime ω} {nodeId : String} {d : DispatchState} {rounds : ℕ}
  {trace : List TraceEntry} {model : Option String} {isString : Bool}

/-- The reply tells what was composed. -/
theorem reply_injective {c c' : String} (h : d.reply rounds c model trace =
    d.reply rounds c' model trace) : c = c' := by
  have hstate (c : String) :
      (d.reply rounds c model trace).state = d.state.pushAssistant c model := by
    rw [DispatchState.reply]
    split <;> rfl
  have hturns := congrArg (fun d => d.state.turns) h
  simp only [hstate, ConversationState.pushAssistant, ConversationState.push,
    List.append_cancel_left_eq, List.cons.injEq, Turn.assistant.injEq, and_true] at hturns
  exact hturns

/-- The reply is what is composed of the text. -/
theorem quoted_compose (htrim : trim isWhitespace (quotedText key field before after) =
      quotedText key field before after) :
    Quoted R nodeId d rounds trace model key field before after isString ↔
      ∀ (bb : Blackboard) (v : Value), Produced bb → bb.WellFormed →
        (bb.lookup key).bind (Value.quotedAt field) = some v → v.isString = isString →
        (compose (some bb) (String.ofList (quotedText key field before after))).toList =
          before ++ (valueToText v ++ after) := by
  constructor
  · intro h bb v hp hbb hv hstring
    have hstep := h bb v hp hbb hv hstring (String.ofList (quotedText key field before after))
      (by rw [String.toList_ofList, htrim])
    simp only [DispatchState.step, reflectingOn, Option.getD_some, String.toList_ofList, htrim,
      Option.some.injEq] at hstep
    rw [reply_injective hstep, String.toList_ofList]
  · intro h bb v hp hbb hv hstring content hcontent
    simp only [DispatchState.step, reflectingOn, Option.getD_some, hcontent]
    rw [← h bb v hp hbb hv hstring, String.ofList_toList]

/-- A reference is replaced by its value, on every blackboard, if and only if the key and
    the field have no dot, and either the reference is alone and the value is a string,
    or there is some text around it and neither of them has a closing brace (an opening
    brace in it also keeps a reference from being read as being alone). -/
theorem quoted_iff (R : Runtime ω) (nodeId : String) (d : DispatchState) (rounds : ℕ)
    (trace : List TraceEntry) (model : Option String) (key : String) (field : Option String)
    (before after : List Char) (isString : Bool) (hb : Unmarked before) (ha : Unmarked after)
    (htrim : trim isWhitespace (quotedText key field before after) =
      quotedText key field before after) :
    Quoted R nodeId d rounds trace model key field before after isString ↔
      DotFree key field ∧
        if Alone key field before after then isString = true else '}' ∉ quotePath key field := by
  rw [quoted_compose htrim]
  simp only [compose_some, wholeTemplate_quotedText hb ha htrim]
  constructor
  · intro h
    -- On a blackboard with nothing else, something of the reference remains.
    have hkind : (leafOf isString).isString = isString := by rcases isString <;> rfl
    have hexact := h (onlyValue key field (leafOf isString)) _ (produced_insert _ _)
      wellFormed_onlyValue quotedAt_onlyValue hkind
    have hnot (hu : lookupPath ((quotePath key field).takeWhile (· ≠ '}'))
        (onlyValue key field (leafOf isString)) = none)
        (hwhole : Alone key field before after → lookupPath (quotePath key field)
          (onlyValue key field (leafOf isString)) = none) : False := by
      have hnone : ((if Alone key field before after then some (quotePath key field)
          else none).bind fun inner => lookupPath inner (onlyValue key field (leafOf isString))) =
            none := by
        split_ifs with halone
        · exact hwhole halone
        · rfl
      obtain ⟨rest, hrest⟩ := @exists_verbatim _ _ _ _ after hb hu
      rw [hnone, hrest] at hexact
      have hdollar := List.append_cancel_left hexact
      have hmem : '$' ∈ valueToText (leafOf isString) ++ after := hdollar ▸ List.mem_cons_self
      exact (List.mem_append.1 hmem).elim dollar_not_mem_leafOf ha.2.2
    have hfree : DotFree key field := by
      by_contra hfree
      exact hnot (lookupPath_takeWhile (.inr hfree)) fun _ => lookupPath_dotted hfree
    refine ⟨hfree, ?_⟩
    split_ifs with halone
    · rw [if_pos halone, Option.bind_some, lookupPath_quotePath hfree quotedAt_onlyValue] at hexact
      obtain ⟨rfl, rfl, -⟩ := halone
      rcases isString
      · have hnull : "".toList = [] ++ (valueToText .null ++ []) := hexact
        exact absurd hnull (by decide)
      · rfl
    · intro hbrace
      exact hnot (lookupPath_takeWhile (.inl hbrace)) fun h => absurd h halone
  · rintro ⟨hfree, hcond⟩ bb v - - hv hstring
    have hlookup := lookupPath_quotePath hfree hv
    split_ifs at hcond with halone
    · rw [if_pos halone, Option.bind_some, hlookup]
      obtain ⟨rfl, rfl, -⟩ := halone
      rcases v with _ | _ | _ | s | _ | _
      case string => simp [valueToText]
      all_goals exact absurd (hstring.trans hcond) Bool.false_ne_true
    · rw [if_neg halone, Option.bind_none]
      exact substituteInline_of_lookupPath hb ha hcond hlookup

/-- The field of a step is quoted in a sentence. -/
theorem quoted_sum : Quoted observing "n3:me" DispatchState.saidHi 1 [] none "s1" (some "sum")
    "It is ".toList ".".toList false :=
  (quoted_iff observing "n3:me" DispatchState.saidHi 1 [] none "s1" (some "sum")
    "It is ".toList ".".toList false (by decide) (by decide) (by decide)).2 (by decide)

/-- Alone, a number is replied as nothing at all. A field with a dot in its name is not
    quoted either. -/
theorem number_lost :
    ¬Quoted observing "n3:me" DispatchState.saidHi 1 [] none "s1" (some "sum") [] [] false ∧
      compose (some ((∅ : Blackboard).insert "s1" (.object [("a.b", .string "x")])))
        "It is $\x7bs1.a.b\x7d." = "It is $\x7bs1.a.b\x7d." := by
  refine ⟨fun h => ?_, by decide⟩
  have hlost : (compose (some ((∅ : Blackboard).insert "s1" (.object [("sum", .number (.int 3))])))
      (String.ofList (quotedText "s1" (some "sum") [] []))).toList = [] := by decide
  have hkept := (quoted_compose (by decide)).1 h _ (.number (.int 3))
    (produced_insert "s1" (.object [("sum", .number (.int 3))]))
    (wellFormed_insert fun fields hfields => by cases hfields; exact List.nodup_singleton _)
    (by decide) rfl
  exact absurd (hlost.symm.trans hkept) (by decide)

end

end N3ur0n
