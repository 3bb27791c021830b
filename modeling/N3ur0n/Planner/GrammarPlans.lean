import N3ur0n.Planner.JsonRules
import N3ur0n.Planner.Parse

/-!
# The plans of a grammar

A text is *sampled* for some tools if it is derived from the grammar of plans
that they have, as this is read.

* `ofJson_of_sampled`: a text that is sampled is a plan, unless it is no JSON, and
  each step of the plan names one of the tools;
* `sampled_toJson`: the text of a plan whose steps name the tools is sampled;
* `planGrammar_exact`: the grammar has exactly the plans of its tools.
-/

namespace N3ur0n

open Gbnf (Expr Grammar Derives WellFormed derives_seq derives_alt derives_opt derives_text)
open BlobTicketPayload (stringOf stringsOf)
open Json PlanGrammar

/-- The text is derived from the root of the grammar that the tools have. -/
def Sampled (tools : List ToolName) (text : List Char) : Prop :=
  ∃ G, Gbnf.read (planGrammar tools) = some G ∧ Derives G (ref "root") text

namespace PlanGrammar

variable {tools : List ToolName} {s : List Char} {num : List Char → Option Number} {depth : ℕ}

theorem sampled_iff (hne : tools ≠ []) :
    Sampled tools s ↔ Derives (planRules (dedup tools)) (ref "root") s := by
  rw [Sampled, read_planGrammar hne]
  constructor
  · rintro ⟨G, hG, h⟩
    exact Option.some.inj hG ▸ h
  · exact fun h => ⟨_, rfl, h⟩

/-! ## The rules -/

theorem hasJson_planRules : HasJson (planRules tools) := fun _ hr =>
  wellFormed_planRules.lookup (List.mem_append_right _
    (List.mem_cons_of_mem _ (List.mem_append_right _ hr)))

theorem derives_head (i : ℕ) (hi : i < headRules.length := by decide) :
    Derives (planRules tools) (.rule headRules[i].1) s ↔
      Derives (planRules tools) headRules[i].2 s :=
  Gbnf.derives_rule (wellFormed_planRules.lookup (List.mem_append_left _ (List.getElem_mem hi)))

/-- A tool of a step is one of the tools. -/
theorem derives_stepTool (hne : tools ≠ []) : Derives (planRules tools) (ref "step-tool") s ↔
    ∃ tool ∈ tools, Derives (planRules tools) (toolExpr tool) s := by
  have hrule (tool : ToolName × ℕ) (htool : tool ∈ tools.zipIdx) :
      (planRules tools).lookup (toolName tool.2) = some (toolExpr tool.1) :=
    wellFormed_planRules.lookup (r := toolRule tool) (List.mem_append_right _
      (List.mem_cons_of_mem _ (List.mem_append_left _ (List.mem_map_of_mem htool))))
  have hlookup : (planRules tools).lookup "step-tool".toList = some (Gbnf.anyRule (names tools)) :=
    wellFormed_planRules.lookup (r := ("step-tool".toList, Gbnf.anyRule (names tools)))
      (List.mem_append_right _ List.mem_cons_self)
  rw [ref, Gbnf.derives_rule hlookup, Gbnf.derives_anyRule (names_ne_nil hne)]
  constructor
  · rintro ⟨name, hname, h⟩
    obtain ⟨i, hi, rfl⟩ := List.mem_map.1 hname
    have hi := List.mem_range.1 hi
    have hmem : (tools[i], i) ∈ tools.zipIdx := List.mk_mem_zipIdx_iff_getElem?.2
      (List.getElem?_eq_getElem hi)
    exact ⟨tools[i], List.getElem_mem hi, (Gbnf.derives_rule (hrule _ hmem)).1 h⟩
  · rintro ⟨tool, htool, h⟩
    obtain ⟨i, hi, rfl⟩ := List.mem_iff_getElem.1 htool
    have hmem : (tools[i], i) ∈ tools.zipIdx := List.mk_mem_zipIdx_iff_getElem?.2
      (List.getElem?_eq_getElem hi)
    exact ⟨_, List.mem_map_of_mem (List.mem_range.2 hi),
      (Gbnf.derives_rule (hrule _ hmem)).2 h⟩

/-! ## Entries -/

variable {G : Grammar} {e f : Expr} {label name : String}

/-- An entry with a fixed name. -/
def entry (label : String) (e : Expr) : Expr := seqs [word label, ws, word ":", ws, e]

theorem derives_seqs_cons {es : List Expr} :
    Derives G (seqs (e :: es)) s ↔ ∃ u v, s = u ++ v ∧ Derives G e u ∧ Derives G (seqs es) v := by
  rcases es with _ | ⟨f, es⟩
  · constructor
    · exact fun h => ⟨s, [], (List.append_nil s).symm, h, .empty⟩
    · rintro ⟨u, v, rfl, hu, hv⟩
      rw [Gbnf.derives_empty.1 hv, List.append_nil]
      exact hu
  · exact derives_seq

theorem derives_seqs_append (es fs : List Expr) : Derives G (seqs (es ++ fs)) s ↔
    ∃ u v, s = u ++ v ∧ Derives G (seqs es) u ∧ Derives G (seqs fs) v := by
  induction es generalizing s with
  | nil =>
    constructor
    · exact fun h => ⟨[], s, rfl, .empty, h⟩
    · rintro ⟨u, v, rfl, hu, hv⟩
      rw [Gbnf.derives_empty.1 hu]
      exact hv
  | cons e es ih =>
    rw [List.cons_append, derives_seqs_cons]
    constructor
    · rintro ⟨a, _, rfl, ha, h⟩
      obtain ⟨b, c, rfl, hb, hc⟩ := ih.1 h
      exact ⟨a ++ b, c, (List.append_assoc _ _ _).symm, derives_seqs_cons.2 ⟨a, b, rfl, ha, hb⟩, hc⟩
    · rintro ⟨_, c, rfl, h, hc⟩
      obtain ⟨a, b, rfl, ha, hb⟩ := derives_seqs_cons.1 h
      exact ⟨a, b ++ c, List.append_assoc _ _ _, ha, ih.2 ⟨b, c, rfl, hb, hc⟩⟩

/-- An entry is read as its name and its value, by itself and as a field of a struct. -/
theorem readsField_entry (hG : HasJson G) (hname : label.toList = Value.quote name)
    (h : Derives G (entry label e) s) : ∃ t, Derives G e t ∧
      (∀ {num depth r}, ReadsValue num depth t r → ReadsField num depth s (r.map (name, ·))) ∧
      ∀ {num depth fields shape r}, fields.lookup name = some shape →
        ReadsShape num depth shape t r → ReadsNamed num depth fields s (r.map (name, ·)) := by
  obtain ⟨_, _, rfl, hlabel, h⟩ := derives_seq.1 h
  obtain ⟨w, _, rfl, hw, h⟩ := derives_seq.1 h
  obtain ⟨_, _, rfl, hcolon, h⟩ := derives_seq.1 h
  obtain ⟨w', t, rfl, hw', ht⟩ := derives_seq.1 h
  obtain rfl := derives_text.1 hlabel
  obtain rfl := derives_text.1 hcolon
  rw [derives_ws hG] at hw hw'
  refine ⟨t, ht, fun hr => ?_, fun hfield hr => ?_⟩
  · have hspaces := hr.spaces hw' isSpaces_nil
    rw [List.append_nil] at hspaces
    rw [hname]
    exact readsField (readsString_escaped name) hw hspaces
  · have hspaces := hr.spaces hw' isSpaces_nil
    rw [List.append_nil] at hspaces
    rw [hname]
    exact readsNamed (readsString_escaped name) hw hfield hspaces

/-! ## Steps -/

/-- The dependencies of a step. -/
def depsExpr : Expr := seqs [word "[", ws, .opt (listOf (ref "string")), ws, word "]"]

/-- The step has one of the tools, and an object for its arguments. -/
def UsesTool (tools : List ToolName) (step : PlanStep) : Prop :=
  (step.peer, step.capability) ∈ tools ∧ ∃ fs, step.args = .object fs

/-- A comma, with the spaces around it, and what follows. -/
theorem derives_comma (hG : HasJson G) : Derives G (seqs [ws, word ",", ws, f]) s ↔
    ∃ w w' t, s = w ++ ',' :: (w' ++ t) ∧ IsSpaces w ∧ IsSpaces w' ∧ Derives G f t := by
  simp only [seqs, word, derives_seq, derives_text, derives_ws hG]
  constructor
  · rintro ⟨w, _, rfl, hw, _, _, rfl, rfl, w', t, rfl, hw', ht⟩
    exact ⟨w, w', t, rfl, hw, hw', ht⟩
  · rintro ⟨w, w', t, rfl, hw, hw', ht⟩
    exact ⟨w, _, rfl, hw, [','], _, rfl, rfl, w', t, rfl, hw', ht⟩

/-- The entries of a step, each with the spaces around it. -/
theorem entries_of_step (hne : tools ≠ []) (h : Derives (planRules tools) (ref "step") s) :
    ∃ tool ∈ tools, ∃ i p c a ds, s = '\x7b' :: commaJoin (i :: p :: c :: a :: ds) ++ ['\x7d'] ∧
      Padded (planRules tools) (entry "\"id\"" (ref "string")) i ∧
      Padded (planRules tools) (entry "\"peer\"" (.text (Value.quote tool.1))) p ∧
      Padded (planRules tools) (entry "\"capability\"" (.text (Value.quote tool.2))) c ∧
      Padded (planRules tools) (entry "\"args\"" (ref "object")) a ∧
      (ds = [] ∨ ∃ d, ds = [d] ∧ Padded (planRules tools) (entry "\"depends_on\"" depsExpr) d) := by
  have hG : HasJson (planRules tools) := hasJson_planRules
  obtain ⟨_, _, rfl, hopen, h₁⟩ := derives_seq.1 ((derives_head 2).1 h)
  obtain ⟨w, _, rfl, hw, h₂⟩ := derives_seq.1 h₁
  obtain ⟨_, _, rfl, hfields, h₃⟩ := derives_seq.1 h₂
  obtain ⟨w', _, rfl, hw', hclose⟩ := derives_seq.1 h₃
  obtain rfl := derives_text.1 hopen
  obtain rfl := derives_text.1 hclose
  obtain ⟨i, _, rfl, hi, h₄⟩ := derives_seq.1 ((derives_head 3).1 hfields)
  obtain ⟨w₁, w₂, _, rfl, hw₁, hw₂, h₅⟩ := (derives_comma hG).1 h₄
  obtain ⟨_, _, rfl, htool, h₆⟩ := derives_seq.1 h₅
  obtain ⟨w₅, w₆, _, rfl, hw₅, hw₆, h₇⟩ := (derives_comma hG).1 h₆
  obtain ⟨a, _, rfl, ha, hdeps⟩ := derives_seq.1 h₇
  obtain ⟨tool, hmem, hexpr⟩ := (derives_stepTool hne).1 htool
  obtain ⟨p, _, rfl, hp, h₈⟩ := (derives_seqs_append
    [word "\"peer\"", ws, word ":", ws, .text (Value.quote tool.1)] _).1 hexpr
  obtain ⟨w₃, w₄, c, rfl, hw₃, hw₄, hc⟩ := (derives_comma hG).1 h₈
  rw [derives_ws hG] at hw hw'
  have hi := (derives_head 4).1 hi
  have ha := (derives_head 5).1 ha
  refine ⟨tool, hmem, w ++ (i ++ w₁), w₂ ++ (p ++ w₃), w₄ ++ (c ++ w₅), ?_⟩
  rcases derives_opt.1 hdeps with rfl | hdeps
  · refine ⟨w₆ ++ (a ++ w'), [], ?_, ⟨w, i, w₁, hw, hw₁, hi, rfl⟩, ⟨w₂, p, w₃, hw₂, hw₃, hp, rfl⟩,
      ⟨w₄, c, w₅, hw₄, hw₅, hc, rfl⟩, ⟨w₆, a, w', hw₆, hw', ha, rfl⟩, .inl rfl⟩
    simp only [commaJoin_cons_cons, commaJoin_singleton, String.reduceToList, List.append_assoc,
      List.cons_append, List.nil_append]
  · obtain ⟨w₇, w₈, d, rfl, hw₇, hw₈, hd⟩ := (derives_comma hG).1 hdeps
    have hd := (derives_head 6).1 hd
    refine ⟨w₆ ++ (a ++ w₇), [w₈ ++ (d ++ w')], ?_, ⟨w, i, w₁, hw, hw₁, hi, rfl⟩,
      ⟨w₂, p, w₃, hw₂, hw₃, hp, rfl⟩, ⟨w₄, c, w₅, hw₄, hw₅, hc, rfl⟩,
      ⟨w₆, a, w₇, hw₆, hw₇, ha, rfl⟩, .inr ⟨_, rfl, w₈, d, w', hw₈, hw', hd, rfl⟩⟩
    simp only [commaJoin_cons_cons, commaJoin_singleton, String.reduceToList, List.append_assoc,
      List.cons_append, List.nil_append]

/-- An entry is read as its name and its value, with the spaces around it. -/
theorem readsField_padded (name : String) (hG : HasJson G) (hname : label.toList = Value.quote name)
    (h : Padded G (entry label e) s) : ∃ t, Derives G e t ∧
      (∀ {num depth r}, ReadsValue num depth t r → ReadsField num depth s (r.map (name, ·))) ∧
      ∀ {num depth fields shape r}, fields.lookup name = some shape →
        ReadsShape num depth shape t r → ReadsNamed num depth fields s (r.map (name, ·)) := by
  obtain ⟨u, t, u', hu, hu', ht, rfl⟩ := h
  obtain ⟨v, hv, hread, hnamed⟩ := readsField_entry hG hname ht
  exact ⟨v, hv, fun hr => (hread hr).spaces hu hu',
    fun hfield hr => (hnamed hfield hr).spaces hu hu'⟩

/-- An entry of a step is read in the same way by itself and as a field. -/
theorem reads_padded (num : List Char → Option Number) (depth : ℕ) (name : String)
    (hG : HasJson G) (hname : label.toList = Value.quote name)
    (hfield : PlanStep.fields.lookup name = some .any) (h : Padded G (entry label e) s) :
    ∃ t, Derives G e t ∧ ∀ {r}, ReadsValue num depth t r →
      ReadsField num depth s (r.map (name, ·)) ∧
        ReadsNamed num depth PlanStep.fields s (r.map (name, ·)) := by
  obtain ⟨t, ht, hread, hnamed⟩ := readsField_padded name hG hname h
  exact ⟨t, ht, fun hr => ⟨hread hr, hnamed hfield (readsShape_any hr)⟩⟩

/-- The value of a step is one. -/
theorem ofValue_entries {k peer capability : String} {fs rest : List (String × Value)}
    (hrest : rest = [] ∨ ∃ ks : List String, rest = [("depends_on", .array (ks.map .string))]) :
    ∃ step, PlanStep.ofValue (.object (("id", .string k) :: ("peer", .string peer) ::
      ("capability", .string capability) :: ("args", .object fs) :: rest)) = some step ∧
        step.peer = peer ∧ step.capability = capability ∧ ∃ fs', step.args = .object fs' := by
  have hcollect : (Value.object fs).collect =
      .object (Sorted.sort id (Value.sortByFields id fs)) := by
    rw [Value.collect, Value.sortBy]
  rcases hrest with rfl | ⟨ks, rfl⟩
  · refine ⟨⟨k, peer, capability, (Value.object fs).collect, []⟩, ?_, rfl, rfl, _, hcollect⟩
    simp [PlanStep.ofValue, required, defaulted, single, stringOf]
  · refine ⟨⟨k, peer, capability, (Value.object fs).collect, ks⟩, ?_, rfl, rfl, _, hcollect⟩
    simp [PlanStep.ofValue, required, defaulted, single, stringOf, stringsOf, mapM_stringOf]

/-- The dependencies are read as strings, or not at all. -/
theorem exists_readsDeps (num : List Char → Option Number) (hG : HasJson G) {ds : List (List Char)}
    (hds : ds = [] ∨ ∃ d, ds = [d] ∧ Padded G (entry "\"depends_on\"" depsExpr) d) (depth : ℕ) :
    ∃ items : List (List Char × Option (String × Value)), items.map Prod.fst = ds ∧
      (∀ y ∈ items, ReadsField num depth y.1 y.2 ∧
        ReadsNamed num depth PlanStep.fields y.1 y.2) ∧ ∀ rest ∈ items.mapM Prod.snd,
          rest = [] ∨ ∃ ks : List String, rest = [("depends_on", .array (ks.map .string))] := by
  rcases hds with rfl | ⟨d, rfl, hd⟩
  · exact ⟨[], rfl, fun y hy => absurd hy List.not_mem_nil, fun rest hrest =>
      .inl (Option.some.inj hrest).symm⟩
  · obtain ⟨t, ht, hread⟩ := reads_padded num depth "depends_on" hG (by decide) rfl hd
    obtain ⟨ks, hks⟩ := exists_readsStrings num hG ht depth
    refine ⟨[(d, _)], rfl, List.forall_mem_singleton.2 (hread hks), fun rest hrest => .inr ?_⟩
    rcases ks with _ | ks
    · exact absurd hrest (Option.some_ne_none rest).symm
    · exact ⟨ks, (Option.some.inj hrest).symm⟩

/-- A step is read as a step, or not at all. -/
theorem exists_readsStep (num : List Char → Option Number) (hne : tools ≠ [])
    (h : Derives (planRules tools) (ref "step") s) (depth : ℕ) : ∃ r, ReadsValue num depth s r ∧
      ReadsShape num depth (.struct PlanStep.fields) s r ∧
        ∀ v ∈ r, ∃ step, PlanStep.ofValue v = some step ∧ UsesTool tools step := by
  have hG : HasJson (planRules tools) := hasJson_planRules
  obtain ⟨tool, htool, i, p, c, a, ds, rfl, hi, hp, hc, ha, hds⟩ := entries_of_step hne h
  -- at depth zero the step is not entered
  rcases depth with _ | depth
  · exact ⟨none, readsValue_zero (.inr rfl), readsShape_zero (by simp) (.inr rfl),
      fun v hv => nomatch hv⟩
  obtain ⟨_, hi, hreadi⟩ := reads_padded num depth "id" hG (by decide) rfl hi
  obtain ⟨_, hp, hreadp⟩ := reads_padded num depth "peer" hG (by decide) rfl hp
  obtain ⟨_, hc, hreadc⟩ := reads_padded num depth "capability" hG (by decide) rfl hc
  obtain ⟨_, ha, hreada⟩ := reads_padded num depth "args" hG (by decide) rfl ha
  obtain rfl := derives_text.1 hp
  obtain rfl := derives_text.1 hc
  obtain ⟨ts, hts, rfl⟩ := (derives_string hG).1 hi
  obtain ⟨k, hk⟩ := exists_readsString hts
  obtain ⟨fs, hfs⟩ := exists_readsObject num hG ha depth
  have hi := hreadi (readsValue_string hk)
  have hp := hreadp (readsValue_string (readsString_escaped tool.1))
  have hc := hreadc (readsValue_string (readsString_escaped tool.2))
  have ha := hreada hfs
  obtain ⟨items, rfl, hitems, hrest⟩ := exists_readsDeps num hG hds depth
  -- the fields as they stand in the text, with what each is read as
  let ys := (i, (k.map Value.string).map ("id", ·)) :: (p, some ("peer", .string tool.1)) ::
    (c, some ("capability", .string tool.2)) :: (a, (fs.map .object).map ("args", ·)) :: items
  have hys : ∀ y ∈ ys, ReadsField num depth y.1 y.2 ∧
      ReadsNamed num depth PlanStep.fields y.1 y.2 :=
    List.forall_mem_cons.2 ⟨hi, List.forall_mem_cons.2 ⟨hp, List.forall_mem_cons.2 ⟨hc,
      List.forall_mem_cons.2 ⟨ha, hitems⟩⟩⟩⟩
  have hread : ReadsValue num (depth + 1) ('\x7b' :: commaJoin (ys.map Prod.fst) ++ ['\x7d'])
      ((ys.mapM Prod.snd).map .object) :=
    readsValue_object (List.cons_ne_nil _ _) fun y hy => (hys y hy).1
  have hshape : ReadsShape num (depth + 1) (.struct PlanStep.fields)
      ('\x7b' :: commaJoin (ys.map Prod.fst) ++ ['\x7d']) ((ys.mapM Prod.snd).map .object) :=
    readsShape_struct (List.cons_ne_nil _ _) fun y hy => (hys y hy).2
  -- what was read, field by field
  refine ⟨_, hread, hshape, fun v hv => ?_⟩
  obtain ⟨entries, hentries, rfl⟩ := Option.map_eq_some_iff.1 hv
  simp only [ys, List.mapM_cons, Option.bind_eq_bind, Option.bind_eq_some_iff, Option.map_map,
    Option.map_eq_some_iff, Option.pure_def, Option.some.injEq] at hentries
  obtain ⟨_, ⟨k, -, rfl⟩, _, ⟨_, rfl, _, ⟨_, rfl, _, ⟨_, ⟨fs, -, rfl⟩, rest, hmapM, rfl⟩, rfl⟩,
    rfl⟩, rfl⟩ := hentries
  obtain ⟨step, hstep, hpeer, hcap, hargs⟩ := ofValue_entries (hrest rest hmapM)
  exact ⟨step, hstep, hpeer ▸ hcap ▸ htool, hargs⟩

/-! ## Plans -/

/-- The list of the steps of a plan. -/
def stepsExpr : Expr := seqs [word "[", ws, .opt (ref "steps"), ws, word "]"]

theorem derives_stepsExpr : Derives (planRules tools) stepsExpr s ↔
    Derives (planRules tools)
      (seqs [word "[", ws, .opt (listOf (ref "step")), ws, word "]"]) s := by
  have hsteps {t : List Char} : Derives (planRules tools) (.opt (ref "steps")) t ↔
      Derives (planRules tools) (.opt (listOf (ref "step"))) t := by
    rw [derives_opt, derives_opt]
    exact or_congr_right (derives_head 1)
  simp only [stepsExpr, seqs, derives_seq (e := ws), derives_seq (e := word "["),
    derives_seq (e := .opt _), hsteps]

/-- A list of steps is read as one, or not at all. -/
theorem exists_readsSteps (num : List Char → Option Number) (hne : tools ≠ [])
    (h : Derives (planRules tools) stepsExpr s) (depth : ℕ) : ∃ r, ReadsValue num depth s r ∧
      ReadsShape num depth (.list (.struct PlanStep.fields)) s r ∧
        ∀ v ∈ r, ∃ l, Plan.stepsOf v = some l ∧ ∀ step ∈ l, UsesTool tools step := by
  have hG : HasJson (planRules tools) := hasJson_planRules
  rcases (derives_group hG).1 (derives_stepsExpr.1 h) with
    ⟨w, hw, rfl⟩ | ⟨w, body, w', hw, hw', hbody, rfl⟩
  · rcases depth with _ | depth
    · exact ⟨none, readsValue_zero (.inl rfl), readsShape_zero (by simp) (.inl rfl),
        fun v hv => nomatch hv⟩
    · refine ⟨_, readsValue_array_nil hw, readsShape_list_nil hw, fun v hv =>
        ⟨[], ?_, fun _ h => absurd h List.not_mem_nil⟩⟩
      obtain rfl := Option.some.inj hv
      rfl
  rcases depth with _ | depth
  · exact ⟨none, readsValue_zero (.inl rfl), readsShape_zero (by simp) (.inl rfl),
      fun v hv => nomatch hv⟩
  obtain ⟨ys, hys, hjoin, hpadded⟩ := exists_commaJoin hG hw hw' hbody
  have hitems : ∀ y ∈ ys, ∃ r, ReadsValue num depth y r ∧
      ReadsShape num depth (.struct PlanStep.fields) y r ∧
        ∀ v ∈ r, ∃ step, PlanStep.ofValue v = some step ∧ UsesTool tools step := by
    intro y hy
    obtain ⟨u, t, u', hu, hu', ht, rfl⟩ := hpadded y hy
    obtain ⟨r, hr, hshape, hstep⟩ := exists_readsStep num hne ht depth
    exact ⟨r, hr.spaces hu hu', hshape.spaces hu hu', hstep⟩
  -- what each step is read as
  choose! r hr hs hstep using hitems
  have hread : ReadsValue num (depth + 1) ('[' :: commaJoin (ys.map id) ++ [']']) _ :=
    readsValue_array hys hr
  have hshape : ReadsShape num (depth + 1) (.list (.struct PlanStep.fields))
      ('[' :: commaJoin (ys.map id) ++ [']']) _ := readsShape_list hys hs
  rw [List.map_id] at hread hshape
  rw [hjoin]
  refine ⟨_, hread, hshape, fun v hv => ?_⟩
  obtain ⟨vs, hvs, rfl⟩ := Option.map_eq_some_iff.1 hv
  clear hr hs hread hshape hjoin hpadded hys hv h
  rw [Plan.stepsOf]
  induction ys generalizing vs with
  | nil =>
    obtain rfl := Option.some.inj hvs
    exact ⟨[], rfl, fun _ h => absurd h List.not_mem_nil⟩
  | cons y ys ih =>
    obtain ⟨hy, hys⟩ := List.forall_mem_cons.1 hstep
    rw [List.mapM_cons] at hvs
    obtain ⟨v, hv, hvs⟩ := Option.bind_eq_some_iff.1 hvs
    obtain ⟨vs', hvs', hvs⟩ := Option.bind_eq_some_iff.1 hvs
    obtain rfl := Option.some.inj hvs
    obtain ⟨step, hread, huses⟩ := hy v hv
    obtain ⟨l, hl, hall⟩ := ih hys vs' hvs'
    refine ⟨step :: l, ?_, List.forall_mem_cons.2 ⟨huses, hall⟩⟩
    rw [List.mapM_cons, hread, hl]
    rfl

theorem derives_root : Derives (planRules tools) (ref "root") s ↔ ∃ w y w', IsSpaces w ∧
    IsSpaces w' ∧ Padded (planRules tools) (entry "\"plan\"" stepsExpr) y ∧
      s = w ++ (('\x7b' :: commaJoin [y] ++ ['\x7d']) ++ w') := by
  have hG : HasJson (planRules tools) := hasJson_planRules
  have hsplit : headRules[0].2 = seqs ([ws, word "\x7b", ws] ++
    (([word "\"plan\"", ws, word ":", ws] ++
      [word "[", ws, .opt (ref "steps"), ws, word "]"]) ++ [ws, word "\x7d", ws])) := rfl
  have hentry : entry "\"plan\"" stepsExpr = seqs ([word "\"plan\"", ws, word ":", ws] ++
    [word "[", ws, .opt (ref "steps"), ws, word "]"]) := rfl
  refine (derives_head 0).trans ?_
  rw [hsplit, derives_seqs_append]
  simp only [derives_seqs_append _ [ws, word "\x7d", ws], ← hentry]
  simp only [seqs, derives_seq, word, derives_text, derives_ws hG]
  constructor
  · rintro ⟨_, _, rfl, ⟨w, _, rfl, hw, _, u, rfl, rfl, hu⟩, t, _, rfl, ht, u', _, rfl, hu', _, w',
      rfl, rfl, hw'⟩
    refine ⟨w, u ++ (t ++ u'), w', hw, hw', ⟨u, t, u', hu, hu', ht, rfl⟩, ?_⟩
    simp only [commaJoin_singleton, String.reduceToList, List.append_assoc, List.cons_append,
      List.nil_append]
  · rintro ⟨w, _, w', hw, hw', ⟨u, t, u', hu, hu', ht, rfl⟩, rfl⟩
    refine ⟨_, _, ?_, ⟨w, _, rfl, hw, _, u, rfl, rfl, hu⟩, t, _, rfl, ht, u', _, rfl, hu', _, w',
      rfl, rfl, hw'⟩
    simp only [commaJoin_singleton, String.reduceToList, List.append_assoc, List.cons_append,
      List.nil_append]

/-- A text of the grammar is read as a plan, or not at all. -/
theorem exists_readsPlan (num : List Char → Option Number) (hne : tools ≠ [])
    (h : Derives (planRules tools) (ref "root") s)
    (depth : ℕ) : ∃ r, ReadsValue num depth s r ∧ ReadsShape num depth (.struct Plan.fields) s r ∧
      ∀ v ∈ r, ∃ p, Plan.ofValue v = some p ∧ ∀ step ∈ p.plan, UsesTool tools step := by
  obtain ⟨w, y, w', hw, hw', hy, rfl⟩ := derives_root.1 h
  rcases depth with _ | depth
  · exact ⟨none, (readsValue_zero (.inr rfl)).spaces hw hw',
      (readsShape_zero (by simp) (.inr rfl)).spaces hw hw', fun v hv => nomatch hv⟩
  obtain ⟨t, ht, hfield, hnamed⟩ := readsField_padded "plan" hasJson_planRules (by decide) hy
  obtain ⟨r, hr, hs, hsteps⟩ := exists_readsSteps num hne ht depth
  have hread : ReadsValue num (depth + 1) ('\x7b' :: commaJoin ([y].map id) ++ ['\x7d'])
      (([y].mapM fun _ => r.map ("plan", ·)).map .object) :=
    readsValue_object (List.cons_ne_nil _ _) (List.forall_mem_singleton.2 (hfield hr))
  have hshape : ReadsShape num (depth + 1) (.struct Plan.fields)
      ('\x7b' :: commaJoin ([y].map id) ++ ['\x7d'])
      (([y].mapM fun _ => r.map ("plan", ·)).map .object) :=
    readsShape_struct (List.cons_ne_nil _ _) (List.forall_mem_singleton.2 (hnamed rfl hs))
  refine ⟨_, hread.spaces hw hw', hshape.spaces hw hw', fun v hv => ?_⟩
  rcases r with _ | steps
  · exact absurd hv (Option.some_ne_none v).symm
  obtain rfl := Option.some.inj hv
  obtain ⟨l, hl, hall⟩ := hsteps steps rfl
  refine ⟨⟨l⟩, ?_, hall⟩
  simp [Plan.ofValue, required, single, hl]

end PlanGrammar

variable {tools : List ToolName} {text : List Char} {nearest : String → Option String} {p : Plan}

/-- Whatever the tools, the text of the grammar is one. -/
theorem read_planGrammar_wellFormed (tools : List ToolName) :
    ∃ G, Gbnf.read (planGrammar tools) = some G ∧ WellFormed "root".toList G := by
  by_cases hne : tools = []
  · subst hne
    exact ⟨_, read_freePlanGbnf, wellFormed_freeRules⟩
  · exact ⟨_, read_planGrammar hne, wellFormed_planRules⟩

/-- A text of the grammar that is a plan is one of the tools. -/
theorem usesTool_of_ofJson (hne : tools ≠ []) (h : Sampled tools text)
    (hp : Plan.ofJson nearest text = some p) : ∀ step ∈ p.plan, UsesTool tools step := by
  obtain ⟨r, -, hr, hplan⟩ := exists_readsPlan (Json.numberOf nearest) (dedup_ne_nil hne)
    ((sampled_iff hne).1 h) Json.recursionLimit
  rw [Plan.ofJson, readShapeText_of_reads hr] at hp
  obtain ⟨v, hv, hp⟩ := Option.bind_eq_some_iff.1 hp
  obtain ⟨q, hq, hall⟩ := hplan v hv
  obtain rfl := Option.some.inj (hp.symm.trans hq)
  exact fun step hstep => ⟨mem_dedup.1 (hall step hstep).1, (hall step hstep).2⟩

/-- A text of the grammar that is JSON is a plan, and its steps use the tools. -/
theorem ofJson_of_sampled (hne : tools ≠ []) (h : Sampled tools text) :
    Json.readText (Json.numberOf nearest) Json.recursionLimit text = none ∨
      ∃ p, Plan.ofJson nearest text = some p ∧ ∀ step ∈ p.plan, UsesTool tools step := by
  obtain ⟨r, hr, hshape, hplan⟩ := exists_readsPlan (Json.numberOf nearest) (dedup_ne_nil hne)
    ((sampled_iff hne).1 h) Json.recursionLimit
  have hread := readText_of_reads hr
  rcases r with _ | v
  · exact .inl hread
  · obtain ⟨p, hp, -⟩ := hplan v rfl
    have hplan : Plan.ofJson nearest text = some p := by
      rw [Plan.ofJson, readShapeText_of_reads hshape]
      exact hp
    exact .inr ⟨p, hplan, usesTool_of_ofJson hne h hplan⟩

/-! ## What is written -/

namespace PlanGrammar

variable {G : Grammar} {label name : String} {e f : Expr} {s t i c a d : List Char}

theorem derives_renderEntry (hG : HasJson G) {v : Value} (hname : label.toList = Value.quote name)
    (h : Derives G e v.render) : Derives G (entry label e) (Value.renderField (name, v)) :=
  .seq (hname ▸ .text) (.seq (s := []) ((derives_ws hG).2 isSpaces_nil)
    (.seq (s := [':']) .text (.seq (s := []) ((derives_ws hG).2 isSpaces_nil) h)))

theorem Padded.of_derives (h : Derives G e t) : Padded G e t :=
  ⟨[], t, [], isSpaces_nil, isSpaces_nil, h, by rw [List.nil_append, List.append_nil]⟩

theorem derives_bareComma (hG : HasJson G) (h : Derives G f t) :
    Derives G (seqs [ws, word ",", ws, f]) (',' :: t) :=
  (derives_comma hG).2 ⟨[], [], t, rfl, isSpaces_nil, isSpaces_nil, h⟩

/-- A step, without spaces. -/
theorem derives_step (hne : tools ≠ []) {tool : ToolName} (htool : tool ∈ tools)
    (hi : Derives (planRules tools) (entry "\"id\"" (ref "string")) i)
    (hp : Derives (planRules tools) (entry "\"peer\"" (.text (Value.quote tool.1))) s)
    (hc : Derives (planRules tools) (entry "\"capability\"" (.text (Value.quote tool.2))) c)
    (ha : Derives (planRules tools) (entry "\"args\"" (ref "object")) a)
    (hd : Derives (planRules tools) (entry "\"depends_on\"" depsExpr) d) :
    Derives (planRules tools) (ref "step") ('\x7b' :: commaJoin [i, s, c, a, d] ++ ['\x7d']) := by
  have hG : HasJson (planRules tools) := hasJson_planRules
  have hspaces : Derives (planRules tools) ws [] := (derives_ws hG).2 isSpaces_nil
  have htool : Derives (planRules tools) (ref "step-tool") (s ++ ',' :: c) := by
    refine (derives_stepTool hne).2 ⟨tool, htool, ?_⟩
    exact (derives_seqs_append [word "\"peer\"", ws, word ":", ws, .text (Value.quote tool.1)]
      _).2 ⟨s, _, rfl, hp, derives_bareComma hG hc⟩
  have hfields : Derives (planRules tools) (ref "step-fields")
      (i ++ ',' :: ((s ++ ',' :: c) ++ ',' :: (a ++ ',' :: d))) := by
    refine (derives_head 3).2 (.seq ((derives_head 4).2 hi) (derives_bareComma hG (.seq htool
      (derives_bareComma hG (.seq ((derives_head 5).2 ha) (.some (derives_bareComma hG ?_)))))))
    exact (derives_head 6).2 hd
  have htext : '\x7b' :: commaJoin [i, s, c, a, d] ++ ['\x7d'] = "\x7b".toList ++
      ([] ++ ((i ++ ',' :: ((s ++ ',' :: c) ++ ',' :: (a ++ ',' :: d))) ++
        ([] ++ "\x7d".toList))) := by
    simp only [commaJoin_cons_cons, commaJoin_singleton, String.reduceToList, List.append_assoc,
      List.cons_append, List.nil_append]
  rw [htext]
  exact (derives_head 2).2 (.seq .text (.seq hspaces (.seq hfields (.seq hspaces .text))))

theorem derives_toValue (hne : tools ≠ []) {step : PlanStep} (h : UsesTool tools step)
    (hn : ∀ n ∈ step.args.numbers, n.Valid nearest) :
    Derives (planRules tools) (ref "step") step.toValue.render := by
  have hG : HasJson (planRules tools) := hasJson_planRules
  obtain ⟨htool, fs, hfs⟩ := h
  rw [PlanStep.toValue, Value.render, Value.renderFields_eq]
  refine derives_step hne htool (derives_renderEntry hG (by decide) (derives_quote hG step.id))
    (derives_renderEntry hG (by decide) .text) (derives_renderEntry hG (by decide) .text)
    (derives_renderEntry hG (by decide) ?_) (derives_renderEntry hG (by decide) ?_)
  · rw [hfs] at hn ⊢
    exact derives_object hG (derives_renderFields hG hn)
  · rw [Value.render, Value.renderList_eq]
    refine derives_items hG fun y hy => ?_
    obtain ⟨x, hx, rfl⟩ := List.mem_map.1 hy
    obtain ⟨k, -, rfl⟩ := List.mem_map.1 hx
    exact derives_quote hG k

/-- The text of a plan whose steps use the tools. -/
theorem derives_toJson (hne : tools ≠ []) (hp : p.HasJson nearest)
    (hsteps : ∀ step ∈ p.plan, UsesTool tools step) :
    Derives (planRules tools) (ref "root") p.toJson := by
  have hG : HasJson (planRules tools) := hasJson_planRules
  have hsteps : Derives (planRules tools) stepsExpr
      (Value.array (p.plan.map PlanStep.toValue)).render := by
    rw [derives_stepsExpr, Value.render, Value.renderList_eq]
    refine derives_items hG fun y hy => ?_
    obtain ⟨v, hv, rfl⟩ := List.mem_map.1 hy
    obtain ⟨step, hstep, rfl⟩ := List.mem_map.1 hv
    exact derives_toValue hne (hsteps step hstep) (hp step hstep).2
  have hentry : Derives (planRules tools) (entry "\"plan\"" stepsExpr)
      (Value.renderField ("plan", .array (p.plan.map PlanStep.toValue))) :=
    derives_renderEntry hG (by decide) hsteps
  refine derives_root.2 ⟨[], _, [], isSpaces_nil, isSpaces_nil, .of_derives hentry, ?_⟩
  rw [List.nil_append, List.append_nil, commaJoin_singleton]
  rfl

end PlanGrammar

/-- The text of a plan whose steps use the tools is one of the grammar. -/
theorem sampled_toJson (hne : tools ≠ []) (hp : p.HasJson nearest)
    (hsteps : ∀ step ∈ p.plan, UsesTool tools step) : Sampled tools p.toJson :=
  (sampled_iff hne).2 (derives_toJson (dedup_ne_nil hne) hp fun step hstep =>
    ⟨mem_dedup.2 (hsteps step hstep).1, (hsteps step hstep).2⟩)

/-- The grammar of some tools is one, what is derived from it only uses them, and every
    plan that uses them is derived. -/
theorem planGrammar_exact (hne : tools ≠ []) :
    (∃ G, Gbnf.read (planGrammar tools) = some G ∧ WellFormed "root".toList G) ∧
      (∀ nearest text p, Sampled tools text → Plan.ofJson nearest text = some p →
        ∀ step ∈ p.plan, (step.peer, step.capability) ∈ tools) ∧
      ∀ p : Plan, p.HasJson some →
        (∀ step ∈ p.plan, (step.peer, step.capability) ∈ tools ∧ ∃ fs, step.args = .object fs) →
          Sampled tools p.toJson := by
  refine ⟨⟨_, read_planGrammar hne, wellFormed_planRules⟩, ?_, fun p hp hsteps => ?_⟩
  · exact fun _ _ _ h hp step hstep => (usesTool_of_ofJson hne h hp step hstep).1
  · exact (sampled_iff hne).2 (derives_toJson (dedup_ne_nil hne) hp fun step hstep =>
      ⟨mem_dedup.2 (hsteps step hstep).1, (hsteps step hstep).2⟩)

/-! ## One plan -/

theorem usesTool_onePlan {tools : List ToolName} (h : ("abc", "echo") ∈ tools) :
    ∀ step ∈ onePlan.plan, UsesTool tools step := by
  intro step hstep
  obtain rfl := List.mem_singleton.1 hstep
  exact ⟨h, _, rfl⟩

theorem sampled_onePlan : Sampled [("abc", "echo")] onePlan.toJson :=
  (sampled_iff (by decide)).2
    (derives_toJson (by decide) hasJson_onePlan (usesTool_onePlan (by decide)))

/-- The text of the plan is JSON, so it is read as a plan. -/
theorem ofJson_of_sampled_onePlan : ∃ p, Plan.ofJson some onePlan.toJson = some p ∧
    ∀ step ∈ p.plan, UsesTool [("abc", "echo")] step := by
  refine (ofJson_of_sampled (by decide) sampled_onePlan).resolve_left ?_
  exact Option.isSome_iff_ne_none.1 (by decide)

/-- The text of the plan is derived, and what is read from it uses the tool. -/
theorem planGrammar_exact_onePlan : Sampled [("abc", "echo")] onePlan.toJson ∧
    ∃ p, Plan.ofJson some onePlan.toJson = some p ∧ p.plan ≠ [] ∧
      ∀ step ∈ p.plan, (step.peer, step.capability) ∈ [("abc", "echo")] := by
  obtain ⟨-, hsound, hcomplete⟩ := planGrammar_exact (List.cons_ne_nil ("abc", "echo") [])
  have hsampled := hcomplete onePlan hasJson_onePlan (usesTool_onePlan (by decide))
  have hread : Plan.ofJson some onePlan.toJson = some onePlan :=
    (Plan.ofJson_toJson hasJson_onePlan).trans (if_pos (by decide))
  exact ⟨hsampled, onePlan, hread, List.cons_ne_nil _ _, hsound some _ _ hsampled hread⟩

/-- The tool of the plan is one of two. -/
theorem sampled_toJson_onePlan : Sampled [("abc", "sum"), ("abc", "echo")] onePlan.toJson :=
  sampled_toJson (by decide) hasJson_onePlan (usesTool_onePlan (by decide))

end N3ur0n
