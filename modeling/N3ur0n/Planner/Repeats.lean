import N3ur0n.Canonical
import N3ur0n.JsonScan
import N3ur0n.Planner.Dispatch

/-!
# Repeated work

A continuation that only redoes what already ran is refused. An invocation is
known by a text, its fingerprint: the id of the peer, the capability and the
arguments, with two colons in between.

* `invocationFingerprint_inj`: the arguments can be told from the rest, so a
  fingerprint confuses two invocations only where a capability of one peer reads
  like the end of the id of another;
* `repeatsExactly_iff`: the guard is exact if no invocation of the continuation
  is confused so. The ids of directories come from the descriptions that peers
  give of themselves, and any text is taken.
-/

namespace N3ur0n

open Cut

/-! ## Fingerprints -/

/-- The numbers of a value are numbers of `serde_json`. -/
def Value.NumbersValid (v : Value) : Prop := ∀ n ∈ v.numbers, n.Valid some

variable {p p' c c' : String} {v w : Value}

theorem Value.NumbersValid.collect (h : v.NumbersValid) : v.collect.NumbersValid := fun n hn =>
  h n (Value.mem_numbers_sortBy hn)

theorem toList_invocationFingerprint : (invocationFingerprint p c v).toList =
    (p ++ "::" ++ c).toList ++ ':' :: ':' :: v.render := by
  rw [invocationFingerprint, String.toList_append, String.toList_append, String.toList_ofList,
    String.toList_ofList, List.append_assoc]
  rfl

theorem invocationFingerprint_inj (hv : v.NumbersValid) (hw : w.NumbersValid) :
    invocationFingerprint p c v = invocationFingerprint p' c' w ↔
      p ++ "::" ++ c = p' ++ "::" ++ c' ∧ v = w := by
  constructor
  · intro h
    have hlist := congrArg String.toList h
    rw [toList_invocationFingerprint, toList_invocationFingerprint] at hlist
    obtain ⟨hname, hargs⟩ := Value.eq_of_append_render (fun n hn => (hv n hn).readsNumber)
      (fun n hn => (hw n hn).readsNumber) hlist
    exact ⟨String.toList_injective hname, hargs⟩
  · rintro ⟨hname, rfl⟩
    rw [invocationFingerprint, invocationFingerprint, hname]

theorem capability_eq (h : p ++ "::" ++ c = p' ++ "::" ++ c') (hp : p = p') : c = c' := by
  have hlist := congrArg String.toList h
  rw [hp, String.toList_append, String.toList_append (s := p' ++ "::") (t := c')] at hlist
  exact String.toList_injective (List.append_cancel_left hlist)

/-! ## The guard -/

/-- The step, with its arguments in the maps of `serde_json`. -/
def PlanStep.gathered (s : PlanStep) : PlanStep := { s with args := s.args.collect }

def Plan.gathered (p : Plan) : Plan := ⟨p.plan.map PlanStep.gathered⟩

def TraceEntry.gathered (e : TraceEntry) : TraceEntry := { e with args := e.args.collect }

/-- The entry is the invocation that the step stands for. -/
def TraceEntry.Is (e : TraceEntry) (step : PlanStep) (tool : ToolDef) : Prop :=
  tool.peerId = e.peerId ∧ step.capability = e.capability ∧ step.args.collect = e.args.collect

variable (next : Plan) (trace : List TraceEntry) (catalog : Catalog)

/-- The guard holds of the continuations that repeat what is in the trace, and
    no invocation of the continuation has the fingerprint of another. -/
structure RepeatsExactly : Prop where
  addsNothing_iff : addsNothing next.gathered (trace.map TraceEntry.gathered) catalog = true ↔
    trace ≠ [] ∧ ∀ step ∈ next.plan, ∃ tool, catalog.find step.toolName = some tool ∧
      collectRefs step.args.collect = [] ∧ ∃ e ∈ trace, e.Is step tool
  told_apart : ∀ step ∈ next.plan, ∀ tool, catalog.find step.toolName = some tool → ∀ e ∈ trace,
    invocationFingerprint tool.peerId step.capability step.args.collect =
      invocationFingerprint e.peerId e.capability e.args.collect → e.Is step tool

/-- Where a step and an entry have the same arguments, and the same text for the
    peer and the capability, the peer is the same. -/
def Separated : Prop :=
  ∀ step ∈ next.plan, ∀ tool, catalog.find step.toolName = some tool → ∀ e ∈ trace,
    step.args.collect = e.args.collect →
    tool.peerId ++ "::" ++ step.capability = e.peerId ++ "::" ++ e.capability →
      tool.peerId = e.peerId

variable {next trace catalog}

theorem addsNothing_gathered :
    addsNothing next.gathered (trace.map TraceEntry.gathered) catalog = true ↔
      trace ≠ [] ∧ ∀ step ∈ next.plan, ∃ tool, catalog.find step.toolName = some tool ∧
        collectRefs step.args.collect = [] ∧ ∃ e ∈ trace,
          invocationFingerprint tool.peerId step.capability step.args.collect =
            invocationFingerprint e.peerId e.capability e.args.collect := by
  rw [addsNothing, Bool.and_eq_true, List.all_eq_true, Plan.gathered, List.forall_mem_map]
  refine and_congr (by simp) (forall₂_congr fun step _ => ?_)
  have htool : step.gathered.toolName = step.toolName := rfl
  rw [htool, Bool.and_eq_true, List.isEmpty_iff]
  cases catalog.find step.toolName with
  | none => simp
  | some tool =>
    simp only [decide_eq_true_eq, executedInvocations, List.map_map, List.mem_map,
      Function.comp_apply, Option.some.injEq, exists_eq_left']
    exact and_congr_right fun _ => exists_congr fun e => and_congr_right fun _ => eq_comm

theorem repeatsExactly_iff (hnext : ∀ step ∈ next.plan, step.args.NumbersValid)
    (htrace : ∀ e ∈ trace, e.args.NumbersValid) :
    RepeatsExactly next trace catalog ↔ Separated next trace catalog := by
  constructor
  · rintro ⟨-, happart⟩ step hstep tool htool e he hargs hname
    refine (happart step hstep tool htool e he ?_).1
    exact (invocationFingerprint_inj (hnext step hstep).collect (htrace e he).collect).2
      ⟨hname, hargs⟩
  · intro hsep
    -- A fingerprint in the trace is that of an entry which is the invocation.
    have happart : ∀ step ∈ next.plan, ∀ tool, catalog.find step.toolName = some tool →
        ∀ e ∈ trace, (invocationFingerprint tool.peerId step.capability step.args.collect =
          invocationFingerprint e.peerId e.capability e.args.collect ↔ e.Is step tool) := by
      intro step hstep tool htool e he
      rw [invocationFingerprint_inj (hnext step hstep).collect (htrace e he).collect]
      constructor
      · rintro ⟨hname, hargs⟩
        have hpeer := hsep step hstep tool htool e he hargs hname
        exact ⟨hpeer, capability_eq hname hpeer, hargs⟩
      · rintro ⟨hpeer, hcap, hargs⟩
        rw [hpeer, hcap]
        exact ⟨rfl, hargs⟩
    refine ⟨?_, fun step hstep tool htool e he => (happart step hstep tool htool e he).1⟩
    rw [addsNothing_gathered]
    refine and_congr_right fun _ => forall₂_congr fun step hstep => exists_congr fun tool =>
      and_congr_right fun htool => and_congr_right fun _ => exists_congr fun e =>
        and_congr_right fun he => happart step hstep tool htool e he

/-- A plan of one step, whose arguments are written in another order than those
    of the entry it repeats. -/
theorem repeatsExactly_iff_reordered :
    let args : Value := .object [("a", .number (.int 1)), ("b", .number (.int 2))]
    RepeatsExactly
      ⟨[⟨"s1", "abcdefghijkl", "sum",
        .object [("b", .number (.int 2)), ("a", .number (.int 1))], []⟩]⟩
      [⟨"c1", "n3:abcdefghijkl", "sum", args, some .null, none⟩]
      ⟨[⟨"n3:abcdefghijkl", none, "sum", .null, .null⟩]⟩ := by
  refine (repeatsExactly_iff ?_ ?_).2 ?_
  · simp [Value.NumbersValid, Value.numbers, Value.numbersFields, Number.Valid, Json.inRange]
  · simp [Value.NumbersValid, Value.numbers, Value.numbersFields, Number.Valid, Json.inRange]
  · rintro step hstep tool htool e he - -
    obtain rfl := List.mem_singleton.1 hstep
    obtain rfl := List.mem_singleton.1 he
    have hpeer : (Catalog.find ⟨[⟨"n3:abcdefghijkl", none, "sum", .null, .null⟩]⟩
        "abcdefghijkl::sum").map ToolDef.peerId = some "n3:abcdefghijkl" := by decide
    have hfind : Catalog.find ⟨[⟨"n3:abcdefghijkl", none, "sum", .null, .null⟩]⟩
        "abcdefghijkl::sum" = some tool := htool
    rw [hfind] at hpeer
    exact Option.some.inj hpeer

/-- The id of a peer goes on, after that of another, like one of the capabilities
    of the other: the capability of one is taken for that of the other. -/
theorem not_repeatsExactly_longerId :
    let catalog : Catalog := ⟨[⟨"n3:abcdefghijkl", none, "x::c", .null, .null⟩,
      ⟨"n3:abcdefghijkl::x", some "http://x", "c", .null, .null⟩]⟩
    ¬RepeatsExactly ⟨[⟨"s1", "abcdefghijkl", "x::c", .object [], []⟩]⟩
      [⟨"c1", "n3:abcdefghijkl::x", "c", .object [], some .null, none⟩] catalog := by
  intro catalog h
  have hadds : addsNothing
      (Plan.gathered ⟨[⟨"s1", "abcdefghijkl", "x::c", .object [], []⟩]⟩)
      (List.map TraceEntry.gathered
        [⟨"c1", "n3:abcdefghijkl::x", "c", .object [], some .null, none⟩]) catalog = true := by
    decide
  obtain ⟨-, hstep⟩ := h.addsNothing_iff.1 hadds
  obtain ⟨tool, htool, -, e, he, hpeer, -⟩ := hstep _ List.mem_cons_self
  obtain rfl := List.mem_singleton.1 he
  have hpeer' : (catalog.find "abcdefghijkl::x::c").map ToolDef.peerId =
      some "n3:abcdefghijkl" := by decide
  have hfind : catalog.find "abcdefghijkl::x::c" = some tool := htool
  rw [hfind, Option.map_some, hpeer] at hpeer'
  exact absurd hpeer' (by decide)

/-! ## Ids derived from keys -/

/-- The id is the prefix with a payload without colons, like the ids which are
    derived from a public key. -/
def KeyId (p : String) : Prop := ∃ payload, p.toList = idPrefix.toList ++ payload ∧ ':' ∉ payload

theorem KeyId.eq_of_append (hp : KeyId p) (hp' : KeyId p')
    (h : p ++ "::" ++ c = p' ++ "::" ++ c') : p = p' := by
  obtain ⟨u, hu, hmem⟩ := hp
  obtain ⟨u', hu', hmem'⟩ := hp'
  have hlist : u ++ ':' :: (':' :: c.toList) = u' ++ ':' :: (':' :: c'.toList) := by
    have hcongr := congrArg String.toList h
    simp only [String.toList_append, hu, hu', List.append_assoc] at hcongr
    exact List.append_cancel_left hcongr
  have hup : upTo ':' (u ++ ':' :: (':' :: c.toList)) = some u := upTo_eq_some.2 ⟨_, rfl, hmem⟩
  rw [hlist, upTo_eq_some.2 ⟨_, rfl, hmem'⟩] at hup
  rw [← String.toList_inj, hu, hu', Option.some.inj hup]

/-- Between peers with such ids, no invocation is confused with another. -/
theorem separated_of_keyId (htools : ∀ tool ∈ catalog.tools, KeyId tool.peerId)
    (htrace : ∀ e ∈ trace, KeyId e.peerId) : Separated next trace catalog := by
  intro step _ tool htool e he _ hname
  refine (htools tool ?_).eq_of_append (htrace e he) hname
  rw [Catalog.find] at htool
  split at htool
  · exact absurd htool (by simp)
  · exact List.mem_of_find?_eq_some htool

end N3ur0n
