import N3ur0n.Planner.RemoteCalls
import N3ur0n.Planner.Tools

/-!
# Delegated planning

A node may serve its compiler of plans to its peers, as a capability `plan`. A peer
sends the message of its user and its own catalogue, with the whole declarations, and
takes the plan that is in the reply.

* `RemotePlanCompiler.compile_exchange`: over a network that delivers what it is given,
  the remote compiler gives a plan exactly if the compiler that is served gives it for
  the same message and catalogue, and the exchange succeeds.
-/

namespace N3ur0n

open BlobTicketPayload (stringOf stringsOf)

/-- A compiler of plans, whose arguments are values of `serde_json`; it may fail, with
    the text of an error. -/
structure ServedCompiler (W : WireFormat) where
  compile : String → List DeclaredTool → Except String Plan
  hasJson : ∀ {userMsg tools p}, compile userMsg tools = .ok p → p.HasJson W.nearest

/-- A tool, as it is sent to another planner. -/
def DeclaredTool.toValue (t : DeclaredTool) : Value :=
  .object [("cap", t.cap.toValue.collect),
    ("peer_endpoint", (t.peerEndpoint.map Value.string).getD .null), ("peer_id", .string t.peerId)]

/-! ## The capability -/

namespace PlannerAsCapability

def capName : String := "plan"

variable (serdeError : Value → String)

/-- A tool of the catalogue that is sent, with the texts of its errors. -/
def toolOf (item : Value) : Except String DeclaredTool := do
  let peerId ← ((item.get "peer_id").bind stringOf).elim (.error "tool entry missing `peer_id`") .ok
  let peerEndpoint := (item.get "peer_endpoint").bind stringOf
  let capValue ← (item.get "cap").elim (.error "tool entry missing `cap`") .ok
  let cap ← (CapabilityDescriptor.ofValue capValue).elim
    (.error s!"invalid `cap`: {serdeError capValue}") .ok
  .ok ⟨peerId, peerEndpoint, cap⟩

/-- The catalogue of a call; none is an empty one. -/
def parseCatalog : Option Value → Except String (List DeclaredTool)
  | none => .ok []
  | some (.array items) => items.mapM (toolOf serdeError)
  | some _ => .error "`catalog` must be an array"

/-- `PlannerAsCapability::invoke`, with the texts of its errors. -/
def invoke (compile : String → List DeclaredTool → Except String Plan) (capability : String)
    (args : Value) : Except String Value :=
  if capability ≠ capName then .error s!"capability not found: {capability}"
  else do
    let userIntent ← ((args.get "user_intent").bind stringOf).elim
      (.error "backend returned error: missing `user_intent` (string)") .ok
    let catalog ← (parseCatalog serdeError (args.get "catalog")).mapError fun e =>
      s!"backend returned error: invalid catalog: {e}"
    let plan ← (compile userIntent catalog).mapError fun e =>
      s!"backend returned error: compile: {e}"
    .ok plan.toValue.collect

end PlannerAsCapability

/-! ## The remote compiler -/

namespace RemotePlanCompiler

/-- The arguments of the call. -/
def args (userMsg : String) (catalog : List DeclaredTool) : Value :=
  .object [("catalog", .array (catalog.map (·.toValue))), ("user_intent", .string userMsg)]

/-- The plan in a reply, which may be the result of an invocation. -/
def planOf (serdeError : Value → String) (body : Value) : Except NodeError Plan := do
  let plan ← (((body.get "result").bind (·.get "plan")).or (body.get "plan")).elim
    (.error (.invalidPayload "remote planner reply missing `plan`")) .ok
  (Plan.ofValue (.object [("plan", plan)])).elim
    (.error (.invalidPayload s!"remote plan parse: {serdeError plan}")) .ok

/-- `RemotePlanCompiler::compile`: the call, and the plan in its reply. -/
def compile (C : Crypto) (V : Wire) (serdeError : Value → String) (self : Caller)
    (userMsg : String) (catalog : List DeclaredTool) (x : Exchange) : Except NodeError Plan := do
  let reply ← (sendSigned C V self .invoke
    (invocation PlannerAsCapability.capName (args userMsg catalog)) x).mapError fun e =>
    .invalidPayload s!"remote plan invoke: {e.text}"
  planOf serdeError reply.envelope.payload

end RemotePlanCompiler

/-! ## Plans in replies -/

theorem collect_step {s : PlanStep} (hs : s.args.Ordered id) :
    s.toValue.collect = .object [("args", s.args), ("capability", .string s.capability),
      ("depends_on", strings s.dependsOn), ("id", .string s.id), ("peer", .string s.peer)] := by
  have hargs : s.args.collect = s.args := Value.sortBy_of_ordered hs
  have hdepends : (strings s.dependsOn).collect = strings s.dependsOn := by
    rw [strings, collect_array, List.map_map]
    rfl
  have hsort : s.toValue.collect = .object (Sorted.sort id [("id", .string s.id),
      ("peer", .string s.peer), ("capability", .string s.capability), ("args", s.args.collect),
      ("depends_on", (strings s.dependsOn).collect)]) := rfl
  have hnames : ["args", "capability", "depends_on", "id", "peer"].Pairwise (· < ·) := by decide
  rw [hsort, hargs, hdepends]
  refine congrArg Value.object (Sorted.sort_of_perm ?_ ?_)
  · exact List.pairwise_map.1 hnames
  · have hperm {α : Type} {a b c d e : α} : [a, b, c, d, e].Perm [c, d, e, a, b] :=
      List.perm_append_comm_assoc [a, b] [c, d, e] []
    exact hperm.trans (.swap _ _ _)

/-- A step is read back after its fields were sorted. -/
theorem ofValue_collect_step {s : PlanStep} (hs : s.args.Ordered id) :
    PlanStep.ofValue s.toValue.collect = some s := by
  have hargs : s.args.collect = s.args := Value.sortBy_of_ordered hs
  rw [collect_step hs]
  simp [PlanStep.ofValue, required, defaulted, single, stringOf, stringsOf, strings, mapM_stringOf,
    hargs]

/-- The arguments of a step are the deepest part of it. -/
theorem depth_collect_step {s : PlanStep} {k : ℕ} (hs : s.args.Ordered id) :
    s.toValue.collect.depth ≤ k + 2 ↔ s.args.depth ≤ k + 1 := by
  have hstrings : ∀ l : List String, Value.depthList (l.map Value.string) = 0 := by
    intro l
    induction l with
    | nil => rfl
    | cons a l ih => simp [Value.depthList, Value.depth, ih]
  rw [collect_step hs]
  simp [Value.depth, Value.depthFields, strings, hstrings]

namespace Plan

variable {nearest : String → Option String} {p : Plan}

/-- The arguments are not nested too deep to be in a reply: five levels are those of
    the message, of the result, of the plan, of its steps and of the step. -/
def Travels (p : Plan) : Prop := ∀ s ∈ p.plan, s.args.depth + 5 ≤ Json.recursionLimit

theorem collect_toValue :
    p.toValue.collect = .object [("plan", .array (p.plan.map fun s => s.toValue.collect))] := by
  have hlist : p.toValue.collect =
      .object [("plan", (Value.array (p.plan.map PlanStep.toValue)).collect)] := rfl
  rw [hlist, collect_array, List.map_map]
  rfl

/-- A plan is read back after its fields were sorted. -/
theorem ofValue_collect (hp : p.HasJson nearest) : ofValue p.toValue.collect = some p := by
  have hsteps : ∀ l : List PlanStep, (∀ s ∈ l, s.args.Ordered id) →
      (l.map fun s => s.toValue.collect).mapM PlanStep.ofValue = some l := by
    intro l hl
    induction l with
    | nil => rfl
    | cons s l ih =>
      obtain ⟨hs, hl⟩ := List.forall_mem_cons.1 hl
      simp [List.mapM_cons, ofValue_collect_step hs, ih hl]
  rw [collect_toValue]
  simp [ofValue, required, single, stepsOf, hsteps p.plan fun s hs => (hp s hs).1]

/-- The plan fits in the reply exactly if it travels. -/
theorem depth_collect (hp : p.HasJson nearest) :
    (Value.object [("result", p.toValue.collect)]).depth < Json.recursionLimit ↔ p.Travels := by
  have hlist : (Value.object [("result", p.toValue.collect)]).depth < Json.recursionLimit ↔
      Value.depthList (p.plan.map fun s => s.toValue.collect) ≤ 123 := by
    rw [collect_toValue]
    simp only [Value.depth, Value.depthFields, Json.recursionLimit]
    omega
  rw [hlist, Value.depthList_le, List.forall_mem_map]
  exact forall₂_congr fun s hs => (depth_collect_step (hp s hs).1).trans
    (Nat.add_le_add_iff_right (n := 5)).symm

theorem isJson_collect {W : WireFormat} (hp : p.HasJson W.nearest) : W.IsJson p.toValue.collect :=
  WireFormat.isJson_collect fun n hn => by
    obtain ⟨s, hs, hn⟩ := mem_numbers_toValue hn
    exact (hp s hs).2 n hn

end Plan

/-! ## Catalogues in requests -/

namespace DeclaredTool

variable {W : WireFormat} {t : DeclaredTool}

theorem isJson_toValue (ht : t.cap.IsJson W) : W.IsJson t.toValue := by
  have hcap : W.IsJson t.cap.toValue.collect :=
    WireFormat.isJson_collect (WireFormat.hasNumbers_capability ht)
  have hendpoint : W.IsJson ((t.peerEndpoint.map Value.string).getD .null) := by
    rcases t.peerEndpoint with _ | e
    · exact ⟨trivial, fun _ hn => absurd hn List.not_mem_nil⟩
    · exact WireFormat.isJson_string
  have hnames : ["cap", "peer_endpoint", "peer_id"].Pairwise (· < ·) := by decide
  refine ⟨⟨List.pairwise_map.1 hnames, hcap.1, hendpoint.1, trivial, trivial⟩, fun n hn => ?_⟩
  rcases List.mem_append.1 hn with hn | hn
  · exact hcap.2 n hn
  · rcases List.mem_append.1 hn with hn | hn
    · exact hendpoint.2 n hn
    · exact absurd hn List.not_mem_nil

/-- A tool is read back from the catalogue that is sent. -/
theorem toolOf_toValue {serdeError : Value → String} (ht : t.cap.IsJson W) :
    PlannerAsCapability.toolOf serdeError t.toValue = .ok t := by
  obtain ⟨peerId, peerEndpoint, cap⟩ := t
  have hcap : CapabilityDescriptor.ofValue cap.toValue.collect = some cap :=
    CapabilityDescriptor.ofValue_toValue ht
  have hendpoint : stringOf ((peerEndpoint.map Value.string).getD .null) = peerEndpoint := by
    rcases peerEndpoint with _ | e
    · rfl
    · rfl
  have hread : PlannerAsCapability.toolOf serdeError (toValue ⟨peerId, peerEndpoint, cap⟩) = (do
      let cap' ← (CapabilityDescriptor.ofValue cap.toValue.collect).elim
        (.error s!"invalid `cap`: {serdeError cap.toValue.collect}") .ok
      .ok ⟨peerId, stringOf ((peerEndpoint.map Value.string).getD .null), cap'⟩) := rfl
  rw [hread, hcap, hendpoint]
  rfl

end DeclaredTool

namespace RemotePlanCompiler

variable {W : WireFormat} {userMsg : String} {catalog : List DeclaredTool}

/-- So is the whole catalogue, in its order. -/
theorem parseCatalog_args {serdeError : Value → String} (hcatalog : ∀ t ∈ catalog, t.cap.IsJson W) :
    PlannerAsCapability.parseCatalog serdeError ((args userMsg catalog).get "catalog") =
      .ok catalog := by
  have hread : PlannerAsCapability.parseCatalog serdeError ((args userMsg catalog).get "catalog") =
      (catalog.map (·.toValue)).mapM (PlannerAsCapability.toolOf serdeError) := rfl
  rw [hread]
  induction catalog with
  | nil => rfl
  | cons t catalog ih =>
    obtain ⟨ht, hcatalog⟩ := List.forall_mem_cons.1 hcatalog
    rw [List.map_cons, List.mapM_cons, DeclaredTool.toolOf_toValue ht, ih hcatalog rfl]
    rfl

theorem isJson_args (hcatalog : ∀ t ∈ catalog, t.cap.IsJson W) :
    W.IsJson (args userMsg catalog) := by
  have htools : ∀ v ∈ catalog.map (·.toValue), W.IsJson v :=
    List.forall_mem_map.2 fun t ht => DeclaredTool.isJson_toValue (hcatalog t ht)
  exact WireFormat.isJson_pair (by decide) ⟨Value.orderedList_iff.2 fun v hv => (htools v hv).1,
    WireFormat.hasNumbers_array _ fun v hv => (htools v hv).2⟩ WireFormat.isJson_string

/-- What the capability answers to the arguments of a remote compiler. -/
theorem invoke_args {serdeError : Value → String} {C : ServedCompiler W} {v : Value}
    (hcatalog : ∀ t ∈ catalog, t.cap.IsJson W) :
    PlannerAsCapability.invoke serdeError C.compile PlannerAsCapability.capName
        (args userMsg catalog) = .ok v ↔
      ∃ p, C.compile userMsg catalog = .ok p ∧ p.toValue.collect = v := by
  have hread : PlannerAsCapability.invoke serdeError C.compile PlannerAsCapability.capName
      (args userMsg catalog) = (do
        let catalog' ← (PlannerAsCapability.parseCatalog serdeError
          ((args userMsg catalog).get "catalog")).mapError fun e =>
            s!"backend returned error: invalid catalog: {e}"
        let plan ← (C.compile userMsg catalog').mapError fun e =>
          s!"backend returned error: compile: {e}"
        .ok plan.toValue.collect) := rfl
  rw [hread, parseCatalog_args hcatalog]
  refine Except.bind_eq_ok.trans ?_
  constructor
  · rintro ⟨catalog', h, h'⟩
    obtain rfl := Except.ok.inj h
    obtain ⟨p, hp, hv⟩ := Except.bind_eq_ok.1 h'
    exact ⟨p, Except.mapError_eq_ok.1 hp, Except.ok.inj hv⟩
  · rintro ⟨p, hp, rfl⟩
    exact ⟨catalog, rfl, Except.bind_eq_ok.2 ⟨p, Except.mapError_eq_ok.2 hp, rfl⟩⟩

/-- A plan is taken from the reply that it is in. -/
theorem planOf_result {serdeError : Value → String} {p p' : Plan} (hp : p.HasJson W.nearest) :
    planOf serdeError (.object [("result", p.toValue.collect)]) = .ok p' ↔ p = p' := by
  have hread : planOf serdeError (.object [("result", p.toValue.collect)]) =
      (Plan.ofValue p.toValue.collect).elim (.error (.invalidPayload
        s!"remote plan parse: {serdeError (.array (p.plan.map fun s => s.toValue.collect))}"))
          .ok := by
    rw [Plan.collect_toValue]
    rfl
  rw [hread, Plan.ofValue_collect hp]
  exact ⟨Except.ok.inj, congrArg Except.ok⟩

variable {S : Server W} {σ : InboundState} {x : Outside} {self : Caller} {now : ℤ} {nonce : String}
  {serdeError : Value → String} {wireError utf8Lossy : Bytes → String} {C : ServedCompiler W}
  {plan : Plan}

/-- The result of the capability is a plan of the compiler that is served. -/
theorem runs_args (hcatalog : ∀ t ∈ catalog, t.cap.IsJson W)
    (hserves : ∀ e args, S.registry.get PlannerAsCapability.capName = some e →
      x.run e.binding PlannerAsCapability.capName args =
        (PlannerAsCapability.invoke serdeError C.compile PlannerAsCapability.capName
          args).mapError .adapter)
    {result : Value} :
    S.Runs σ x PlannerAsCapability.capName (args userMsg catalog) result ↔
      (∃ e, S.registry.get PlannerAsCapability.capName = some e ∧ e.decl.mode = .free) ∧
        S.node.checkBlobs σ.blobs.shared.store (args userMsg catalog) = .ok () ∧
          ∃ p, C.compile userMsg catalog = .ok p ∧ p.toValue.collect = result := by
  constructor
  · rintro ⟨e, he, hmode, hblobs, hrun⟩
    rw [hserves e _ he] at hrun
    exact ⟨⟨e, he, hmode⟩, hblobs, (invoke_args hcatalog).1 (Except.mapError_eq_ok.1 hrun)⟩
  · rintro ⟨⟨e, he, hmode⟩, hblobs, hp⟩
    refine ⟨e, he, hmode, hblobs, ?_⟩
    rw [hserves e _ he]
    exact Except.mapError_eq_ok.2 ((invoke_args hcatalog).2 hp)

/-- A plan is returned exactly if the call is answered with it. -/
theorem compile_ok {C : Crypto} {V : Wire} {x : Exchange} :
    compile C V serdeError self userMsg catalog x = .ok plan ↔ ∃ reply,
      sendSigned C V self .invoke (invocation PlannerAsCapability.capName (args userMsg catalog))
        x = .ok reply ∧ planOf serdeError reply.envelope.payload = .ok plan :=
  Except.bind_eq_ok.trans (exists_congr fun _ => and_congr_left fun _ => Except.mapError_eq_ok)

/-- Over a network that delivers what it is given, the remote compiler gives the plan
    that the compiler which is served gives for the same message and catalogue, and it
    gives one exactly if the capability is public, the exchange succeeds, and the plan
    is not nested too deep. -/
theorem compile_exchange (hW : W.Conforms) (hsha : ∀ key, W.sha256 key ≠ [])
    (hcatalog : ∀ t ∈ catalog, t.cap.IsJson W)
    (hserves : ∀ e args, S.registry.get PlannerAsCapability.capName = some e →
      x.run e.binding PlannerAsCapability.capName args =
        (PlannerAsCapability.invoke serdeError C.compile PlannerAsCapability.capName
          args).mapError .adapter) :
    compile (W.crypto 0) (W.wire wireError utf8Lossy) serdeError self userMsg catalog
        (S.exchange σ x now nonce) = .ok plan ↔
      C.compile userMsg catalog = .ok plan ∧ plan.Travels ∧
        (∃ e, S.registry.get PlannerAsCapability.capName = some e ∧ e.decl.mode = .free) ∧
          S.node.checkBlobs σ.blobs.shared.store (args userMsg catalog) = .ok () ∧
            (∃ signed, (W.crypto 0).signEnvelope (S.envelope self now nonce .invoke
              (invocation PlannerAsCapability.capName (args userMsg catalog))) self.secret =
                .ok signed ∧ S.Arrives σ signed) ∧
              ∃ reply, S.node.replyTo σ (S.envelope self now nonce .invoke
                (invocation PlannerAsCapability.capName (args userMsg catalog))) x.nonce
                  (.object [("result", plan.toValue.collect)]) = .ok reply := by
  have hruns {result : Value} :
      S.Runs σ x PlannerAsCapability.capName (args userMsg catalog) result ↔ _ :=
    runs_args hcatalog hserves
  have hsend {reply : SignedMessage} : sendSigned (W.crypto 0) (W.wire wireError utf8Lossy) self
      .invoke (invocation PlannerAsCapability.capName (args userMsg catalog))
        (S.exchange σ x now nonce) = .ok reply ↔ _ :=
    Server.sendSigned_invocation hW hsha (isJson_args hcatalog) fun result hresult => by
      obtain ⟨-, -, p, hp, rfl⟩ := hruns.1 hresult
      exact Plan.isJson_collect (C.hasJson hp)
  -- what is sent back is the plan, so to read it is to have it
  rw [compile_ok]
  constructor
  · rintro ⟨reply, hreply, hplan⟩
    obtain ⟨result, hreturns⟩ := hsend.1 hreply
    obtain ⟨hentry, hblobs, p, hp, rfl⟩ := hruns.1 hreturns.runs
    rw [hreturns.payload] at hplan
    obtain rfl := (planOf_result (C.hasJson hp)).1 hplan
    exact ⟨hp, (Plan.depth_collect (C.hasJson hp)).1 hreturns.depth, hentry, hblobs,
      hreturns.arrives, reply, hreturns.signs⟩
  · rintro ⟨hp, htravels, hentry, hblobs, harrives, reply, hsigns⟩
    have hreturns : S.Returns σ x self now nonce PlannerAsCapability.capName (args userMsg catalog)
        plan.toValue.collect reply :=
      ⟨harrives, hruns.2 ⟨hentry, hblobs, plan, hp, rfl⟩,
        (Plan.depth_collect (C.hasJson hp)).2 htravels, hsigns⟩
    refine ⟨reply, hsend.2 ⟨_, hreturns⟩, ?_⟩
    rw [hreturns.payload]
    exact (planOf_result (C.hasJson hp)).2 rfl

/-! ## A plan -/

def toyPlan : Plan := ⟨[⟨"s1", "b", "echo", .object [], []⟩]⟩

/-- A compiler that always gives this plan. -/
def toyCompiler : ServedCompiler Server.toyNet where
  compile _ _ := .ok toyPlan
  hasJson h := by
    obtain rfl := Except.ok.inj h
    rintro s hs
    obtain rfl := List.mem_singleton.1 hs
    exact ⟨⟨List.Pairwise.nil, trivial⟩, nofun⟩

/-- Its declaration, as it is served. -/
def toyPlanner : CapabilityDescriptor := { Server.toyEcho with name := "plan" }

def toyServed : Outside where
  decls := [toyPlanner]
  rows := []
  run _ name args := (PlannerAsCapability.invoke (fun _ => "invalid") toyCompiler.compile name
    args).mapError .adapter
  nonce := "m"

theorem get_toyPlanner :
    (CapabilityRegistry.fromDecls [toyPlanner]).get PlannerAsCapability.capName =
      some ⟨toyPlanner, none⟩ := rfl

/-- A node that delegates its planning gets the plan. -/
theorem compile_exchange_one : compile (Server.toyNet.crypto 0)
    (Server.toyNet.wire (fun _ => "invalid") fun _ => "") (fun _ => "invalid") Server.toySelf "go"
    [] ((Server.toyServer (.fromDecls [toyPlanner])).exchange Server.toyState toyServed 0 "n") =
      .ok toyPlan := by
  obtain ⟨reply, hreply⟩ := Server.toy_replies "m"
  have htravels : toyPlan.Travels := by
    rintro s hs
    obtain rfl := List.mem_singleton.1 hs
    decide
  have hlength : (invocation PlannerAsCapability.capName (args "go" [])).render.length ≤ 1000 := by
    decide
  exact (compile_exchange Server.toyNet_conforms Server.sha256_toyNet
    (fun t ht => absurd ht List.not_mem_nil) fun e args _ => rfl).2 ⟨rfl, htravels,
      ⟨_, get_toyPlanner, rfl⟩, rfl, Server.toy_arrives _ _ (by decide) hlength, reply, hreply⟩

end RemotePlanCompiler

end N3ur0n
