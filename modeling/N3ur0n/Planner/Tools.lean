import Mathlib.Data.List.Perm.Basic
import N3ur0n.Directory
import N3ur0n.Lib.Ranking
import N3ur0n.Manifests.Registry

/-!
# Building the catalogue

The catalogue has the capabilities of this instance, in the order in which its
registry is iterated, then those of the peers. It is bounded by their scores for
a query: the local ones and the others are each of them ranked, when there are
too many, and only the first ones are kept; ties keep the order of the catalogue.

* `buildTools`, `filterWithScores`: the tools that a planner is shown;
* `orderFree_iff`: these do not depend on the order of the registry exactly when
  there is at most one local capability, or there are too many, and no tie
  between two of them could be among those that are kept.
-/

namespace N3ur0n

/-- A tool with the whole declaration of its capability. -/
structure DeclaredTool where
  peerId : String
  peerEndpoint : Option String
  cap : CapabilityDescriptor
  deriving DecidableEq

/-- What the planner reads of it. -/
def DeclaredTool.toToolDef (t : DeclaredTool) : ToolDef :=
  ⟨t.peerId, t.peerEndpoint, t.cap.toCapabilityDecl⟩

/-- What the descriptors of peers are read with: the JSON of a text, and the
    declaration of a capability. -/
structure DescriptorReader where
  parse : String → Option Value
  decl : Value → Option CapabilityDescriptor

/-- The capabilities that are not advertised to a planner. -/
def excludedCapNames : List String := ["plan"]

/-- How many local capabilities are kept. -/
def localTopK : ℕ := 12

/-- A planner may be shown it: it has an example. -/
def CapabilityDescriptor.plannable (cap : CapabilityDescriptor) : Bool :=
  cap.name ∉ excludedCapNames ∧ ¬cap.examples.isEmpty

/-- The declarations, in the order in which they are iterated. -/
def CapabilityRegistry.all (R : CapabilityRegistry) : List CapabilityDescriptor :=
  R.entries.map (·.decl)

section

variable (D : DescriptorReader) (selfId : String)

def localTools (R : CapabilityRegistry) : List DeclaredTool :=
  (R.all.filter (·.plannable)).map fun cap => ⟨selfId, none, cap⟩

/-- The capabilities in a descriptor. -/
def capabilitiesIn (descriptor : Value) : List Value :=
  match descriptor.get "capabilities" with
  | some (.array caps) => caps
  | _ => []

/-- A peer, or a capability of it, that cannot be read is skipped. -/
def peerTools (record : PeerRecord) : List DeclaredTool :=
  match record.describeSelfCached.bind D.parse with
  | none => []
  | some descriptor =>
    (((capabilitiesIn descriptor).filterMap D.decl).filter (·.plannable)).map fun cap =>
      ⟨record.id, some record.endpoint, cap⟩

/-- `Catalog::build`, for the rows of these peers. -/
def buildTools (R : CapabilityRegistry) (peers : List PeerRecord) : List DeclaredTool :=
  localTools selfId R ++ peers.flatMap (peerTools D)

/-! ## The bound -/

variable {β : Type} [LinearOrder β]

/-- With their scores, these are ranked if there are too many of them, and the first
    ones are kept. -/
def topScored (bound : ℕ) (scored : List (DeclaredTool × β)) : List DeclaredTool :=
  ((if bound < scored.length then Ranking.sort Prod.snd scored else scored).take bound).map
    Prod.fst

/-- The tools are filtered, unless the scores cannot be theirs. -/
def filterWithScores (tools : List DeclaredTool) (scores : List β) (remoteTopK : ℕ) :
    List DeclaredTool :=
  if remoteTopK = 0 then tools
  else if scores.length ≠ tools.length then tools
  else
    let scored := tools.zip scores
    topScored localTopK (scored.filter (·.1.peerEndpoint.isNone)) ++
      topScored remoteTopK (scored.filter (¬·.1.peerEndpoint.isNone))

/-- The names that a plan may use, in order. -/
def toolNames (tools : List DeclaredTool) : List (String × String) :=
  tools.map fun t => (shortPeer t.peerId, t.cap.name)

/-- The catalogue for a query, when the score of a tool depends on nothing else. -/
def plannerTools (R : CapabilityRegistry) (peers : List PeerRecord) (score : DeclaredTool → β)
    (remoteTopK : ℕ) : List DeclaredTool :=
  let tools := buildTools D selfId R peers
  filterWithScores tools (tools.map score) remoteTopK

/-- It is the same in whatever order the registry is iterated. -/
def OrderFree (R : CapabilityRegistry) (peers : List PeerRecord) (score : DeclaredTool → β)
    (remoteTopK : ℕ) : Prop :=
  ∀ R₁ R₂ : CapabilityRegistry, R₁.entries.Perm R.entries → R₂.entries.Perm R.entries →
    plannerTools D selfId R₁ peers score remoteTopK = plannerTools D selfId R₂ peers score remoteTopK

/-- There is at most one of the tools, or there are too many, and two that are tied
    come after as many as are kept. -/
def Decided (tools : List DeclaredTool) (score : DeclaredTool → β) (remoteTopK : ℕ) : Prop :=
  tools.length ≤ 1 ∨ remoteTopK ≠ 0 ∧ localTopK < tools.length ∧
    ∀ a ∈ tools, ∀ b ∈ tools, a ≠ b → score a = score b →
      localTopK ≤ tools.countP fun c => score a < score c

end

/-! ## The local tools -/

section

variable {D : DescriptorReader} {selfId : String} {R : CapabilityRegistry} {peers : List PeerRecord}
  {β : Type} [LinearOrder β] {score : DeclaredTool → β} {remoteTopK bound : ℕ}
  {tools : List DeclaredTool}

/-- What is kept of the local tools. -/
def keptLocals (score : DeclaredTool → β) (remoteTopK : ℕ) (tools : List DeclaredTool) :
    List DeclaredTool :=
  if remoteTopK ≠ 0 ∧ localTopK < tools.length then (Ranking.sort score tools).take localTopK
  else tools

theorem topScored_scored : topScored bound (tools.map fun t => (t, score t)) =
    (if bound < tools.length then Ranking.sort score tools else tools).take bound := by
  have hfst (l : List DeclaredTool) : (l.map fun t => (t, score t)).map Prod.fst = l := by
    rw [List.map_map]
    exact List.map_id l
  rw [topScored, List.map_take, apply_ite (List.map Prod.fst), Ranking.sort_map, hfst, hfst,
    List.length_map]

theorem localTools_isNone : ∀ t ∈ localTools selfId R, t.peerEndpoint.isNone := by
  intro t ht
  obtain ⟨cap, -, rfl⟩ := List.mem_map.1 ht
  rfl

theorem peerTools_isSome : ∀ t ∈ peers.flatMap (peerTools D), t.peerEndpoint.isNone = false := by
  intro t ht
  obtain ⟨record, -, ht⟩ := List.mem_flatMap.1 ht
  rw [peerTools] at ht
  split at ht
  · exact absurd ht List.not_mem_nil
  · obtain ⟨cap, -, rfl⟩ := List.mem_map.1 ht
    rfl

theorem filter_locals : (buildTools D selfId R peers).filter (·.peerEndpoint.isNone) =
    localTools selfId R := by
  rw [buildTools, List.filter_append, List.filter_eq_self.2 localTools_isNone,
    List.filter_eq_nil_iff.2 fun t ht => by rw [peerTools_isSome t ht]; exact Bool.false_ne_true,
    List.append_nil]

theorem filter_remotes : (buildTools D selfId R peers).filter (¬·.peerEndpoint.isNone) =
    peers.flatMap (peerTools D) := by
  rw [buildTools, List.filter_append, List.filter_eq_nil_iff.2, List.nil_append,
    List.filter_eq_self.2]
  · intro t ht
    simp [peerTools_isSome t ht]
  · intro t ht
    simp [localTools_isNone t ht]

/-- What is kept of the tools of the peers. -/
def keptRemotes (score : DeclaredTool → β) (remoteTopK : ℕ) (tools : List DeclaredTool) :
    List DeclaredTool :=
  if remoteTopK = 0 then tools else topScored remoteTopK (tools.map fun t => (t, score t))

/-- The tools of the peers do not depend on the registry. -/
theorem plannerTools_eq : plannerTools D selfId R peers score remoteTopK =
    keptLocals score remoteTopK (localTools selfId R) ++
      keptRemotes score remoteTopK (peers.flatMap (peerTools D)) := by
  rw [plannerTools, filterWithScores, keptLocals, keptRemotes]
  by_cases hk : remoteTopK = 0
  · rw [if_pos hk, if_pos hk, if_neg fun h => h.1 hk, buildTools]
  · have hzip (l : List DeclaredTool) : l.zip (l.map score) = l.map fun t => (t, score t) := by
      simpa using List.zip_map' (f := id) (g := score) (l := l)
    have hfilter (p : DeclaredTool → Bool) (l : List DeclaredTool) :
        (l.map fun t => (t, score t)).filter (fun x => p x.1) =
          (l.filter p).map fun t => (t, score t) := List.filter_map
    rw [if_neg hk, if_neg hk, if_neg (not_not.2 (List.length_map _))]
    simp only [hzip, hfilter fun t => t.peerEndpoint.isNone,
      hfilter fun t => decide ¬t.peerEndpoint.isNone, filter_locals, filter_remotes]
    rw [topScored_scored]
    congr 1
    split_ifs with h h' h'
    · rfl
    · exact absurd ⟨hk, h⟩ h'
    · exact absurd h'.2 h
    · exact List.take_of_length_le (Nat.le_of_not_lt h)

theorem localTools_nodup : (localTools selfId R).Nodup := by
  have hnames : ((localTools selfId R).map fun t => t.cap.name).Nodup := by
    rw [localTools, List.map_map]
    refine List.Nodup.sublist (List.Sublist.map _ List.filter_sublist) ?_
    rw [CapabilityRegistry.all, List.map_map]
    exact R.names_nodup
  exact hnames.of_map _

theorem localTools_eq : localTools selfId R =
    (R.entries.filter (·.decl.plannable)).map fun e => ⟨selfId, none, e.decl⟩ := by
  rw [localTools, CapabilityRegistry.all, List.filter_map, List.map_map]
  rfl

/-- The local tools may come in any order. -/
theorem exists_localTools_eq {tools : List DeclaredTool} (h : tools.Perm (localTools selfId R)) :
    ∃ R' : CapabilityRegistry, R'.entries.Perm R.entries ∧ localTools selfId R' = tools := by
  rw [localTools_eq] at h
  obtain ⟨entries, rfl, hperm⟩ :=
    (congrFun (congrFun (List.eq_map_comp_perm _) _) _).mpr h
  have hentries : (entries ++ R.entries.filter (!·.decl.plannable)).Perm R.entries :=
    (hperm.append_right _).trans (List.filter_append_perm _ _)
  refine ⟨⟨entries ++ R.entries.filter (!·.decl.plannable),
    ((hentries.map _).nodup_iff).2 R.names_nodup⟩, hentries, ?_⟩
  have hplannable : ∀ e ∈ entries, e.decl.plannable := fun e he =>
    (List.mem_filter.1 (hperm.mem_iff.1 he)).2
  rw [localTools_eq, List.filter_append, List.filter_eq_self.2 hplannable, List.filter_filter]
  simp

/-- In what order the local tools come matters to what is kept, unless it is
    decided. -/
theorem keptLocals_iff (hn : tools.Nodup) :
    (∀ l l', l.Perm tools → l'.Perm tools →
      keptLocals score remoteTopK l = keptLocals score remoteTopK l') ↔
    Decided tools score remoteTopK := by
  by_cases hrank : remoteTopK ≠ 0 ∧ localTopK < tools.length
  · have hkept (l : List DeclaredTool) (hl : l.Perm tools) :
        keptLocals score remoteTopK l = (Ranking.sort score l).take localTopK :=
      if_pos ⟨hrank.1, hl.length_eq ▸ hrank.2⟩
    have hmany : ¬tools.length ≤ 1 := fun h => absurd (hrank.2.trans_le h) (by decide)
    rw [Decided, or_iff_right hmany, and_iff_right hrank.1, and_iff_right hrank.2,
      ← Ranking.take_sort_iff]
    refine forall₂_congr fun l l' => forall₂_congr fun hl hl' => ?_
    rw [hkept l hl, hkept l' hl']
  · have hkept (l : List DeclaredTool) (hl : l.Perm tools) : keptLocals score remoteTopK l = l :=
      if_neg (hl.length_eq ▸ hrank)
    have hnot : Decided tools score remoteTopK ↔ tools.length ≤ 1 :=
      or_iff_left fun h => hrank ⟨h.1, h.2.1⟩
    rw [hnot]
    constructor
    · intro h
      match tools, hn with
      | [], _ => exact Nat.zero_le 1
      | [_], _ => exact le_rfl
      | a :: b :: l, hn =>
        -- The first two may be exchanged.
        have hswap := h (a :: b :: l) (b :: a :: l) (.refl _) (.swap _ _ _)
        rw [hkept _ (.refl _), hkept _ (.swap _ _ _)] at hswap
        obtain rfl := (List.cons.inj hswap).1
        exact absurd List.mem_cons_self (List.nodup_cons.1 hn).1
    · intro h l l' hl hl'
      rw [hkept l hl, hkept l' hl']
      have hperm := hl.trans hl'.symm
      match tools, h with
      | [], _ => rw [hl.eq_nil, hl'.eq_nil]
      | [a], _ => rw [List.perm_singleton.1 hl, List.perm_singleton.1 hl']

/-- The catalogue does not depend on the order of the registry exactly when its
    local tools are decided. -/
theorem orderFree_iff (D : DescriptorReader) (selfId : String) (R : CapabilityRegistry)
    (peers : List PeerRecord) (score : DeclaredTool → β) (remoteTopK : ℕ) :
    OrderFree D selfId R peers score remoteTopK ↔
      Decided (localTools selfId R) score remoteTopK := by
  rw [← keptLocals_iff localTools_nodup]
  constructor
  · intro h l l' hl hl'
    obtain ⟨R₁, hR₁, rfl⟩ := exists_localTools_eq hl
    obtain ⟨R₂, hR₂, rfl⟩ := exists_localTools_eq hl'
    have heq := h R₁ R₂ hR₁ hR₂
    rw [plannerTools_eq, plannerTools_eq] at heq
    exact List.append_cancel_right heq
  · intro h R₁ R₂ hR₁ hR₂
    have hperm {R' : CapabilityRegistry} (hR : R'.entries.Perm R.entries) :
        (localTools selfId R').Perm (localTools selfId R) :=
      ((hR.map _).filter _).map _
    rw [plannerTools_eq, plannerTools_eq, h _ _ (hperm hR₁) (hperm hR₂)]

end

/-! ## Thirteen capabilities -/

/-- A capability with an example. -/
def plainCap (name : String) : CapabilityDescriptor where
  name := name
  schemaIn := .object []
  schemaOut := .object []
  description := "d"
  mode := .free
  pricing := none
  tags := []
  lobeIds := []
  examples := [⟨"i", .object [], .object []⟩]
  disambiguation := none
  negativeExamples := []
  outputSemantic := none
  version := "0.1.0"
  languages := []
  countries := []

/-- One capability more than are kept. -/
def thirteen : List RegistryEntry :=
  ["a", "b", "c", "d", "e", "f", "g", "h", "i", "j", "k", "l", "m"].map fun name =>
    ⟨plainCap name, none⟩

theorem thirteen_nodup : (thirteen.map (·.name)).Nodup := by decide

/-- In their order, and in the other one. -/
def thirteenCaps : CapabilityRegistry := ⟨thirteen, thirteen_nodup⟩

def thirteenReversed : CapabilityRegistry :=
  ⟨thirteen.reverse, ((List.reverse_perm _).map _).nodup_iff.2 thirteen_nodup⟩

/-- No descriptor can be read. -/
def noDescriptors : DescriptorReader := ⟨fun _ => none, fun _ => none⟩

/-- When they all have the same score, the last one of the order is dropped. -/
theorem last_is_dropped :
    "m" ∉ (plannerTools noDescriptors "n3:self" thirteenCaps [] (fun _ => 0) 20).map
      (·.cap.name) ∧
    "m" ∈ (plannerTools noDescriptors "n3:self" thirteenReversed [] (fun _ => 0) 20).map
      (·.cap.name) ∧
    ¬OrderFree noDescriptors "n3:self" thirteenCaps [] (fun _ => 0) 20 := by
  have hdropped : "m" ∉ (plannerTools noDescriptors "n3:self" thirteenCaps [] (fun _ => 0) 20).map
      (·.cap.name) := by
    decide
  have hkept : "m" ∈ (plannerTools noDescriptors "n3:self" thirteenReversed []
      (fun _ => 0) 20).map (·.cap.name) := by
    decide
  refine ⟨hdropped, hkept, fun h => hdropped ?_⟩
  rw [h thirteenCaps thirteenReversed (.refl _) (List.reverse_perm _)]
  exact hkept

end N3ur0n
