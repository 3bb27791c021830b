import N3ur0n.Directory
import N3ur0n.Lib.Firsts

/-!
# Bootstrap

When a node starts, it refreshes its seeds, then walks the peers that they know
of, and those that these know of, up to some depth. The peers that are contacted
answer whatever they like: a `Network` is any behaviour of theirs, which may
depend on all the calls so far.

* `bootstrap_bounded`: how many calls a walk makes, and when it repeats none;
* `bootstrap_files`: which peers are in the directory when the walk ends.
-/

namespace N3ur0n

/-- What a reply lists of a peer. -/
structure PeerSummary where
  instanceId : String
  endpoint : Option String
  aliasName : Option String
  deriving DecidableEq

/-- A call of a walk, with what it was answered: the id in the descriptor, or the
    peers. -/
inductive PeerCall
  | refreshed (endpoint : String) (id : Option String)
  | asked (endpoint : String) (peers : Option (List PeerSummary))
  deriving DecidableEq

/-- What the calls find outside, after the calls so far. -/
structure Network where
  exchange : List PeerCall → ProtocolVerb → String → Exchange
  clock : List PeerCall → ℤ
  timedOut : List PeerCall → ProtocolVerb → String → Bool

/-- How a seed was contacted, for the log. -/
structure BootstrapOutcome where
  endpoint : String
  instanceId : Option String
  error : Option String
  deriving DecidableEq

def NodeError.text : NodeError → String
  | .invalidPayload message => s!"invalid payload for verb: {message}"
  | .replay => "nonce already seen (replay)"
  | .core e => e.text

def bootstrapMaxPeers : ℕ := 100

def bootstrapPageSize : ℕ := 50

/-- The readers of the replies. -/
structure ReplyCodec where
  descriptor : DescriptorCodec
  peers : Value → Except String (List PeerSummary)

/-- A node that walks, with the calls it makes. -/
structure Walker where
  crypto : Crypto
  wire : Wire
  codec : ReplyCodec
  caller : Caller
  network : Network

namespace Walker

variable (N : Walker)

def id : String := N.caller.id N.crypto

/-- A refresh of an endpoint, after these calls. -/
def refresh (calls : List PeerCall) (endpoint : String) : Except NodeError Refreshed :=
  refreshPeer N.crypto N.wire N.codec.descriptor N.caller
    ⟨endpoint, N.network.exchange calls .describeSelf endpoint, N.network.clock calls⟩

/-- It is given up after some time. -/
def timedRefresh (calls : List PeerCall) (endpoint : String) : Option Refreshed :=
  if N.network.timedOut calls .describeSelf endpoint then none
  else (N.refresh calls endpoint).toOption

/-- A page of the peers that an endpoint knows. -/
def getKnownPeers (calls : List PeerCall) (endpoint : String) :
    Except ClientError (List PeerSummary) := do
  let reply ← sendSigned N.crypto N.wire N.caller .getKnownPeers
    (.object [("limit", .number (.int bootstrapPageSize))])
    (N.network.exchange calls .getKnownPeers endpoint)
  (N.codec.peers reply.envelope.payload).mapError .serde

def timedKnownPeers (calls : List PeerCall) (endpoint : String) : Option (List PeerSummary) :=
  if N.network.timedOut calls .getKnownPeers endpoint then none
  else (N.getKnownPeers calls endpoint).toOption

/-- The node, while it contacts its seeds. -/
structure Contacts where
  directory : Directory
  calls : List PeerCall
  outcomes : List BootstrapOutcome

/-- A seed that answers is filed, one that does not is only noted. -/
def contactSeed (c : Contacts) (endpoint : String) : Contacts :=
  match N.refresh c.calls endpoint with
  | .ok r => ⟨c.directory.store r,
      c.calls ++ [.refreshed endpoint (some r.descriptor.instanceId)],
      c.outcomes ++ [⟨endpoint, some r.descriptor.instanceId, none⟩]⟩
  | .error e => ⟨c.directory, c.calls ++ [.refreshed endpoint none],
      c.outcomes ++ [⟨endpoint, none, some e.text⟩]⟩

/-- The seeds are contacted in their order. -/
def bootstrapInitialPeers (d : Directory) (endpoints : List String) : Contacts :=
  endpoints.foldl N.contactSeed ⟨d, [], []⟩

/-- The walk, in the middle of a level. The entries that it has considered are not
    read again. -/
structure Walk where
  directory : Directory
  calls : List PeerCall
  visited : Finset String
  totalDiscovered : ℕ
  nextFrontier : List String
  entries : List PeerSummary

/-- An entry of a reply. Once the cap is reached, the others are skipped. -/
def visit (w : Walk) (summary : PeerSummary) : Walk :=
  if bootstrapMaxPeers ≤ w.totalDiscovered then w else
  let w := { w with entries := w.entries ++ [summary] }
  if summary.instanceId ∈ w.visited then w else
  let w := { w with visited := insert summary.instanceId w.visited }
  match summary.endpoint with
  | none => w
  | some peerEndpoint =>
    match N.timedRefresh w.calls peerEndpoint with
    | some r => { w with
        directory := w.directory.store r
        calls := w.calls ++ [.refreshed peerEndpoint (some r.descriptor.instanceId)]
        totalDiscovered := w.totalDiscovered + 1
        nextFrontier := w.nextFrontier ++ [peerEndpoint] }
    | none => { w with calls := w.calls ++ [.refreshed peerEndpoint none] }

/-- An endpoint of the frontier is asked for its peers. -/
def expand (w : Walk) (endpoint : String) : Walk :=
  match N.timedKnownPeers w.calls endpoint with
  | none => { w with calls := w.calls ++ [.asked endpoint none] }
  | some peers =>
    peers.foldl N.visit { w with calls := w.calls ++ [.asked endpoint (some peers)] }

/-- The levels of the walk that are left, from the frontier of the next one. -/
def levels : ℕ → Walk → Walk
  | 0, w => w
  | depth + 1, w =>
    if w.nextFrontier = [] ∨ bootstrapMaxPeers ≤ w.totalDiscovered then w
    else levels depth (w.nextFrontier.foldl N.expand { w with nextFrontier := [] })

/-- The walk, before its first level. -/
def startWalk (c : Contacts) : Walk where
  directory := c.directory
  calls := c.calls
  visited := insert N.id (c.outcomes.filterMap (·.instanceId)).toFinset
  totalDiscovered := (c.outcomes.filter (·.error.isNone)).length
  nextFrontier := (c.outcomes.filter (·.instanceId.isSome)).map (·.endpoint)
  entries := []

/-- The outcomes for the seeds, and the walk when it ends. -/
def bootstrapTransitive (d : Directory) (seeds : List String) (maxDepth : ℕ) :
    List BootstrapOutcome × Walk :=
  let c := N.bootstrapInitialPeers d seeds
  (c.outcomes, if maxDepth = 0 then N.startWalk c else N.levels maxDepth (N.startWalk c))

/-! ## What a list of calls has done -/

end Walker

namespace PeerCall

/-- The endpoint that is refreshed. -/
def refreshes : PeerCall → Option String
  | .refreshed endpoint _ => some endpoint
  | .asked .. => none

/-- The endpoint whose refresh succeeds. -/
def learns : PeerCall → Option String
  | .refreshed endpoint id => id.map fun _ => endpoint
  | .asked .. => none

/-- The endpoint that is asked for its peers. -/
def asks : PeerCall → Option String
  | .refreshed .. => none
  | .asked endpoint _ => some endpoint

/-- The peers that are listed. -/
def lists : PeerCall → List PeerSummary
  | .refreshed .. => []
  | .asked _ peers => peers.getD []

end PeerCall

/-- The endpoints that the calls refreshed, or tried to. -/
def refreshedEndpoints (calls : List PeerCall) : List String := calls.filterMap PeerCall.refreshes

/-- Those that were refreshed. -/
def learnedEndpoints (calls : List PeerCall) : List String := calls.filterMap PeerCall.learns

/-- Those that were asked for their peers. -/
def askedEndpoints (calls : List PeerCall) : List String := calls.filterMap PeerCall.asks

/-- All that the replies listed. -/
def listedPeers (calls : List PeerCall) : List PeerSummary := calls.flatMap PeerCall.lists

/-- The endpoints of the entries that are the first to mention an id. -/
def newEndpoints (known : Finset String) (entries : List PeerSummary) : List String :=
  (Firsts.firsts PeerSummary.instanceId known entries).filterMap PeerSummary.endpoint

section

variable {calls : List PeerCall} {endpoint : String} {id : Option String}
  {peers : Option (List PeerSummary)}

@[simp] theorem refreshedEndpoints_refreshed :
    refreshedEndpoints (calls ++ [.refreshed endpoint id]) =
      refreshedEndpoints calls ++ [endpoint] := List.filterMap_append

@[simp] theorem refreshedEndpoints_asked :
    refreshedEndpoints (calls ++ [.asked endpoint peers]) = refreshedEndpoints calls :=
  List.filterMap_append.trans (List.append_nil _)

@[simp] theorem learnedEndpoints_learned {id : String} :
    learnedEndpoints (calls ++ [.refreshed endpoint (some id)]) =
      learnedEndpoints calls ++ [endpoint] := List.filterMap_append

@[simp] theorem learnedEndpoints_failed :
    learnedEndpoints (calls ++ [.refreshed endpoint none]) = learnedEndpoints calls :=
  List.filterMap_append.trans (List.append_nil _)

@[simp] theorem learnedEndpoints_asked :
    learnedEndpoints (calls ++ [.asked endpoint peers]) = learnedEndpoints calls :=
  List.filterMap_append.trans (List.append_nil _)

theorem learnedEndpoints_sublist :
    (learnedEndpoints calls).Sublist (refreshedEndpoints calls) := by
  induction calls with
  | nil => exact List.Sublist.slnil
  | cons call calls ih =>
    rw [learnedEndpoints, refreshedEndpoints, List.filterMap_cons, List.filterMap_cons]
    cases call with
    | refreshed endpoint id =>
      cases id with
      | none => exact ih.cons endpoint
      | some id => exact ih.cons_cons endpoint
    | asked endpoint peers => exact ih

theorem mem_refreshedEndpoints :
    endpoint ∈ refreshedEndpoints calls ↔ ∃ id, .refreshed endpoint id ∈ calls := by
  rw [refreshedEndpoints, List.mem_filterMap]
  constructor
  · rintro ⟨call, hcall, h⟩
    cases call with
    | refreshed endpoint' id =>
      obtain rfl := Option.some.inj h
      exact ⟨id, hcall⟩
    | asked endpoint' peers => cases h
  · exact fun ⟨id, hcall⟩ => ⟨_, hcall, rfl⟩

@[simp] theorem askedEndpoints_refreshed :
    askedEndpoints (calls ++ [.refreshed endpoint id]) = askedEndpoints calls :=
  List.filterMap_append.trans (List.append_nil _)

@[simp] theorem askedEndpoints_asked :
    askedEndpoints (calls ++ [.asked endpoint peers]) = askedEndpoints calls ++ [endpoint] :=
  List.filterMap_append

@[simp] theorem listedPeers_refreshed :
    listedPeers (calls ++ [.refreshed endpoint id]) = listedPeers calls := by
  simp [listedPeers, PeerCall.lists]

@[simp] theorem listedPeers_asked :
    listedPeers (calls ++ [.asked endpoint peers]) = listedPeers calls ++ peers.getD [] := by
  simp [listedPeers, PeerCall.lists]

end

namespace Walker

variable {N : Walker}

/-- The instances in the directory are those which were there, and the others that
    some call has described. -/
def Filed (N : Walker) (d d' : Directory) (calls : List PeerCall) : Prop :=
  ∀ id, (d'.lookup id).isSome ↔
    (d.lookup id).isSome ∨ id ≠ N.id ∧ ∃ endpoint, .refreshed endpoint (some id) ∈ calls

variable {d d' : Directory} {calls : List PeerCall} {endpoint : String}

/-- A refresh files the instance that it describes. -/
theorem Filed.refreshed {r : Refreshed} (h : N.Filed d d' calls) {calls' : List PeerCall}
    (hr : N.refresh calls' endpoint = .ok r) : N.Filed d (d'.store r)
      (calls ++ [.refreshed endpoint (some r.descriptor.instanceId)]) := by
  intro id
  rw [Directory.isSome_lookup_store d' hr, h id, or_assoc, Walker.id, ← and_or_left]
  refine or_congr_right (and_congr_right fun _ => ?_)
  simp only [List.mem_append, List.mem_singleton, PeerCall.refreshed.injEq, Option.some.injEq]
  constructor
  · rintro (⟨ep, hep⟩ | hid)
    · exact ⟨ep, .inl hep⟩
    · exact ⟨endpoint, .inr ⟨rfl, hid.symm⟩⟩
  · rintro ⟨ep, hep | ⟨-, hid⟩⟩
    · exact .inl ⟨ep, hep⟩
    · exact .inr hid.symm

/-- One that fails files none. -/
theorem Filed.failed (h : N.Filed d d' calls) :
    N.Filed d d' (calls ++ [.refreshed endpoint none]) := by
  intro id
  rw [h id]
  simp

/-- To ask for peers files none. -/
theorem Filed.asked {peers : Option (List PeerSummary)} (h : N.Filed d d' calls) :
    N.Filed d d' (calls ++ [.asked endpoint peers]) := by
  intro id
  rw [h id]
  simp

/-- A refresh of the endpoint always finds the instance there. -/
def Serves (N : Walker) (endpoint id : String) : Prop :=
  ∀ calls, ∃ r, N.timedRefresh calls endpoint = some r ∧ r.descriptor.instanceId = id

/-- The calls to such an endpoint have described the instance. -/
def Described (N : Walker) (calls : List PeerCall) : Prop :=
  ∀ endpoint id, N.Serves endpoint id → ∀ id', .refreshed endpoint id' ∈ calls → id' = some id

theorem timedRefresh_eq_some {r : Refreshed} (h : N.timedRefresh calls endpoint = some r) :
    N.refresh calls endpoint = .ok r := by
  rw [timedRefresh] at h
  split at h
  · cases h
  · exact Except.toOption_eq_some.1 h

/-- A refresh keeps this, if it finds the instance that the endpoint serves. -/
theorem Described.refreshed {id : Option String} (h : N.Described calls)
    (hid : ∀ id', N.Serves endpoint id' → id = some id') :
    N.Described (calls ++ [.refreshed endpoint id]) := by
  intro endpoint' id' hserves id'' hmem
  rcases List.mem_append.1 hmem with hmem | hmem
  · exact h endpoint' id' hserves id'' hmem
  · obtain ⟨rfl, rfl⟩ := PeerCall.refreshed.inj (List.mem_singleton.1 hmem)
    exact hid id' hserves

theorem Described.asked {peers : Option (List PeerSummary)} (h : N.Described calls) :
    N.Described (calls ++ [.asked endpoint peers]) := by
  intro endpoint' id hserves id' hmem
  rcases List.mem_append.1 hmem with hmem | hmem
  · exact h endpoint' id hserves id' hmem
  · cases List.mem_singleton.1 hmem

/-! ## The seeds -/

/-- What the calls to some seeds have done. -/
structure Contacts.Ok (N : Walker) (d : Directory) (seeds : List String) (c : Contacts) :
    Prop where
  refreshed : refreshedEndpoints c.calls = seeds
  learned : learnedEndpoints c.calls =
    (c.outcomes.filter (·.instanceId.isSome)).map (·.endpoint)
  answered : c.outcomes.filter (·.error.isNone) = c.outcomes.filter (·.instanceId.isSome)
  asked : askedEndpoints c.calls = []
  listed : listedPeers c.calls = []
  filed : N.Filed d c.directory c.calls
  described : N.Described c.calls

/-- A seed more. -/
theorem contactSeed_ok {seeds : List String} {c : Contacts} (endpoint : String)
    (h : c.Ok N d seeds) : (N.contactSeed c endpoint).Ok N d (seeds ++ [endpoint]) := by
  rw [contactSeed]
  cases hr : N.refresh c.calls endpoint with
  | error e =>
    refine ⟨?_, ?_, ?_, ?_, ?_, h.filed.failed, h.described.refreshed fun id hserves => ?_⟩
    · simp [h.refreshed]
    · simp [h.learned]
    · simp [h.answered]
    · simp [h.asked]
    · simp [h.listed]
    · obtain ⟨r, hr', -⟩ := hserves c.calls
      cases hr.symm.trans (timedRefresh_eq_some hr')
  | ok r =>
    refine ⟨?_, ?_, ?_, ?_, ?_, h.filed.refreshed hr, h.described.refreshed fun id hserves => ?_⟩
    · simp [h.refreshed]
    · simp [h.learned]
    · simp [h.answered]
    · simp [h.asked]
    · simp [h.listed]
    · obtain ⟨r', hr', hid⟩ := hserves c.calls
      obtain rfl := Except.ok.inj (hr.symm.trans (timedRefresh_eq_some hr'))
      exact congrArg some hid

/-- All the seeds. -/
theorem bootstrapInitialPeers_ok (N : Walker) (d : Directory) (seeds : List String) :
    (N.bootstrapInitialPeers d seeds).Ok N d seeds := by
  induction seeds using List.reverseRecOn with
  | nil => exact ⟨rfl, rfl, rfl, rfl, rfl, fun id => by simp [bootstrapInitialPeers],
      fun _ _ _ _ h => absurd h List.not_mem_nil⟩
  | append_singleton seeds endpoint ih =>
    rw [bootstrapInitialPeers, List.foldl_append]
    exact contactSeed_ok endpoint ih

/-! ## The walk -/

/-- What a walk has done, from the seeds it started with; `rest` are the endpoints
    of the level that it has still to ask, and `pending` the entries of a reply
    that it has still to consider. -/
structure Walk.Ok (N : Walker) (d : Directory) (c : Contacts) (rest : List String)
    (pending : List PeerSummary) (w : Walk) : Prop where
  visited : w.visited =
    Firsts.after PeerSummary.instanceId (N.startWalk c).visited w.entries
  refreshed : refreshedEndpoints w.calls =
    refreshedEndpoints c.calls ++ newEndpoints (N.startWalk c).visited w.entries
  discovered : w.totalDiscovered = (learnedEndpoints w.calls).length
  frontier : askedEndpoints w.calls ++ rest ++ w.nextFrontier = learnedEndpoints w.calls
  capped : w.totalDiscovered ≤ max (N.startWalk c).totalDiscovered bootstrapMaxPeers
  listed : w.totalDiscovered < bootstrapMaxPeers →
    listedPeers w.calls = w.entries ++ pending
  filed : N.Filed d w.directory w.calls
  described : N.Described w.calls

variable {seeds : List String} {c : Contacts} {w : Walk} {rest : List String}
  {pending : List PeerSummary} {summary : PeerSummary}

theorem newEndpoints_concat {known : Finset String} {entries : List PeerSummary} :
    newEndpoints known (entries ++ [summary]) = newEndpoints known entries ++
      if summary.instanceId ∈ Firsts.after PeerSummary.instanceId known entries then []
        else summary.endpoint.toList := by
  rw [newEndpoints, Firsts.firsts_concat, List.filterMap_append]
  split
  · rfl
  · cases h : summary.endpoint <;> simp [h, newEndpoints]

/-- The walk starts from the seeds that answered. -/
theorem startWalk_ok (h : c.Ok N d seeds) :
    (N.startWalk c).Ok N d c [] [] := by
  refine ⟨rfl, ?_, ?_, ?_, le_max_left _ _, fun _ => h.listed, h.filed, h.described⟩
  · exact (List.append_nil _).symm
  · rw [startWalk, h.learned, List.length_map, h.answered]
  · rw [startWalk, h.asked, h.learned]
    rfl

/-- An entry more. -/
theorem visit_ok (h : w.Ok N d c rest (summary :: pending)) :
    (N.visit w summary).Ok N d c rest pending := by
  rw [visit]
  split
  · next hcap => exact { h with listed := fun hlt => absurd hcap (not_le_of_gt hlt) }
  next hcap =>
  have hlisted := (h.listed (not_le.1 hcap)).trans (List.append_cons _ _ _)
  simp only
  split
  · next hvisited =>
    -- The id has been mentioned.
    have hafter := h.visited ▸ hvisited
    refine { h with visited := ?_, refreshed := ?_, listed := fun _ => hlisted }
    · rw [Firsts.after_concat, Finset.insert_eq_of_mem hafter, h.visited]
    · rw [newEndpoints_concat, if_pos hafter, List.append_nil, h.refreshed]
  next hvisited =>
  have hafter := h.visited ▸ hvisited
  have hinsert : insert summary.instanceId w.visited = Firsts.after PeerSummary.instanceId
      (N.startWalk c).visited (w.entries ++ [summary]) := by
    rw [Firsts.after_concat, h.visited]
  cases hendpoint : summary.endpoint with
  | none =>
    refine { h with visited := hinsert, refreshed := ?_, listed := fun _ => hlisted }
    rw [newEndpoints_concat, if_neg hafter, hendpoint, Option.toList_none, List.append_nil,
      h.refreshed]
  | some endpoint =>
    have hrefreshed : refreshedEndpoints w.calls ++ [endpoint] = refreshedEndpoints c.calls ++
        newEndpoints (N.startWalk c).visited (w.entries ++ [summary]) := by
      rw [newEndpoints_concat, if_neg hafter, hendpoint, Option.toList_some, ← List.append_assoc,
        h.refreshed]
    simp only
    cases hr : N.timedRefresh w.calls endpoint with
    | none =>
      refine ⟨hinsert, ?_, ?_, ?_, h.capped, fun _ => ?_, h.filed.failed,
        h.described.refreshed fun id hserves => ?_⟩
      · rw [refreshedEndpoints_refreshed, hrefreshed]
      · rw [learnedEndpoints_failed, h.discovered]
      · rw [askedEndpoints_refreshed, learnedEndpoints_failed, h.frontier]
      · rw [listedPeers_refreshed, hlisted]
      · obtain ⟨r, hr', -⟩ := hserves w.calls
        cases hr.symm.trans hr'
    | some r =>
      refine ⟨hinsert, ?_, ?_, ?_, ?_, fun _ => ?_, h.filed.refreshed (timedRefresh_eq_some hr),
        h.described.refreshed fun id hserves => ?_⟩
      · rw [refreshedEndpoints_refreshed, hrefreshed]
      · rw [learnedEndpoints_learned, List.length_append, h.discovered, List.length_singleton]
      · rw [askedEndpoints_refreshed, learnedEndpoints_learned, ← h.frontier]
        exact (List.append_assoc _ _ _).symm
      · exact le_max_of_le_right (not_le.1 hcap)
      · rw [listedPeers_refreshed, hlisted]
      · obtain ⟨r', hr', hid⟩ := hserves w.calls
        obtain rfl := Option.some.inj (hr.symm.trans hr')
        exact congrArg some hid

/-- All the entries of a reply. -/
theorem visits_ok (h : w.Ok N d c rest pending) :
    (pending.foldl N.visit w).Ok N d c rest [] := by
  induction pending generalizing w with
  | nil => exact h
  | cons summary pending ih => exact ih (visit_ok h)

/-- An endpoint of the level more. -/
theorem expand_ok (h : w.Ok N d c (endpoint :: rest) []) :
    (N.expand w endpoint).Ok N d c rest [] := by
  have hfrontier {peers : Option (List PeerSummary)} :
      askedEndpoints (w.calls ++ [.asked endpoint peers]) ++ rest ++ w.nextFrontier =
        learnedEndpoints (w.calls ++ [.asked endpoint peers]) := by
    rw [askedEndpoints_asked, learnedEndpoints_asked, List.append_assoc _ [endpoint],
      List.singleton_append, h.frontier]
  rw [expand]
  split
  · refine { h with
      refreshed := ?_, discovered := ?_, frontier := hfrontier, listed := fun hlt => ?_
      filed := h.filed.asked, described := h.described.asked }
    · rw [refreshedEndpoints_asked, h.refreshed]
    · rw [learnedEndpoints_asked, h.discovered]
    · rw [listedPeers_asked, h.listed hlt]
      exact List.append_nil _
  · refine visits_ok { h with
      refreshed := ?_, discovered := ?_, frontier := hfrontier, listed := fun hlt => ?_
      filed := h.filed.asked, described := h.described.asked }
    · rw [refreshedEndpoints_asked, h.refreshed]
    · rw [learnedEndpoints_asked, h.discovered]
    · rw [listedPeers_asked, h.listed hlt, List.append_nil]
      rfl

/-- The whole level. -/
theorem expands_ok (h : w.Ok N d c rest []) : (rest.foldl N.expand w).Ok N d c [] [] := by
  induction rest generalizing w with
  | nil => exact h
  | cons endpoint rest ih => exact ih (expand_ok h)

/-- All the levels. -/
theorem levels_ok (depth : ℕ) (h : w.Ok N d c [] []) : (N.levels depth w).Ok N d c [] [] := by
  induction depth generalizing w with
  | zero => exact h
  | succ depth ih =>
    rw [levels]
    split
    · exact h
    · refine ih (expands_ok { h with frontier := ?_ })
      rw [List.append_nil, ← h.frontier, List.append_nil]

/-- What the walk has done when it ends. -/
theorem bootstrapTransitive_ok (N : Walker) (d : Directory) (seeds : List String)
    (maxDepth : ℕ) : (N.bootstrapTransitive d seeds maxDepth).2.Ok N d
      (N.bootstrapInitialPeers d seeds) [] [] := by
  have hstart := startWalk_ok (bootstrapInitialPeers_ok N d seeds)
  rw [bootstrapTransitive]
  simp only
  split
  · exact hstart
  · exact levels_ok maxDepth hstart

/-- Only endpoints that were refreshed are asked for their peers. -/
theorem Walk.Ok.asked_sublist (h : w.Ok N d c [] []) :
    (askedEndpoints w.calls).Sublist (learnedEndpoints w.calls) := by
  rw [← h.frontier, List.append_nil]
  exact List.sublist_append_left _ _

theorem startWalk_totalDiscovered (h : c.Ok N d seeds) :
    (N.startWalk c).totalDiscovered ≤ seeds.length := by
  rw [(startWalk_ok h).discovered, ← h.refreshed]
  exact learnedEndpoints_sublist.length_le

end Walker

/-- Whatever the peers answer, a walk ends: it asks no more endpoints than it has
    seeds, or than the cap. It repeats no call, and makes no more refreshes than
    the cap beyond the seeds, if and only if the entries which are the first to
    mention an id come with endpoints that are all different, and different from
    the seeds, and are no more than the cap. -/
theorem bootstrap_bounded (N : Walker) (d : Directory) (seeds : List String) (maxDepth : ℕ) :
    let w := (N.bootstrapTransitive d seeds maxDepth).2
    let fresh := newEndpoints (N.startWalk (N.bootstrapInitialPeers d seeds)).visited w.entries
    (askedEndpoints w.calls).length ≤ max seeds.length bootstrapMaxPeers ∧
      ((refreshedEndpoints w.calls).Nodup ∧ (askedEndpoints w.calls).Nodup ∧
          (refreshedEndpoints w.calls).length ≤ seeds.length + bootstrapMaxPeers ↔
        (seeds ++ fresh).Nodup ∧ fresh.length ≤ bootstrapMaxPeers) := by
  intro w fresh
  have hseeds := Walker.bootstrapInitialPeers_ok N d seeds
  have h := Walker.bootstrapTransitive_ok N d seeds maxDepth
  have hrefreshed : refreshedEndpoints w.calls = seeds ++ fresh := by
    rw [h.refreshed, hseeds.refreshed]
  constructor
  · refine h.asked_sublist.length_le.trans ?_
    rw [← h.discovered]
    exact h.capped.trans (max_le_max (Walker.startWalk_totalDiscovered hseeds) le_rfl)
  · have hasked := h.asked_sublist.trans learnedEndpoints_sublist
    rw [hrefreshed, List.length_append, Nat.add_le_add_iff_left]
    constructor
    · exact fun ⟨hnodup, _, hlength⟩ => ⟨hnodup, hlength⟩
    · exact fun ⟨hnodup, hlength⟩ => ⟨hnodup, (hrefreshed ▸ hnodup).sublist hasked, hlength⟩

/-- An instance that some reply listed, with an endpoint which serves it, is in
    the directory when the walk ends below the cap, if and only if it was there
    already, or an endpoint answered with its descriptor which is a seed, or comes
    with the first entry about some id. The endpoint of the first entry about the
    instance does so, if it serves it. -/
theorem bootstrap_files (N : Walker) (d : Directory) (seeds : List String) (maxDepth : ℕ)
    (id : String) :
    let w := (N.bootstrapTransitive d seeds maxDepth).2
    let fresh := newEndpoints (N.startWalk (N.bootstrapInitialPeers d seeds)).visited
      (listedPeers w.calls)
    ((w.totalDiscovered < bootstrapMaxPeers →
        (∃ e ∈ listedPeers w.calls, e.instanceId = id ∧ ∃ endpoint, e.endpoint = some endpoint ∧
          N.Serves endpoint id) → (w.directory.lookup id).isSome) ↔
      (w.totalDiscovered < bootstrapMaxPeers →
        (∃ e ∈ listedPeers w.calls, e.instanceId = id ∧ ∃ endpoint, e.endpoint = some endpoint ∧
          N.Serves endpoint id) → (d.lookup id).isSome ∨ id ≠ N.id ∧
            ∃ endpoint ∈ seeds ++ fresh, .refreshed endpoint (some id) ∈ w.calls)) ∧
    (w.totalDiscovered < bootstrapMaxPeers → id ≠ N.id →
      (∃ endpoint ∈ seeds ++ fresh, N.Serves endpoint id) → (w.directory.lookup id).isSome) := by
  intro w fresh
  have h := Walker.bootstrapTransitive_ok N d seeds maxDepth
  have hrefreshed (hcap : w.totalDiscovered < bootstrapMaxPeers) :
      refreshedEndpoints w.calls = seeds ++ fresh := by
    have hlisted : listedPeers w.calls = w.entries := (h.listed hcap).trans (List.append_nil _)
    rw [h.refreshed, (Walker.bootstrapInitialPeers_ok N d seeds).refreshed, ← hlisted]
  constructor
  · refine imp_congr_right fun hcap => imp_congr_right fun _ => ?_
    rw [h.filed id, ← hrefreshed hcap]
    refine or_congr_right (and_congr_right fun _ => exists_congr fun endpoint => ?_)
    exact ⟨fun hmem => ⟨List.mem_filterMap.2 ⟨_, hmem, rfl⟩, hmem⟩, And.right⟩
  · rintro hcap hself ⟨endpoint, hmem, hserves⟩
    obtain ⟨id', hcall⟩ := mem_refreshedEndpoints.1 (hrefreshed hcap ▸ hmem)
    obtain rfl := h.described endpoint id hserves id' hcall
    exact (h.filed id).2 (.inr ⟨hself, endpoint, hcall⟩)

/-! ## Two peers -/

/-- Lists of peers reduced to ids and endpoints. -/
def toyPeers : Value → Except String (List PeerSummary)
  | .array xs => .ok (xs.filterMap fun
    | .array [.string id, .string endpoint] => some ⟨id, some endpoint, none⟩
    | .string id => some ⟨id, none, none⟩
    | _ => none)
  | _ => .error "missing field"

/-- A message of this peer, for the node of the examples. -/
def toyReply (peer : Char) (verb : ProtocolVerb) (payload : Value) : SignedMessage :=
  toySigned (asciiBytes [peer])
    ⟨String.ofList ['n', '3', ':', peer], "n3:a", 0, "x", verb, payload, none⟩

def toyDescriptor (id : String) : Value := .object [("instance_id", .string id)]

/-- The seed `m` lists these peers; the peer `v` does not list any. -/
def toyWalker (listed : Value) : Walker where
  crypto := toyCrypto
  wire := toyWire [
    toyReply 'm' .describeSelf (toyDescriptor "n3:m"), toyReply 'm' .getKnownPeers listed,
    toyReply 'v' .describeSelf (toyDescriptor "n3:v"), toyReply 'v' .getKnownPeers (.array [])]
  codec := ⟨toyCodec, toyPeers⟩
  caller := toyCaller
  network := {
    exchange := fun _ verb endpoint =>
      if endpoint = "m" then toyExchange "n3:m" (if verb = .describeSelf then 0 else 1)
      else toyExchange "n3:v" (if verb = .describeSelf then 2 else 3)
    clock := fun _ => 0
    timedOut := fun _ _ _ => false }

/-- The peer `v` answers with its descriptor. -/
theorem toyWalker_serves (listed : Value) (h : ((toyWalker listed).timedRefresh [] "v").map
    (·.descriptor.instanceId) = some "n3:v") : (toyWalker listed).Serves "v" "n3:v" := by
  intro calls
  exact Option.map_eq_some_iff.1 h

/-- The same endpoint is listed under two ids: it is refreshed twice, and asked
    twice for its peers. -/
theorem refreshed_twice :
    let N := toyWalker (.array [.array [.string "n3:v", .string "v"],
      .array [.string "n3:x", .string "v"]])
    let w := (N.bootstrapTransitive ∅ ["m"] 2).2
    refreshedEndpoints w.calls = ["m", "v", "v"] ∧ askedEndpoints w.calls = ["m", "v", "v"] ∧
      ¬(refreshedEndpoints w.calls).Nodup ∧ ¬(askedEndpoints w.calls).Nodup := by
  decide

/-- The first entry about an instance has no endpoint: it is not in the directory
    when the walk ends. -/
theorem starved :
    let N := toyWalker (.array [.string "n3:v", .array [.string "n3:v", .string "v"]])
    let w := (N.bootstrapTransitive ∅ ["m"] 2).2
    listedPeers w.calls = [⟨"n3:v", none, none⟩, ⟨"n3:v", some "v", none⟩] ∧
      N.Serves "v" "n3:v" ∧ w.totalDiscovered < bootstrapMaxPeers ∧
      w.directory.lookup "n3:v" = none := by
  refine ⟨by decide, toyWalker_serves _ ?_, by decide, by decide⟩
  decide

end N3ur0n
