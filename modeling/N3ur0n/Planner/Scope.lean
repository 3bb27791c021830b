import N3ur0n.Planner.Mention
import N3ur0n.Planner.Tools

/-!
# The scope of a message

The mentions of a message restrict the catalogue before it is ranked. They are
first looked up, each of its kind: the peers in the directory, the lobes and the
capabilities in the catalogue. A message with a mention that is not found is
refused. The tools that are kept are then of one of the peers, of one of the
lobes, and of one of the capabilities, of each of these of which there is any:
which of them were written together is not known any more.

* `scopeCatalog`: the catalogue that is handed to the ranking;
* `Mention.Asks`: what one mention asks for;
* `honoured_iff`: the scope is honoured exactly when no tool mixes what several
  mentions write, and every mention asks for a tool that the others allow.
-/

namespace N3ur0n

open Cut

/-! ## Looking up -/

namespace Directory

/-- A fragment of an id, without its prefix. -/
def idBody (key : String) : String :=
  if idPrefix.toList.isPrefixOf key.toList
  then String.ofList (key.toList.drop idPrefix.length) else key

/-- `find_by_id_prefix`: the first rows whose id starts with the fragment, if it is one. -/
def findByIdPrefix (d : Directory) (key : String) (limit : ℕ) : List PeerRecord :=
  let body := (idBody key).toList
  if body = [] ∨ ¬body.all fun c => c.isLower || c.isDigit then []
  else
    ((d.keys.filter fun id => (idPrefix.toList ++ body).isPrefixOf id.toList).inOrder.take
      limit).filterMap d.lookup

end Directory

/-- The part of a mention of a peer that matters: what is after the last `#`. -/
def mentionKey (entity : String) : String :=
  String.ofList (entity.toList.rtakeWhile (· ≠ '#'))

/-- The peer that a mention names: this instance, or the only one of the directory. -/
def resolvePeer (selfId : String) (d : Directory) (entity : String) : Option String :=
  if entity.toList.map Char.toLower = "self".toList then some selfId
  else
    let key := mentionKey entity
    if selfId = key ∨ idPrefix.toList.isPrefixOf selfId.toList ∧ 8 ≤ key.utf8ByteSize ∧
        key.toList.isPrefixOf (selfId.toList.drop idPrefix.length) then some selfId
    else if 8 ≤ key.utf8ByteSize ∨ idPrefix.toList.isPrefixOf key.toList then
      match d.findByIdPrefix key 2 with
      | [record] => some record.id
      | _ => none
    else none

structure ResolvedScope where
  peerIds : List String
  lobes : List String
  capabilities : List String
  unresolved : List String

/-- Names are looked up one after the other: what is found, once each, and the mentions
    of those that are not. -/
def resolveEach (find : String → Option String) (before : String) (names : List String) :
    List String × List String :=
  names.foldl (fun (found, unresolved) name =>
    match find name with
    | some x => (pushUnique found x, unresolved)
    | none => (found, unresolved ++ [before ++ name])) ([], [])

def resolveScope (selfId : String) (d : Directory) (tools : List DeclaredTool)
    (scope : MentionScope) : ResolvedScope :=
  let peers := resolveEach (resolvePeer selfId d) "@peer:" scope.peers
  let lobes := resolveEach
    (fun lobe => if ∃ t ∈ tools, lobe ∈ t.cap.lobeIds then some lobe else none) "@lobe:" scope.lobes
  let capabilities := resolveEach
    (fun cap => if ∃ t ∈ tools, t.cap.name = cap then some cap else none) "@cap:" scope.capabilities
  ⟨peers.1, lobes.1, capabilities.1, peers.2 ++ lobes.2 ++ capabilities.2⟩

def ResolvedScope.narrows (scope : ResolvedScope) : Bool :=
  ¬scope.peerIds.isEmpty ∨ ¬scope.lobes.isEmpty ∨ ¬scope.capabilities.isEmpty

/-- `scoped_to`: a list that is empty restricts nothing. -/
def scopedTo (tools : List DeclaredTool) (peerIds lobes capabilities : List String) :
    List DeclaredTool :=
  if peerIds = [] ∧ lobes = [] ∧ capabilities = [] then tools
  else tools.filter fun t =>
    (peerIds = [] ∨ t.peerId ∈ peerIds) ∧
    (lobes = [] ∨ ∃ lobe ∈ t.cap.lobeIds, lobe ∈ lobes) ∧
    (capabilities = [] ∨ t.cap.name ∈ capabilities)

/-- The catalogue that a message is dispatched with, unless it is refused, with the
    mentions that were not found. -/
def scopeCatalog (selfId : String) (d : Directory) (tools : List DeclaredTool) (text : String) :
    Except (List String) (List DeclaredTool) :=
  let scope := MentionScope.ofText text
  if scope.isEmpty then .ok tools
  else
    let resolved := resolveScope selfId d tools scope
    let narrowed := if resolved.narrows
      then scopedTo tools resolved.peerIds resolved.lobes resolved.capabilities else tools
    if resolved.unresolved = [] then .ok narrowed else .error resolved.unresolved

/-! ## What the mentions ask for -/

/-- The mentions that restrict something. -/
def scopeMentions (text : String) : List Mention :=
  (parseMentions text).filter (·.kind ≠ .file)

section

variable (selfId : String) (d : Directory)

namespace Mention

/-- It writes the peer of a tool. -/
def NamesPeer (m : Mention) (t : DeclaredTool) : Prop :=
  m.kind = .peer ∧ resolvePeer selfId d m.entity = some t.peerId

/-- It writes a lobe of the tool. -/
def NamesLobe (m : Mention) (t : DeclaredTool) : Prop :=
  m.kind = .lobe ∧ m.entity ∈ t.cap.lobeIds

/-- It writes the capability of the tool. -/
def NamesCap (m : Mention) (t : DeclaredTool) : Prop := m.cap? = some t.cap.name

/-- It asks for the tool: the tool is of the peer, the lobe and the capability that it
    writes. -/
structure Asks (m : Mention) (t : DeclaredTool) : Prop where
  peer : m.kind = .peer → m.NamesPeer selfId d t
  lobe : m.kind = .lobe → m.NamesLobe t
  cap : m.cap?.isSome → m.NamesCap t

end Mention

/-- Every mention names something that is there. -/
def Resolves (tools : List DeclaredTool) (m : Mention) : Prop :=
  (m.kind = .peer → (resolvePeer selfId d m.entity).isSome) ∧
  (m.kind = .lobe → ∃ t ∈ tools, m.entity ∈ t.cap.lobeIds) ∧
  ∀ cap, m.cap? = some cap → ∃ t ∈ tools, t.cap.name = cap

/-- The peer, a lobe and the capability of the tool are written, each of them by some
    mention, unless no mention writes any. -/
structure Allowed (ms : List Mention) (t : DeclaredTool) : Prop where
  peer : (∃ m ∈ ms, m.kind = .peer) → ∃ m ∈ ms, m.NamesPeer selfId d t
  lobe : (∃ m ∈ ms, m.kind = .lobe) → ∃ m ∈ ms, m.NamesLobe t
  cap : (∃ m ∈ ms, m.cap?.isSome) → ∃ m ∈ ms, m.NamesCap t

/-- What the claim of a scope is: the tools that are handed on are asked for, every
    mention is satisfied, pairs of a peer and a capability are taken as such, and
    there is something to answer from. -/
structure Honoured (ms : List Mention) (tools handed : List DeclaredTool) : Prop where
  only : ∀ t ∈ handed, ∃ m ∈ ms, m.Asks selfId d t
  every : ∀ m ∈ ms, ∃ t ∈ handed, m.Asks selfId d t
  pairs : (∀ m ∈ ms, m.kind = .peer ∧ m.capability.isSome) →
    ∀ t ∈ tools, t ∈ handed ↔ ∃ m ∈ ms, m.Asks selfId d t
  nonempty : handed ≠ []

/-- A message that is not refused has its scope honoured, if it has one. -/
def HonoursScope (tools : List DeclaredTool) (text : String) : Prop :=
  ∀ handed, scopeCatalog selfId d tools text = .ok handed →
    if scopeMentions text = [] then handed = tools
    else Honoured selfId d (scopeMentions text) tools handed

/-- No tool mixes what different mentions write, unless one of them asks for it, and
    every mention asks for a tool that the others allow. -/
structure Compatible (ms : List Mention) (tools : List DeclaredTool) : Prop where
  unmixed : ∀ t ∈ tools, Allowed selfId d ms t → ∃ m ∈ ms, m.Asks selfId d t
  reachable : ∀ m ∈ ms, ∃ t ∈ tools, m.Asks selfId d t ∧ Allowed selfId d ms t

end

/-! ## What is found -/

section

variable {selfId : String} {d : Directory} {tools handed : List DeclaredTool} {text : String}
  {find : String → Option String} {before : String} {names : List String} {x : String}

theorem mem_resolveEach : x ∈ (resolveEach find before names).1 ↔
    ∃ name ∈ names, find name = some x := by
  suffices h : ∀ acc : List String × List String, x ∈ (names.foldl (fun (found, unresolved) name =>
      match find name with
      | some x => (pushUnique found x, unresolved)
      | none => (found, unresolved ++ [before ++ name])) acc).1 ↔
        x ∈ acc.1 ∨ ∃ name ∈ names, find name = some x from
    (h ([], [])).trans (or_iff_right List.not_mem_nil)
  induction names with
  | nil => simp
  | cons name names ih =>
    intro acc
    rw [List.foldl_cons, ih, List.exists_mem_cons_iff]
    rcases hfind : find name with _ | y
    · simp
    · simp [mem_pushUnique, or_assoc, eq_comm]

theorem resolveEach_unresolved : (resolveEach find before names).2 = [] ↔
    ∀ name ∈ names, (find name).isSome := by
  suffices h : ∀ acc : List String × List String, (names.foldl (fun (found, unresolved) name =>
      match find name with
      | some x => (pushUnique found x, unresolved)
      | none => (found, unresolved ++ [before ++ name])) acc).2 = [] ↔
        acc.2 = [] ∧ ∀ name ∈ names, (find name).isSome from
    (h ([], [])).trans (and_iff_right rfl)
  induction names with
  | nil => simp
  | cons name names ih =>
    intro acc
    rw [List.foldl_cons, ih, List.forall_mem_cons]
    rcases hfind : find name with _ | y
    · simp
    · simp

/-- When everything is found, something is, if there was anything to look up. -/
theorem resolveEach_ne_nil (h : ∀ name ∈ names, (find name).isSome) :
    (resolveEach find before names).1 ≠ [] ↔ ∃ name, name ∈ names := by
  constructor
  · intro hne
    obtain ⟨x, hx⟩ := List.exists_mem_of_ne_nil _ hne
    obtain ⟨name, hname, -⟩ := mem_resolveEach.1 hx
    exact ⟨name, hname⟩
  · rintro ⟨name, hname⟩
    obtain ⟨x, hx⟩ := Option.isSome_iff_exists.1 (h name hname)
    exact List.ne_nil_of_mem (mem_resolveEach.2 ⟨name, hname, hx⟩)

/-- The names that are looked up among others, when all of them are there. -/
theorem mem_resolveEach_guard {p : String → Prop} [DecidablePred p]
    (h : ∀ name ∈ names, (if p name then some name else none).isSome) :
    x ∈ (resolveEach (fun name => if p name then some name else none) before names).1 ↔
      x ∈ names := by
  have hp : ∀ name ∈ names, p name := fun name hname => by
    by_contra hnot
    exact absurd (h name hname) (by rw [if_neg hnot]; exact Bool.false_ne_true)
  rw [mem_resolveEach]
  constructor
  · rintro ⟨name, hname, hx⟩
    rw [if_pos (hp name hname)] at hx
    exact Option.some.inj hx ▸ hname
  · exact fun hx => ⟨x, hx, if_pos (hp x hx)⟩

/-! ## The mentions behind a scope -/

theorem Mention.kind_ne_file {m : Mention} (h : m.cap?.isSome) : m.kind ≠ .file := by
  intro hfile
  rw [Mention.cap?, if_neg (by rw [hfile]; decide)] at h
  rcases m.descends h with hkind | hkind
  · exact absurd (hfile.symm.trans hkind) (by decide)
  · exact absurd (hfile.symm.trans hkind) (by decide)

theorem exists_scopeMention {p : Mention → Prop} (hp : ∀ m, p m → m.kind ≠ .file) :
    (∃ m ∈ scopeMentions text, p m) ↔ ∃ m ∈ parseMentions text, p m := by
  constructor
  · rintro ⟨m, hm, h⟩
    exact ⟨m, List.mem_of_mem_filter hm, h⟩
  · rintro ⟨m, hm, h⟩
    exact ⟨m, List.mem_filter.2 ⟨hm, decide_eq_true (hp m h)⟩, h⟩

theorem mem_peers_ofText : x ∈ (MentionScope.ofText text).peers ↔
    ∃ m ∈ scopeMentions text, m.kind = .peer ∧ m.entity = x := by
  rw [MentionScope.ofText, MentionScope.mem_peers, exists_scopeMention]
  rintro m ⟨hkind, -⟩
  rw [hkind]
  decide

theorem mem_lobes_ofText : x ∈ (MentionScope.ofText text).lobes ↔
    ∃ m ∈ scopeMentions text, m.kind = .lobe ∧ m.entity = x := by
  rw [MentionScope.ofText, MentionScope.mem_lobes, exists_scopeMention]
  rintro m ⟨hkind, -⟩
  rw [hkind]
  decide

theorem mem_capabilities_ofText : x ∈ (MentionScope.ofText text).capabilities ↔
    ∃ m ∈ scopeMentions text, m.cap? = some x := by
  rw [MentionScope.ofText, MentionScope.mem_capabilities, exists_scopeMention]
  exact fun m hm => m.kind_ne_file (Option.isSome_of_eq_some hm)

theorem isEmpty_ofText : (MentionScope.ofText text).isEmpty ↔ scopeMentions text = [] := by
  simp only [MentionScope.isEmpty, List.isEmpty_iff, decide_eq_true_eq,
    List.eq_nil_iff_forall_not_mem, mem_peers_ofText, mem_lobes_ofText, mem_capabilities_ofText]
  constructor
  · rintro ⟨hpeers, hlobes, hcaps⟩ m hm
    rcases hkind : m.kind
    · exact of_decide_eq_true (List.mem_filter.1 hm).2 hkind
    · exact hpeers _ ⟨m, hm, hkind, rfl⟩
    · exact hlobes _ ⟨m, hm, hkind, rfl⟩
    · exact hcaps _ ⟨m, hm, if_pos hkind⟩
  · intro hnone
    exact ⟨fun _ ⟨m, hm, _⟩ => hnone m hm, fun _ ⟨m, hm, _⟩ => hnone m hm,
      fun _ ⟨m, hm, _⟩ => hnone m hm⟩

theorem unresolved_iff :
    (resolveScope selfId d tools (MentionScope.ofText text)).unresolved = [] ↔
      ∀ m ∈ scopeMentions text, Resolves selfId d tools m := by
  have hsome {p : Prop} [Decidable p] {x : String} : (if p then some x else none).isSome ↔ p := by
    split_ifs with h <;> simp [h]
  simp only [resolveScope, List.append_eq_nil_iff, resolveEach_unresolved, mem_peers_ofText,
    mem_lobes_ofText, mem_capabilities_ofText, hsome, and_assoc]
  constructor
  · rintro ⟨hpeers, hlobes, hcaps⟩ m hm
    exact ⟨fun hkind => hpeers _ ⟨m, hm, hkind, rfl⟩, fun hkind => hlobes _ ⟨m, hm, hkind, rfl⟩,
      fun cap hcap => hcaps cap ⟨m, hm, hcap⟩⟩
  · intro h
    refine ⟨?_, ?_, ?_⟩
    · rintro _ ⟨m, hm, hkind, rfl⟩
      exact (h m hm).1 hkind
    · rintro _ ⟨m, hm, hkind, rfl⟩
      exact (h m hm).2.1 hkind
    · rintro cap ⟨m, hm, hcap⟩
      exact (h m hm).2.2 cap hcap

theorem mem_scopedTo {peerIds lobes capabilities : List String} {t : DeclaredTool} :
    t ∈ scopedTo tools peerIds lobes capabilities ↔ t ∈ tools ∧
      (peerIds ≠ [] → t.peerId ∈ peerIds) ∧ (lobes ≠ [] → ∃ lobe ∈ t.cap.lobeIds, lobe ∈ lobes) ∧
      (capabilities ≠ [] → t.cap.name ∈ capabilities) := by
  rw [scopedTo]
  split_ifs with h
  · obtain ⟨rfl, rfl, rfl⟩ := h
    simp
  · rw [List.mem_filter]
    simp only [decide_eq_true_eq, or_iff_not_imp_left, ne_eq]

theorem scopedTo_of_not_narrows {r : ResolvedScope} (h : ¬r.narrows) :
    scopedTo tools r.peerIds r.lobes r.capabilities = tools := by
  simp only [ResolvedScope.narrows, List.isEmpty_iff, decide_eq_true_eq, not_or, not_not] at h
  exact if_pos h

/-- When every mention is found, the tools that are kept are those that are allowed. -/
theorem mem_scopedTo_resolved
    (hresolves : ∀ m ∈ scopeMentions text, Resolves selfId d tools m) {t : DeclaredTool} :
    let r := resolveScope selfId d tools (MentionScope.ofText text)
    t ∈ scopedTo tools r.peerIds r.lobes r.capabilities ↔
      t ∈ tools ∧ Allowed selfId d (scopeMentions text) t := by
  intro r
  have hunresolved := unresolved_iff.2 hresolves
  simp only [resolveScope, List.append_eq_nil_iff, resolveEach_unresolved] at hunresolved
  obtain ⟨⟨hpeers, hlobes⟩, hcaps⟩ := hunresolved
  -- each list narrows exactly if the text has a mention of its kind
  have hpeer : (r.peerIds ≠ [] → t.peerId ∈ r.peerIds) ↔
      ((∃ m ∈ scopeMentions text, m.kind = .peer) →
        ∃ m ∈ scopeMentions text, m.NamesPeer selfId d t) := by
    refine imp_congr ((resolveEach_ne_nil hpeers).trans ?_) (mem_resolveEach.trans ?_)
    · simp only [mem_peers_ofText]
      exact ⟨fun ⟨_, m, hm, hkind, _⟩ => ⟨m, hm, hkind⟩,
        fun ⟨m, hm, hkind⟩ => ⟨_, m, hm, hkind, rfl⟩⟩
    · simp only [mem_peers_ofText]
      constructor
      · rintro ⟨_, ⟨m, hm, hkind, rfl⟩, h⟩
        exact ⟨m, hm, hkind, h⟩
      · rintro ⟨m, hm, hkind, h⟩
        exact ⟨_, ⟨m, hm, hkind, rfl⟩, h⟩
  have hlobe : (r.lobes ≠ [] → ∃ lobe ∈ t.cap.lobeIds, lobe ∈ r.lobes) ↔
      ((∃ m ∈ scopeMentions text, m.kind = .lobe) →
        ∃ m ∈ scopeMentions text, m.NamesLobe t) := by
    have hmem {x : String} : x ∈ r.lobes ↔ ∃ m ∈ scopeMentions text, m.kind = .lobe ∧ m.entity = x :=
      (mem_resolveEach_guard hlobes).trans mem_lobes_ofText
    refine imp_congr ((resolveEach_ne_nil hlobes).trans ?_) ?_
    · simp only [mem_lobes_ofText]
      exact ⟨fun ⟨_, m, hm, hkind, _⟩ => ⟨m, hm, hkind⟩,
        fun ⟨m, hm, hkind⟩ => ⟨_, m, hm, hkind, rfl⟩⟩
    · simp only [hmem]
      constructor
      · rintro ⟨_, ht, m, hm, hkind, rfl⟩
        exact ⟨m, hm, hkind, ht⟩
      · rintro ⟨m, hm, hkind, ht⟩
        exact ⟨_, ht, m, hm, hkind, rfl⟩
  have hcap : (r.capabilities ≠ [] → t.cap.name ∈ r.capabilities) ↔
      ((∃ m ∈ scopeMentions text, m.cap?.isSome) → ∃ m ∈ scopeMentions text, m.NamesCap t) := by
    refine imp_congr ((resolveEach_ne_nil hcaps).trans ?_)
      ((mem_resolveEach_guard hcaps).trans mem_capabilities_ofText)
    simp only [mem_capabilities_ofText]
    constructor
    · rintro ⟨_, m, hm, hcap⟩
      exact ⟨m, hm, Option.isSome_of_eq_some hcap⟩
    · rintro ⟨m, hm, hcap⟩
      obtain ⟨cap, hcap⟩ := Option.isSome_iff_exists.1 hcap
      exact ⟨cap, m, hm, hcap⟩
  rw [mem_scopedTo, hpeer, hlobe, hcap]
  exact and_congr_right fun _ => ⟨fun h => ⟨h.1, h.2.1, h.2.2⟩, fun h => ⟨h.peer, h.lobe, h.cap⟩⟩

theorem scopeCatalog_eq (hne : scopeMentions text ≠ []) :
    scopeCatalog selfId d tools text =
      let r := resolveScope selfId d tools (MentionScope.ofText text)
      if r.unresolved = [] then .ok (scopedTo tools r.peerIds r.lobes r.capabilities)
      else .error r.unresolved := by
  rw [scopeCatalog]
  simp only
  rw [if_neg fun h => hne (isEmpty_ofText.1 h)]
  have hnarrow (r : ResolvedScope) : (if r.narrows then
      scopedTo tools r.peerIds r.lobes r.capabilities else tools) =
        scopedTo tools r.peerIds r.lobes r.capabilities := by
    split_ifs with h
    · rfl
    · exact (scopedTo_of_not_narrows h).symm
  rw [hnarrow]

/-- A message is refused when something is not found, and only then. -/
theorem scopeCatalog_cases (selfId : String) (d : Directory) (tools : List DeclaredTool)
    (text : String) :
    (scopeMentions text = [] ∧ scopeCatalog selfId d tools text = .ok tools) ∨
    (scopeMentions text ≠ [] ∧ (¬∀ m ∈ scopeMentions text, Resolves selfId d tools m) ∧
      ∃ e, scopeCatalog selfId d tools text = .error e) ∨
    (scopeMentions text ≠ [] ∧ (∀ m ∈ scopeMentions text, Resolves selfId d tools m) ∧
      ∃ handed, scopeCatalog selfId d tools text = .ok handed ∧
        ∀ t, t ∈ handed ↔ t ∈ tools ∧ Allowed selfId d (scopeMentions text) t) := by
  by_cases hne : scopeMentions text = []
  · exact .inl ⟨hne, if_pos (isEmpty_ofText.2 hne)⟩
  · rw [scopeCatalog_eq hne]
    by_cases hresolves : ∀ m ∈ scopeMentions text, Resolves selfId d tools m
    · exact .inr (.inr ⟨hne, hresolves, _, if_pos (unresolved_iff.2 hresolves),
        fun t => mem_scopedTo_resolved hresolves⟩)
    · exact .inr (.inl ⟨hne, hresolves, _, if_neg fun h => hresolves (unresolved_iff.1 h)⟩)

theorem Mention.Asks.allowed {ms : List Mention} {m : Mention} {t : DeclaredTool}
    (h : m.Asks selfId d t) (hm : m ∈ ms)
    (hpairs : ∀ m ∈ ms, m.kind = .peer ∧ m.capability.isSome) : Allowed selfId d ms t where
  peer _ := ⟨m, hm, h.peer (hpairs m hm).1⟩
  lobe := by
    rintro ⟨m', hm', hkind⟩
    exact absurd ((hpairs m' hm').1.symm.trans hkind) (by decide)
  cap _ := by
    refine ⟨m, hm, h.cap ?_⟩
    rw [Mention.cap?, if_neg (by rw [(hpairs m hm).1]; decide)]
    exact (hpairs m hm).2

/-- The scope of a message is honoured if and only if it has none, or a mention is not
    found, or no tool mixes what different mentions write and each of them asks for a
    tool that the others allow. -/
theorem honoursScope_iff (selfId : String) (d : Directory) (tools : List DeclaredTool)
    (text : String) :
    HonoursScope selfId d tools text ↔ scopeMentions text = [] ∨
      (¬∀ m ∈ scopeMentions text, Resolves selfId d tools m) ∨
      Compatible selfId d (scopeMentions text) tools := by
  rw [HonoursScope]
  rcases scopeCatalog_cases selfId d tools text with ⟨hnone, h⟩ | ⟨-, hnot, e, h⟩ |
    ⟨hne, hresolves, handed, h, hmem⟩
  · refine iff_of_true (fun handed hok => ?_) (.inl hnone)
    rw [if_pos hnone]
    exact (Except.ok.inj (h.symm.trans hok)).symm
  · refine iff_of_true (fun handed hok => ?_) (.inr (.inl hnot))
    rw [h] at hok
    cases hok
  · rw [or_iff_right hne, or_iff_right (not_not.2 hresolves), h]
    simp only [Except.ok.injEq, forall_eq', if_neg hne]
    constructor
    · intro hh
      refine ⟨fun t ht hallowed => hh.only t ((hmem t).2 ⟨ht, hallowed⟩), fun m hm => ?_⟩
      obtain ⟨t, ht, hasks⟩ := hh.every m hm
      obtain ⟨ht, hallowed⟩ := (hmem t).1 ht
      exact ⟨t, ht, hasks, hallowed⟩
    · intro hc
      have honly : ∀ t ∈ handed, ∃ m ∈ scopeMentions text, m.Asks selfId d t := fun t ht =>
        hc.unmixed t ((hmem t).1 ht).1 ((hmem t).1 ht).2
      have hevery : ∀ m ∈ scopeMentions text, ∃ t ∈ handed, m.Asks selfId d t := fun m hm => by
        obtain ⟨t, ht, hasks, hallowed⟩ := hc.reachable m hm
        exact ⟨t, (hmem t).2 ⟨ht, hallowed⟩, hasks⟩
      refine ⟨honly, hevery, fun hpairs t ht => ⟨honly t, ?_⟩, ?_⟩
      · rintro ⟨m, hm, hasks⟩
        exact (hmem t).2 ⟨ht, hasks.allowed hm hpairs⟩
      · obtain ⟨m, hm⟩ := List.exists_mem_of_ne_nil _ hne
        obtain ⟨t, ht, -⟩ := hevery m hm
        exact List.ne_nil_of_mem ht

end

/-! ## Two peers -/

def peerRow (id : String) : PeerRecord :=
  ⟨id, "http://h", none, none, none, none, none, none⟩

def twoPeers : Directory :=
  ((∅ : Directory).insert "n3:aaaaaaaa" (peerRow "n3:aaaaaaaa")).insert "n3:bbbbbbbb"
    (peerRow "n3:bbbbbbbb")

def toolOf (id cap : String) : DeclaredTool := ⟨id, some "http://h", plainCap cap⟩

/-- The first peer has both capabilities, the second one of them. -/
def threeTools : List DeclaredTool :=
  [toolOf "n3:aaaaaaaa" "x", toolOf "n3:aaaaaaaa" "y", toolOf "n3:bbbbbbbb" "y"]

def twoPairs : String := "@peer:aaaaaaaa/x @peer:bbbbbbbb/y"

/-- Two pairs are written: a third one is kept. A pair that there is not leaves no tool,
    and the message is not refused. -/
theorem scope_mixed :
    scopeCatalog "n3:selfself" twoPeers threeTools twoPairs = .ok threeTools ∧
    ¬HonoursScope "n3:selfself" twoPeers threeTools twoPairs ∧
    scopeCatalog "n3:selfself" twoPeers [toolOf "n3:aaaaaaaa" "y", toolOf "n3:bbbbbbbb" "x"]
      "@peer:bbbbbbbb/y" = .ok [] := by
  have hhanded : scopeCatalog "n3:selfself" twoPeers threeTools twoPairs = .ok threeTools := by
    decide +kernel
  have hne : scopeMentions twoPairs ≠ [] := by decide +kernel
  have hpairs : ∀ m ∈ scopeMentions twoPairs, m.kind = .peer ∧ m.cap?.isSome := by decide +kernel
  have hnone : ∀ m ∈ scopeMentions twoPairs,
      ¬(resolvePeer "n3:selfself" twoPeers m.entity = some "n3:aaaaaaaa" ∧ m.cap? = some "y") := by
    decide +kernel
  refine ⟨hhanded, fun h => ?_, by decide +kernel⟩
  have hhonoured := h threeTools hhanded
  rw [if_neg hne] at hhonoured
  obtain ⟨m, hm, hasks⟩ := hhonoured.only (toolOf "n3:aaaaaaaa" "y")
    (List.mem_cons_of_mem _ List.mem_cons_self)
  obtain ⟨hkind, hcap⟩ := hpairs m hm
  exact hnone m hm ⟨(hasks.peer hkind).2, hasks.cap hcap⟩

end N3ur0n
