import N3ur0n.Lib.Rows
import N3ur0n.Planner.Plan
import N3ur0n.Planner.Tools

/-!
# The names of the tools

A planner is shown the tools by their names, and the steps it writes are looked up
by them. The name of a tool has only a part of the id of its peer, so that another
peer may come first under it.

* `Catalog.find_toolName`: the first tool of the same short id and capability;
* `resolvesBack_iff`: the tool that is found is of the peer that was listed, exactly
  when no two peers with the same short id have a capability of the same name, and
  the `::` of each name is the first one in it;
* `resolvesBack_of_ids`: so it is with instance ids of different short forms.
-/

namespace N3ur0n

open Cut

/-- `tool_name`: the name that a tool is shown under. -/
def ToolDef.toolName (t : ToolDef) : String := shortPeer t.peerId ++ "::" ++ t.cap.name

/-- A step that writes the pair of a tool has its name. -/
theorem PlanStep.toolName_eq {s : PlanStep} {t : ToolDef}
    (h : (s.peer, s.capability) = (shortPeer t.peerId, t.cap.name)) : s.toolName = t.toolName := by
  rw [toolName, ToolDef.toolName, (Prod.mk.inj h).1, (Prod.mk.inj h).2]

/-- A short id that a `::` can follow: it has none, and does not end with a colon. -/
def Separable (peer : String) : Prop := ¬[':', ':'] <:+: peer.toList ∧ ¬[':'] <:+ peer.toList

instance {peer : String} : Decidable (Separable peer) := inferInstanceAs (Decidable (_ ∧ _))

/-- The short form of an instance id has no colon. -/
theorem separable_shortPeer {id : String} (h : parseInstanceId id = .ok id) :
    Separable (shortPeer id) := by
  obtain ⟨payload, hid, hall⟩ := parseInstanceId_payload h
  have hshort : shortPeer id = String.ofList (payload.take 12) := by
    rw [shortPeer, hid, if_pos (List.isPrefixOf_iff_prefix.2 (List.prefix_append _ _)),
      show idPrefix.length = idPrefix.toList.length from rfl, List.drop_left]
  have hcolon : ':' ∉ (shortPeer id).toList := by
    rw [hshort, String.toList_ofList]
    intro hc
    exact absurd (hall ':' (List.mem_of_mem_take hc)) (by decide)
  exact ⟨fun hpair => hcolon (hpair.subset List.mem_cons_self),
    fun hlast => hcolon (hlast.subset List.mem_cons_self)⟩

namespace Catalog

variable {c : Catalog}

theorem toList_toolName (t : ToolDef) : t.toolName.toList =
    (shortPeer t.peerId).toList ++ ([':', ':'] ++ t.cap.name.toList) := by
  rw [ToolDef.toolName, String.toList_append, String.toList_append, List.append_assoc]
  rfl

/-- What is found by the name of a tool. -/
theorem find_toolName {t : ToolDef} (h : Separable (shortPeer t.peerId)) :
    c.find t.toolName = c.tools.find? fun t' =>
      (shortPeer t'.peerId, t'.cap.name) = (shortPeer t.peerId, t.cap.name) := by
  rw [find, toList_toolName, splitOnce_pair_append.2 h]
  simp only [String.ofList_toList, Prod.mk.injEq]

/-- A tool of the same short id is only found where the name is split after it. -/
theorem separable_of_find {t t' : ToolDef} (h : c.find t.toolName = some t')
    (hshort : shortPeer t'.peerId = shortPeer t.peerId) : Separable (shortPeer t.peerId) := by
  rw [find, toList_toolName] at h
  rcases hsplit : splitOnce [':', ':']
      ((shortPeer t.peerId).toList ++ ([':', ':'] ++ t.cap.name.toList)) with - | ⟨peer, cap⟩
  · rw [hsplit] at h
    cases h
  · rw [hsplit] at h
    have hfound := List.find?_some h
    have hpeer : peer = (shortPeer t.peerId).toList := by
      rw [← hshort, (of_decide_eq_true hfound).1, String.toList_ofList]
    subst hpeer
    have hcap := List.append_cancel_left (List.append_cancel_left (eq_of_splitOnce hsplit))
    exact splitOnce_pair_append.1 (hcap ▸ hsplit)

/-- Every tool is found by its name: one of its peer, with its capability. -/
def ResolvesBack (c : Catalog) : Prop :=
  ∀ t ∈ c.tools, ∃ t', c.find t.toolName = some t' ∧ t'.peerId = t.peerId ∧ t'.cap.name = t.cap.name

/-- Tools of different peers have different short ids, or capabilities of different
    names. -/
def Distinguished (c : Catalog) : Prop :=
  ∀ t ∈ c.tools, ∀ t' ∈ c.tools, shortPeer t.peerId = shortPeer t'.peerId →
    t.cap.name = t'.cap.name → t.peerId = t'.peerId

instance : Decidable c.Distinguished := inferInstanceAs (Decidable (∀ t ∈ c.tools, _))

/-- The tools are some of those of this instance and of its peers. -/
def BuiltFrom (D : DescriptorReader) (selfId : String) (R : CapabilityRegistry)
    (peers : List PeerRecord) (c : Catalog) : Prop :=
  ∃ tools ⊆ buildTools D selfId R peers, c.tools = tools.map (·.toToolDef)

/-- The tools of a catalogue are found by their names, exactly if these tell the
    peers apart and are split where they were put together. -/
theorem resolvesBack_iff (c : Catalog) :
    c.ResolvesBack ↔ c.Distinguished ∧ ∀ t ∈ c.tools, Separable (shortPeer t.peerId) := by
  have hname (hsep : ∀ t ∈ c.tools, Separable (shortPeer t.peerId)) :
      c.ResolvesBack ↔ ∀ t ∈ c.tools, ∃ t',
        (c.tools.find? fun t' => (shortPeer t'.peerId, t'.cap.name) =
          (shortPeer t.peerId, t.cap.name)) = some t' ∧
        (t'.peerId, t'.cap.name) = (t.peerId, t.cap.name) := by
    simp only [ResolvesBack, Prod.mk.injEq]
    refine forall₂_congr fun t ht => ?_
    rw [find_toolName (hsep t ht)]
    simp only [Prod.mk.injEq]
  have hsep (h : c.ResolvesBack) : ∀ t ∈ c.tools, Separable (shortPeer t.peerId) := by
    intro t ht
    obtain ⟨t', hfound, hpeer, -⟩ := h t ht
    exact separable_of_find hfound (congrArg shortPeer hpeer)
  rw [← and_iff_left_of_imp hsep]
  refine and_congr_left fun hsep => ?_
  rw [hname hsep, Rows.find?_key_iff fun t : ToolDef => (t.peerId, t.cap.name)]
  constructor
  · intro h t ht t' ht' hshort hcap
    exact congrArg Prod.fst (h t ht t' ht' (Prod.mk.injEq _ _ _ _ ▸ ⟨hshort, hcap⟩))
  · intro h t ht t' ht' hkey
    obtain ⟨hshort, hcap⟩ := Prod.mk.inj hkey
    rw [h t ht t' ht' hshort hcap, hcap]

section

variable {D : DescriptorReader} {selfId : String} {R : CapabilityRegistry} {peers : List PeerRecord}

theorem peerId_of_mem_buildTools {t : DeclaredTool} (h : t ∈ buildTools D selfId R peers) :
    t.peerId ∈ selfId :: peers.map (·.id) := by
  rcases List.mem_append.1 h with h | h
  · obtain ⟨cap, -, rfl⟩ := List.mem_map.1 h
    exact List.mem_cons_self
  · obtain ⟨record, hrecord, h⟩ := List.mem_flatMap.1 h
    rw [peerTools] at h
    split at h
    · cases h
    · obtain ⟨cap, -, rfl⟩ := List.mem_map.1 h
      exact List.mem_cons_of_mem _ (List.mem_map_of_mem hrecord)

/-- So they are where the instances have ids that are well formed, and no two of these
    begin with the same characters. -/
theorem resolvesBack_of_ids (hbuilt : c.BuiltFrom D selfId R peers)
    (hids : ∀ id ∈ selfId :: peers.map (·.id), parseInstanceId id = .ok id)
    (hinj : Set.InjOn shortPeer {id | id ∈ selfId :: peers.map (·.id)}) : c.ResolvesBack := by
  obtain ⟨tools, hsub, htools⟩ := hbuilt
  have hmem : ∀ t ∈ c.tools, t.peerId ∈ selfId :: peers.map (·.id) := by
    rw [htools, List.forall_mem_map]
    exact fun t ht => peerId_of_mem_buildTools (hsub ht)
  exact c.resolvesBack_iff.2 ⟨fun t ht t' ht' hshort _ => hinj (hmem t ht) (hmem t' ht') hshort,
    fun t ht => separable_shortPeer (hids _ (hmem t ht))⟩

end

end Catalog

/-! ## Two peers of the same short id -/

/-- A descriptor has one capability, whose name is its text. -/
def textReader : DescriptorReader where
  parse s := some (.object [("capabilities", .array [.string s])])
  decl
    | .string s => some (plainCap s)
    | _ => none

def describedRow (id descriptor : String) : PeerRecord :=
  ⟨id, "http://h", none, none, none, some descriptor, none, none⟩

def noCapabilities : CapabilityRegistry := ⟨[], List.nodup_nil⟩

/-- The catalogue of an instance with two peers, which it builds. -/
def catalogOf (id cap id' cap' : String) : Catalog :=
  ⟨(buildTools textReader "n3:self" noCapabilities
    [describedRow id cap, describedRow id' cap']).map (·.toToolDef)⟩

/-- Of two peers with the same short id, the second one is not found. -/
theorem not_resolvesBack :
    ["n3:self", "n3:aaaaaaaaaaaa1", "n3:aaaaaaaaaaaa2"].Nodup ∧
      (∀ id ∈ ["n3:self", "n3:aaaaaaaaaaaa1", "n3:aaaaaaaaaaaa2"], parseInstanceId id = .ok id) ∧
      ¬(catalogOf "n3:aaaaaaaaaaaa1" "x" "n3:aaaaaaaaaaaa2" "x").ResolvesBack := by
  refine ⟨by decide, by decide, fun h => ?_⟩
  obtain ⟨t', ht', hpeer, -⟩ := h
    ⟨"n3:aaaaaaaaaaaa2", some "http://h", (plainCap "x").toCapabilityDecl⟩ (by decide)
  have hfound := congrArg (Option.map (·.peerId)) ht'
  rw [Option.map_some, hpeer] at hfound
  exact absurd hfound (by decide)

end N3ur0n
