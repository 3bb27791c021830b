import N3ur0n.Planner.Scope

/-!
# A mention of a peer

A mention of a peer binds by the fragment of an id that it writes: to this instance
if its own id fits, or to the only instance of the directory whose id does.

* `Directory.findByIdPrefix_eq_singleton`: when one row is found;
* `peersBind_iff`: a fragment binds to the only instance it fits, or is reported,
  exactly when the directory has no other id that fits when the own one is taken,
  and a fragment written with `n3:` is not too short, nor a part of the own id.
-/

namespace N3ur0n

/-! ## Fragments -/

/-- What stands for other characters in a pattern of the database. -/
def wildcards : List Char := ['*', '?', '[']

/-- The id starts with the fragment, which may leave out the prefix. -/
def Fits (key id : String) : Prop :=
  (idPrefix.toList ++ (Directory.idBody key).toList).isPrefixOf id.toList

instance (key id : String) : Decidable (Fits key id) := inferInstanceAs (Decidable (_ = true))

theorem fits_of_written {key id : String} (h : idPrefix.toList.isPrefixOf key.toList) :
    Fits key id ↔ key.toList <+: id.toList := by
  obtain ⟨body, hbody⟩ := List.isPrefixOf_iff_prefix.1 h
  rw [Fits, Directory.idBody, if_pos h, String.toList_ofList, List.isPrefixOf_iff_prefix, ← hbody,
    show idPrefix.length = idPrefix.toList.length from rfl, List.drop_left]

theorem fits_of_not_written {key id : String} (h : ¬idPrefix.toList.isPrefixOf key.toList) :
    Fits key id ↔ idPrefix.toList ++ key.toList <+: id.toList := by
  rw [Fits, Directory.idBody, if_neg h, List.isPrefixOf_iff_prefix]

namespace Directory

variable {d : Directory} {key id : String} {r : PeerRecord}

/-- Every row is under the id that it is of. -/
def OwnIds (d : Directory) : Prop := ∀ id r, d.lookup id = some r → r.id = id

theorem OwnIds.upsert (h : d.OwnIds) (record : PeerRecord) : (d.upsert record).OwnIds := by
  intro id r hr
  by_cases hid : id = record.id
  · subst hid
    rw [Directory.upsert] at hr
    split at hr <;> rw [Finmap.lookup_insert] at hr <;> exact Option.some.inj hr ▸ rfl
  · exact h id r (lookup_upsert_ne d hid ▸ hr)

theorem OwnIds.setAlias (h : d.OwnIds) (id : String) (aliasName : Option String) :
    (d.setAlias id aliasName).OwnIds := by
  intro id' r hr
  rw [Directory.setAlias, Finmap.lookup_modify] at hr
  split_ifs at hr with hid
  · obtain ⟨r', hr', rfl⟩ := Option.map_eq_some_iff.1 hr
    exact (h id r' hr').trans hid.symm
  · exact h id' r hr

/-- The shape a fragment of an id has. -/
def IdFragment (key : String) : Prop :=
  (idBody key).toList ≠ [] ∧ ∀ c ∈ (idBody key).toList, c.isLower ∨ c.isDigit

theorem IdFragment.mem (h : IdFragment key) : ∀ c ∈ key.toList,
    c ∈ idPrefix.toList ∨ c.isLower ∨ c.isDigit := by
  intro c hc
  by_cases hstart : idPrefix.toList.isPrefixOf key.toList
  · have hbody := h.2 c
    rw [idBody, if_pos hstart, String.toList_ofList] at hbody
    obtain ⟨body, hkey⟩ := List.isPrefixOf_iff_prefix.1 hstart
    rw [← hkey, show idPrefix.length = idPrefix.toList.length from rfl, List.drop_left] at hbody
    rw [← hkey, List.mem_append] at hc
    exact hc.imp_right hbody
  · have hbody := h.2 c
    rw [idBody, if_neg hstart] at hbody
    exact .inr (hbody hc)

/-- The characters of a fragment are of one byte each, and stand for themselves. -/
theorem IdFragment.plain (h : IdFragment key) :
    ∀ c ∈ key.toList, c.utf8Size = 1 ∧ c ∉ wildcards := by
  have hprefix : ∀ c ∈ idPrefix.toList, c.utf8Size = 1 ∧ c ∉ wildcards := by decide
  intro c hc
  rcases h.mem c hc with hc | hc
  · exact hprefix c hc
  · refine ⟨Text.utf8Size_of_isAlphanum ?_, fun hmem => ?_⟩
    · exact Text.isAlphanum_iff.2 (hc.imp_left .inr)
    · simp only [wildcards, List.mem_cons, List.not_mem_nil, or_false] at hmem
      rcases hmem with rfl | rfl | rfl <;> exact absurd hc (by decide)

/-- The id is the only one of the directory that fits. -/
def OnlyFits (d : Directory) (key id : String) : Prop :=
  id ∈ d.keys ∧ Fits key id ∧ ∀ id' ∈ d.keys, Fits key id' → id' = id

theorem filterMap_lookup_eq_singleton {l : List String} (hl : ∀ id ∈ l, id ∈ d.keys) :
    l.filterMap d.lookup = [r] ↔ ∃ id, l = [id] ∧ d.lookup id = some r := by
  have hsome (id : String) (hid : id ∈ d.keys) : ∃ r, d.lookup id = some r :=
    Finmap.mem_iff.1 (Finmap.mem_keys.1 hid)
  rcases l with - | ⟨a, - | ⟨b, l⟩⟩
  · simp
  · obtain ⟨ra, hra⟩ := hsome a (hl a List.mem_cons_self)
    simp [hra]
  · obtain ⟨ra, hra⟩ := hsome a (hl a List.mem_cons_self)
    obtain ⟨rb, hrb⟩ := hsome b (hl b (List.mem_cons_of_mem _ List.mem_cons_self))
    simp [hra, hrb]

theorem take_two_eq_singleton {α : Type} {l : List α} {a : α} : l.take 2 = [a] ↔ l = [a] := by
  rcases l with - | ⟨x, - | ⟨y, l⟩⟩ <;> simp

/-- One row is found if one id fits. -/
theorem findByIdPrefix_eq_singleton (hown : d.OwnIds) : d.findByIdPrefix key 2 = [r] ↔
    IdFragment key ∧ d.lookup r.id = some r ∧ d.OnlyFits key r.id := by
  have hfragment : ((idBody key).toList = [] ∨
      ¬(idBody key).toList.all fun c => c.isLower || c.isDigit) ↔ ¬IdFragment key := by
    simp only [IdFragment, List.all_eq_true, Bool.or_eq_true, not_and_or, not_not, ne_eq]
  have honly {id : String} : d.keys.filter (Fits key) = {id} ↔ d.OnlyFits key id := by
    rw [Finset.eq_singleton_iff_unique_mem, Finset.mem_filter, OnlyFits, and_assoc]
    simp only [Finset.mem_filter, and_imp]
  by_cases h : IdFragment key
  · have hkeys : ∀ id ∈ (d.keys.filter (Fits key)).inOrder.take 2, id ∈ d.keys := by
      intro id hid
      exact (Finset.mem_filter.1 (Finset.mem_inOrder.1 (List.mem_of_mem_take hid))).1
    have hfind : d.findByIdPrefix key 2 =
        ((d.keys.filter (Fits key)).inOrder.take 2).filterMap d.lookup :=
      if_neg fun hc => hfragment.1 hc h
    rw [hfind, filterMap_lookup_eq_singleton hkeys]
    simp only [take_two_eq_singleton, Finset.inOrder_eq_singleton, honly, h, true_and]
    constructor
    · rintro ⟨id, hid, hr⟩
      obtain rfl := hown id r hr
      exact ⟨hr, hid⟩
    · rintro ⟨hr, hid⟩
      exact ⟨r.id, hid, hr⟩
  · have hfind : d.findByIdPrefix key 2 = [] := if_pos (hfragment.2 h)
    rw [hfind]
    exact ⟨nofun, fun hc => absurd hc.1 h⟩

end Directory

/-! ## Binding -/

/-- The fragment is this instance's: its own id, or enough of it. -/
def MatchesSelf (selfId key : String) : Prop :=
  selfId = key ∨ idPrefix.toList.isPrefixOf selfId.toList ∧ 8 ≤ key.utf8ByteSize ∧
    key.toList.isPrefixOf (selfId.toList.drop idPrefix.length)

instance (selfId key : String) : Decidable (MatchesSelf selfId key) :=
  inferInstanceAs (Decidable (_ ∨ _))

/-- The fragment binds to the instance: the only one that it fits, by eight
    characters of its id or all of them, none of which stands for others. -/
structure BindsTo (selfId : String) (d : Directory) (key id : String) : Prop where
  fits : Fits key id
  mem : id = selfId ∨ id ∈ d.keys
  unique : ∀ id', id' = selfId ∨ id' ∈ d.keys → Fits key id' → id' = id
  long : 8 ≤ key.length ∨ key = id
  plain : ∀ c ∈ key.toList, c ∉ wildcards

/-- The mention of this instance by `self`. -/
def IsSelf (entity : String) : Prop := entity.toList.map Char.toLower = "self".toList

/-- The mentions of peers that do not bind are reported, and give no peer. -/
def PeersBind (selfId : String) (d : Directory) (tools : List DeclaredTool)
    (scope : MentionScope) : Prop :=
  (∀ entity ∈ scope.peers, ¬IsSelf entity →
    "@peer:" ++ entity ∈ (resolveScope selfId d tools scope).unresolved ∨
      ∃ id ∈ (resolveScope selfId d tools scope).peerIds,
        BindsTo selfId d (mentionKey entity) id) ∧
  ∀ id ∈ (resolveScope selfId d tools scope).peerIds, ∃ entity ∈ scope.peers,
    IsSelf entity ∧ id = selfId ∨ BindsTo selfId d (mentionKey entity) id

/-- When the fragment is this instance's, no other id fits; when it is written with
    the prefix and one id of the directory fits, the own id does not, unless it is that
    one, and the fragment is not too short. -/
structure SoundKey (selfId : String) (d : Directory) (key : String) : Prop where
  own : MatchesSelf selfId key → ∀ id ∈ d.keys, Fits key id → id = selfId
  written : idPrefix.toList.isPrefixOf key.toList → Directory.IdFragment key →
    ¬MatchesSelf selfId key → ∀ id, d.OnlyFits key id →
      (Fits key selfId → selfId = id) ∧ (8 ≤ key.length ∨ key = id)

section

variable {selfId : String} {d : Directory} {entity id key : String}

/-- What a mention of a peer is resolved to. -/
theorem resolvePeer_eq_some (hown : d.OwnIds) (hself : ¬IsSelf entity) :
    resolvePeer selfId d entity = some id ↔
      MatchesSelf selfId (mentionKey entity) ∧ id = selfId ∨
      ¬MatchesSelf selfId (mentionKey entity) ∧
        (8 ≤ (mentionKey entity).utf8ByteSize ∨
          idPrefix.toList.isPrefixOf (mentionKey entity).toList) ∧
        Directory.IdFragment (mentionKey entity) ∧ d.OnlyFits (mentionKey entity) id := by
  rw [IsSelf] at hself
  simp only [resolvePeer, if_neg hself]
  by_cases hmatch : MatchesSelf selfId (mentionKey entity)
  · have hmatch' := hmatch
    rw [MatchesSelf] at hmatch'
    rw [if_pos hmatch', Option.some.injEq]
    exact ⟨fun h => .inl ⟨hmatch, h.symm⟩, fun h => (h.resolve_right fun h => h.1 hmatch).2.symm⟩
  · have hmatch' := hmatch
    rw [MatchesSelf] at hmatch'
    rw [if_neg hmatch', Option.ite_none_right_eq_some]
    simp only [hmatch, false_and, false_or, not_false_eq_true, true_and]
    refine and_congr_right fun _ => ?_
    constructor
    · intro h
      split at h
      · next r hr =>
        obtain rfl := Option.some.inj h
        obtain ⟨hkey, -, honly⟩ := (Directory.findByIdPrefix_eq_singleton hown).1 hr
        exact ⟨hkey, honly⟩
      · cases h
    · rintro ⟨hkey, honly⟩
      obtain ⟨r, hr⟩ : ∃ r, d.lookup id = some r := Finmap.mem_iff.1 (Finmap.mem_keys.1 honly.1)
      obtain rfl := hown id r hr
      rw [(Directory.findByIdPrefix_eq_singleton hown).2 ⟨hkey, hr, honly⟩]

/-- What is said of a fragment that this instance takes. -/
theorem MatchesSelf.fits (hid : parseInstanceId selfId = .ok selfId) (h : MatchesSelf selfId key) :
    Fits key selfId ∧ (8 ≤ key.length ∨ key = selfId) ∧ ∀ c ∈ key.toList, c ∉ wildcards := by
  obtain ⟨payload, hself, hall⟩ := parseInstanceId_payload hid
  have hplain {c : Char} (hc : c.isAlphanum) : c ∉ wildcards := by
    intro hmem
    simp only [wildcards, List.mem_cons, List.not_mem_nil, or_false] at hmem
    rcases hmem with rfl | rfl | rfl <;> exact absurd hc (by decide)
  rcases h with rfl | ⟨-, hlen, hpre⟩
  · have hstart : idPrefix.toList.isPrefixOf selfId.toList :=
      List.isPrefixOf_iff_prefix.2 ⟨payload, hself.symm⟩
    refine ⟨(fits_of_written hstart).2 (List.prefix_refl _), .inr rfl, fun c hc => ?_⟩
    rw [hself, List.mem_append] at hc
    rcases hc with hc | hc
    · revert c
      decide
    · exact hplain (hall c hc)
  · rw [hself, show idPrefix.length = idPrefix.toList.length from rfl, List.drop_left,
      List.isPrefixOf_iff_prefix] at hpre
    have hkey : ∀ c ∈ key.toList, c.isAlphanum := fun c hc => hall c (hpre.subset hc)
    have hstart : ¬idPrefix.toList.isPrefixOf key.toList := by
      intro hstart
      have hcolon := (List.isPrefixOf_iff_prefix.1 hstart).subset
        (show ':' ∈ idPrefix.toList by decide)
      exact absurd (hkey ':' hcolon) (by decide)
    refine ⟨(fits_of_not_written hstart).2 ?_, .inl ?_, fun c hc => hplain (hkey c hc)⟩
    · rw [hself]
      exact (List.prefix_append_right_inj _).2 hpre
    · rwa [← Text.utf8ByteSize_eq_length fun c hc => Text.utf8Size_of_isAlphanum (hkey c hc)]

/-- Whatever a fragment is resolved to fits it. -/
theorem fits_of_resolvePeer (hid : parseInstanceId selfId = .ok selfId) (hown : d.OwnIds)
    (hself : ¬IsSelf entity) (h : resolvePeer selfId d entity = some id) :
    Fits (mentionKey entity) id ∧ (id = selfId ∨ id ∈ d.keys) := by
  rcases (resolvePeer_eq_some hown hself).1 h with ⟨hmatch, rfl⟩ | ⟨-, -, -, honly⟩
  · exact ⟨(hmatch.fits hid).1, .inl rfl⟩
  · exact ⟨honly.2.1, .inr honly.1⟩

/-- A fragment is resolved to what it binds to, exactly if it is sound. -/
theorem bindsTo_iff (hid : parseInstanceId selfId = .ok selfId) (hown : d.OwnIds)
    (hself : ¬IsSelf entity) :
    (∀ id, resolvePeer selfId d entity = some id → BindsTo selfId d (mentionKey entity) id) ↔
      SoundKey selfId d (mentionKey entity) := by
  constructor
  · intro h
    refine ⟨fun hmatch id hmem hfits => ?_, fun hwritten hfragment hmatch id honly => ?_⟩
    · exact (h selfId ((resolvePeer_eq_some hown hself).2 (.inl ⟨hmatch, rfl⟩))).unique id
        (.inr hmem) hfits
    · have hbinds := h id ((resolvePeer_eq_some hown hself).2
        (.inr ⟨hmatch, .inr hwritten, hfragment, honly⟩))
      exact ⟨hbinds.unique selfId (.inl rfl), hbinds.long⟩
  · intro hsound id h
    obtain ⟨hfits, hmem⟩ := fits_of_resolvePeer hid hown hself h
    rcases (resolvePeer_eq_some hown hself).1 h with
      ⟨hmatch, rfl⟩ | ⟨hmatch, hlen, hfragment, honly⟩
    · obtain ⟨-, hlong, hplain⟩ := hmatch.fits hid
      refine ⟨hfits, hmem, ?_, hlong, hplain⟩
      rintro id' (rfl | hmem') hfits'
      · rfl
      · exact hsound.own hmatch id' hmem' hfits'
    · have hbytes := Text.utf8ByteSize_eq_length fun c hc => (hfragment.plain c hc).1
      have hkey : (Fits (mentionKey entity) selfId → selfId = id) ∧
          (8 ≤ (mentionKey entity).length ∨ mentionKey entity = id) := by
        by_cases hwritten : idPrefix.toList.isPrefixOf (mentionKey entity).toList
        · exact hsound.written hwritten hfragment hmatch id honly
        · have hlen := hbytes ▸ hlen.resolve_right hwritten
          refine ⟨fun hfits => absurd (.inr ?_) hmatch, .inl hlen⟩
          obtain ⟨rest, hrest⟩ := (fits_of_not_written hwritten).1 hfits
          rw [List.append_assoc] at hrest
          refine ⟨List.isPrefixOf_iff_prefix.2 ⟨_, hrest⟩, hbytes ▸ hlen, ?_⟩
          rw [← hrest, show idPrefix.length = idPrefix.toList.length from rfl, List.drop_left,
            List.isPrefixOf_iff_prefix]
          exact List.prefix_append _ _
      refine ⟨hfits, hmem, ?_, hkey.2, fun c hc => (hfragment.plain c hc).2⟩
      rintro id' (rfl | hmem') hfits'
      · exact hkey.1 hfits'
      · exact honly.2.2 id' hmem' hfits'

/-- The names that are not found are reported, as they were written. -/
theorem mem_resolveEach_snd {find : String → Option String} {before x : String}
    {names : List String} : x ∈ (resolveEach find before names).2 ↔
      ∃ name ∈ names, find name = none ∧ x = before ++ name := by
  have hnil : x ∉ (([], []) : List String × List String).2 := List.not_mem_nil
  refine Iff.trans ?_ (or_iff_right hnil)
  rw [resolveEach]
  generalize (([], []) : List String × List String) = acc
  induction names generalizing acc with
  | nil => simp
  | cons name names ih =>
    rw [List.foldl_cons, ih, List.exists_mem_cons_iff]
    rcases hfind : find name with _ | y
    · simp [or_assoc]
    · simp

/-- A mention of a peer is reported if its peer is not found, and only then. -/
theorem mem_unresolved {tools : List DeclaredTool} {scope : MentionScope} :
    "@peer:" ++ entity ∈ (resolveScope selfId d tools scope).unresolved ↔
      entity ∈ scope.peers ∧ resolvePeer selfId d entity = none := by
  have hlobe (name : String) : "@peer:" ++ entity ≠ "@lobe:" ++ name := fun h => by
    have hchar := congrArg (·.toList[1]?) h
    simp only [String.toList_append] at hchar
    cases hchar
  have hcap (name : String) : "@peer:" ++ entity ≠ "@cap:" ++ name := fun h => by
    have hchar := congrArg (·.toList[1]?) h
    simp only [String.toList_append] at hchar
    cases hchar
  simp only [resolveScope, List.mem_append, mem_resolveEach_snd, hlobe, hcap, and_false,
    exists_false, or_false, String.append_right_inj]
  constructor
  · rintro ⟨name, hname, hnone, rfl⟩
    exact ⟨hname, hnone⟩
  · rintro ⟨hentity, hnone⟩
    exact ⟨entity, hentity, hnone, rfl⟩

theorem resolvePeer_self (hself : IsSelf entity) : resolvePeer selfId d entity = some selfId := by
  rw [IsSelf] at hself
  rw [resolvePeer, if_pos hself]

/-- Mentions of peers bind, or are reported, exactly if their fragments are sound. -/
theorem peersBind_iff {tools : List DeclaredTool} {scope : MentionScope}
    (hid : parseInstanceId selfId = .ok selfId) (hown : d.OwnIds) :
    PeersBind selfId d tools scope ↔
      ∀ entity ∈ scope.peers, ¬IsSelf entity → SoundKey selfId d (mentionKey entity) := by
  have hmem {id : String} : id ∈ (resolveScope selfId d tools scope).peerIds ↔
      ∃ entity ∈ scope.peers, resolvePeer selfId d entity = some id := mem_resolveEach
  constructor
  · intro h entity hentity hself
    refine (bindsTo_iff hid hown hself).1 fun id hres => ?_
    rcases h.1 entity hentity hself with hrep | ⟨id', -, hbinds⟩
    · cases hres.symm.trans (mem_unresolved.1 hrep).2
    · obtain ⟨hfits, hid'⟩ := fits_of_resolvePeer hid hown hself hres
      obtain rfl := hbinds.unique id hid' hfits
      exact hbinds
  · intro h
    refine ⟨fun entity hentity hself => ?_, fun id hid' => ?_⟩
    · rcases hres : resolvePeer selfId d entity with - | id
      · exact .inl (mem_unresolved.2 ⟨hentity, hres⟩)
      · exact .inr ⟨id, hmem.2 ⟨entity, hentity, hres⟩,
          (bindsTo_iff hid hown hself).2 (h entity hentity hself) id hres⟩
    · obtain ⟨entity, hentity, hres⟩ := hmem.1 hid'
      refine ⟨entity, hentity, ?_⟩
      by_cases hself : IsSelf entity
      · rw [resolvePeer_self hself] at hres
        exact .inl ⟨hself, (Option.some.inj hres).symm⟩
      · exact .inr ((bindsTo_iff hid hown hself).2 (h entity hentity hself) id hres)

end

/-! ## Fragments in a directory of two peers -/

theorem twoPeers_ownIds : twoPeers.OwnIds := by
  intro id r hr
  rw [twoPeers, Finmap.lookup_insert_ite, Finmap.lookup_insert_ite] at hr
  split_ifs at hr with hb ha
  · exact Option.some.inj hr ▸ hb.symm
  · exact Option.some.inj hr ▸ ha.symm
  · cases hr

/-- Eight characters of the id of a peer bind to it. -/
theorem peersBind_eight :
    PeersBind "n3:selfself" twoPeers [] ⟨["alice#aaaaaaaa"], [], [], []⟩ ∧
      (resolveScope "n3:selfself" twoPeers [] ⟨["alice#aaaaaaaa"], [], [], []⟩).peerIds =
        ["n3:aaaaaaaa"] := by
  refine ⟨(peersBind_iff (by decide) twoPeers_ownIds).2 ?_, by decide +kernel⟩
  simp only [List.mem_singleton, forall_eq]
  exact fun _ => ⟨fun h => absurd h (by decide +kernel), fun h => absurd h (by decide +kernel)⟩

/-- A fragment of two ids is taken for this instance's, and one character binds to a
    peer if the prefix is written. -/
theorem not_peersBind :
    ¬PeersBind "n3:bbbbbbbbself" twoPeers [] ⟨["bbbbbbbb"], [], [], []⟩ ∧
      ¬PeersBind "n3:selfself" twoPeers [] ⟨["n3:b"], [], [], []⟩ := by
  constructor
  · intro h
    obtain ⟨entity, hentity, hbinds⟩ := h.2 "n3:bbbbbbbbself" (by decide)
    obtain rfl := List.mem_singleton.1 hentity
    rcases hbinds with ⟨hself, -⟩ | hbinds
    · exact absurd hself (by rw [IsSelf]; decide)
    · exact absurd (hbinds.unique "n3:bbbbbbbb" (.inr (by decide)) (by decide))
        (by decide)
  · intro h
    obtain ⟨entity, hentity, hbinds⟩ := h.2 "n3:bbbbbbbb" (by decide +kernel)
    obtain rfl := List.mem_singleton.1 hentity
    rcases hbinds with ⟨hself, -⟩ | hbinds
    · exact absurd hself (by rw [IsSelf]; decide)
    · exact absurd hbinds.long (by decide)

end N3ur0n
