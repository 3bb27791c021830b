import N3ur0n.Planner.Dispatch

/-!
# Merging rounds

The blackboard of a continuation is merged into that of the rounds before: an
id which is taken gets a suffix. The composer is handed references to all the
keys of the result, which are resolved in its reply.

The suffixed id may be taken as well, by a step of either round, and a reference
to an id with a dot or a brace in it is read as a reference to another id.

* `merge_lossless`: whatever the values, merging keeps every value of both
  rounds, each under its own key, in any order of the entries, and no reference
  leads from one round to the other, exactly when the ids are `Separate`;
* `merge_overwrites`: otherwise, a value of an earlier round may be replaced.
-/

namespace N3ur0n

open Cut

/-! ## References handed to the composer -/

/-- A reference to the key, or to the fields of its value. -/
def refText (inner : List Char) : String := String.ofList ('$' :: '{' :: inner ++ ['}'])

/-- The references to the value under a key. -/
def references (key : String) : Value → List String
  | .object fields => fields.map fun x => refText (key.toList ++ '.' :: x.1.toList)
  | _ => [refText key.toList]

/-- The paths a reference is read as: as a whole reply, or within a text. -/
def readings (token : String) : List (List Char) :=
  (wholeTemplate token).toList ++
    ((refToken (fun _ => false) token.toList).map fun r => r.1.inner).toList

/-- The reference has a value, found under the key `h`. -/
def ReadsFrom (board : Blackboard) (token h : String) : Prop :=
  ∃ path ∈ readings token, headOf path = h ∧ (lookupPath path board).isSome

/-- The keys under which the references to a key may look for it. -/
def referenceHeads (key : String) : List String :=
  headOf (key.toList.takeWhile (· ≠ '}')) ::
    if '{' ∈ key.toList then [] else [headOf key.toList]

theorem headOf_append (s t : List Char) : headOf (s ++ '.' :: t) = headOf s := by
  rw [headOf, headOf, takeWhile_append_cons (by simp)]

theorem wholeTemplate_refText (inner : List Char) :
    wholeTemplate (refText inner) = if '{' ∈ inner then none else some inner := by
  have hend : ('$' :: '{' :: inner ++ ['}']).rdropWhile isWhitespace =
      '$' :: '{' :: inner ++ ['}'] :=
    List.rdropWhile_concat_neg _ _ _ (by decide)
  have htrim : trim isWhitespace (refText inner).toList = '$' :: '{' :: (inner ++ ['}']) := by
    rw [refText, String.toList_ofList, trim, List.cons_append, List.dropWhile_cons_of_neg (by decide)]
    exact hend
  rw [wholeTemplate, htrim]
  simp only [List.getLast?_concat, List.dropLast_concat, true_and]
  split_ifs with h
  · rfl
  · rfl

theorem inlineKey_refText (inner : List Char) :
    ((refToken (fun _ => false) (refText inner).toList).map fun r => r.1.inner) =
      some (inner.takeWhile (· ≠ '}')) := by
  rw [refText, String.toList_ofList]
  simp only [List.cons_append, refToken, upTo_append_cons, Option.map_some]

theorem mem_readings {inner path : List Char} : path ∈ readings (refText inner) ↔
    path = inner.takeWhile (· ≠ '}') ∨ '{' ∉ inner ∧ path = inner := by
  rw [readings, wholeTemplate_refText, inlineKey_refText]
  split_ifs with h
  · simp [h]
  · simp [h, or_comm, eq_comm]

/-- A reference to a key looks for it under one of its heads. -/
theorem headOf_mem_referenceHeads {key token : String} {v : Value}
    (ht : token ∈ references key v) {path : List Char} (hp : path ∈ readings token) :
    headOf path ∈ referenceHeads key := by
  -- The text between the braces is the key, with a field after a dot or alone.
  have hinner (inner : List Char) (hi : inner = key.toList ∨ ∃ t, inner = key.toList ++ '.' :: t)
      (hp : path ∈ readings (refText inner)) : headOf path ∈ referenceHeads key := by
    have hhead : headOf inner = headOf key.toList ∧ headOf (inner.takeWhile (· ≠ '}')) =
        headOf (key.toList.takeWhile (· ≠ '}')) ∧ ('{' ∈ key.toList → '{' ∈ inner) := by
      rcases hi with rfl | ⟨t, rfl⟩
      · exact ⟨rfl, rfl, id⟩
      · refine ⟨headOf_append _ _, ?_, fun h => List.mem_append_left _ h⟩
        simp only [headOf, List.takeWhile_takeWhile]
        rw [takeWhile_append_cons (by simp)]
    obtain ⟨h₁, h₂, h₃⟩ := hhead
    rcases mem_readings.1 hp with rfl | ⟨hb, rfl⟩
    · rw [h₂]
      exact List.mem_cons_self
    · rw [h₁, referenceHeads, if_neg fun h => hb (h₃ h)]
      exact List.mem_cons_of_mem _ (List.mem_singleton.2 rfl)
  cases v with
  | object fields =>
    obtain ⟨x, -, rfl⟩ := List.mem_map.1 ht
    exact hinner _ (.inr ⟨_, rfl⟩) hp
  | null | bool b | number n | string s | array xs =>
    obtain rfl := List.mem_singleton.1 ht
    exact hinner _ (.inl rfl) hp

/-! ## The merged blackboard -/

variable {round : ℕ} {acc : Blackboard}

theorem suffixed_injective (round : ℕ) : Function.Injective (suffixed round) := fun a b h => by
  simp only [suffixed, ← String.toList_inj, String.toList_append] at h
  exact String.toList_inj.1 (List.append_cancel_right h)

theorem suffixed_ne (round : ℕ) (id : String) : suffixed round id ≠ id := fun h => by
  have hlen := congrArg (fun s => s.toList.length) h
  simp [suffixed] at hlen

/-- A step of both rounds has a suffixed id that none of them has. -/
def Apart (round : ℕ) (earlier later : Finset String) : Prop :=
  ∀ id ∈ earlier ∩ later, suffixed round id ∉ earlier ∪ later

/-- The steps of a continuation have keys of their own. -/
theorem roundKey_injOn {later : Finset String} (h : Apart round acc.keys later) :
    Set.InjOn (roundKey round acc) later := by
  intro a ha b hb hab
  have hnot {c d : String} (hc : c ∈ acc) (hcl : c ∈ later) (hd : d ∈ later) :
      suffixed round c ≠ d := fun he =>
    h c (Finset.mem_inter.2 ⟨Finmap.mem_keys.2 hc, hcl⟩) (Finset.mem_union_right _ (he ▸ hd))
  unfold roundKey at hab
  split_ifs at hab with hca hcb hcb
  · exact suffixed_injective round hab
  · exact absurd hab (hnot hca ha hb)
  · exact absurd hab.symm (hnot hcb hb ha)
  · exact hab

theorem roundKey_notMem {later : Finset String} (h : Apart round acc.keys later) {id : String}
    (hid : id ∈ later) : roundKey round acc id ∉ acc := by
  rw [roundKey]
  split_ifs with hacc
  · exact fun hs => h id (Finset.mem_inter.2 ⟨Finmap.mem_keys.2 hacc, hid⟩)
      (Finset.mem_union_left _ (Finmap.mem_keys.2 hs))
  · exact hacc

theorem mergeRound_snoc (round : ℕ) (acc : Blackboard) (l : List (String × Value))
    (x : String × Value) : mergeRound round acc (l ++ [x]) =
      (mergeRound round acc l).insert (roundKey round (mergeRound round acc l) x.1) x.2 := by
  rw [mergeRound, List.foldl_append]
  rfl

/-- The keys decided while merging are those decided before. -/
theorem mergeRound_eq {later : Finset String} (h : Apart round acc.keys later)
    {l : List (String × Value)} (hn : (l.map Prod.fst).Nodup) (hl : ∀ x ∈ l, x.1 ∈ later) :
    mergeRound round acc l =
      (l.map fun x => (roundKey round acc x.1, x.2)).foldl (fun t x => t.insert x.1 x.2) acc := by
  induction l using List.reverseRecOn with
  | nil => rfl
  | append_singleton l x ih =>
    rw [List.map_append, List.map_singleton, List.nodup_append] at hn
    obtain ⟨hnl, -, hdisj⟩ := hn
    obtain ⟨hll, hx⟩ := List.forall_mem_append.1 hl
    have hxl : x.1 ∈ later := hx x (List.mem_singleton.2 rfl)
    have ih := ih hnl hll
    -- The id is taken by now only if it was taken at the start.
    have hmem : x.1 ∈ mergeRound round acc l ↔ x.1 ∈ acc := by
      rw [ih, ← Finmap.mem_keys, Finmap.keys_foldl_insert, Finset.mem_union, Finmap.mem_keys,
        or_iff_left_iff_imp]
      intro hk
      simp only [List.map_map, List.mem_toFinset, List.mem_map] at hk
      obtain ⟨y, hy, hyx⟩ := hk
      have hyx : roundKey round acc y.1 = x.1 := hyx
      rw [roundKey] at hyx
      split_ifs at hyx with hacc
      · exact absurd (Finset.mem_union_right _ (hyx ▸ hxl)) (h y.1 (Finset.mem_inter.2
          ⟨Finmap.mem_keys.2 hacc, hll y hy⟩))
      · exact absurd hyx (hdisj _ (List.mem_map.2 ⟨y, hy, rfl⟩) _ (List.mem_singleton.2 rfl))
    have hkey : roundKey round (mergeRound round acc l) x.1 = roundKey round acc x.1 := by
      simp only [roundKey, hmem]
    rw [mergeRound_snoc, hkey, List.map_append, List.foldl_append, ← ih]
    rfl

/-- The rows of a merged blackboard. -/
theorem lookup_mergeRound {later : Finset String} (h : Apart round acc.keys later)
    {l : List (String × Value)} (hn : (l.map Prod.fst).Nodup) (hl : ∀ x ∈ l, x.1 ∈ later)
    {key : String} {v : Value} : (mergeRound round acc l).lookup key = some v ↔
      (∃ id, (id, v) ∈ l ∧ roundKey round acc id = key) ∨ acc.lookup key = some v := by
  have hkeys : ((l.map fun x => (roundKey round acc x.1, x.2)).map Prod.fst).Nodup := by
    rw [List.map_map]
    refine (List.nodup_map_iff_inj_on (List.Nodup.of_map _ hn)).2 fun x hx y hy hxy => ?_
    exact List.inj_on_of_nodup_map hn hx hy (roundKey_injOn h (hl x hx) (hl y hy) hxy)
  rw [mergeRound_eq h hn hl, Finmap.lookup_foldl_insert hkeys]
  simp only [List.mem_map, Prod.exists, Prod.mk.injEq]
  constructor
  · rintro (⟨id, w, hid, rfl, rfl⟩ | ⟨-, hacc⟩)
    · exact .inl ⟨id, hid, rfl⟩
    · exact .inr hacc
  · rintro (⟨id, hid, rfl⟩ | hacc)
    · exact .inl ⟨id, v, hid, rfl, rfl⟩
    · refine .inr ⟨fun hk => ?_, hacc⟩
      obtain ⟨k, w, ⟨id, u, hid, rfl, rfl⟩, rfl⟩ := hk
      exact roundKey_notMem h (hl _ hid) (Finmap.mem_of_lookup_eq_some hacc)

theorem card_mergeRound {later : Finset String} (h : Apart round acc.keys later)
    {l : List (String × Value)} (hn : (l.map Prod.fst).Nodup) (hl : ∀ x ∈ l, x.1 ∈ later) :
    (mergeRound round acc l).keys.card = acc.keys.card + l.length := by
  have hinj : ((l.map Prod.fst).map (roundKey round acc)).Nodup := by
    refine (List.nodup_map_iff_inj_on hn).2 fun a ha b hb hab => ?_
    obtain ⟨x, hx, rfl⟩ := List.mem_map.1 ha
    obtain ⟨y, hy, rfl⟩ := List.mem_map.1 hb
    exact roundKey_injOn h (hl x hx) (hl y hy) hab
  have hkeys : ((l.map fun x => (roundKey round acc x.1, x.2)).map Prod.fst) =
      (l.map Prod.fst).map (roundKey round acc) := by simp
  rw [mergeRound_eq h hn hl, Finmap.keys_foldl_insert, hkeys, Finset.card_union_of_disjoint,
    List.toFinset_card_of_nodup hinj, List.length_map, List.length_map]
  refine Finset.disjoint_left.2 fun a ha hk => ?_
  obtain ⟨id, hid, rfl⟩ := List.mem_map.1 (List.mem_toFinset.1 hk)
  obtain ⟨x, hx, rfl⟩ := List.mem_map.1 hid
  exact roundKey_notMem h (hl x hx) (Finmap.mem_keys.1 ha)

/-! ## What is lost, and when nothing is -/

/-- No value is lost in `merged`: the rows of the earlier rounds are unchanged,
    those of the continuation are under the keys `key`, which were free, and
    there are no others. -/
structure Kept (acc next merged : Blackboard) (key : String → String) : Prop where
  earlier : merged.Extends acc
  later : ∀ id v, next.lookup id = some v → key id ∉ acc ∧ merged.lookup (key id) = some v
  size : merged.keys.card = acc.keys.card + next.keys.card

/-- No reference to a key of the merged blackboard leads to a key of another
    round. -/
def OwnReferences (acc merged : Blackboard) : Prop :=
  ∀ k v, merged.lookup k = some v → ∀ token ∈ references k v,
    ∀ h, ReadsFrom merged token h → (h ∈ acc ↔ k ∈ acc)

/-- No value is lost when the blackboards are merged, under keys that do not
    depend on the order of the entries. -/
def KeepsValues (round : ℕ) (acc next : Blackboard) : Prop :=
  ∃ key, Set.InjOn key next.keys ∧
    ∀ entries, Finmap.Enumerates entries next → Kept acc next (mergeRound round acc entries) key

/-- Neither values nor references are lost when the blackboards are merged. -/
def Lossless (round : ℕ) (acc next : Blackboard) : Prop :=
  KeepsValues round acc next ∧
    ∀ entries, Finmap.Enumerates entries next → OwnReferences acc (mergeRound round acc entries)

/-- The keys of the steps of a continuation, after rounds with the steps
    `earlier`. -/
def laterKeys (round : ℕ) (earlier later : Finset String) : Finset String :=
  later.image fun id => if id ∈ earlier then suffixed round id else id

/-- The ids are apart, and references to a key of a round do not look under the
    keys of the other. -/
structure Separate (round : ℕ) (earlier later : Finset String) : Prop where
  apart : Apart round earlier later
  earlier_heads : ∀ k ∈ earlier, ∀ h ∈ referenceHeads k, h ∉ laterKeys round earlier later
  later_heads : ∀ k ∈ laterKeys round earlier later, ∀ h ∈ referenceHeads k, h ∉ earlier

theorem mem_laterKeys {later : Finset String} {k : String} :
    k ∈ laterKeys round acc.keys later ↔ ∃ id ∈ later, roundKey round acc id = k := by
  simp only [laterKeys, Finset.mem_image, Finmap.mem_keys, roundKey]

/-- What a path reads is under its head. -/
theorem headOf_mem_of_lookupPath {board : Blackboard} {path : List Char}
    (h : (lookupPath path board).isSome) : headOf path ∈ board := by
  obtain ⟨ps, hps⟩ := splitOn_eq_headOf path
  simp only [lookupPath, hps] at h
  obtain ⟨v, hv⟩ := Option.isSome_iff_exists.1 h
  obtain ⟨w, hw, -⟩ := Option.bind_eq_some_iff.1 hv
  exact Finmap.mem_of_lookup_eq_some hw

theorem keys_of_enumerates {next : Blackboard} {entries : List (String × Value)}
    (h : Finmap.Enumerates entries next) : ∀ x ∈ entries, x.1 ∈ next.keys := fun x hx => by
  rw [h.keys, List.mem_toFinset]
  exact List.mem_map.2 ⟨x, hx, rfl⟩

/-- When the ids are apart, no value is lost. -/
theorem keepsValues_of_apart {next : Blackboard} (h : Apart round acc.keys next.keys) :
    KeepsValues round acc next := by
  refine ⟨roundKey round acc, roundKey_injOn h, fun entries hen => ?_⟩
  have hl := keys_of_enumerates hen
  refine ⟨fun k v hk => ?_, fun id v hid => ⟨?_, ?_⟩, ?_⟩
  · exact (lookup_mergeRound h hen.1 hl).2 (.inr hk)
  · exact roundKey_notMem h (hl _ (hen.lookup.1 hid))
  · exact (lookup_mergeRound h hen.1 hl).2 (.inl ⟨id, hen.lookup.1 hid, rfl⟩)
  · rw [card_mergeRound h hen.1 hl, hen.keys, List.toFinset_card_of_nodup hen.1, List.length_map]

/-- When they are separate, no reference leads to another round. -/
theorem ownReferences_of_separate {next : Blackboard} (h : Separate round acc.keys next.keys)
    {entries : List (String × Value)} (hen : Finmap.Enumerates entries next) :
    OwnReferences acc (mergeRound round acc entries) := by
  have hl := keys_of_enumerates hen
  have hmem {k : String} (hk : k ∈ mergeRound round acc entries) :
      k ∈ acc ∨ k ∈ laterKeys round acc.keys next.keys := by
    obtain ⟨v, hv⟩ := Finmap.mem_iff.1 hk
    rcases (lookup_mergeRound h.apart hen.1 hl).1 hv with ⟨id, hid, hkey⟩ | hacc
    · exact .inr (mem_laterKeys.2 ⟨id, hl _ hid, hkey⟩)
    · exact .inl (Finmap.mem_of_lookup_eq_some hacc)
  rintro k v hk token ht h' ⟨path, hp, rfl, hsome⟩
  have hhead := headOf_mem_referenceHeads ht hp
  -- What is read is under a key of some round, and it is not the other one.
  have hread := hmem (headOf_mem_of_lookupPath hsome)
  rcases hmem (Finmap.mem_of_lookup_eq_some hk) with hacc | hlater
  · have hnot := h.earlier_heads k (Finmap.mem_keys.2 hacc) _ hhead
    exact iff_of_true (hread.resolve_right hnot) hacc
  · refine iff_of_false (fun ha => ?_) fun ha => ?_
    · exact h.later_heads k hlater _ hhead (Finmap.mem_keys.2 ha)
    · obtain ⟨id, hid, rfl⟩ := mem_laterKeys.1 hlater
      exact roundKey_notMem h.apart hid ha

/-! ### Ids that are not separate -/

theorem mem_mergeRound {l : List (String × Value)} {k : String}
    (hk : k ∈ acc ∨ k ∈ l.map Prod.fst) : k ∈ mergeRound round acc l := by
  induction l using List.reverseRecOn with
  | nil => exact hk.resolve_right List.not_mem_nil
  | append_singleton l x ih =>
    rw [mergeRound_snoc, Finmap.mem_insert]
    by_cases hl : k ∈ acc ∨ k ∈ l.map Prod.fst
    · exact .inr (ih hl)
    · -- The last entry is inserted under its id, or its id was taken.
      rw [List.map_append, List.mem_append, ← or_assoc, List.map_singleton] at hk
      obtain rfl := List.mem_singleton.1 (hk.resolve_left hl)
      rw [roundKey]
      split_ifs with hx
      · exact .inr hx
      · exact .inl rfl

theorem card_mergeRound_le (l : List (String × Value)) :
    (mergeRound round acc l).keys.card ≤ acc.keys.card + l.length := by
  induction l using List.reverseRecOn with
  | nil => exact le_rfl
  | append_singleton l x ih =>
    rw [mergeRound_snoc, Finmap.keys_insert, List.length_append, List.length_singleton]
    exact (Finset.card_insert_le _ _).trans (by omega)

/-- When an id and its suffixed form are taken, a value is lost if the step with
    that id comes last. -/
theorem apart_of_keepsValues {next : Blackboard} (h : KeepsValues round acc next) :
    Apart round acc.keys next.keys := by
  intro id hid hs
  obtain ⟨hacc, hnext⟩ := Finset.mem_inter.1 hid
  -- The entries in the order that puts this id last.
  have hids : ((next.keys.erase id).toList ++ [id]).Nodup :=
    (List.perm_append_singleton _ _).nodup_iff.2 (List.nodup_cons.2
      ⟨by simp, Finset.nodup_toList _⟩)
  have hkeys : ((next.keys.erase id).toList ++ [id]).toFinset = next.keys := by
    rw [List.toFinset_append, Finset.toList_toFinset]
    simp [Finset.insert_erase hnext]
  obtain ⟨entries, hen, hfst⟩ := Finmap.exists_enumerates hids hkeys
  obtain ⟨l, l', rfl, hl, hl'⟩ := List.map_eq_append_iff.1 hfst
  obtain ⟨⟨a, v⟩, rfl⟩ := List.length_eq_one_iff.1 ((List.length_map _).symm.trans
    (congrArg List.length hl'))
  obtain rfl : a = id := by simpa using hl'
  obtain ⟨key, -, hkept⟩ := h
  have hsize := (hkept _ hen).size
  have htaken : a ∈ mergeRound round acc l := mem_mergeRound (.inl (Finmap.mem_keys.1 hacc))
  have hsuffixed : suffixed round a ∈ mergeRound round acc l := by
    rcases Finset.mem_union.1 hs with hs | hs
    · exact mem_mergeRound (.inl (Finmap.mem_keys.1 hs))
    · refine mem_mergeRound (.inr ?_)
      rw [hl, Finset.mem_toList]
      exact Finset.mem_erase.2 ⟨suffixed_ne round a, hs⟩
  have hlen : l.length + 1 = next.keys.card := by
    rw [← Finset.card_erase_add_one hnext, ← Finset.length_toList, ← hl, List.length_map]
  -- The last entry replaces another one, so one key is missing.
  rw [mergeRound_snoc, Finmap.keys_insert, roundKey, if_pos htaken,
    Finset.insert_eq_of_mem (Finmap.mem_keys.2 hsuffixed)] at hsize
  have hle := @card_mergeRound_le round acc l
  omega

/-- A value with this path of fields. -/
def nest (ps : List String) : Value := ps.foldr (fun p v => .object [(p, v)]) .null

theorem walk_nest (ps : List String) : walk ps (nest ps) = some .null := by
  induction ps with
  | nil => rfl
  | cons p ps ih =>
    have hget : (nest (p :: ps)).get p = some (nest ps) := by simp [nest, Value.get]
    rw [walk, hget]
    exact ih

/-- A reference to a key may read a value under any of its heads. -/
theorem exists_readsFrom {k h : String} (hk : h ∈ referenceHeads k) :
    ∃ ps, ∀ board : Blackboard, board.lookup h = some (nest ps) →
      ReadsFrom board (refText k.toList) h := by
  obtain ⟨path, hp, rfl⟩ : ∃ path ∈ readings (refText k.toList), headOf path = h := by
    rcases List.mem_cons.1 hk with rfl | hk
    · exact ⟨_, mem_readings.2 (.inl rfl), rfl⟩
    · split_ifs at hk with hb
      · exact absurd hk List.not_mem_nil
      · exact ⟨k.toList, mem_readings.2 (.inr ⟨hb, rfl⟩), (List.mem_singleton.1 hk).symm⟩
  obtain ⟨ps, hps⟩ := splitOn_eq_headOf path
  refine ⟨ps.map String.ofList, fun board hboard => ⟨path, hp, rfl, ?_⟩⟩
  have hread : lookupPath path board =
      (board.lookup (headOf path)).bind (walk (ps.map String.ofList)) := by
    simp only [lookupPath, hps]
    rfl
  rw [hread, hboard, Option.bind_some, walk_nest, Option.isSome_some]

/-- Boards with these ids and any values, and their merge. -/
theorem exists_boards {earlier later : Finset String} (hd : Apart round earlier later)
    (h : ∀ acc next : Blackboard, acc.keys = earlier → next.keys = later →
      Lossless round acc next) (f g : String → Value) :
    ∃ acc merged : Blackboard, acc.keys = earlier ∧ OwnReferences acc merged ∧
      (∀ k ∈ earlier, merged.lookup k = some (f k)) ∧
      ∀ id ∈ later, roundKey round acc id ∉ acc ∧
        merged.lookup (roundKey round acc id) = some (g id) := by
  obtain ⟨acc, hacc, hf⟩ := Finmap.exists_table earlier f
  obtain ⟨next, hnext, hg⟩ := Finmap.exists_table later g
  obtain ⟨entries, hen, -⟩ := Finmap.exists_enumerates next.keys.nodup_toList
    (Finset.toList_toFinset _)
  have hd' : Apart round acc.keys next.keys := by rwa [hacc, hnext]
  have hl := keys_of_enumerates hen
  refine ⟨acc, mergeRound round acc entries, hacc, (h acc next hacc hnext).2 entries hen,
    fun k hk => ?_, fun id hid => ⟨roundKey_notMem hd' (hnext ▸ hid), ?_⟩⟩
  · exact (lookup_mergeRound hd' hen.1 hl).2 (.inr (hf k hk))
  · exact (lookup_mergeRound hd' hen.1 hl).2 (.inl ⟨id, hen.lookup.1 (hg id hid), rfl⟩)

/-- Whatever the values: no value is lost if and only if the ids are apart, and
    no reference is, for any values of the steps, if and only if they are
    separate. -/
theorem merge_lossless (round : ℕ) :
    (∀ acc next : Blackboard, KeepsValues round acc next ↔ Apart round acc.keys next.keys) ∧
      ∀ earlier later : Finset String,
        (∀ acc next : Blackboard, acc.keys = earlier → next.keys = later →
          Lossless round acc next) ↔ Separate round earlier later := by
  refine ⟨fun acc next => ⟨apart_of_keepsValues, keepsValues_of_apart⟩, fun earlier later =>
    ⟨fun h => ?_, fun h acc next hacc hnext => ?_⟩⟩
  · have hd : Apart round earlier later := by
      obtain ⟨acc, hacc, -⟩ := Finmap.exists_table earlier fun _ => Value.null
      obtain ⟨next, hnext, -⟩ := Finmap.exists_table later fun _ => Value.null
      exact hacc ▸ hnext ▸ apart_of_keepsValues (h acc next hacc hnext).1
    refine ⟨hd, fun k hk x hx hlater => ?_, fun k hk x hx hearlier => ?_⟩
    · -- The step of the continuation under the head has the path that is read.
      obtain ⟨ps, hps⟩ := exists_readsFrom hx
      obtain ⟨acc, merged, rfl, href, hf, hg⟩ := exists_boards hd h (fun _ => .null) fun _ => nest ps
      obtain ⟨id, hid, rfl⟩ := mem_laterKeys.1 hlater
      obtain ⟨hnot, hlookup⟩ := hg id hid
      exact hnot ((href k _ (hf k hk) _ (List.mem_singleton.2 rfl) _ (hps _ hlookup)).2
        (Finmap.mem_keys.1 hk))
    · -- The other way round.
      obtain ⟨ps, hps⟩ := exists_readsFrom hx
      obtain ⟨acc, merged, rfl, href, hf, hg⟩ := exists_boards hd h (fun _ => nest ps) fun _ => .null
      obtain ⟨id, hid, rfl⟩ := mem_laterKeys.1 hk
      obtain ⟨hnot, hlookup⟩ := hg id hid
      exact hnot ((href _ _ hlookup _ (List.mem_singleton.2 rfl) _ (hps _ (hf x hearlier))).1
        (Finmap.mem_keys.1 hearlier))
  · subst hacc hnext
    exact ⟨keepsValues_of_apart h.apart, fun entries hen => ownReferences_of_separate h hen⟩

/-- A continuation whose first step reuses an id. -/
example : Separate 1 {"s1"} {"s1", "s2"} where
  apart := by unfold Apart; decide
  earlier_heads := by decide
  later_heads := by decide

/-! ## A value lost -/

/-- Two steps of the first round. -/
def earlierBoard : Blackboard :=
  Finmap.collect [("s1", .number (.int 1)), ("s1_r2", .number (.int 2))]

/-- The continuation uses the id of the first one again. -/
def laterEntries : List (String × Value) := [("s1", .number (.int 3))]

/-- The value of the second step is replaced. -/
theorem merge_overwrites : earlierBoard.lookup "s1_r2" = some (.number (.int 2)) ∧
    (mergeRound 1 earlierBoard laterEntries).lookup "s1_r2" = some (.number (.int 3)) ∧
      ¬KeepsValues 1 earlierBoard (Finmap.collect laterEntries) := by
  have hbefore : earlierBoard.lookup "s1_r2" = some (.number (.int 2)) := by decide
  have hafter : (mergeRound 1 earlierBoard laterEntries).lookup "s1_r2" =
      some (.number (.int 3)) := by decide
  refine ⟨hbefore, hafter, fun ⟨key, _, h⟩ => ?_⟩
  have hkept := (h laterEntries ⟨by decide, rfl⟩).earlier _ _ hbefore
  exact absurd (hafter.symm.trans hkept) (by simp)

end N3ur0n
