import N3ur0n.Blobs.Outputs

/-!
# The addresses of the blobs of a result

Once a blob of a result is fetched, its address is removed from the result. The
blobs are collected by one recursion, which goes into every value but the references
that it finds, and each of them is removed by another one, which stops at the objects
with its hash, whatever else they have.

* `stripAll_cons`: one recursion that does what those of all the blobs do;
* `fetchOutputBlobs_strips_iff`: the result that is returned is the one without the
  addresses of its references exactly when the two recursions agree on every object
  that has an address.
-/

namespace N3ur0n

namespace Value

/-- The hash that an object writes. -/
def hashOf (fields : List (String × Value)) : Option String := (fields.lookup "hash").bind asStr

/-- An object that is read as a reference to a blob. -/
def isBlobRef (fields : List (String × Value)) : Bool := (object fields).parseBlobRef.isSome

/-- It has an address to fetch the blob from. -/
def hasFetchUrl (fields : List (String × Value)) : Bool := fields.any (·.1 = "fetch_url")

/-- The fields, without the address if it is to be removed. -/
def dropFetchUrl (remove : Bool) (fields : List (String × Value)) : List (String × Value) :=
  fields.filter fun x => !(remove && x.1 = "fetch_url")

mutual

/-- The value without the addresses of the references to blobs in it. -/
def withoutFetchUrls : Value → Value
  | .object fields =>
    if isBlobRef fields then .object (dropFetchUrl true fields) else .object (withoutFields fields)
  | .array xs => .array (withoutList xs)
  | v => v

def withoutList : List Value → List Value
  | [] => []
  | x :: xs => withoutFetchUrls x :: withoutList xs

def withoutFields : List (String × Value) → List (String × Value)
  | [] => []
  | (k, x) :: fields => (k, withoutFetchUrls x) :: withoutFields fields

end

mutual

/-- The addresses of all these blobs are removed; below an object with one of their
    hashes, those of the others. -/
def stripAll : List String → Value → Value
  | hashes, .object fields =>
    .object (dropFetchUrl (hashOf fields ∈ hashes.map some)
      (stripAllFields (hashes.filter (some · ≠ hashOf fields)) fields))
  | hashes, .array xs => .array (stripAllList hashes xs)
  | _, v => v

def stripAllList : List String → List Value → List Value
  | _, [] => []
  | hashes, x :: xs => stripAll hashes x :: stripAllList hashes xs

def stripAllFields : List String → List (String × Value) → List (String × Value)
  | _, [] => []
  | hashes, (k, x) :: fields => (k, stripAll hashes x) :: stripAllFields hashes fields

end

mutual

/-- The two recursions agree: an object with an address is collected, as it is a
    reference that is not inside of another one, exactly if it is stripped, as it has
    one of the hashes and is not inside of another object with the same hash. -/
def agrees : Bool → List String → Value → Bool
  | inside, hashes, .object fields =>
    let collected := !inside && isBlobRef fields
    (!hasFetchUrl fields || collected == decide (hashOf fields ∈ hashes.map some)) &&
      agreesFields (inside || isBlobRef fields) (hashes.filter (some · ≠ hashOf fields)) collected
        fields
  | inside, hashes, .array xs => agreesList inside hashes xs
  | _, _, _ => true

def agreesList : Bool → List String → List Value → Bool
  | _, _, [] => true
  | inside, hashes, x :: xs => agrees inside hashes x && agreesList inside hashes xs

/-- An address that is removed need not be looked at. -/
def agreesFields : Bool → List String → Bool → List (String × Value) → Bool
  | _, _, _, [] => true
  | inside, hashes, removed, (k, x) :: fields =>
    (removed && k = "fetch_url" || agrees inside hashes x) &&
      agreesFields inside hashes removed fields

end

/-! ## All hashes at once -/

section

variable {fields : List (String × Value)} {k : String} {remove : Bool}

theorem dropFetchUrl_false : dropFetchUrl false fields = fields :=
  List.filter_eq_self.2 fun _ _ => rfl

/-- To drop the address twice is to drop it once. -/
theorem dropFetchUrl_dropFetchUrl {remove' : Bool} :
    dropFetchUrl remove (dropFetchUrl remove' fields) =
      dropFetchUrl (remove || remove') fields := by
  rw [dropFetchUrl, dropFetchUrl, dropFetchUrl, List.filter_filter]
  congr 1
  funext x
  rcases remove <;> rcases remove' <;> simp

/-- The other fields stay. -/
theorem lookup_dropFetchUrl (hk : k ≠ "fetch_url") :
    (dropFetchUrl remove fields).lookup k = fields.lookup k := by
  induction fields with
  | nil => rfl
  | cons x fields ih =>
    obtain ⟨key, v⟩ := x
    rw [dropFetchUrl, List.filter_cons]
    split_ifs with h
    · rw [List.lookup_cons, List.lookup_cons, ← dropFetchUrl, ih]
    · have hkey : key = "fetch_url" := by
        simp only [Bool.not_eq_true, Bool.not_eq_false', Bool.and_eq_true, decide_eq_true_eq] at h
        exact h.2
      rw [← dropFetchUrl, ih, List.lookup_cons, beq_false_of_ne (hkey ▸ hk)]

/-- What a function of the values does to the fields. -/
theorem lookup_map (f : Value → Value) :
    (fields.map fun x => (x.1, f x.2)).lookup k = (fields.lookup k).map f := by
  induction fields with
  | nil => rfl
  | cons x fields ih =>
    rw [List.map_cons, List.lookup_cons, List.lookup_cons, ih]
    rcases k == x.1 <;> rfl

theorem stripFields_eq (h : String) :
    stripFields h fields = fields.map fun x => (x.1, stripFetchUrl h x.2) := by
  induction fields with
  | nil => rfl
  | cons x fields ih => rw [stripFields, ih, List.map_cons]

theorem stripAllFields_eq (hashes : List String) :
    stripAllFields hashes fields = fields.map fun x => (x.1, stripAll hashes x.2) := by
  induction fields with
  | nil => rfl
  | cons x fields ih => rw [stripAllFields, ih, List.map_cons]

theorem withoutFields_eq :
    withoutFields fields = fields.map fun x => (x.1, withoutFetchUrls x.2) := by
  induction fields with
  | nil => rfl
  | cons x fields ih => rw [withoutFields, ih, List.map_cons]

theorem dropFetchUrl_map (f : Value → Value) :
    dropFetchUrl remove (fields.map fun x => (x.1, f x.2)) =
      (dropFetchUrl remove fields).map fun x => (x.1, f x.2) := by
  rw [dropFetchUrl, dropFetchUrl, List.filter_map]
  rfl

/-- No string is touched. -/
theorem asStr_stripFetchUrl (h : String) : ∀ v : Value, (v.stripFetchUrl h).asStr = v.asStr
  | .object fields => by
    rw [stripFetchUrl]
    split_ifs <;> rfl
  | .null | .bool _ | .number _ | .string _ | .array _ => rfl

/-- The hash of an object is not touched. -/
theorem hashOf_stripFields (h : String) : hashOf (stripFields h fields) = hashOf fields := by
  rw [hashOf, stripFields_eq, lookup_map, Option.bind_map]
  exact congrArg _ (funext fun v => asStr_stripFetchUrl h v)

theorem hashOf_dropFetchUrl : hashOf (dropFetchUrl remove fields) = hashOf fields := by
  rw [hashOf, lookup_dropFetchUrl (by decide), hashOf]

end

mutual

/-- Without a hash nothing is removed. -/
theorem stripAll_nil : ∀ v : Value, stripAll [] v = v
  | .object fields => by
    rw [stripAll, List.filter_nil, stripAllFields_nil fields]
    exact congrArg object dropFetchUrl_false
  | .array xs => by rw [stripAll, stripAllList_nil xs]
  | .null | .bool _ | .number _ | .string _ => rfl

theorem stripAllList_nil : ∀ xs : List Value, stripAllList [] xs = xs
  | [] => rfl
  | x :: xs => by rw [stripAllList, stripAll_nil x, stripAllList_nil xs]

theorem stripAllFields_nil : ∀ fields : List (String × Value), stripAllFields [] fields = fields
  | [] => rfl
  | (k, x) :: fields => by rw [stripAllFields, stripAll_nil x, stripAllFields_nil fields]

end

mutual

/-- One more hash, before the others. -/
theorem stripAll_cons (h : String) : ∀ (hashes : List String) (v : Value),
    stripAll (h :: hashes) v = stripAll hashes (v.stripFetchUrl h)
  | hashes, .object fields => by
    by_cases hh : hashOf fields = some h
    · have hstrip : stripFetchUrl h (object fields) = object (dropFetchUrl true fields) := by
        rw [stripFetchUrl, ← hashOf, if_pos hh]
        exact congrArg object (List.filter_congr fun x _ => by simp)
      rw [hstrip, stripAll, stripAll, hashOf_dropFetchUrl, stripAllFields_eq, stripAllFields_eq,
        ← dropFetchUrl_map, dropFetchUrl_dropFetchUrl, Bool.or_true, hh, List.map_cons,
        decide_eq_true List.mem_cons_self, List.filter_cons_of_neg (by simp)]
    · have hstrip : stripFetchUrl h (object fields) = object (stripFields h fields) := by
        rw [stripFetchUrl, ← hashOf, if_neg hh]
      have hne : some h ≠ hashOf fields := Ne.symm hh
      rw [hstrip, stripAll, stripAll, hashOf_stripFields, List.map_cons,
        List.filter_cons_of_pos (by simpa using hne), stripAllFields_cons h _ fields]
      simp only [List.mem_cons, hh, false_or]
  | hashes, .array xs => by rw [stripAll, stripFetchUrl, stripAll, stripAllList_cons h hashes xs]
  | _, .null | _, .bool _ | _, .number _ | _, .string _ => rfl

theorem stripAllList_cons (h : String) : ∀ (hashes : List String) (xs : List Value),
    stripAllList (h :: hashes) xs = stripAllList hashes (stripList h xs)
  | _, [] => rfl
  | hashes, x :: xs => by
    rw [stripAllList, stripList, stripAllList, stripAll_cons h hashes x,
      stripAllList_cons h hashes xs]

theorem stripAllFields_cons (h : String) : ∀ (hashes : List String)
    (fields : List (String × Value)),
    stripAllFields (h :: hashes) fields = stripAllFields hashes (stripFields h fields)
  | _, [] => rfl
  | hashes, (k, x) :: fields => by
    rw [stripAllFields, stripFields, stripAllFields, stripAll_cons h hashes x,
      stripAllFields_cons h hashes fields]

end

/-! ## Agreement -/

/-- What the value is to become: nothing is removed inside of a reference. -/
def expected (inside : Bool) (v : Value) : Value := if inside then v else v.withoutFetchUrls

section

variable {fields : List (String × Value)} {inside remove remove' : Bool} {f g : Value → Value}

/-- What is left of an object. -/
theorem expected_object : expected inside (object fields) =
    object (dropFetchUrl (!inside && isBlobRef fields)
      (fields.map fun x => (x.1, expected (inside || isBlobRef fields) x.2))) := by
  have hinside (fields : List (String × Value)) :
      (fields.map fun x => (x.1, expected true x.2)) = fields := List.map_id _
  rcases inside with - | -
  · rcases href : isBlobRef fields with - | -
    · have hout : expected false (object fields) = object (withoutFields fields) := by
        rw [expected, if_neg Bool.false_ne_true, withoutFetchUrls, href]
        rfl
      rw [hout, withoutFields_eq]
      exact congrArg object dropFetchUrl_false.symm
    · have hout : expected false (object fields) = object (dropFetchUrl true fields) := by
        rw [expected, if_neg Bool.false_ne_true, withoutFetchUrls, if_pos href]
      rw [hout, Bool.or_true, hinside]
      rfl
  · rw [Bool.true_or, hinside]
    exact congrArg object dropFetchUrl_false.symm

theorem withoutList_eq (xs : List Value) : withoutList xs = xs.map withoutFetchUrls := by
  induction xs with
  | nil => rfl
  | cons x xs ih => rw [withoutList, ih, List.map_cons]

/-- What is left of an array. -/
theorem expected_array (xs : List Value) :
    expected inside (array xs) = array (xs.map (expected inside)) := by
  rcases inside with - | -
  · exact congrArg array (withoutList_eq xs)
  · exact congrArg array (List.map_id xs).symm

/-- An address is left exactly if it was there and is not dropped. -/
theorem hasFetchUrl_dropFetchUrl :
    hasFetchUrl (dropFetchUrl remove (fields.map fun x => (x.1, f x.2))) =
      (!remove && hasFetchUrl fields) := by
  rw [hasFetchUrl, hasFetchUrl, dropFetchUrl, List.any_filter, List.any_map]
  rcases remove with - | -
  · exact List.any_congr rfl fun x => by simp
  · rw [Bool.not_true, Bool.false_and, List.any_eq_false]
    simp

/-- Whether to drop an address that is not there does not matter. -/
theorem dropFetchUrl_congr (h : hasFetchUrl fields → remove' = remove) :
    dropFetchUrl remove fields = dropFetchUrl remove' fields := by
  by_cases hurl : hasFetchUrl fields
  · rw [h hurl]
  · have hself (r : Bool) : dropFetchUrl r fields = fields := by
      refine List.filter_eq_self.2 fun x hx => ?_
      have hkey : x.1 ≠ "fetch_url" := fun hkey =>
        hurl (List.any_eq_true.2 ⟨x, hx, decide_eq_true hkey⟩)
      simp [hkey]
    rw [hself, hself]

/-- The same fields are removed, unless there are none. -/
theorem dropFetchUrl_map_eq_iff :
    dropFetchUrl remove (fields.map fun x => (x.1, f x.2)) =
        dropFetchUrl remove' (fields.map fun x => (x.1, g x.2)) ↔
      (hasFetchUrl fields → remove' = remove) ∧
        ∀ x ∈ fields, (remove' = true ∧ x.1 = "fetch_url") ∨ f x.2 = g x.2 := by
  have hmem (x : String × Value) (hx : x ∈ fields) :
      x ∈ dropFetchUrl remove' fields ↔ ¬(remove' = true ∧ x.1 = "fetch_url") := by
    rw [dropFetchUrl, List.mem_filter, and_iff_right hx]
    rcases remove' <;> simp
  constructor
  · intro heq
    have hsame : hasFetchUrl fields → remove' = remove := fun hurl => by
      have hany := congrArg hasFetchUrl heq
      rw [hasFetchUrl_dropFetchUrl, hasFetchUrl_dropFetchUrl, hurl, Bool.and_true,
        Bool.and_true] at hany
      exact (Bool.not_inj hany).symm
    refine ⟨hsame, fun x hx => or_iff_not_imp_left.2 fun hkept => ?_⟩
    rw [dropFetchUrl_map, dropFetchUrl_map, dropFetchUrl_congr hsame] at heq
    exact (Prod.mk.inj (List.map_inj_left.1 heq x ((hmem x hx).2 hkept))).2
  · rintro ⟨hsame, hvalues⟩
    rw [dropFetchUrl_map, dropFetchUrl_map, dropFetchUrl_congr hsame]
    refine List.map_inj_left.2 fun x hx => ?_
    have hx' := List.mem_of_mem_filter hx
    rw [(hvalues x hx').resolve_left ((hmem x hx').1 hx)]

end

mutual

/-- The addresses that are removed are those of the references, exactly if the two
    recursions agree. -/
theorem stripAll_eq_iff : ∀ (inside : Bool) (hashes : List String) (v : Value),
    stripAll hashes v = expected inside v ↔ agrees inside hashes v
  | inside, hashes, .object fields => by
    rw [stripAll, expected_object, stripAllFields_eq, object.injEq, dropFetchUrl_map_eq_iff,
      stripAllFields_eq_iff _ _ _ fields, agrees, Bool.and_eq_true, Bool.or_eq_true,
      Bool.not_eq_true', beq_iff_eq, ← Bool.not_eq_true, ← imp_iff_not_or]
  | inside, hashes, .array xs => by
    rw [stripAll, agrees, expected_array, array.injEq, stripAllList_eq_iff inside hashes xs]
  | inside, _, .null | inside, _, .bool _ | inside, _, .number _ | inside, _, .string _ => by
    rcases inside <;> exact iff_of_true rfl rfl

theorem stripAllList_eq_iff : ∀ (inside : Bool) (hashes : List String) (xs : List Value),
    stripAllList hashes xs = xs.map (expected inside) ↔ agreesList inside hashes xs
  | _, _, [] => iff_of_true rfl rfl
  | inside, hashes, x :: xs => by
    rw [stripAllList, List.map_cons, List.cons.injEq, stripAll_eq_iff inside hashes x,
      stripAllList_eq_iff inside hashes xs, agreesList, Bool.and_eq_true]

theorem stripAllFields_eq_iff : ∀ (inside : Bool) (hashes : List String) (removed : Bool)
    (fields : List (String × Value)),
    (∀ x ∈ fields, (removed = true ∧ x.1 = "fetch_url") ∨
        stripAll hashes x.2 = expected inside x.2) ↔
      agreesFields inside hashes removed fields
  | _, _, _, [] => iff_of_true (List.forall_mem_nil _) rfl
  | inside, hashes, removed, (k, x) :: fields => by
    rw [List.forall_mem_cons, stripAll_eq_iff inside hashes x,
      stripAllFields_eq_iff inside hashes removed fields, agreesFields, Bool.and_eq_true,
      Bool.or_eq_true, Bool.and_eq_true, decide_eq_true_eq]

end

/-! ## References -/

section

variable {fields : List (String × Value)}

theorem asStr_withoutFetchUrls : ∀ v : Value, v.withoutFetchUrls.asStr = v.asStr
  | .object fields => by
    rw [withoutFetchUrls]
    split_ifs <;> rfl
  | .null | .bool _ | .number _ | .string _ | .array _ => rfl

theorem asU64_withoutFetchUrls : ∀ v : Value, v.withoutFetchUrls.asU64 = v.asU64
  | .object fields => by
    rw [withoutFetchUrls]
    split_ifs <;> rfl
  | .null | .bool _ | .number _ | .string _ | .array _ => rfl

/-- What is read of an object that is a reference. -/
theorem parseBlobRef_object : (object fields).parseBlobRef =
    (hashOf fields).bind fun hash =>
      if (validateHash hash).isOk then
        ((fields.lookup "size").bind asU64).bind fun size =>
          ((fields.lookup "mime").bind asStr).bind fun mime =>
            some ⟨hash, size, mime, (fields.lookup "fetch_url").bind asStr,
              (fields.lookup "name").bind asStr⟩
      else none := by
  simp only [hashOf, Option.bind_assoc]
  rfl

/-- An address that is dropped is gone. -/
theorem lookup_dropFetchUrl_self : (dropFetchUrl true fields).lookup "fetch_url" = none := by
  rw [List.lookup_eq_none_iff]
  intro x hx
  have hkey := (List.mem_filter.1 hx).2
  simp only [Bool.true_and, Bool.not_eq_true', decide_eq_false_iff_not] at hkey
  exact bne_iff_ne.2 (Ne.symm hkey)

/-- A reference whose address is removed is the same reference. -/
theorem parseBlobRef_dropFetchUrl : (object (dropFetchUrl true fields)).parseBlobRef =
    (object fields).parseBlobRef.map fun br => { br with fetchUrl := none } := by
  rw [parseBlobRef_object, parseBlobRef_object, hashOf_dropFetchUrl,
    lookup_dropFetchUrl (k := "size") (by decide), lookup_dropFetchUrl (k := "mime") (by decide),
    lookup_dropFetchUrl (k := "name") (by decide), lookup_dropFetchUrl_self]
  rcases hashOf fields with - | hash
  · rfl
  · simp only [Option.bind_some]
    split_ifs
    · rcases (fields.lookup "size").bind asU64 with - | size
      · rfl
      · rcases (fields.lookup "mime").bind asStr with - | mime <;> rfl
    · rfl

/-- Nothing becomes a reference, or is not one any more, by what is removed in its
    fields. -/
theorem parseBlobRef_withoutFields :
    (object (withoutFields fields)).parseBlobRef = (object fields).parseBlobRef := by
  have hstr (k : String) : ((withoutFields fields).lookup k).bind asStr =
      (fields.lookup k).bind asStr := by
    rw [withoutFields_eq, lookup_map, Option.bind_map]
    exact congrArg _ (funext asStr_withoutFetchUrls)
  have hnat (k : String) : ((withoutFields fields).lookup k).bind asU64 =
      (fields.lookup k).bind asU64 := by
    rw [withoutFields_eq, lookup_map, Option.bind_map]
    exact congrArg _ (funext asU64_withoutFetchUrls)
  simp only [parseBlobRef_object, hashOf, hstr, hnat]

end

mutual

/-- The same references are found, without their addresses. -/
theorem collectBlobRefs_withoutFetchUrls : ∀ v : Value, v.withoutFetchUrls.collectBlobRefs =
    v.collectBlobRefs.map fun br => { br with fetchUrl := none }
  | .object fields => by
    rw [withoutFetchUrls]
    rcases href : (object fields).parseBlobRef with - | br
    · rw [isBlobRef, href, Option.isSome_none, if_neg Bool.false_ne_true, collectBlobRefs,
        collectBlobRefs, parseBlobRef_withoutFields, href]
      exact collectFields_withoutFields fields
    · rw [isBlobRef, href, Option.isSome_some, if_pos rfl, collectBlobRefs, collectBlobRefs,
        parseBlobRef_dropFetchUrl, href]
      rfl
  | .array xs => by
    rw [withoutFetchUrls, collectBlobRefs, collectBlobRefs]
    exact collectList_withoutList xs
  | .null | .bool _ | .number _ | .string _ => rfl

theorem collectList_withoutList : ∀ xs : List Value, collectList (withoutList xs) =
    (collectList xs).map fun br => { br with fetchUrl := none }
  | [] => rfl
  | x :: xs => by
    rw [withoutList, collectList, collectList, List.map_append,
      collectBlobRefs_withoutFetchUrls x, collectList_withoutList xs]

theorem collectFields_withoutFields : ∀ fields : List (String × Value),
    collectFields (withoutFields fields) =
      (collectFields fields).map fun br => { br with fetchUrl := none }
  | [] => rfl
  | (k, x) :: fields => by
    rw [withoutFields, collectFields, collectFields, List.map_append,
      collectBlobRefs_withoutFetchUrls x, collectFields_withoutFields fields]

end

end Value

namespace Invoker

variable {N : Invoker} {capability : String} {owner : BlobOwner} {store store' : BlobStore}
  {recipient : Except String String} {answers : ℕ → ℤ × Except String Bytes} {value out : Value}

/-- What is returned when all the blobs are fetched. -/
theorem fetchRefs_value {refs : List (BlobRef × ℤ × Except String Bytes)}
    (h : N.fetchRefs capability owner store value refs = (store', .ok out)) :
    out = value.stripAll (refs.map (·.1.hash)) := by
  induction refs generalizing store value with
  | nil => exact (Except.ok.inj (congrArg Prod.snd h)).symm.trans value.stripAll_nil.symm
  | cons x refs ih =>
    obtain ⟨br, now, downloaded⟩ := x
    rw [fetchRefs] at h
    split at h
    · cases congrArg Prod.snd h
    · rw [ih h, List.map_cons, Value.stripAll_cons]

theorem fetchOutputBlobs_value
    (h : N.fetchOutputBlobs capability owner store recipient answers value = (store', .ok out)) :
    out = value.stripAll (value.collectBlobRefs.map (·.hash)) := by
  simp only [fetchOutputBlobs] at h
  split at h
  · next hnil =>
    rw [hnil, List.map_nil, Value.stripAll_nil]
    exact (Except.ok.inj (congrArg Prod.snd h)).symm
  · rcases recipient with e | recipient
    · cases congrArg Prod.snd h
    · rw [fetchRefs_value h]
      congr 1
      exact List.ext_getElem (by simp) fun i _ _ => by simp

/-- A call that succeeds returns the value without the addresses of the references to
    blobs that are found in it, of which none is left, exactly if these are the objects
    with an address that are reached by their hash. -/
theorem fetchOutputBlobs_strips_iff
    (h : N.fetchOutputBlobs capability owner store recipient answers value = (store', .ok out)) :
    (out = value.withoutFetchUrls ∧ ∀ br ∈ out.collectBlobRefs, br.fetchUrl = none) ↔
      value.agrees false (value.collectBlobRefs.map (·.hash)) := by
  rw [← Value.stripAll_eq_iff, ← fetchOutputBlobs_value h]
  refine and_iff_left_of_imp ?_
  rintro rfl
  rw [Value.collectBlobRefs_withoutFetchUrls, List.forall_mem_map]
  exact fun _ _ => rfl

end Invoker

/-! ## References and what resembles them -/

/-- A reference to the byte `a`, with an address. -/
def addressed : Value :=
  .object [("fetch_url", .string "http://h/a"), ("hash", .string (hexCrypto.hashBytes [97])),
    ("mime", .string "text/plain"), ("size", .number (.int 1))]

/-- An object with the hash of the reference, which is none. -/
def lookalike (key : String) (v : Value) : Value :=
  .object [(key, v), ("hash", .string (hexCrypto.hashBytes [97]))]

/-- The result that a call returns, if it succeeds. -/
def fetched (value : Value) : Except String Value :=
  (toyInvoker.fetchOutputBlobs "make" ⟨some "b"⟩ ⟨BlobIndex.empty.performAll [], ∅⟩ (.ok "n3:p")
    (fun _ => (10, .ok [97])) value).2

theorem fetched_eq (value : Value) : ∃ store', toyInvoker.fetchOutputBlobs "make" ⟨some "b"⟩
    ⟨BlobIndex.empty.performAll [], ∅⟩ (.ok "n3:p") (fun _ => (10, .ok [97])) value =
      (store', fetched value) := ⟨_, rfl⟩

/-- The address of a reference is removed, also if it comes twice. -/
theorem strips_addressed : ∃ out, fetched (.array [addressed, addressed]) = .ok out ∧
    out = (Value.array [addressed, addressed]).withoutFetchUrls ∧
      ∀ br ∈ out.collectBlobRefs, br.fetchUrl = none := by
  obtain ⟨store', hcall⟩ := fetched_eq (.array [addressed, addressed])
  have hout : fetched (.array [addressed, addressed]) =
      .ok (Value.array [addressed, addressed]).withoutFetchUrls := by decide
  rw [hout] at hcall ⊢
  exact ⟨_, rfl, (Invoker.fetchOutputBlobs_strips_iff hcall).2 (by decide)⟩

/-- What resembles a reference loses its address, and a reference inside of it keeps
    its own. -/
theorem strips_lookalike :
    (∃ out, fetched (.array [addressed, lookalike "fetch_url" (.string "http://h/b")]) = .ok out ∧
      out ≠ (Value.array
        [addressed, lookalike "fetch_url" (.string "http://h/b")]).withoutFetchUrls) ∧
    ∃ out, fetched (lookalike "doc" addressed) = .ok out ∧
      ∃ br ∈ out.collectBlobRefs, br.fetchUrl = some "http://h/a" := by
  refine ⟨⟨.array [addressed.withoutFetchUrls,
    .object [("hash", .string (hexCrypto.hashBytes [97]))]], by decide,
    by decide⟩, ?_⟩
  exact ⟨lookalike "doc" addressed, by decide,
    ⟨hexCrypto.hashBytes [97], 1, "text/plain", some "http://h/a", none⟩, by decide, rfl⟩

end N3ur0n
