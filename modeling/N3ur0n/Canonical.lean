import Mathlib.Data.String.Basic
import Mathlib.Data.Rat.Defs
import N3ur0n.JsonText
import N3ur0n.Lib.Sorted

/-!
# Canonical JSON

The canonical text of a value (JCS): the keys of its objects in the order of
their UTF-16 code units, and its numbers written as doubles, by parameters: the
double next to a number and the text of a double (`Jcs`).

A number is written exactly if it is a double (`Jcs.Exact`). Then the canonical
text determines the number, but not whether it is kept as an integer or as a
double, and values with equal texts are the same up to that (`Jcs.Same`).

* `Value.collect`: the value that the maps of `serde_json` keep, in the order of
  their keys;
* `Jcs.same_of_text_eq`: values with the same canonical text are the same.
-/

namespace N3ur0n

namespace Value

/-! ## Numbers -/

mutual

/-- The value with every number `n` replaced by `f n`. -/
def mapNumbers (f : Number → Number) : Value → Value
  | .number n => .number (f n)
  | .array xs => .array (mapNumbersList f xs)
  | .object fs => .object (mapNumbersFields f fs)
  | v => v

def mapNumbersList (f : Number → Number) : List Value → List Value
  | [] => []
  | x :: xs => mapNumbers f x :: mapNumbersList f xs

def mapNumbersFields (f : Number → Number) : List (String × Value) → List (String × Value)
  | [] => []
  | (k, x) :: fs => (k, mapNumbers f x) :: mapNumbersFields f fs

end

/-! ## Orders of keys -/

variable {κ : Type} [LinearOrder κ]

mutual

/-- The value with the entries of every object in the order of their keys, one
    for each key. -/
def sortBy (key : String → κ) : Value → Value
  | .array xs => .array (sortByList key xs)
  | .object fs => .object (Sorted.sort key (sortByFields key fs))
  | v => v

def sortByList (key : String → κ) : List Value → List Value
  | [] => []
  | x :: xs => sortBy key x :: sortByList key xs

def sortByFields (key : String → κ) : List (String × Value) → List (String × Value)
  | [] => []
  | (k, x) :: fs => (k, sortBy key x) :: sortByFields key fs

end

/-- The value of the maps of `serde_json`. -/
def collect (v : Value) : Value := sortBy id v

mutual

/-- The keys of every object are in order. -/
def Ordered (key : String → κ) : Value → Prop
  | .array xs => OrderedList key xs
  | .object fs => Sorted.InOrder key fs ∧ OrderedFields key fs
  | _ => True

def OrderedList (key : String → κ) : List Value → Prop
  | [] => True
  | x :: xs => Ordered key x ∧ OrderedList key xs

def OrderedFields (key : String → κ) : List (String × Value) → Prop
  | [] => True
  | (_, x) :: fs => Ordered key x ∧ OrderedFields key fs

end

/-- An entry with its value changed. -/
def onValue (f : Value → Value) (x : String × Value) : String × Value := (x.1, f x.2)

theorem sortByList_eq {key : String → κ} {xs : List Value} :
    sortByList key xs = xs.map (sortBy key) := by
  induction xs with
  | nil => rfl
  | cons x xs ih => rw [sortByList, ih, List.map_cons]

theorem sortByFields_eq {key : String → κ} {fs : List (String × Value)} :
    sortByFields key fs = fs.map (onValue (sortBy key)) := by
  induction fs with
  | nil => rfl
  | cons x fs ih =>
    obtain ⟨k, v⟩ := x
    rw [sortByFields, ih, List.map_cons]
    rfl

theorem keys_onValue {ι : Type} {key : String → ι} [LinearOrder ι] {f : Value → Value}
    {fs : List (String × Value)} :
    Sorted.keys key (fs.map (onValue f)) = Sorted.keys key fs := by
  rw [Sorted.keys, Sorted.keys, List.map_map]
  rfl

variable {ι : Type} [LinearOrder ι] {key : String → κ} {key' : String → ι}

mutual

/-- A value whose keys are in order is left as it is. -/
theorem sortBy_of_ordered : ∀ {v : Value}, Ordered key v → sortBy key v = v
  | .null, _ | .bool _, _ | .number _, _ | .string _, _ => rfl
  | .array xs, h => by rw [sortBy, sortByList_of_ordered h]
  | .object fs, ⟨hfs, hvs⟩ => by
    rw [sortBy, sortByFields_of_ordered hvs, Sorted.sort_of_perm hfs (List.Perm.refl _)]

theorem sortByList_of_ordered : ∀ {xs : List Value}, OrderedList key xs → sortByList key xs = xs
  | [], _ => rfl
  | x :: xs, ⟨hx, hxs⟩ => by rw [sortByList, sortBy_of_ordered hx, sortByList_of_ordered hxs]

theorem sortByFields_of_ordered :
    ∀ {fs : List (String × Value)}, OrderedFields key fs → sortByFields key fs = fs
  | [], _ => rfl
  | (k, x) :: fs, ⟨hx, hfs⟩ => by
    rw [sortByFields, sortBy_of_ordered hx, sortByFields_of_ordered hfs]

end

omit [LinearOrder ι] in
theorem nodup_keys (hkey' : Function.Injective key') {fs : List (String × Value)}
    (h : Sorted.InOrder key fs) : (Sorted.keys key' fs).Nodup := by
  have hnodup : (fs.map Prod.fst).Nodup := by
    refine List.Nodup.of_map key ?_
    rw [List.map_map]
    exact h.nodup
  have hmap := hnodup.map hkey'
  rwa [List.map_map] at hmap

mutual

/-- A value in one order is found again, after it was put in another one. -/
theorem sortBy_sortBy (hkey' : Function.Injective key') :
    ∀ {v : Value}, Ordered key v → sortBy key (sortBy key' v) = v
  | .null, _ | .bool _, _ | .number _, _ | .string _, _ => rfl
  | .array xs, h => by rw [sortBy, sortBy, sortByList_sortByList hkey' h]
  | .object fs, ⟨hfs, hvs⟩ => by
    have hnodup : (Sorted.keys key' (sortByFields key' fs)).Nodup := by
      rw [sortByFields_eq, keys_onValue]
      exact nodup_keys hkey' hfs
    have hperm := (Sorted.sort_perm hnodup).map (onValue (sortBy key))
    rw [← sortByFields_eq, ← sortByFields_eq, sortByFields_sortByFields hkey' hvs] at hperm
    rw [sortBy, sortBy, Sorted.sort_of_perm hfs hperm]

theorem sortByList_sortByList (hkey' : Function.Injective key') :
    ∀ {xs : List Value}, OrderedList key xs → sortByList key (sortByList key' xs) = xs
  | [], _ => rfl
  | x :: xs, ⟨hx, hxs⟩ => by
    rw [sortByList, sortByList, sortBy_sortBy hkey' hx, sortByList_sortByList hkey' hxs]

theorem sortByFields_sortByFields (hkey' : Function.Injective key') :
    ∀ {fs : List (String × Value)}, OrderedFields key fs →
      sortByFields key (sortByFields key' fs) = fs
  | [], _ => rfl
  | (k, x) :: fs, ⟨hx, hfs⟩ => by
    rw [sortByFields, sortByFields, sortBy_sortBy hkey' hx, sortByFields_sortByFields hkey' hfs]

end

/-- Values in order are equal, if they are after they were put in another one. -/
theorem eq_of_sortBy_eq (hkey' : Function.Injective key') {v w : Value} (hv : Ordered key v)
    (hw : Ordered key w) (h : sortBy key' v = sortBy key' w) : v = w := by
  rw [← sortBy_sortBy hkey' hv, h, sortBy_sortBy hkey' hw]

/-! ## UTF-16 -/

/-- The UTF-16 code units of a character. -/
def codeUnits (c : Char) : List ℕ :=
  if c.toNat < 0x10000 then [c.toNat]
  else [0xD800 + (c.toNat - 0x10000) / 1024, 0xDC00 + (c.toNat - 0x10000) % 1024]

/-- The UTF-16 code units of a text. -/
def utf16 (s : String) : List ℕ := s.toList.flatMap codeUnits

/-- The code units of a character are no beginning of those of another one. -/
theorem codeUnits_append {c d : Char} {l l' : List ℕ}
    (h : codeUnits c ++ l = codeUnits d ++ l') : c = d ∧ l = l' := by
  have hvalid : ∀ e : Char, e.toNat < 0xD800 ∨ 0xDFFF < e.toNat := fun e => by
    have := e.valid
    unfold UInt32.isValidChar Nat.isValidChar at this
    have hval : e.toNat = e.val.toNat := rfl
    omega
  have hmax : ∀ e : Char, e.toNat < 0x110000 := fun e => by
    have := e.valid
    unfold UInt32.isValidChar Nat.isValidChar at this
    have hval : e.toNat = e.val.toNat := rfl
    omega
  have hinj : c.toNat = d.toNat → c = d := fun hcd => Char.toNat_inj.1 hcd
  have hc := hvalid c
  have hd := hvalid d
  have hc' := hmax c
  have hd' := hmax d
  unfold codeUnits at h
  split at h
  · split at h
    · obtain ⟨hcd, hl⟩ := List.cons.inj h
      exact ⟨hinj hcd, hl⟩
    · have := (List.cons.inj h).1
      omega
  · split at h
    · have := (List.cons.inj h).1
      omega
    · obtain ⟨hlead, h⟩ := List.cons.inj h
      obtain ⟨htrail, hl⟩ := List.cons.inj h
      exact ⟨hinj (by omega), hl⟩

theorem codeUnits_ne_nil (c : Char) : codeUnits c ≠ [] := by
  unfold codeUnits
  split
  · exact List.cons_ne_nil _ _
  · exact List.cons_ne_nil _ _

theorem utf16_injective : Function.Injective utf16 := by
  have hlist : ∀ s t : List Char, s.flatMap codeUnits = t.flatMap codeUnits → s = t := by
    intro s
    induction s with
    | nil =>
      rintro (_ | ⟨d, t⟩) h
      · rfl
      · rw [List.flatMap_cons] at h
        exact absurd (List.append_eq_nil_iff.1 h.symm).1 (codeUnits_ne_nil d)
    | cons c s ih =>
      rintro (_ | ⟨d, t⟩) h
      · rw [List.flatMap_cons] at h
        exact absurd (List.append_eq_nil_iff.1 h).1 (codeUnits_ne_nil c)
      · rw [List.flatMap_cons, List.flatMap_cons] at h
        obtain ⟨hcd, hst⟩ := codeUnits_append h
        rw [hcd, ih t hst]
  intro s t h
  exact String.toList_inj.1 (hlist _ _ h)

/-! ## Numbers of a value in order -/

theorem numbersFields_eq {fs : List (String × Value)} :
    numbersFields fs = fs.flatMap fun x => numbers x.2 := by
  induction fs with
  | nil => rfl
  | cons x fs ih =>
    obtain ⟨k, v⟩ := x
    rw [numbersFields, ih, List.flatMap_cons]

mutual

theorem mem_numbers_sortBy {n : Number} :
    ∀ {v : Value}, n ∈ numbers (sortBy key v) → n ∈ numbers v
  | .null, h | .bool _, h | .number _, h | .string _, h => h
  | .array _, h => mem_numbersList_sortBy h
  | .object fs, h => by
    change n ∈ numbersFields (Sorted.sort key (sortByFields key fs)) at h
    rw [numbersFields_eq] at h
    obtain ⟨x, hx, hn⟩ := List.mem_flatMap.1 h
    have hmem : n ∈ numbersFields (sortByFields key fs) := by
      rw [numbersFields_eq]
      exact List.mem_flatMap.2 ⟨x, Sorted.mem_sort hx, hn⟩
    exact mem_numbersFields_sortBy hmem

theorem mem_numbersList_sortBy {n : Number} :
    ∀ {xs : List Value}, n ∈ numbersList (sortByList key xs) → n ∈ numbersList xs
  | [], h => h
  | _ :: _, h => List.mem_append.2 <| (List.mem_append.1 h).imp mem_numbers_sortBy
      mem_numbersList_sortBy

theorem mem_numbersFields_sortBy {n : Number} :
    ∀ {fs : List (String × Value)}, n ∈ numbersFields (sortByFields key fs) → n ∈ numbersFields fs
  | [], h => h
  | (_, _) :: _, h => List.mem_append.2 <| (List.mem_append.1 h).imp mem_numbers_sortBy
      mem_numbersFields_sortBy

end

mutual

/-- Sorting entries does not nest a value deeper. -/
theorem depth_sortBy_le : ∀ {v : Value}, (sortBy key v).depth ≤ v.depth
  | .null | .bool _ | .number _ | .string _ => Nat.le_refl _
  | .array _ => Nat.succ_le_succ depthList_sortByList_le
  | .object fs => by
    refine Nat.succ_le_succ (depthFields_le.2 fun x hx => ?_)
    exact depthFields_le.1 depthFields_sortByFields_le x (Sorted.mem_sort hx)

theorem depthList_sortByList_le : ∀ {xs : List Value},
    depthList (sortByList key xs) ≤ depthList xs
  | [] => Nat.le_refl _
  | _ :: _ => max_le_max depth_sortBy_le depthList_sortByList_le

theorem depthFields_sortByFields_le : ∀ {fs : List (String × Value)},
    depthFields (sortByFields key fs) ≤ depthFields fs
  | [] => Nat.le_refl _
  | (_, _) :: _ => max_le_max depth_sortBy_le depthFields_sortByFields_le

end
variable {f : Number → Number}

mutual

theorem mem_numbers_mapNumbers {n : Number} :
    ∀ {v : Value}, n ∈ numbers (mapNumbers f v) → ∃ m, n = f m
  | .null, h | .bool _, h | .string _, h => absurd h List.not_mem_nil
  | .number m, h => ⟨m, List.mem_singleton.1 h⟩
  | .array _, h => mem_numbersList_mapNumbers h
  | .object _, h => mem_numbersFields_mapNumbers h

theorem mem_numbersList_mapNumbers {n : Number} :
    ∀ {xs : List Value}, n ∈ numbersList (mapNumbersList f xs) → ∃ m, n = f m
  | [], h => absurd h List.not_mem_nil
  | _ :: _, h => (List.mem_append.1 h).elim mem_numbers_mapNumbers mem_numbersList_mapNumbers

theorem mem_numbersFields_mapNumbers {n : Number} :
    ∀ {fs : List (String × Value)}, n ∈ numbersFields (mapNumbersFields f fs) → ∃ m, n = f m
  | [], h => absurd h List.not_mem_nil
  | (_, _) :: _, h => (List.mem_append.1 h).elim mem_numbers_mapNumbers mem_numbersFields_mapNumbers

end

theorem mapNumbersFields_eq {fs : List (String × Value)} :
    mapNumbersFields f fs = fs.map (onValue (mapNumbers f)) := by
  induction fs with
  | nil => rfl
  | cons x fs ih =>
    obtain ⟨k, v⟩ := x
    rw [mapNumbersFields, ih, List.map_cons]
    rfl

mutual

theorem Ordered.mapNumbers : ∀ {v : Value}, Ordered key v → Ordered key (mapNumbers f v)
  | .null, _ | .bool _, _ | .number _, _ | .string _, _ => trivial
  | .array _, h => OrderedList.mapNumbers h
  | .object fs, ⟨hfs, hvs⟩ => by
    refine ⟨?_, OrderedFields.mapNumbers hvs⟩
    rw [mapNumbersFields_eq]
    exact List.pairwise_map.2 hfs

theorem OrderedList.mapNumbers :
    ∀ {xs : List Value}, OrderedList key xs → OrderedList key (mapNumbersList f xs)
  | [], _ => trivial
  | _ :: _, ⟨hx, hxs⟩ => ⟨Ordered.mapNumbers hx, OrderedList.mapNumbers hxs⟩

theorem OrderedFields.mapNumbers :
    ∀ {fs : List (String × Value)}, OrderedFields key fs → OrderedFields key (mapNumbersFields f fs)
  | [], _ => trivial
  | (_, _) :: _, ⟨hx, hfs⟩ => ⟨Ordered.mapNumbers hx, OrderedFields.mapNumbers hfs⟩

end

end Value

/-! ## Canonical texts -/

/-- The numbers of canonical texts. -/
structure Jcs where
  /-- The double next to a number. -/
  double : Number → ℚ
  /-- The text of a double. -/
  text : ℚ → String

namespace Jcs

variable (J : Jcs)

/-- A number as it is written. -/
def number (n : Number) : Number := .float (J.text (J.double n))

/-- The canonical text of a value. -/
def toText (v : Value) : List Char := ((v.mapNumbers J.number).sortBy Value.utf16).render

/-- What a number is worth: a double is what it is. -/
def value : Number → ℚ
  | .int i => i
  | n => J.double n

/-- A number that is written exactly, as it is a double. -/
def Exact (n : Number) : Prop := J.double n = J.value n

mutual

/-- Values with the same numbers, be these kept as integers or as doubles. -/
def Same : Value → Value → Prop
  | .number m, .number n => J.value m = J.value n
  | .array xs, .array ys => SameList xs ys
  | .object fs, .object gs => SameFields fs gs
  | v, w => v = w

def SameList : List Value → List Value → Prop
  | [], [] => True
  | x :: xs, y :: ys => Same x y ∧ SameList xs ys
  | _, _ => False

def SameFields : List (String × Value) → List (String × Value) → Prop
  | [], [] => True
  | (k, x) :: fs, (l, y) :: gs => (k = l ∧ Same x y) ∧ SameFields fs gs
  | _, _ => False

end

/-- What is relied on: the text of a double is a number, and reads back as it. -/
structure Conforms : Prop where
  isNumber : ∀ n, J.text (J.double n) ≠ "" ∧ ∀ c ∈ (J.text (J.double n)).toList, Json.isNumberChar c
  injective : ∀ m n, J.text (J.double m) = J.text (J.double n) → J.double m = J.double n

variable {J}

/-- A number that is kept as its text. -/
def rawNumber (t : List Char) : Option Number := some (.float (String.ofList t))

/-- A canonical text is read as the value that is written, its numbers as texts. -/
theorem readText_toText (hJ : J.Conforms) {v : Value} {limit : ℕ}
    (h : ((v.mapNumbers J.number).sortBy Value.utf16).depth ≤ limit) :
    Json.readText rawNumber limit (J.toText v) =
      some ((v.mapNumbers J.number).sortBy Value.utf16) := by
  refine (Value.readText_render fun n hn => ?_).trans (if_pos h)
  obtain ⟨m, rfl⟩ := Value.mem_numbers_mapNumbers (Value.mem_numbers_sortBy hn)
  obtain ⟨hne, hchars⟩ := hJ.isNumber m
  refine ⟨⟨fun hnil => hne (String.toList_inj.1 hnil), hchars⟩, ?_⟩
  rw [number, Value.Number.render, rawNumber, String.ofList_toList]

/-- Canonical texts determine the value, up to its numbers. -/
theorem mapNumbers_eq_of_toText_eq (hJ : J.Conforms) {v w : Value} (hv : v.Ordered id)
    (hw : w.Ordered id) (h : J.toText v = J.toText w) :
    v.mapNumbers J.number = w.mapNumbers J.number := by
  have hread := readText_toText hJ (v := v) (Nat.le_max_left _
    ((w.mapNumbers J.number).sortBy Value.utf16).depth)
  rw [h, readText_toText hJ (Nat.le_max_right _ _)] at hread
  exact Value.eq_of_sortBy_eq Value.utf16_injective hv.mapNumbers hw.mapNumbers
    (Option.some.inj hread).symm

/-- The order of the entries of an object does not matter. -/
theorem toText_perm {fs gs : List (String × Value)} (hp : fs.Perm gs) (hg : Sorted.InOrder id gs) :
    J.toText (.object fs) = J.toText (.object gs) := by
  have hperm : (Value.sortByFields Value.utf16 (Value.mapNumbersFields J.number gs)).Perm
      (Value.sortByFields Value.utf16 (Value.mapNumbersFields J.number fs)) := by
    simp only [Value.sortByFields_eq, Value.mapNumbersFields_eq]
    exact ((hp.symm.map _).map _)
  have hnodup : (Sorted.keys Value.utf16
      (Value.sortByFields Value.utf16 (Value.mapNumbersFields J.number gs))).Nodup := by
    rw [Value.sortByFields_eq, Value.keys_onValue, Value.mapNumbersFields_eq, Value.keys_onValue]
    exact Value.nodup_keys Value.utf16_injective hg
  rw [toText, toText, Value.mapNumbers, Value.mapNumbers, Value.sortBy, Value.sortBy,
    Sorted.sort_congr hnodup hperm]

/-- Numbers that are written exactly, in the same way, are the same. -/
theorem value_eq_of_number_eq (hJ : J.Conforms) {m n : Number} (hm : J.Exact m) (hn : J.Exact n)
    (h : J.number m = J.number n) : J.value m = J.value n := by
  rw [← hm, ← hn]
  exact hJ.injective m n (Number.float.inj h)

mutual

theorem same_of_mapNumbers_eq (hJ : J.Conforms) : ∀ {v w : Value},
    (∀ n ∈ v.numbers, J.Exact n) → (∀ n ∈ w.numbers, J.Exact n) →
      v.mapNumbers J.number = w.mapNumbers J.number → J.Same v w
  | .number m, .number n, hm, hn, h =>
    value_eq_of_number_eq hJ (hm m (List.mem_singleton_self m)) (hn n (List.mem_singleton_self n))
      (Value.number.inj h)
  | .array _, .array _, hv, hw, h => sameList_of_mapNumbers_eq hJ hv hw (Value.array.inj h)
  | .object _, .object _, hv, hw, h => sameFields_of_mapNumbers_eq hJ hv hw (Value.object.inj h)
  | .null, w, _, _, h => by
    cases w
    all_goals first | exact h | cases h
  | .bool b, w, _, _, h => by
    cases w
    all_goals first | exact h | cases h
  | .string s, w, _, _, h => by
    cases w
    all_goals first | exact h | cases h

theorem sameList_of_mapNumbers_eq (hJ : J.Conforms) : ∀ {xs ys : List Value},
    (∀ n ∈ Value.numbersList xs, J.Exact n) → (∀ n ∈ Value.numbersList ys, J.Exact n) →
      Value.mapNumbersList J.number xs = Value.mapNumbersList J.number ys → J.SameList xs ys
  | [], [], _, _, _ => trivial
  | x :: xs, y :: ys, hv, hw, h => by
    obtain ⟨hx, hxs⟩ := List.forall_mem_append.1 hv
    obtain ⟨hy, hys⟩ := List.forall_mem_append.1 hw
    obtain ⟨hxy, h⟩ := List.cons.inj h
    exact ⟨same_of_mapNumbers_eq hJ hx hy hxy, sameList_of_mapNumbers_eq hJ hxs hys h⟩

theorem sameFields_of_mapNumbers_eq (hJ : J.Conforms) : ∀ {fs gs : List (String × Value)},
    (∀ n ∈ Value.numbersFields fs, J.Exact n) → (∀ n ∈ Value.numbersFields gs, J.Exact n) →
      Value.mapNumbersFields J.number fs = Value.mapNumbersFields J.number gs → J.SameFields fs gs
  | [], [], _, _, _ => trivial
  | (k, x) :: fs, (l, y) :: gs, hv, hw, h => by
    obtain ⟨hx, hxs⟩ := List.forall_mem_append.1 hv
    obtain ⟨hy, hys⟩ := List.forall_mem_append.1 hw
    obtain ⟨hxy, h⟩ := List.cons.inj h
    obtain ⟨hkl, hxy⟩ := Prod.mk.inj hxy
    exact ⟨⟨hkl, same_of_mapNumbers_eq hJ hx hy hxy⟩, sameFields_of_mapNumbers_eq hJ hxs hys h⟩

end

/-- Values with the same canonical text are the same, if their numbers are
    written exactly. -/
theorem same_of_toText_eq (hJ : J.Conforms) {v w : Value} (hv : v.Ordered id) (hw : w.Ordered id)
    (hev : ∀ n ∈ v.numbers, J.Exact n) (hew : ∀ n ∈ w.numbers, J.Exact n)
    (h : J.toText v = J.toText w) : J.Same v w :=
  same_of_mapNumbers_eq hJ hev hew (mapNumbers_eq_of_toText_eq hJ hv hw h)

end Jcs

end N3ur0n
