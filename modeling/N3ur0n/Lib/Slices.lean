import Mathlib.Algebra.BigOperators.Group.List.Basic
import Mathlib.Algebra.GroupWithZero.Nat
import N3ur0n.Lib.Cut

/-!
# Slices of strings

Programs cut strings by byte offsets: a slice of a UTF-8 string panics unless its
ends are between two characters. A string is the list of its characters here,
and slices are partial functions of byte offsets.

* `size`: how many bytes a string takes;
* `dropBytes`, `takeBytes`, `slice`: `&s[i..]`, `&s[..j]` and `&s[i..j]`;
* `dropBytes_eq_some`, `takeBytes_eq_some`: they are defined at the *boundaries*,
  the sizes of the beginnings of the string;
* `getElem?_bytes`: at a boundary, the byte of an ASCII character stands for this
  character only.
-/

namespace Slice

/-- The UTF-8 bytes of a string. -/
def bytes (s : List Char) : List UInt8 := s.flatMap String.utf8EncodeChar

/-- How many bytes a string takes. -/
def size (s : List Char) : ℕ := (s.map Char.utf8Size).sum

/-- The string from the byte `i` on, if a character starts there. -/
def dropBytes : ℕ → List Char → Option (List Char)
  | 0, s => some s
  | _ + 1, [] => none
  | i + 1, c :: s => if c.utf8Size ≤ i + 1 then dropBytes (i + 1 - c.utf8Size) s else none

/-- The string before the byte `i`, if a character starts there. -/
def takeBytes : ℕ → List Char → Option (List Char)
  | 0, _ => some []
  | _ + 1, [] => none
  | i + 1, c :: s =>
    if c.utf8Size ≤ i + 1 then (takeBytes (i + 1 - c.utf8Size) s).map (c :: ·) else none

/-- The string from the byte `i` to the byte `j`. -/
def slice (i j : ℕ) (s : List Char) : Option (List Char) := (takeBytes j s).bind (dropBytes i)

/-- Where the first of these characters starts. -/
def find (p : Char → Bool) : List Char → Option ℕ
  | [] => none
  | c :: s => if p c then some 0 else (find p s).map (c.utf8Size + ·)

/-- Where this text starts first. -/
def findText (sep s : List Char) : Option ℕ := (Cut.splitOnce sep s).map fun r => size r.1

/-- A character starts at the byte, or the string ends there. -/
def Boundary (i : ℕ) (s : List Char) : Prop := ∃ u t, s = u ++ t ∧ size u = i

variable {s t u v w : List Char} {c d : Char} {i j : ℕ}

@[simp] theorem size_nil : size [] = 0 := rfl

@[simp] theorem size_cons : size (c :: s) = c.utf8Size + size s := List.sum_cons

@[simp] theorem size_append : size (s ++ t) = size s + size t := by
  rw [size, List.map_append, List.sum_append, ← size, ← size]

theorem size_pos (hs : s ≠ []) : 0 < size s := by
  obtain ⟨c, s, rfl⟩ := List.exists_cons_of_ne_nil hs
  rw [size_cons]
  exact Nat.add_pos_left c.utf8Size_pos _

/-! ## Beginnings -/

theorem size_take_add {m n : ℕ} (h : m ≤ n) :
    size (s.take n) = size (s.take m) + size ((s.take n).drop m) := by
  have htake : s.take m = (s.take n).take m := by rw [List.take_take, Nat.min_eq_left h]
  rw [htake, ← size_append, List.take_append_drop]

theorem size_take_le {m n : ℕ} (h : m ≤ n) : size (s.take m) ≤ size (s.take n) := by
  rw [size_take_add h]
  exact Nat.le_add_right _ _

theorem size_take_lt {m n : ℕ} (hm : m < s.length) (h : m < n) :
    size (s.take m) < size (s.take n) := by
  rw [size_take_add h.le]
  refine Nat.lt_add_of_pos_right (size_pos fun hnil => ?_)
  rw [List.drop_eq_nil_iff, List.length_take] at hnil
  omega

theorem size_take_le_size {n : ℕ} : size (s.take n) ≤ size s := by
  have hsplit : size s = size (s.take n) + size (s.drop n) := by
    rw [← size_append, List.take_append_drop]
  rw [hsplit]
  exact Nat.le_add_right _ _

/-! ## Boundaries -/

theorem dropBytes_eq_some : dropBytes i s = some t ↔ ∃ u, s = u ++ t ∧ size u = i := by
  induction s generalizing i with
  | nil =>
    rcases i with _ | i
    · simp [dropBytes, eq_comm]
    · simp only [dropBytes, reduceCtorEq, false_iff, not_exists, not_and]
      intro u hu
      rw [(List.append_eq_nil_iff.1 hu.symm).1, size_nil]
      exact Nat.zero_ne_add_one i
  | cons c s ih =>
    rcases i with _ | i
    · simp only [dropBytes, Option.some.injEq]
      constructor
      · rintro rfl
        exact ⟨[], rfl, rfl⟩
      · rintro ⟨u, hu, hsize⟩
        have hnil : u = [] := by
          by_contra hne
          exact absurd hsize (size_pos hne).ne'
        simpa [hnil] using hu
    · rw [dropBytes, Option.ite_none_right_eq_some, ih]
      constructor
      · rintro ⟨hle, u, rfl, hsize⟩
        exact ⟨c :: u, rfl, by rw [size_cons, hsize]; omega⟩
      · rintro ⟨u, hu, hsize⟩
        rcases u with _ | ⟨d, u⟩
        · exact absurd hsize (Nat.zero_ne_add_one i)
        · obtain ⟨rfl, rfl⟩ := List.cons.inj hu
          rw [size_cons] at hsize
          exact ⟨by omega, u, rfl, by omega⟩

theorem takeBytes_eq_some : takeBytes i s = some u ↔ ∃ t, s = u ++ t ∧ size u = i := by
  induction s generalizing i u with
  | nil =>
    rcases i with _ | i
    · simp only [takeBytes, Option.some.injEq, List.nil_eq, List.append_eq_nil_iff]
      constructor
      · rintro rfl
        exact ⟨[], ⟨rfl, rfl⟩, rfl⟩
      · rintro ⟨t, ⟨rfl, -⟩, -⟩
        rfl
    · simp only [takeBytes, reduceCtorEq, false_iff, not_exists, not_and]
      intro t ht
      rw [(List.append_eq_nil_iff.1 ht.symm).1, size_nil]
      exact Nat.zero_ne_add_one i
  | cons c s ih =>
    rcases i with _ | i
    · simp only [takeBytes, Option.some.injEq]
      constructor
      · rintro rfl
        exact ⟨c :: s, rfl, rfl⟩
      · rintro ⟨t, -, hsize⟩
        by_contra hne
        exact absurd hsize (size_pos (Ne.symm hne)).ne'
    · rw [takeBytes, Option.ite_none_right_eq_some]
      simp only [Option.map_eq_some_iff, ih]
      constructor
      · rintro ⟨hle, u, ⟨t, rfl, hsize⟩, rfl⟩
        exact ⟨t, rfl, by rw [size_cons, hsize]; omega⟩
      · rintro ⟨t, ht, hsize⟩
        rcases u with _ | ⟨d, u⟩
        · exact absurd hsize (Nat.zero_ne_add_one i)
        · obtain ⟨rfl, rfl⟩ := List.cons.inj ht
          rw [size_cons] at hsize
          exact ⟨by omega, u, ⟨t, rfl, by omega⟩, rfl⟩

/-- Of two beginnings of a string, the one with fewer bytes begins the other. -/
theorem exists_append_of_size_le (h : s ++ t = u ++ v) (hle : size s ≤ size u) :
    ∃ w, u = s ++ w ∧ t = w ++ v := by
  rcases List.append_eq_append_iff.1 h with ⟨w, hu, ht⟩ | ⟨w, rfl, rfl⟩
  · exact ⟨w, hu, ht⟩
  · have hnil : w = [] := by
      by_contra hne
      have hpos := size_pos hne
      rw [size_append] at hle
      omega
    exact ⟨[], by simp [hnil]⟩

/-- The rest of a string after its beginning. -/
theorem dropBytes_append (hi : size u = i) : dropBytes i (u ++ t) = some t :=
  dropBytes_eq_some.2 ⟨u, rfl, hi⟩

theorem takeBytes_append (hi : size u = i) : takeBytes i (u ++ t) = some u :=
  takeBytes_eq_some.2 ⟨t, rfl, hi⟩

theorem slice_append (hi : size u = i) (hj : size u + size v = j) :
    slice i j (u ++ (v ++ t)) = some v := by
  rw [slice, ← List.append_assoc, takeBytes_append (by rw [size_append, hj]), Option.bind_some,
    dropBytes_append hi]

/-- What is found up to a character is found by its size. -/
theorem find_eq_upTo : find (fun d => decide (d = c)) s = (Cut.upTo c s).map size := by
  induction s with
  | nil => rfl
  | cons d s ih =>
    rw [find, Cut.upTo]
    by_cases hd : d = c
    · simp [hd]
    · rw [if_neg (by simp [hd]), if_neg hd, ih, Option.map_map, Option.map_map]
      rfl

/-- The string up to the first of these characters, or to its end. -/
theorem takeBytes_find {p : Char → Bool} :
    takeBytes ((find p s).getD (size s)) s = some (s.takeWhile fun c => !p c) := by
  have hfind : (find p s).getD (size s) = size (s.takeWhile fun c => !p c) := by
    induction s with
    | nil => rfl
    | cons c s ih =>
      rw [find]
      by_cases hc : p c
      · simp [hc]
      · cases hs : find p s with
        | none =>
          rw [hs] at ih
          simpa [hc] using ih
        | some i =>
          rw [hs] at ih
          simpa [hc] using ih
  exact takeBytes_eq_some.2 ⟨_, (List.takeWhile_append_dropWhile).symm, hfind.symm⟩

/-- The characters, each with the byte where it starts. -/
def charIndices : ℕ → List Char → List (ℕ × Char)
  | _, [] => []
  | i, c :: s => (i, c) :: charIndices (i + c.utf8Size) s

theorem charIndices_append :
    charIndices i (s ++ t) = charIndices i s ++ charIndices (i + size s) t := by
  induction s generalizing i with
  | nil => rfl
  | cons c s ih =>
    rw [List.cons_append, charIndices, ih, charIndices, List.cons_append, size_cons, Nat.add_assoc]

theorem charIndices_map_snd : (charIndices i s).map Prod.snd = s := by
  induction s generalizing i with
  | nil => rfl
  | cons c s ih => rw [charIndices, List.map_cons, ih]

/-- Characters start where the string is. -/
theorem le_of_mem_charIndices {x : ℕ × Char} (h : x ∈ charIndices i s) :
    i ≤ x.1 ∧ x.1 < i + size s := by
  induction s generalizing i with
  | nil => exact absurd h List.not_mem_nil
  | cons c s ih =>
    have hc := c.utf8Size_pos
    rw [size_cons]
    rcases List.mem_cons.1 h with rfl | h
    · simp only
      omega
    · have := ih h
      omega

/-! ## Bytes -/

theorem length_bytes : (bytes s).length = size s := by
  induction s with
  | nil => rfl
  | cons c s ih =>
    rw [bytes, List.flatMap_cons, List.length_append, String.length_utf8EncodeChar, ← bytes, ih,
      size_cons]

theorem bytes_append : bytes (s ++ t) = bytes s ++ bytes t := List.flatMap_append

/-- The byte at a boundary is the first one of the rest. -/
theorem getElem?_bytes_append (hi : size u = i) : (bytes (u ++ t))[i]? = (bytes t).head? := by
  rw [bytes_append, List.getElem?_append_right (by rw [length_bytes, hi]), length_bytes, hi,
    Nat.sub_self, List.head?_eq_getElem?]

/-- The first byte of a character of several bytes is no ASCII character. -/
theorem le_head_utf8EncodeChar (hc : c.utf8Size ≠ 1) {b : UInt8}
    (hb : (String.utf8EncodeChar c).head? = some b) : 192 ≤ b.toNat := by
  have hsize : c.utf8Size = 2 ∨ c.utf8Size = 3 ∨ c.utf8Size = 4 := by
    have := c.utf8Size_pos
    have := c.utf8Size_le_four
    omega
  rcases hsize with h | h | h
  · rw [String.utf8EncodeChar_eq_cons_cons h, List.head?_cons, Option.some.injEq] at hb
    rw [← hb, UInt8.toNat_or]
    exact Nat.right_le_or
  · rw [String.utf8EncodeChar_eq_cons_cons_cons h, List.head?_cons, Option.some.injEq] at hb
    rw [← hb, UInt8.toNat_or]
    exact le_trans (by decide) Nat.right_le_or
  · rw [String.utf8EncodeChar_eq_cons_cons_cons_cons h, List.head?_cons, Option.some.injEq] at hb
    rw [← hb, UInt8.toNat_or]
    exact le_trans (by decide) Nat.right_le_or

/-- The byte of an ASCII character stands for this character only. -/
theorem head?_bytes (hc : c.utf8Size = 1) :
    (bytes t).head? = some c.val.toUInt8 ↔ t.head? = some c := by
  rcases t with _ | ⟨d, t⟩
  · simp [bytes]
  · have hhead : (bytes (d :: t)).head? = (String.utf8EncodeChar d).head? := by
      rw [bytes, List.flatMap_cons, List.head?_append_of_ne_nil _ String.utf8EncodeChar_ne_nil]
    rw [hhead, List.head?_cons, Option.some.injEq]
    have hc' : c.val.toNat ≤ 127 := UInt32.le_iff_toNat_le.1 (Char.utf8Size_eq_one_iff.1 hc)
    constructor
    · intro h
      by_cases hd : d.utf8Size = 1
      · rw [String.utf8EncodeChar_eq_singleton hd, List.head?_cons, Option.some.injEq] at h
        have hd' : d.val.toNat ≤ 127 := UInt32.le_iff_toNat_le.1 (Char.utf8Size_eq_one_iff.1 hd)
        have hn := congrArg UInt8.toNat h
        rw [UInt32.toNat_toUInt8, UInt32.toNat_toUInt8] at hn
        exact Char.ext (UInt32.toNat_inj.1 (by omega))
      · have hle := le_head_utf8EncodeChar hd h
        rw [UInt32.toNat_toUInt8] at hle
        omega
    · rintro rfl
      rw [String.utf8EncodeChar_eq_singleton hc, List.head?_cons]

end Slice
