import Mathlib.Data.List.Basic
import Mathlib.Data.List.GetD
import Mathlib.Data.List.Nodup
import Mathlib.Tactic.Linarith
import N3ur0n.Lib.Text

/-!
# Encodings in an alphabet of a power of two

Bytes are written as characters of an alphabet with `2 ^ width` of them: their
bits, in order, are cut in groups of `width`, the last one filled with zeros,
and each of them is a character (Base16, Base32 and Base64, without padding). A
text is decoded if its last character is needed, and fills with zeros.

* `ofBits`, `toBits`: the number that some bits are, and the bits of a number;
* `Radix.encode`, `Radix.decode`, and `Radix.decode_encode`: what is encoded is
  decoded.
-/

namespace Radix

/-- The number with these bits, the highest first. -/
def ofBits : List Bool → ℕ
  | [] => 0
  | b :: l => b.toNat * 2 ^ l.length + ofBits l

/-- The lowest bits of a number, the highest of them first. -/
def toBits : ℕ → ℕ → List Bool
  | 0, _ => []
  | k + 1, n => decide (2 ^ k ≤ n % 2 ^ (k + 1)) :: toBits k n

@[simp] theorem length_toBits {k n : ℕ} : (toBits k n).length = k := by
  induction k with
  | zero => rfl
  | succ k ih => rw [toBits, List.length_cons, ih]

theorem ofBits_lt (l : List Bool) : ofBits l < 2 ^ l.length := by
  induction l with
  | nil => exact Nat.one_pos
  | cons b l ih =>
    have hb : b.toNat ≤ 1 := Bool.toNat_le b
    rw [ofBits, List.length_cons, pow_succ]
    nlinarith

/-- Higher bits do not matter. -/
theorem toBits_mod {k n m : ℕ} (h : n % 2 ^ k = m % 2 ^ k) : toBits k n = toBits k m := by
  induction k with
  | zero => rfl
  | succ k ih =>
    have hdvd : 2 ^ k ∣ 2 ^ (k + 1) := pow_dvd_pow 2 (Nat.le_succ k)
    have hlow : n % 2 ^ k = m % 2 ^ k := by
      rw [← Nat.mod_mod_of_dvd n hdvd, h, Nat.mod_mod_of_dvd m hdvd]
    rw [toBits, toBits, h, ih hlow]

theorem toBits_ofBits (l : List Bool) : toBits l.length (ofBits l) = l := by
  induction l with
  | nil => rfl
  | cons b l ih =>
    have hlt := ofBits_lt (b :: l)
    have hl := ofBits_lt l
    rw [List.length_cons] at hlt
    rw [List.length_cons, toBits, Nat.mod_eq_of_lt hlt]
    congr 1
    · cases b with
      | true => simp [ofBits]
      | false => simpa [ofBits] using hl
    · refine (toBits_mod ?_).trans ih
      rw [ofBits, Nat.mul_comm, Nat.mul_add_mod]

theorem ofBits_toBits {k n : ℕ} (h : n < 2 ^ k) : ofBits (toBits k n) = n := by
  induction k generalizing n with
  | zero =>
    rw [pow_zero, Nat.lt_one_iff] at h
    rw [h]
    rfl
  | succ k ih =>
    rw [toBits, ofBits, length_toBits, Nat.mod_eq_of_lt h]
    rw [pow_succ] at h
    by_cases hk : 2 ^ k ≤ n
    · have hlow : toBits k n = toBits k (n - 2 ^ k) := 
        toBits_mod (Nat.mod_eq_sub_mod hk)
      rw [hlow, ih (by omega)]
      simp [hk]
    · rw [ih (by omega)]
      simp [hk]

/-! ## Groups of bits -/

/-- `n` groups of `k` bits, the last of them filled with zeros. -/
def groups (k : ℕ) : ℕ → List Bool → List (List Bool)
  | 0, _ => []
  | n + 1, l => (l.take k ++ List.replicate (k - l.length) false) :: groups k n (l.drop k)

theorem length_of_mem_groups {k n : ℕ} {l g : List Bool} (h : g ∈ groups k n l) : g.length = k := by
  induction n generalizing l with
  | zero => cases h
  | succ n ih =>
    rcases List.mem_cons.1 h with rfl | h
    · rw [List.length_append, List.length_take, List.length_replicate]
      omega
    · exact ih h

theorem flatten_groups {k n : ℕ} {l : List Bool} (h : l.length ≤ k * n) :
    (groups k n l).flatten = l ++ List.replicate (k * n - l.length) false := by
  induction n generalizing l with
  | zero =>
    obtain rfl := List.length_eq_zero_iff.1 (Nat.le_zero.1 h)
    rfl
  | succ n ih =>
    rw [Nat.mul_succ] at h ⊢
    rw [groups, List.flatten_cons, ih (by rw [List.length_drop]; omega), List.length_drop]
    rcases le_total k l.length with hk | hk
    · rw [Nat.sub_eq_zero_of_le hk, List.replicate_zero, List.append_nil, ← List.append_assoc,
        List.take_append_drop, show k * n - (l.length - k) = k * n + k - l.length by omega]
    · rw [List.take_of_length_le hk, List.drop_eq_nil_of_le hk, List.nil_append, List.append_assoc,
        List.replicate_append_replicate,
        show k - l.length + (k * n - (l.length - k)) = k * n + k - l.length by omega]

/-- The bits of some bytes. -/
def bitsOf (bytes : List UInt8) : List Bool := bytes.flatMap fun b => toBits 8 b.toNat

theorem length_bitsOf {bytes : List UInt8} : (bitsOf bytes).length = 8 * bytes.length := by
  induction bytes with
  | nil => rfl
  | cons b bytes ih =>
    rw [bitsOf, List.flatMap_cons, List.length_append, length_toBits, ← bitsOf, ih,
      List.length_cons]
    omega

/-- The first `n` bytes with these bits. -/
def bytesOf : ℕ → List Bool → List UInt8
  | 0, _ => []
  | n + 1, l => UInt8.ofNat (ofBits (l.take 8)) :: bytesOf n (l.drop 8)

theorem bytesOf_bitsOf {bytes : List UInt8} {rest : List Bool} :
    bytesOf bytes.length (bitsOf bytes ++ rest) = bytes := by
  induction bytes with
  | nil => rfl
  | cons b bytes ih =>
    rw [List.length_cons, bytesOf, bitsOf, List.flatMap_cons, ← bitsOf, List.append_assoc,
      List.take_left' length_toBits, List.drop_left' length_toBits, ih,
      ofBits_toBits (by simpa using b.toNat_lt), UInt8.ofNat_toNat]

end Radix

/-! ## Alphabets -/

/-- An alphabet for groups of `width` bits. -/
structure Radix where
  width : ℕ
  alphabet : List Char
  width_pos : 0 < width
  width_le : width ≤ 8
  length_alphabet : alphabet.length = 2 ^ width
  nodup : alphabet.Nodup

namespace Radix

variable (R : Radix)

/-- The character of a group. -/
def char (group : List Bool) : Char := R.alphabet.getD (ofBits group) ' '

/-- The group of a character. -/
def digit (c : Char) : Option (List Bool) :=
  if R.alphabet.idxOf c < R.alphabet.length then some (toBits R.width (R.alphabet.idxOf c)) else none

/-- The bits of a text. -/
def digits : List Char → Option (List Bool)
  | [] => some []
  | c :: cs => do return (← R.digit c) ++ (← digits cs)

def encode (bytes : List UInt8) : List Char :=
  (groups R.width ((8 * bytes.length + R.width - 1) / R.width) (bitsOf bytes)).map R.char

/-- The last character is needed, and the bits of it that are not are zeros. -/
def decode (text : List Char) : Option (List UInt8) := do
  let bits ← R.digits text
  let rest := bits.drop (8 * (bits.length / 8))
  if rest.length < R.width ∧ rest.all (! ·) then some (bytesOf (bits.length / 8) bits) else none

variable {R}

theorem char_mem {group : List Bool} (h : group.length = R.width) : R.char group ∈ R.alphabet := by
  have hlt : ofBits group < R.alphabet.length := by
    rw [R.length_alphabet, ← h]
    exact ofBits_lt group
  rw [char, List.getD_eq_getElem _ _ hlt]
  exact List.getElem_mem hlt

/-- Every character is one of the alphabet. -/
theorem mem_alphabet_of_mem_encode {bytes : List UInt8} {c : Char} (h : c ∈ R.encode bytes) :
    c ∈ R.alphabet := by
  obtain ⟨g, hg, rfl⟩ := List.mem_map.1 h
  exact char_mem (length_of_mem_groups hg)

theorem digit_char {group : List Bool} (h : group.length = R.width) :
    R.digit (R.char group) = some group := by
  have hlt : ofBits group < R.alphabet.length := by
    rw [R.length_alphabet, ← h]
    exact ofBits_lt group
  have hidx : R.alphabet.idxOf (R.char group) = ofBits group := by
    rw [char, List.getD_eq_getElem _ _ hlt]
    exact R.nodup.idxOf_getElem _ hlt
  rw [digit, hidx, if_pos hlt, ← h, toBits_ofBits]

theorem digits_map_char {gs : List (List Bool)} (h : ∀ g ∈ gs, g.length = R.width) :
    R.digits (gs.map R.char) = some gs.flatten := by
  induction gs with
  | nil => rfl
  | cons g gs ih =>
    obtain ⟨hg, hgs⟩ := List.forall_mem_cons.1 h
    rw [List.map_cons, digits, digit_char hg, ih hgs]
    rfl

theorem decode_encode (bytes : List UInt8) : R.decode (R.encode bytes) = some bytes := by
  have hpos := R.width_pos
  have hle := R.width_le
  -- The groups are as many as are needed for the bits.
  obtain ⟨n, hn⟩ : ∃ n, (8 * bytes.length + R.width - 1) / R.width = n := ⟨_, rfl⟩
  have hdiv := Nat.div_add_mod (8 * bytes.length + R.width - 1) R.width
  have hmod := Nat.mod_lt (8 * bytes.length + R.width - 1) hpos
  rw [hn] at hdiv
  obtain ⟨p, hp⟩ : ∃ p, R.width * n - 8 * bytes.length = p := ⟨_, rfl⟩
  have hbits : R.digits (R.encode bytes) = some (bitsOf bytes ++ List.replicate p false) := by
    rw [encode, hn, digits_map_char fun g hg => length_of_mem_groups hg,
      flatten_groups (by rw [length_bitsOf]; omega), length_bitsOf, hp]
  have hlen : (bitsOf bytes ++ List.replicate p false).length / 8 = bytes.length := by
    rw [List.length_append, length_bitsOf, List.length_replicate]
    omega
  have hrest : (bitsOf bytes ++ List.replicate p false).drop (8 * bytes.length) =
      List.replicate p false := List.drop_left' length_bitsOf
  rw [decode, hbits, Option.bind_eq_bind, Option.bind_some]
  simp only [hlen, hrest]
  rw [if_pos, bytesOf_bitsOf]
  refine ⟨by rw [List.length_replicate]; omega, List.all_eq_true.2 fun b hb => ?_⟩
  rw [List.eq_of_mem_replicate hb]
  rfl

/-! ## Alphabets in use -/

/-- Base16, in lower case. -/
def hexLower : Radix where
  width := 4
  alphabet := "0123456789abcdef".toList
  width_pos := by decide
  width_le := by decide
  length_alphabet := by decide
  nodup := by decide

/-- Base32. -/
def base32 : Radix where
  width := 5
  alphabet := "ABCDEFGHIJKLMNOPQRSTUVWXYZ234567".toList
  width_pos := by decide
  width_le := by decide
  length_alphabet := by decide
  nodup := by decide

/-- Base64, for addresses and names of files. -/
def base64Url : Radix where
  width := 6
  alphabet := "ABCDEFGHIJKLMNOPQRSTUVWXYZabcdefghijklmnopqrstuvwxyz0123456789-_".toList
  width_pos := by decide
  width_le := by decide
  length_alphabet := by decide
  nodup := by decide +kernel

example : base32.encode [102, 111, 111, 98] = "MZXW6YQ".toList := by decide +kernel

example : base32.decode "MZXW6YR".toList = none := by decide +kernel

end Radix
