import Mathlib.Data.List.Basic
import Mathlib.Data.String.Basic

/-!
# Texts

A text is a list of characters. What holds of all its characters, or of one of
them, is decided on the text, and not on all the characters there are.

* `utf8ByteSize_eq_length`: a text of characters of one byte each is as long as
  the number of its bytes.
-/

namespace Text

variable {p : Char → Prop} [DecidablePred p] (s : List Char)

instance (priority := high) decidableForall : Decidable (∀ c ∈ s, p c) := List.decidableBAll p s

instance (priority := high) decidableExists : Decidable (∃ c ∈ s, p c) := List.decidableBEx p s

variable {c : Char}

theorem isUpper_iff : c.isUpper ↔ 65 ≤ c.toNat ∧ c.toNat ≤ 90 := by
  have h : c.isUpper = decide (65 ≤ c.val ∧ c.val ≤ 90) := rfl
  rw [h, decide_eq_true_iff]
  exact and_congr UInt32.le_iff_toNat_le UInt32.le_iff_toNat_le

theorem isLower_iff : c.isLower ↔ 97 ≤ c.toNat ∧ c.toNat ≤ 122 := by
  have h : c.isLower = (decide (97 ≤ c.val) && decide (c.val ≤ 122)) := rfl
  rw [h, Bool.and_eq_true, decide_eq_true_iff, decide_eq_true_iff]
  exact and_congr UInt32.le_iff_toNat_le UInt32.le_iff_toNat_le

theorem isAlphanum_iff : c.isAlphanum ↔ (c.isUpper ∨ c.isLower) ∨ c.isDigit := by
  have h : c.isAlphanum = (c.isUpper || c.isLower || c.isDigit) := rfl
  rw [h, Bool.or_eq_true, Bool.or_eq_true]

theorem toNat_of_isAlphanum (h : c.isAlphanum) :
    48 ≤ c.toNat ∧ c.toNat ≤ 57 ∨ 65 ≤ c.toNat ∧ c.toNat ≤ 90 ∨ 97 ≤ c.toNat ∧ c.toNat ≤ 122 := by
  rw [isAlphanum_iff, isUpper_iff, isLower_iff, Char.isDigit_iff_toNat] at h
  have hzero : Char.toNat '0' = 48 := rfl
  have hnine : Char.toNat '9' = 57 := rfl
  omega

theorem utf8Size_of_isAlphanum (h : c.isAlphanum) : c.utf8Size = 1 := by
  rw [Char.utf8Size_eq_one_iff, UInt32.le_iff_toNat_le]
  have hn : c.toNat ≤ 127 := by
    have := toNat_of_isAlphanum h
    omega
  exact hn

/-- Characters of one byte each are counted by the bytes. -/
theorem utf8ByteSize_eq_length {s : String} (h : ∀ c ∈ s.toList, c.utf8Size = 1) :
    s.utf8ByteSize = s.length := by
  obtain ⟨l, rfl⟩ : ∃ l, s = String.ofList l := ⟨s.toList, String.ofList_toList.symm⟩
  rw [String.toList_ofList] at h
  rw [String.length_ofList]
  induction l with
  | nil => rfl
  | cons c l ih =>
    rw [String.ofList_cons, String.utf8ByteSize_append, String.utf8ByteSize_singleton,
      h c List.mem_cons_self, ih fun c hc => h c (List.mem_cons_of_mem _ hc), List.length_cons,
      Nat.add_comm]

/-- What ends a run of characters is the first that is of another kind. -/
theorem takeWhile_append_ends {text rest : List Char} {p : Char → Bool} (ht : ∀ c ∈ text, p c)
    (hrest : ∀ c ∈ rest.head?, p c = false) :
    (text ++ rest).takeWhile p = text ∧ (text ++ rest).dropWhile p = rest := by
  have hnil : rest.takeWhile p = [] ∧ rest.dropWhile p = rest := by
    rcases rest with _ | ⟨c, rest⟩
    · exact ⟨rfl, rfl⟩
    · have hc : ¬p c := fun h => absurd ((hrest c rfl).symm.trans h) Bool.false_ne_true
      exact ⟨List.takeWhile_cons_of_neg hc, List.dropWhile_cons_of_neg hc⟩
  rw [List.takeWhile_append_of_pos ht, List.dropWhile_append_of_pos ht, hnil.1, hnil.2]
  exact ⟨List.append_nil _, rfl⟩

end Text
