import Mathlib.Algebra.Order.BigOperators.Group.List
import N3ur0n.Blobs.Names
import N3ur0n.Lib.Segments

/-!
# What is safe of a name

The segments of a path are sanitized one by one; then the path is cut if it is too
long, and only the end of it is sanitized again.

* `sanitizeBlobPath_of_segments`: a path of sound segments that is not too long is
  left as it is;
* `sanitizeBlobPath_safe_iff`: the result is safe, and sanitized for good, exactly if
  no segment is cut after its first dot, or its first two.
-/

namespace N3ur0n

open Cut Segments

/-! ## Paths -/

/-- The segments that stand for the same directory, and for the one above. -/
def IsDots (s : List Char) : Prop := s = ['.'] ∨ s = ['.', '.']

instance (s : List Char) : Decidable (IsDots s) := inferInstanceAs (Decidable (_ ∨ _))

/-- A path that is safe to store and to show. -/
structure SafePath (path : String) : Prop where
  length : utf8Len path.toList ≤ maxBlobPathLen
  nonempty : path ≠ ""
  chars : ∀ c ∈ path.toList, ¬isControl c ∧ c ≠ '\\'
  segments : ∀ s ∈ path.toList.splitOn '/', s ≠ [] ∧ ¬IsDots s ∧ trim isWhitespace s = s

/-- The segments that are kept of a name. -/
def blobSegments (raw : String) : List (List Char) :=
  let cleaned := (raw.toList.map fun c => if c = '\\' then '/' else c).filter (!isControl ·)
  ((cleaned.splitOn '/').map (trim isWhitespace)).filter fun seg =>
    seg ≠ [] ∧ seg ≠ ['.'] ∧ seg ≠ ['.', '.']

/-- The path before it is cut. -/
def blobPath (raw : String) : List Char := ['/'].intercalate (blobSegments raw)

/-- The path is cut in its last segment, of which nothing but dots remains. -/
def CutToDots (raw : String) : Prop :=
  maxBlobPathLen < utf8Len (blobPath raw) ∧
    IsDots
      (((truncate maxBlobPathLen (blobPath raw)).rtakeWhile (· ≠ '/')).rdropWhile isWhitespace)

instance (raw : String) : Decidable (CutToDots raw) := inferInstanceAs (Decidable (_ ∧ _))

theorem sanitizeBlobPath_eq (raw : String) : sanitizeBlobPath raw =
    if blobSegments raw = [] then none
    else if maxBlobPathLen < utf8Len (blobPath raw) then
      let trimmed := trim isWhitespace
        ((truncate maxBlobPathLen (blobPath raw)).rdropWhile (· = '/'))
      if trimmed = [] then none else some (String.ofList trimmed)
    else some (String.ofList (blobPath raw)) := rfl

/-! ## Cutting -/

section

variable {n : ℕ} {s t : List Char}

theorem isPrefix_truncate : truncate n s <+: s := by
  induction s generalizing n with
  | nil => exact List.prefix_refl _
  | cons c s ih =>
    rw [truncate]
    split_ifs
    · exact List.cons_prefix_cons.2 ⟨rfl, ih⟩
    · exact List.nil_prefix

theorem utf8Len_truncate : utf8Len (truncate n s) ≤ n := by
  induction s generalizing n with
  | nil => exact Nat.zero_le _
  | cons c s ih =>
    rw [truncate]
    split_ifs with h
    · have hle := ih (n := n - c.utf8Size)
      simp only [utf8Len, List.map_cons, List.sum_cons] at hle ⊢
      omega
    · exact Nat.zero_le _

theorem truncate_ne_nil (hs : s ≠ []) (hn : 4 ≤ n) : truncate n s ≠ [] := by
  obtain ⟨c, s, rfl⟩ := List.exists_cons_of_ne_nil hs
  rw [truncate, if_pos (c.utf8Size_le_four.trans hn)]
  exact List.cons_ne_nil _ _

theorem utf8Len_le_of_sublist (h : s.Sublist t) : utf8Len s ≤ utf8Len t :=
  (h.map _).sum_le_sum fun _ _ => Nat.zero_le _

end

/-! ## Segments -/

/-- A segment of a path, dots among them. -/
structure SoundSegment (s : List Char) : Prop where
  clean : Clean isWhitespace s
  slash : '/' ∉ s
  chars : ∀ c ∈ s, ¬isControl c ∧ c ≠ '\\'

theorem sound_blobSegments (raw : String) :
    ∀ s ∈ blobSegments raw, SoundSegment s ∧ ¬IsDots s := by
  intro s hs
  obtain ⟨hs, hkept⟩ := List.mem_filter.1 hs
  obtain ⟨l, hl, rfl⟩ := List.mem_map.1 hs
  obtain ⟨hne, hdot, hdots⟩ := of_decide_eq_true hkept
  have hsub : trim isWhitespace l ⊆ l :=
    ((List.rdropWhile_prefix _ _).isInfix.trans (List.dropWhile_suffix _).isInfix).subset
  refine ⟨⟨clean_trim hne, fun h => not_mem_of_mem_splitOn hl (hsub h), fun c hc => ?_⟩, ?_⟩
  · have hcleaned := mem_intercalate_of_mem (x := '/') hl (hsub hc)
    rw [List.intercalate_splitOn] at hcleaned
    obtain ⟨hmem, hcontrol⟩ := List.mem_filter.1 hcleaned
    refine ⟨by simpa using hcontrol, ?_⟩
    obtain ⟨d, -, rfl⟩ := List.mem_map.1 hmem
    split_ifs with hd
    · decide
    · exact hd
  · rintro (h | h)
    · exact hdot h
    · exact hdots h

theorem SoundSegment.ofPart {s q : List Char} (hs : SoundSegment s) (hq : q <+: s)
    (hclean : Clean isWhitespace q) : SoundSegment q :=
  ⟨hclean, fun h => hs.slash (hq.subset h), fun c hc => hs.chars c (hq.subset hc)⟩

section

variable {ls : List (List Char)}

theorem splitOn_ofList (hls : ls ≠ []) (hsound : ∀ s ∈ ls, SoundSegment s) :
    (String.ofList (['/'].intercalate ls)).toList.splitOn '/' = ls := by
  rw [String.toList_ofList]
  exact List.splitOn_intercalate '/' (fun s hs => (hsound s hs).slash) hls

/-- The segments of a path that has been sanitized. -/
theorem blobSegments_ofList (hls : ls ≠ []) (hsound : ∀ s ∈ ls, SoundSegment s ∧ ¬IsDots s) :
    blobSegments (String.ofList (['/'].intercalate ls)) = ls := by
  have hchars : ∀ c ∈ ['/'].intercalate ls, ¬isControl c ∧ c ≠ '\\' := by
    intro c hc
    rcases mem_intercalate hc with rfl | ⟨s, hs, hc⟩
    · decide
    · exact (hsound s hs).1.chars c hc
  have hmap : (['/'].intercalate ls).map (fun c => if c = '\\' then '/' else c) =
      ['/'].intercalate ls := by
    nth_rewrite 2 [← List.map_id (['/'].intercalate ls)]
    exact List.map_congr_left fun c hc => if_neg (hchars c hc).2
  have hfilter : (['/'].intercalate ls).filter (!isControl ·) = ['/'].intercalate ls :=
    List.filter_eq_self.2 fun c hc => by simpa using (hchars c hc).1
  have htrim : ls.map (trim isWhitespace) = ls := by
    nth_rewrite 2 [← List.map_id ls]
    exact List.map_congr_left fun s hs => (hsound s hs).1.clean.2
  have hsplit : (['/'].intercalate ls).splitOn '/' = ls :=
    List.splitOn_intercalate '/' (fun s hs => (hsound s hs).1.slash) hls
  simp only [blobSegments, String.toList_ofList, hmap, hfilter, hsplit, htrim]
  refine List.filter_eq_self.2 fun s hs => decide_eq_true ⟨(hsound s hs).1.clean.1, ?_⟩
  exact not_or.1 (hsound s hs).2

theorem intercalate_ne_nil (hls : ls ≠ []) (hsound : ∀ s ∈ ls, SoundSegment s) :
    ['/'].intercalate ls ≠ [] := by
  obtain ⟨s, ls, rfl⟩ := List.exists_cons_of_ne_nil hls
  have hs := hsound s List.mem_cons_self
  obtain ⟨c, s', rfl⟩ := List.exists_cons_of_ne_nil hs.clean.1
  exact List.ne_nil_of_mem (mem_intercalate_of_mem List.mem_cons_self List.mem_cons_self)

/-- A path of sound segments that is not too long is safe, and left as it is. -/
theorem sanitizeBlobPath_of_segments (hls : ls ≠ []) (hsound : ∀ s ∈ ls, SoundSegment s ∧ ¬IsDots s)
    (hlen : utf8Len (['/'].intercalate ls) ≤ maxBlobPathLen) :
    SafePath (String.ofList (['/'].intercalate ls)) ∧
      sanitizeBlobPath (String.ofList (['/'].intercalate ls)) =
        some (String.ofList (['/'].intercalate ls)) := by
  have hsplit := splitOn_ofList hls fun s hs => (hsound s hs).1
  refine ⟨⟨?_, ?_, ?_, ?_⟩, ?_⟩
  · rwa [String.toList_ofList]
  · intro h
    have hnil := congrArg String.toList h
    rw [String.toList_ofList] at hnil
    exact intercalate_ne_nil hls (fun s hs => (hsound s hs).1) hnil
  · rw [String.toList_ofList]
    intro c hc
    rcases mem_intercalate hc with rfl | ⟨s, hs, hc⟩
    · decide
    · exact (hsound s hs).1.chars c hc
  · rw [hsplit]
    exact fun s hs => ⟨(hsound s hs).1.clean.1, (hsound s hs).2, (hsound s hs).1.clean.2⟩
  · rw [sanitizeBlobPath_eq, blobPath, blobSegments_ofList hls hsound, if_neg hls,
      if_neg (not_lt.2 hlen)]

end

/-- What is returned is safe, and sanitized for good, exactly if no segment is cut to
    dots. -/
theorem sanitizeBlobPath_safe_iff (raw : String) :
    (∀ path, sanitizeBlobPath raw = some path →
      SafePath path ∧ sanitizeBlobPath path = some path) ↔ ¬CutToDots raw := by
  have hsound := sound_blobSegments raw
  rw [sanitizeBlobPath_eq]
  rcases eq_or_ne (blobSegments raw) [] with hnil | hne
  · rw [if_pos hnil]
    refine iff_of_true nofun fun h => ?_
    rw [CutToDots, blobPath, hnil] at h
    exact absurd h.1 (by decide)
  rw [if_neg hne]
  by_cases hlong : maxBlobPathLen < utf8Len (blobPath raw)
  · rw [if_pos hlong]
    have hne' := intercalate_ne_nil hne fun s hs => (hsound s hs).1
    -- of the cut text some segments stay whole, and the last one may be cut short
    obtain ⟨pre, q, hkept, hpre, hclean, ⟨s, hs, hqs⟩, hq⟩ := exists_kept hne
      (fun s hs => (hsound s hs).1.slash) (fun s hs => (hsound s hs).1.clean) isPrefix_truncate
      (truncate_ne_nil (n := maxBlobPathLen) hne' (by decide))
    -- a whole segment never is made of dots, so the last one decides
    have hdots : CutToDots raw ↔ IsDots q := by
      rw [CutToDots, and_iff_right hlong, blobPath]
      rcases hq with ⟨hlast, hmem⟩ | hlast
      · rw [hlast]
        exact iff_of_false (by decide) (hsound q hmem).2
      · rw [hlast]
    have hall : ∀ s ∈ pre ++ [q], SoundSegment s := by
      rw [List.forall_mem_append, List.forall_mem_singleton]
      exact ⟨fun s hs => (hsound s (hpre s hs)).1, (hsound s hs).1.ofPart hqs hclean⟩
    have hlast : pre ++ [q] ≠ [] := by simp
    have hlen : utf8Len (['/'].intercalate (pre ++ [q])) ≤ maxBlobPathLen := by
      refine le_trans (utf8Len_le_of_sublist ?_) (utf8Len_truncate (s := blobPath raw))
      rw [← hkept]
      exact ((List.rdropWhile_prefix _ _).sublist.trans (List.dropWhile_sublist _)).trans
        (List.rdropWhile_prefix _ _).sublist
    simp only [blobPath, hkept, if_neg (intercalate_ne_nil hlast hall)]
    rw [hdots]
    constructor
    · intro h hq
      refine ((h _ rfl).1.segments q ?_).2.1 hq
      rw [splitOn_ofList hlast hall]
      exact List.mem_append_right _ (List.mem_singleton_self q)
    · intro hq path hpath
      obtain rfl := Option.some.inj hpath
      refine sanitizeBlobPath_of_segments hlast ?_ hlen
      rw [List.forall_mem_append, List.forall_mem_singleton]
      exact ⟨fun s hs => hsound s (hpre s hs), hall q (by simp), hq⟩
  · rw [if_neg hlong]
    refine iff_of_true (fun path hpath => ?_) fun h => hlong h.1
    obtain rfl := Option.some.inj hpath
    exact sanitizeBlobPath_of_segments hne hsound (not_lt.1 hlong)

/-- Two segments, the second of which is cut after its second dot. -/
def longSegments : List (List Char) := [List.replicate 63 '😀', ['.', '.', 'b']]

def longName : String := String.ofList (['/'].intercalate longSegments)

theorem sound_longSegments : ∀ s ∈ longSegments, SoundSegment s ∧ ¬IsDots s := by
  have hall {c : Char} (hc : c ∈ List.replicate 63 '😀') :
      isWhitespace c = false ∧ c ≠ '/' ∧ ¬isControl c ∧ c ≠ '\\' := by
    rw [List.eq_of_mem_replicate hc]
    decide
  intro s hs
  rcases List.mem_cons.1 hs with rfl | hs
  · refine ⟨⟨⟨by simp, trim_of_forall fun c hc => (hall hc).1⟩, fun hc => (hall hc).2.1 rfl,
      fun c hc => (hall hc).2.2⟩, by decide⟩
  · obtain rfl := List.mem_singleton.1 hs
    exact ⟨⟨⟨by simp, by decide⟩, by decide, by decide⟩, by decide⟩

theorem not_safePath_longName : ¬∀ path, sanitizeBlobPath longName = some path →
    SafePath path ∧ sanitizeBlobPath path = some path := by
  have hsegments : blobSegments longName = longSegments :=
    blobSegments_ofList (List.cons_ne_nil _ _) sound_longSegments
  have hlong : maxBlobPathLen < utf8Len (blobPath longName) := by
    rw [blobPath, hsegments]
    decide
  have htrim : trim isWhitespace
      ((truncate maxBlobPathLen (blobPath longName)).rdropWhile (· = '/')) =
        List.replicate 63 '😀' ++ ['/', '.', '.'] := by
    rw [blobPath, hsegments]
    decide
  have hresult : sanitizeBlobPath longName =
      some (String.ofList (List.replicate 63 '😀' ++ ['/', '.', '.'])) := by
    rw [sanitizeBlobPath_eq, if_neg (hsegments ▸ List.cons_ne_nil _ _), if_pos hlong]
    simp only [htrim]
    exact if_neg (by simp)
  intro h
  refine ((h _ hresult).1.segments ['.', '.'] ?_).2.1 (.inr rfl)
  rw [String.toList_ofList]
  decide

end N3ur0n
