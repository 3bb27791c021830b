import N3ur0n.Blobs.Outputs
import N3ur0n.Blobs.SafeNames

/-!
# Provisional names

A result without a name is named after the capability that made it, the time and its
media type. This is written apart from what sanitizes names, with its own characters
and its own limits.

* `isPlain`: the characters of provisional names, which need no sanitizing;
* `sanitizeBlobPath_deriveOutputPath`: a provisional name is left as it is;
* `Invoker.outputPath_isSome`: every result is given a name.
-/

namespace N3ur0n

open Cut Segments

variable {c : Char} {s : List Char} {n : ℤ} {w k : ℕ}

/-- The characters of provisional names. -/
def isPlain (c : Char) : Bool := c.isAlphanum || c = '.' || c = '-' || c = '_'

/-- The characters that are left as they are. -/
theorem isPlain_cases (h : isPlain c) : c.isAlphanum ∨ c = '.' ∨ c = '-' ∨ c = '_' := by
  simpa [isPlain, or_assoc] using h

/-- None of them is a blank. -/
theorem isWhitespace_of_isPlain (h : isPlain c) : isWhitespace c = false := by
  rcases isPlain_cases h with h | rfl | rfl | rfl
  · have := Text.toNat_of_isAlphanum h
    simp [isWhitespace]
    omega
  all_goals decide

/-- Or a control character. -/
theorem isControl_of_isPlain (h : isPlain c) : isControl c = false := by
  rcases isPlain_cases h with h | rfl | rfl | rfl
  · have := Text.toNat_of_isAlphanum h
    simp [isControl]
    omega
  all_goals decide

theorem utf8Size_of_isPlain (h : isPlain c) : c.utf8Size = 1 := by
  rcases isPlain_cases h with h | rfl | rfl | rfl
  · exact Text.utf8Size_of_isAlphanum h
  all_goals decide

/-- So a name of them is as long as it has characters. -/
theorem utf8Len_eq_length (h : ∀ c ∈ s, isPlain c) : utf8Len s = s.length := by
  rw [utf8Len, List.map_congr_left fun c hc => utf8Size_of_isPlain (h c hc)]
  simp

/-- A segment of plain characters is sound. -/
theorem sound_of_isPlain (hs : s ≠ []) (h : ∀ c ∈ s, isPlain c) : SoundSegment s := by
  refine ⟨⟨hs, trim_of_forall fun c hc => isWhitespace_of_isPlain (h c hc)⟩, fun hc => ?_,
    fun c hc => ⟨?_, ?_⟩⟩
  · exact absurd (h _ hc) (by decide)
  · simpa using isControl_of_isPlain (h c hc)
  · rintro rfl
    exact absurd (h _ hc) (by decide)

/-! ## Stamps -/

theorem isPlain_of_mem_padded (h : c ∈ padded w n) : isPlain c := by
  have hdigits (h : c ∈ (Nat.repr n.natAbs).toList) : isPlain c := by
    rw [Nat.toList_repr] at h
    have hdigit := Nat.isDigit_of_mem_toDigits (by decide) (by decide) h
    simp [isPlain, Char.isAlphanum, hdigit]
  have hzeros {m : ℕ} (h : c ∈ List.replicate m '0') : isPlain c := by
    rw [List.eq_of_mem_replicate h]
    decide
  rw [padded] at h
  split_ifs at h with hn
  · rcases List.mem_append.1 h with h | h
    · rcases List.mem_cons.1 h with rfl | h
      · decide
      · exact hzeros h
    · exact hdigits h
  · rcases List.mem_append.1 h with h | h
    · exact hzeros h
    · exact hdigits h

/-- The sign is not counted among the digits. -/
theorem length_padded_le (hk : 0 < k) (h : n.natAbs < 10 ^ k) :
    (padded w n).length ≤ max w (k + 1) := by
  have hdigits : (Nat.repr n.natAbs).toList.length ≤ k := by
    rw [Nat.toList_repr]
    exact (Nat.length_toDigits_le_iff (by decide) hk).2 h
  rw [padded]
  split_ifs
  · simp only [List.length_append, List.length_cons, List.length_replicate]
    omega
  · simp only [List.length_append, List.length_replicate]
    omega

/-- What the calendar gives. -/
structure DateTime.InRange (t : DateTime) : Prop where
  year : t.year.natAbs ≤ 999999
  month : t.month ≤ 12
  day : t.day ≤ 31
  hour : t.hour < 24
  minute : t.minute < 60
  second : t.second < 60

theorem isPlain_of_mem_stamp {t : DateTime} (h : c ∈ t.stamp) : isPlain c := by
  have hdash : isPlain '-' := by decide
  simp only [DateTime.stamp, List.mem_append, List.mem_cons, or_assoc] at h
  rcases h with h | rfl | h | rfl | h | rfl | h | h | h
  · exact isPlain_of_mem_padded h
  · exact hdash
  · exact isPlain_of_mem_padded h
  · exact hdash
  · exact isPlain_of_mem_padded h
  · exact hdash
  · exact isPlain_of_mem_padded h
  · exact isPlain_of_mem_padded h
  · exact isPlain_of_mem_padded h

/-- A stamp is short, for a date in the range of the calendar. -/
theorem length_stamp_le {t : DateTime} (h : t.InRange) : t.stamp.length ≤ 25 := by
  have hyear : (padded 4 t.year).length ≤ _ := length_padded_le (k := 6) (by decide)
    (by have := h.year; omega)
  have hpart {m : ℕ} (hm : m < 100) : (padded 2 m).length ≤ _ :=
    length_padded_le (k := 2) (by decide) (by simpa using hm)
  have hmonth := hpart (h.month.trans_lt (by decide))
  have hday := hpart (h.day.trans_lt (by decide))
  have hhour := hpart (h.hour.trans (by decide))
  have hminute := hpart (h.minute.trans (by decide))
  have hsecond := hpart (h.second.trans (by decide))
  simp only [DateTime.stamp, List.length_append, List.length_cons]
  omega

theorem stamp_ne_nil {t : DateTime} : t.stamp ≠ [] := by simp [DateTime.stamp]

/-- The stamp of a moment that may have no date. -/
theorem stamp_plain {date : Option DateTime} (h : ∀ t ∈ date, t.InRange) :
    (date.map DateTime.stamp).getD "unknown".toList ≠ [] ∧
      ((date.map DateTime.stamp).getD "unknown".toList).length ≤ 25 ∧
      ∀ c ∈ (date.map DateTime.stamp).getD "unknown".toList, isPlain c := by
  rcases date with - | t
  · decide
  · exact ⟨stamp_ne_nil, length_stamp_le (h t rfl), fun c => isPlain_of_mem_stamp⟩

/-! ## Extensions -/

/-- So is every extension. -/
theorem extensionForMime_plain (mime : String) :
    (extensionForMime mime).toList ≠ [] ∧ (extensionForMime mime).toList.length ≤ 8 ∧
      ∀ c ∈ (extensionForMime mime).toList, isPlain c := by
  have hknown : ∀ x ∈ knownExtensions, x.2.toList ≠ [] ∧ x.2.toList.length ≤ 8 ∧
      ∀ c ∈ x.2.toList, isPlain c := by decide
  rw [extensionForMime]
  split
  · rename_i ext hext
    obtain ⟨l, l', hl, -⟩ := List.lookup_eq_some_iff.1 hext
    exact hknown _ (hl ▸ List.mem_append_right _ List.mem_cons_self)
  · dsimp only
    split_ifs with hnil
    · decide
    · rw [String.toList_ofList]
      refine ⟨hnil, List.length_take_le _ _, fun c hc => ?_⟩
      have hc := (List.mem_filter.1 (List.mem_of_mem_take hc)).2
      simp [isPlain, hc]

/-! ## Paths -/

/-- The characters removed at the ends of the name of a capability. -/
def isEdge (c : Char) : Bool := c = '.' || c = '-' || c = '_'

/-- The directory of the provisional paths of a capability. -/
def outputDir (capability : String) : List Char :=
  let cap := trim isEdge ((capability.toList.map fun c => if isPlain c then c else '-').take 64)
  if cap = [] then "output".toList else cap

/-- The file names of the provisional paths. -/
def outputFile (mime : String) (date : Option DateTime) : List Char :=
  (date.map DateTime.stamp).getD "unknown".toList ++ '.' :: (extensionForMime mime).toList

/-- The path has two segments. -/
theorem deriveOutputPath_eq (capability mime : String) (date : Option DateTime) :
    deriveOutputPath capability mime date =
      String.ofList (['/'].intercalate [outputDir capability, outputFile mime date]) := by
  rw [List.intercalate_cons_cons, List.intercalate_singleton, List.append_assoc,
    List.singleton_append, outputFile, ← List.cons_append, ← List.append_assoc]
  rfl

/-- The first one is short, and plain. -/
theorem outputDir_plain (capability : String) : outputDir capability ≠ [] ∧
    (outputDir capability).length ≤ 64 ∧ ∀ c ∈ outputDir capability, isPlain c := by
  rw [outputDir]
  split_ifs with hnil
  · decide
  · have hsub {l : List Char} : (trim isEdge l).Sublist l :=
      (List.rdropWhile_prefix _ _).sublist.trans (List.dropWhile_sublist _)
    refine ⟨hnil, hsub.length_le.trans (List.length_take_le _ _), fun c hc => ?_⟩
    obtain ⟨d, -, rfl⟩ := List.mem_map.1 (List.mem_of_mem_take (hsub.subset hc))
    split_ifs with hd
    · exact hd
    · decide

theorem clean_outputDir (capability : String) : Clean isEdge (outputDir capability) := by
  rw [outputDir]
  split_ifs with hnil
  · exact ⟨by decide, by decide⟩
  · exact clean_trim hnil

/-- The last component, which holds a dot between two names. -/
theorem not_isDots_append {u v : List Char} (hu : u ≠ []) (hv : v ≠ []) :
    ¬IsDots (u ++ '.' :: v) := by
  have hulen := List.length_pos_iff.2 hu
  have hvlen := List.length_pos_iff.2 hv
  rintro (h | h)
  · have hlen := congrArg List.length h
    simp at hlen
    omega
  · have hlen := congrArg List.length h
    simp at hlen
    omega

section

variable (capability mime : String) {date : Option DateTime}

/-- So is the second one, which is not made of dots. -/
theorem outputFile_plain (h : ∀ t ∈ date, t.InRange) : outputFile mime date ≠ [] ∧
    (outputFile mime date).length ≤ 34 ∧ (∀ c ∈ outputFile mime date, isPlain c) ∧
      ¬IsDots (outputFile mime date) := by
  obtain ⟨hext, hextlen, hextplain⟩ := extensionForMime_plain mime
  obtain ⟨hstamp, hstamplen, hstampplain⟩ := stamp_plain h
  refine ⟨by simp [outputFile], ?_, ?_, not_isDots_append hstamp hext⟩
  · rw [outputFile, List.length_append, List.length_cons]
    omega
  · rw [outputFile, List.forall_mem_append, List.forall_mem_cons]
    exact ⟨hstampplain, by decide, hextplain⟩

/-- The two segments of a provisional path. -/
theorem sound_provisional (h : ∀ t ∈ date, t.InRange) :
    ∀ s ∈ [outputDir capability, outputFile mime date], SoundSegment s ∧ ¬IsDots s := by
  obtain ⟨hdir, -, hdirplain⟩ := outputDir_plain capability
  obtain ⟨hfile, -, hfileplain, hfiledots⟩ := outputFile_plain mime h
  rw [List.forall_mem_cons, List.forall_mem_singleton]
  refine ⟨⟨sound_of_isPlain hdir hdirplain, ?_⟩, sound_of_isPlain hfile hfileplain, hfiledots⟩
  obtain ⟨c, dir, hcons, hc⟩ := (clean_iff.1 (clean_outputDir capability)).1
  rw [hcons]
  rintro (h | h)
  · exact absurd ((List.cons.inj h).1 ▸ hc) (by decide)
  · exact absurd ((List.cons.inj h).1 ▸ hc) (by decide)

/-- So nothing of the path is cut off. -/
theorem utf8Len_provisional (h : ∀ t ∈ date, t.InRange) :
    utf8Len (['/'].intercalate [outputDir capability, outputFile mime date]) ≤ maxBlobPathLen := by
  obtain ⟨-, hdirlen, hdirplain⟩ := outputDir_plain capability
  obtain ⟨-, hfilelen, hfileplain, -⟩ := outputFile_plain mime h
  have hsplit : utf8Len (['/'].intercalate [outputDir capability, outputFile mime date]) =
      utf8Len (outputDir capability) + (1 + utf8Len (outputFile mime date)) := by
    rw [List.intercalate_cons_cons, List.intercalate_singleton]
    simp only [utf8Len, List.map_append, List.sum_append, List.append_assoc]
    rfl
  rw [hsplit, utf8Len_eq_length hdirplain, utf8Len_eq_length hfileplain, maxBlobPathLen]
  omega

/-- Every result is given a name, be it a provisional one. -/
theorem Invoker.outputPath_isSome {N : Invoker} {now : ℤ} {br : BlobRef}
    (h : ∀ t ∈ N.fromUnixTimestamp now, t.InRange) : (N.outputPath now br capability).isSome := by
  have hderived := (sanitizeBlobPath_of_segments (by simp)
    (sound_provisional capability br.mime h) (utf8Len_provisional capability br.mime h)).2
  rw [← deriveOutputPath_eq] at hderived
  rw [outputPath, hderived]
  rcases br.name.bind sanitizeBlobPath with - | path
  · rfl
  · rfl

end

/-- A provisional path is left as it is when it is sanitized: it has two segments, and
    the first one has no dot, dash or underscore at its ends. -/
theorem sanitizeBlobPath_deriveOutputPath (fromUnixTimestamp : ℤ → Option DateTime)
    (hrange : ∀ ts t, fromUnixTimestamp ts = some t → t.InRange) (capability mime : String)
    (ts : ℤ) :
    sanitizeBlobPath (deriveOutputPath capability mime (fromUnixTimestamp ts)) =
        some (deriveOutputPath capability mime (fromUnixTimestamp ts)) ∧
      ∃ dir file,
        (deriveOutputPath capability mime (fromUnixTimestamp ts)).toList.splitOn '/' = [dir, file] ∧
        dir ≠ [] ∧ file ≠ [] ∧ (∀ c ∈ dir.head?, ¬isEdge c) ∧ ∀ c ∈ dir.getLast?, ¬isEdge c := by
  have hsound := sound_provisional capability mime (hrange ts)
  obtain ⟨hdir, -, -⟩ := outputDir_plain capability
  obtain ⟨hfile, -, -, -⟩ := outputFile_plain mime (hrange ts)
  obtain ⟨⟨c, dir, hcons, hc⟩, hlast⟩ := clean_iff.1 (clean_outputDir capability)
  rw [deriveOutputPath_eq]
  have hlen := utf8Len_provisional capability mime (hrange ts)
  refine ⟨(sanitizeBlobPath_of_segments (by simp) hsound hlen).2, _, _,
    splitOn_ofList (by simp) fun s hs => (hsound s hs).1, hdir, hfile, fun d hd => ?_,
    fun d hd => ?_⟩
  · rw [hcons, List.head?_cons, Option.mem_some] at hd
    simp [← hd, hc]
  · rw [List.getLast?_eq_some_getLast hdir, Option.mem_some] at hd
    exact hd ▸ List.rdropWhile_eq_self_iff.1 hlast hdir

/-- A calendar of one moment. -/
def epoch (ts : ℤ) : Option DateTime := if ts = 0 then some ⟨1970, 1, 1, 0, 0, 0⟩ else none

theorem inRange_epoch (ts : ℤ) (t : DateTime) (h : epoch ts = some t) : t.InRange := by
  obtain ⟨-, h⟩ := Option.ite_none_right_eq_some.1 h
  obtain rfl := Option.some.inj h
  constructor <;> decide

theorem sanitizeBlobPath_epoch :
    sanitizeBlobPath (deriveOutputPath "..." "image/x-*; q=1" (epoch 0)) =
      some (deriveOutputPath "..." "image/x-*; q=1" (epoch 0)) :=
  (sanitizeBlobPath_deriveOutputPath epoch inRange_epoch "..." "image/x-*; q=1" 0).1

end N3ur0n
