import N3ur0n.Planner.Reference

/-!
# Base URLs

The base URL of a chat endpoint is normalized: spaces around it, slashes at its
end, and paths that are appended by the client are removed, until none is left
(`normalizeOpenaiBaseUrl`). Spaces that were in front of such a path remain: a
normalized URL is normalized again to itself if and only if it does not end with
white space (`normalize_normalize`).
-/

namespace N3ur0n

open Cut

/-- The slashes at the end are removed. -/
def trimSlashes (s : List Char) : List Char := s.rdropWhile (· = '/')

/-- A suffix is removed, if it is there, and the slashes before it. -/
def stripSuffix (s : List Char) (suffix : String) : List Char :=
  if suffix.toList.isSuffixOf s then trimSlashes (s.take (s.length - suffix.toList.length)) else s

/-- One round of the loop. -/
def stripSuffixes (s : List Char) : List Char :=
  ["/v1/chat/completions", "/api/generate", "/v1"].foldl stripSuffix s

/-- Rounds, until one changes nothing. -/
def stripLoop : ℕ → List Char → List Char
  | 0, s => s
  | n + 1, s => if stripSuffixes s = s then s else stripLoop n (stripSuffixes s)

/-- `normalize_openai_base_url`. A round that changes something removes some
    characters, so that their number bounds that of the rounds. -/
def normalizeOpenaiBaseUrl (url : String) : String :=
  let s := trimSlashes (trim isWhitespace url.toList)
  String.ofList (stripLoop s.length s)

/-- It has white space at its end. -/
def EndsBlank (s : String) : Prop := ∃ c ∈ s.toList.getLast?, isWhitespace c

/-! ## One round -/

variable {s : List Char} {suffix : String} {n : ℕ}

theorem prefix_trimSlashes : trimSlashes s <+: s := List.rdropWhile_prefix _ _

theorem prefix_stripSuffix : stripSuffix s suffix <+: s := by
  rw [stripSuffix]
  split_ifs
  · exact prefix_trimSlashes.trans (List.take_prefix _ _)
  · exact List.prefix_rfl

theorem prefix_stripSuffixes : stripSuffixes s <+: s :=
  prefix_stripSuffix.trans (prefix_stripSuffix.trans prefix_stripSuffix)

/-- No slash at the end. -/
def Bare (s : List Char) : Prop := trimSlashes s = s

theorem bare_trimSlashes : Bare (trimSlashes s) := List.rdropWhile_idempotent _ _

theorem Bare.stripSuffix (h : Bare s) : Bare (stripSuffix s suffix) := by
  rw [N3ur0n.stripSuffix]
  split_ifs
  · exact bare_trimSlashes
  · exact h

theorem Bare.stripSuffixes (h : Bare s) : Bare (stripSuffixes s) :=
  h.stripSuffix.stripSuffix.stripSuffix

/-! ## The loop -/

theorem prefix_stripLoop : stripLoop n s <+: s := by
  induction n generalizing s with
  | zero => exact List.prefix_rfl
  | succ n ih =>
    rw [stripLoop]
    split_ifs
    · exact List.prefix_rfl
    · exact ih.trans prefix_stripSuffixes

theorem Bare.stripLoop (h : Bare s) : Bare (stripLoop n s) := by
  induction n generalizing s with
  | zero => exact h
  | succ n ih =>
    rw [N3ur0n.stripLoop]
    split_ifs
    · exact h
    · exact ih h.stripSuffixes

theorem stripLoop_of_fixed (h : stripSuffixes s = s) : stripLoop n s = s := by
  cases n with
  | zero => rfl
  | succ n => exact if_pos h

/-- The loop ends when a round changes nothing: the bound is not reached before. -/
theorem stripSuffixes_stripLoop (hn : s.length ≤ n) :
    stripSuffixes (stripLoop n s) = stripLoop n s := by
  induction n generalizing s with
  | zero =>
    have hs : s = [] := List.length_eq_zero_iff.1 (Nat.le_zero.1 hn)
    exact hs ▸ List.prefix_nil.1 prefix_stripSuffixes
  | succ n ih =>
    rw [stripLoop]
    split_ifs with h
    · exact h
    · refine ih (Nat.le_of_lt_succ (Nat.lt_of_lt_of_le ?_ hn))
      refine Nat.lt_of_le_of_ne prefix_stripSuffixes.length_le fun hlen => h ?_
      exact prefix_stripSuffixes.eq_of_length hlen

/-! ## Normalizing twice -/

/-- A text without spaces at its start, as is every text that it starts with. -/
theorem dropWhile_of_prefix {p : Char → Bool} {r : List Char} (h : r <+: s.dropWhile p) :
    r.dropWhile p = r := by
  rcases r with _ | ⟨c, r⟩
  · rfl
  · obtain ⟨t, ht⟩ := h
    have hne : s.dropWhile p ≠ [] := ht ▸ List.cons_ne_nil _ _
    have hhead : (s.dropWhile p).head hne = c := by
      simp only [← ht, List.cons_append, List.head_cons]
    refine List.dropWhile_cons_of_neg ?_
    rw [← hhead, List.head_dropWhile_not p hne]
    exact Bool.false_ne_true

theorem rdropWhile_isWhitespace {s : String} :
    s.toList.rdropWhile isWhitespace = s.toList ↔ ¬EndsBlank s := by
  rw [List.rdropWhile_eq_self_iff, EndsBlank]
  constructor
  · rintro h ⟨c, hc, hblank⟩
    obtain ⟨hne, rfl⟩ := List.mem_getLast?_eq_getLast hc
    exact h hne hblank
  · intro h hne hblank
    exact h ⟨_, List.getLast?_eq_some_getLast hne, hblank⟩

/-- Nothing but white space at the end of a normalized URL is left to remove. -/
theorem normalize_normalize {url : String} :
    normalizeOpenaiBaseUrl (normalizeOpenaiBaseUrl url) = normalizeOpenaiBaseUrl url ↔
      ¬EndsBlank (normalizeOpenaiBaseUrl url) := by
  have hr : (normalizeOpenaiBaseUrl url).toList =
      stripLoop (trimSlashes (trim isWhitespace url.toList)).length
        (trimSlashes (trim isWhitespace url.toList)) := String.toList_ofList
  have hbare : Bare (normalizeOpenaiBaseUrl url).toList := hr ▸ bare_trimSlashes.stripLoop
  have hfixed : stripSuffixes (normalizeOpenaiBaseUrl url).toList =
      (normalizeOpenaiBaseUrl url).toList := hr ▸ stripSuffixes_stripLoop (Nat.le_refl _)
  have hstart : (normalizeOpenaiBaseUrl url).toList.dropWhile isWhitespace =
      (normalizeOpenaiBaseUrl url).toList := by
    refine dropWhile_of_prefix (s := url.toList) ?_
    rw [hr]
    exact prefix_stripLoop.trans (prefix_trimSlashes.trans (List.rdropWhile_prefix _ _))
  rw [← rdropWhile_isWhitespace]
  generalize normalizeOpenaiBaseUrl url = u at hbare hfixed hstart
  rw [normalizeOpenaiBaseUrl, trim, hstart]
  constructor
  · intro h
    have hprefix : u.toList <+: u.toList.rdropWhile isWhitespace := by
      have hu : u.toList <+: trimSlashes (u.toList.rdropWhile isWhitespace) := by
        rw [← String.toList_inj, String.toList_ofList] at h
        nth_rewrite 1 [← h]
        exact prefix_stripLoop
      exact hu.trans prefix_trimSlashes
    exact (List.rdropWhile_prefix _ _).eq_of_length_le hprefix.length_le
  · intro h
    rw [h, hbare, stripLoop_of_fixed hfixed, String.ofList_toList]

end N3ur0n
