import N3ur0n.Planner.Spans

/-!
# Writing mentions

The composer writes a mention as a token, with quotation marks around a value
which could not be read without them. A message is read from left to right, so a
token is found again if nothing before it reads over it.
-/

namespace N3ur0n

open Cut Slice Mention

/-! ## Tokens -/

/-- The spelling of the composer. -/
def MentionKind.text : MentionKind → List Char
  | .file => "file".toList
  | .peer => "peer".toList
  | .lobe => "lobe".toList
  | .cap => "cap".toList

/-- The value could not be read without quotation marks. -/
def needsQuotes (value : List Char) : Bool :=
  value.any isWhitespace || value.getLast?.any (· ∈ trailingPunctuation) || value.isEmpty

def quoteIfNeeded (value : List Char) : List Char :=
  if needsQuotes value then quotation :: value ++ [quotation] else value

namespace Mention

def value (m : Mention) : List Char :=
  match m.capability with
  | some cap => m.entity.toList ++ '/' :: cap.toList
  | none => m.entity.toList

/-- What follows the `@` of the token. -/
def body (m : Mention) : List Char := m.kind.text ++ ':' :: quoteIfNeeded m.value

def toToken (m : Mention) : List Char := '@' :: m.body

end Mention

/-- The text ends with a space. -/
def EndsSpace (s : List Char) : Prop := ∃ c ∈ s.getLast?, isWhitespace c

/-- The text begins with a space. -/
def BeginsSpace (s : List Char) : Prop := ∃ c ∈ s.head?, isWhitespace c

/-- The value is written without quotation marks, or has none itself. -/
def Mention.Readable (m : Mention) : Prop := needsQuotes m.value = false ∨ quotation ∉ m.value

/-- Between the two texts, the mention is read from its token, and from no more. -/
def Mention.FoundIn (m : Mention) (before after : List Char) : Prop :=
  ∃ l, parseMentionSpans (before ++ m.toToken ++ after) = .ok l ∧
    ⟨m, size before, size before + size m.toToken⟩ ∈ l

/-- What follows an `@` is a mention between quotation marks, the second of which is
    missing; that of a peer or a lobe has a name before its slash. -/
def Unclosed (r : List Char) : Prop :=
  ∃ (kind : MentionKind) (body : List Char), r = kind.text ++ ':' :: quotation :: body ∧
    quotation ∉ body ∧ ¬((kind = .peer ∨ kind = .lobe) ∧ body.head? = some '/')

/-- The text leaves a mention open, at an `@` where a mention is looked for. -/
def OpensQuote (s : List Char) : Prop :=
  ∃ r, flagged true ('@' :: r) ∈ visited token 0 (flagged true s) ∧ Unclosed r

variable {kind : MentionKind} {type value u v w r s t before after : List Char} {m : Mention}
  {n : ℕ}

/-! ## What is read -/

theorem ofPrefix_eq_some : MentionKind.ofPrefix type = some kind ↔ type = kind.text := by
  constructor
  · intro h
    rw [← String.toList_ofList (l := type)]
    unfold MentionKind.ofPrefix at h
    split at h
    all_goals first
      | (obtain rfl := Option.some.inj h; rename_i heq; rw [heq]; rfl)
      | exact absurd h (by simp)
  · rintro rfl
    rcases kind with - | - | - | - <;> decide

theorem colon_notMem_text : ':' ∉ kind.text := by
  rcases kind with - | - | - | - <;> decide

theorem isWhitespace_of_mem_text {c : Char} (h : c ∈ kind.text) : isWhitespace c = false := by
  revert c
  rcases kind with - | - | - | - <;> decide

/-- The value was read: between quotation marks, it has none; else it has no
    space, and begins with no quotation mark. -/
structure IsValue (value : List Char) : Prop where
  ne_nil : value ≠ []
  plain : quotation ∉ value ∨ (∀ c ∈ value, isWhitespace c = false) ∧ value.head? ≠ some quotation

theorem isValue_of_readValue (h : readValue s = some (value, n)) (hne : value ≠ []) :
    IsValue value := by
  refine ⟨hne, ?_⟩
  rcases s with _ | ⟨c, s⟩
  · obtain ⟨rfl, -⟩ : [] = value ∧ 0 = n := by simpa [readValue] using h
    exact absurd rfl hne
  · rw [readValue] at h
    split_ifs at h with hc
    · obtain ⟨value', hup, heq⟩ := Option.map_eq_some_iff.1 h
      obtain ⟨rfl, -⟩ := Prod.mk.inj heq
      obtain ⟨-, -, hmem⟩ := upTo_eq_some.1 hup
      exact .inl hmem
    · obtain ⟨rfl, -⟩ := Prod.mk.inj (Option.some.inj h)
      have hword := List.rdropWhile_prefix (fun c => decide (c ∈ trailingPunctuation))
        ((c :: s).takeWhile fun c => !isWhitespace c)
      refine .inr ⟨fun d hd => ?_, fun hhead => hc ?_⟩
      · simpa using List.mem_takeWhile_imp (hword.subset hd)
      · obtain ⟨tail, htail⟩ := hword.trans (List.takeWhile_prefix _)
        obtain ⟨rest, hrest⟩ := List.head?_eq_some_iff.1 hhead
        rw [hrest] at htail
        exact (List.cons.inj htail).1.symm

theorem IsValue.ofPrefix (h : IsValue value) (hw : w <+: value) (hne : w ≠ []) : IsValue w := by
  refine ⟨hne, h.plain.imp (fun hq hmem => hq (hw.subset hmem)) ?_⟩
  rintro ⟨hspace, hhead⟩
  refine ⟨fun c hc => hspace c (hw.subset hc), fun hq => hhead ?_⟩
  obtain ⟨tail, rfl⟩ := hw
  rwa [List.head?_append_of_ne_nil _ hne]

theorem Mention.descends_none {kind : MentionKind} :
    (none : Option String).isSome → kind = .peer ∨ kind = .lobe :=
  fun h => absurd h Bool.false_ne_true

/-- The mention of a whole value. -/
def Mention.whole (kind : MentionKind) (value : List Char) : Mention :=
  ⟨kind, String.ofList value, none, Mention.descends_none⟩

theorem whole_value : (whole kind value).value = value := String.toList_ofList

theorem ofValue_whole (h : ¬(kind = .peer ∨ kind = .lobe) ∨ '/' ∉ value) :
    ofValue kind value = some (whole kind value) := by
  unfold ofValue
  split_ifs with hk
  · rw [splitOnce_eq_none (h.resolve_left (not_not.2 hk))]
    rfl
  · rfl

/-- A value with a slash, of a peer or a lobe. -/
theorem ofValue_slash (hk : kind = .peer ∨ kind = .lobe) (hu : '/' ∉ u) :
    ofValue kind (u ++ '/' :: v) =
      if u = [] then none
      else if v = [] then some (whole kind u)
      else some ⟨kind, String.ofList u, some (String.ofList v), fun _ => hk⟩ := by
  rw [ofValue, dif_pos hk, splitOnce_append hu]
  rcases u with _ | ⟨c, u⟩
  · rfl
  · rcases v with _ | ⟨d, v⟩
    · rfl
    · rfl

theorem exists_slash (h : '/' ∈ value) : ∃ u v, value = u ++ '/' :: v ∧ '/' ∉ u := by
  cases hup : upTo '/' value with
  | none => exact absurd h (upTo_eq_none.1 hup)
  | some u =>
    obtain ⟨v, hv, hu⟩ := upTo_eq_some.1 hup
    exact ⟨u, v, hv, hu⟩

/-- A mention is read from its value again, which is what was read, but for a slash
    at its end. -/
theorem ofValue_value (h : ofValue kind value = some m) (hne : value ≠ []) :
    ofValue m.kind m.value = some m ∧ m.value <+: value ∧ m.value ≠ [] := by
  by_cases hslash : (kind = .peer ∨ kind = .lobe) ∧ '/' ∈ value
  · obtain ⟨hk, hmem⟩ := hslash
    obtain ⟨u, v, rfl, hu⟩ := exists_slash hmem
    have hread := ofValue_slash (v := v) hk hu
    rw [hread] at h
    split_ifs at h with hnil hcap
    · obtain rfl := Option.some.inj h
      rw [whole_value]
      exact ⟨ofValue_whole (.inr hu), List.prefix_append _ _, hnil⟩
    · obtain rfl := Option.some.inj h
      have hvalue : (⟨kind, String.ofList u, some (String.ofList v), fun _ => hk⟩ :
          Mention).value = u ++ '/' :: v := by simp [Mention.value]
      rw [hvalue, hread, if_neg hnil, if_neg hcap]
      exact ⟨rfl, List.prefix_rfl, hne⟩
  · have hread : ofValue kind value = some (whole kind value) :=
      ofValue_whole (not_and_or.1 hslash)
    rw [hread] at h
    obtain rfl := Option.some.inj h
    rw [whole_value]
    exact ⟨hread, List.prefix_rfl, hne⟩

/-- What is known of a mention that is read. -/
theorem isValue_of_mem {text : String} (h : m ∈ parseMentions text) :
    IsValue m.value ∧ ofValue m.kind m.value = some m := by
  obtain ⟨x, hx, hm⟩ := List.mem_filterMap.1 h
  obtain rfl : x = .inr m := by
    rcases x with c | m'
    · exact absurd hm (by simp)
    · simpa using hm
  obtain ⟨s, -, k, htoken⟩ := mem_visited_of_mem_cut hx
  rcases s with _ | ⟨⟨c, o⟩, s⟩
  · exact absurd htoken (by simp [token])
  · obtain ⟨-, hread⟩ := Option.ite_none_right_eq_some.1 htoken
    rw [read_eq_bind] at hread
    obtain ⟨type, -, h₁⟩ := Option.bind_eq_some_iff.1 hread
    obtain ⟨kind, -, h₂⟩ := Option.bind_eq_some_iff.1 h₁
    obtain ⟨⟨value, n⟩, hvalue, h₃⟩ := Option.bind_eq_some_iff.1 h₂
    obtain ⟨hne, h₄⟩ := Option.ite_none_left_eq_some.1 h₃
    obtain ⟨m', hof, heq⟩ := Option.map_eq_some_iff.1 h₄
    obtain ⟨rfl, -⟩ := Prod.mk.inj heq
    obtain ⟨hread', hpre, hne'⟩ := ofValue_value hof hne
    exact ⟨(isValue_of_readValue hvalue hne).ofPrefix hpre hne', hread'⟩

/-! ## What follows a text -/

theorem EndsSpace.ne_nil (h : EndsSpace s) : s ≠ [] := by
  rintro rfl
  obtain ⟨c, hc, -⟩ := h
  exact nomatch hc

theorem EndsSpace.exists_mem (h : EndsSpace s) : ∃ c ∈ s, isWhitespace c := by
  obtain ⟨c, hc, hspace⟩ := h
  exact ⟨c, List.mem_of_getLast? hc, hspace⟩

/-- What is after a character which is no space. -/
theorem EndsSpace.of_cons {c : Char} (h : EndsSpace (u ++ c :: v)) (hc : isWhitespace c = false) :
    EndsSpace v := by
  obtain ⟨d, hd, hspace⟩ := h
  rw [List.getLast?_append_of_ne_nil _ (List.cons_ne_nil c v)] at hd
  rcases v with _ | ⟨e, v⟩
  · obtain rfl : c = d := by simpa using hd
    exact absurd (hc.symm.trans hspace) Bool.false_ne_true
  · exact ⟨d, by rwa [List.getLast?_cons_cons] at hd, hspace⟩

theorem EndsSpace.opensAfter (h : EndsSpace s) : opensAfter true s = true := by
  obtain ⟨c, hc, hspace⟩ := h
  rw [← isWhitespace_last, hc]
  exact hspace

/-- A name of a kind is not read over a space. -/
theorem ofPrefix_eq_none {c : Char} (hc : c ∈ type) (hspace : isWhitespace c) :
    MentionKind.ofPrefix type = none := by
  rw [Option.eq_none_iff_forall_ne_some]
  intro kind h
  rw [ofPrefix_eq_some.1 h] at hc
  exact Bool.false_ne_true ((isWhitespace_of_mem_text hc).symm.trans hspace)

theorem upTo_text : upTo ':' (kind.text ++ ':' :: v) = some kind.text :=
  upTo_eq_some.2 ⟨v, rfl, colon_notMem_text⟩

/-- What is read after the name of a kind. -/
theorem read_text : read (kind.text ++ ':' :: v) = (readValue v).bind fun x =>
    if x.1 = [] then none else
      (ofValue kind x.1).map fun m => (m, kind.text.length + 1 + x.2) := by
  have hdrop : (kind.text ++ ':' :: v).drop (kind.text.length + 1) = v := by
    rw [← List.drop_drop, List.drop_left]
    rfl
  rw [read_eq_bind, upTo_text, Option.bind_some, ofPrefix_eq_some.2 rfl, Option.bind_some, hdrop]

theorem readValue_quotation_append (hv : quotation ∉ v) :
    readValue (quotation :: (v ++ quotation :: t)) = some (v, v.length + 2) := by
  rw [readValue, if_pos rfl, upTo_eq_some.2 ⟨t, rfl, hv⟩]
  rfl

theorem readValue_unclosed (hv : quotation ∉ v) : readValue (quotation :: v) = none := by
  rw [readValue, if_pos rfl, upTo_eq_none.2 hv]
  rfl

/-- A word ends where a space begins. -/
theorem readValue_word (hne : v ≠ []) (hspace : ∀ c ∈ v, isWhitespace c = false)
    (hhead : v.head? ≠ some quotation) (ht : t = [] ∨ BeginsSpace t) :
    readValue (v ++ t) = some (v.rdropWhile fun c => c ∈ trailingPunctuation,
      (v.rdropWhile fun c => c ∈ trailingPunctuation).length) := by
  obtain ⟨c, v, rfl⟩ := List.exists_cons_of_ne_nil hne
  have hc : c ≠ quotation := fun h => hhead (congrArg some h)
  have hword : (c :: v ++ t).takeWhile (fun c => !isWhitespace c) = c :: v := by
    rw [List.takeWhile_append_of_pos fun d hd => by rw [hspace d hd]; rfl]
    rcases ht with rfl | ⟨d, hd, hspace'⟩
    · rw [List.takeWhile_nil, List.append_nil]
    · obtain ⟨t, rfl⟩ := List.head?_eq_some_iff.1 hd
      rw [List.takeWhile_cons_of_neg (by simp [hspace']), List.append_nil]
  rw [List.cons_append, readValue, if_neg hc, ← List.cons_append, hword]

/-- The value of a peer or a lobe begins with no slash, and no other is left out. -/
theorem ofValue_eq_none (hne : value ≠ []) :
    ofValue kind value = none ↔ (kind = .peer ∨ kind = .lobe) ∧ value.head? = some '/' := by
  by_cases hslash : (kind = .peer ∨ kind = .lobe) ∧ '/' ∈ value
  · obtain ⟨hk, hmem⟩ := hslash
    obtain ⟨u, v, rfl, hu⟩ := exists_slash hmem
    rw [ofValue_slash hk hu, and_iff_right hk]
    rcases u with _ | ⟨c, u⟩
    · exact ⟨fun _ => rfl, fun _ => rfl⟩
    · have hc : c ≠ '/' := fun h => hu (h ▸ List.mem_cons_self)
      rw [if_neg (List.cons_ne_nil c u)]
      split_ifs <;> simp [hc]
  · rw [ofValue_whole (not_and_or.1 hslash)]
    exact iff_of_false (Option.some_ne_none _) fun h =>
      hslash ⟨h.1, List.mem_of_mem_head? h.2⟩

/-- A value is read as before, if it ends with a space, and its quotation marks are not
    closed by what follows. -/
theorem readValue_append (hv : EndsSpace v)
    (h : ∀ body, v = quotation :: body → quotation ∉ body → quotation ∉ t) :
    readValue (v ++ t) = readValue v := by
  obtain ⟨c, v, rfl⟩ := List.exists_cons_of_ne_nil hv.ne_nil
  by_cases hc : c = quotation
  · subst hc
    by_cases hclosed : quotation ∈ v
    · obtain ⟨value, hup⟩ :=
        Option.ne_none_iff_exists'.1 (mt upTo_eq_none.1 (not_not.2 hclosed))
      obtain ⟨w, rfl, hvalue⟩ := upTo_eq_some.1 hup
      rw [List.cons_append, List.append_assoc, List.cons_append,
        readValue_quotation_append hvalue, readValue_quotation_append hvalue]
    · rw [readValue_unclosed hclosed, List.cons_append,
        readValue_unclosed (List.not_mem_append hclosed (h v rfl hclosed))]
  · obtain ⟨d, hd, hspace⟩ := hv.exists_mem
    obtain ⟨x, y, heq⟩ := List.append_of_mem hd
    have hword : (c :: v ++ t).takeWhile (fun c => !isWhitespace c) =
        (c :: v).takeWhile fun c => !isWhitespace c := by
      rw [heq, List.append_assoc, List.cons_append, takeWhile_append_cons (by simp [hspace]),
        takeWhile_append_cons (by simp [hspace])]
    rw [List.cons_append, readValue, readValue, if_neg hc, if_neg hc, ← List.cons_append, hword]

/-- The quotation marks of a value are closed by what follows. -/
theorem readValue_closed (hv : quotation ∉ v) (ht : quotation ∈ t) :
    ∃ w, quotation ∉ w ∧
      readValue (quotation :: v ++ t) = some (v ++ w, (v ++ w).length + 2) := by
  obtain ⟨w, hup⟩ := Option.ne_none_iff_exists'.1 (mt upTo_eq_none.1 (not_not.2 ht))
  obtain ⟨t, rfl, hw⟩ := upTo_eq_some.1 hup
  refine ⟨w, hw, ?_⟩
  rw [List.cons_append, ← List.append_assoc,
    readValue_quotation_append (List.not_mem_append hv hw)]

/-- A kind is not read over the end of a text with a space. -/
theorem read_append_of_notMem (hr : EndsSpace r) (hcolon : ':' ∉ r) : read (r ++ t) = none := by
  obtain ⟨c, hc, hspace⟩ := hr.exists_mem
  rw [read_eq_bind]
  cases hup : upTo ':' (r ++ t) with
  | none => rfl
  | some type =>
    obtain ⟨v, hv, -⟩ := upTo_eq_some.1 hup
    have hmem : c ∈ type := by
      rcases List.append_eq_append_iff.1 hv with ⟨w, rfl, -⟩ | ⟨w, hw, hw'⟩
      · exact List.mem_append_left w hc
      · rcases w with _ | ⟨d, w⟩
        · rwa [hw, List.append_nil] at hc
        · obtain ⟨rfl, -⟩ := List.cons.inj hw'
          exact absurd (hw ▸ List.mem_append_right type List.mem_cons_self) hcolon
    rw [Option.bind_some, ofPrefix_eq_none hmem hspace]
    rfl

/-- What follows a text that ends with a space changes what is read only if it closes
    the quotation marks of the value. -/
theorem read_append (hr : EndsSpace r) (h : ¬(Unclosed r ∧ quotation ∈ t)) :
    read (r ++ t) = read r := by
  by_cases hcolon : ':' ∈ r
  · obtain ⟨type, hup⟩ := Option.ne_none_iff_exists'.1 (mt upTo_eq_none.1 (not_not.2 hcolon))
    obtain ⟨v, rfl, htype⟩ := upTo_eq_some.1 hup
    have hv : EndsSpace v := hr.of_cons (by decide)
    cases hkind : MentionKind.ofPrefix type with
    | none =>
      have hup' : upTo ':' (type ++ ':' :: v ++ t) = some type :=
        upTo_eq_some.2 ⟨v ++ t, by simp, htype⟩
      rw [read_eq_bind, read_eq_bind, hup, hup', Option.bind_some, Option.bind_some, hkind]
      rfl
    | some kind =>
      obtain rfl := ofPrefix_eq_some.1 hkind
      rw [List.append_assoc, List.cons_append, read_text, read_text]
      by_cases hopen : ∃ body, v = quotation :: body ∧ quotation ∉ body ∧ quotation ∈ t
      · -- The value begins with a slash, so it is left out.
        obtain ⟨body, rfl, hbody, ht⟩ := hopen
        have hslash : (kind = .peer ∨ kind = .lobe) ∧ body.head? = some '/' :=
          not_not.1 fun hslash => h ⟨⟨kind, body, rfl, hbody, hslash⟩, ht⟩
        have hne := (hv.of_cons (u := []) (by decide)).ne_nil
        obtain ⟨w, -, hread⟩ := readValue_closed hbody ht
        have hne' : body ++ w ≠ [] := List.append_ne_nil_of_left_ne_nil hne w
        have hhead : (body ++ w).head? = some '/' := by
          rw [List.head?_append_of_ne_nil _ hne, hslash.2]
        rw [hread, readValue_unclosed hbody, Option.bind_some, if_neg hne',
          (ofValue_eq_none hne').2 ⟨hslash.1, hhead⟩]
        rfl
      · rw [readValue_append hv fun body hv hbody ht => hopen ⟨body, hv, hbody, ht⟩]
  · rw [← r.append_nil, List.append_assoc, read_append_of_notMem hr hcolon,
      read_append_of_notMem hr hcolon]

/-- An open mention is read over the end of the text, if it is closed. -/
theorem read_unclosed (hr : EndsSpace r) (h : Unclosed r) (ht : quotation ∈ t) :
    read r = none ∧ ∃ m n, read (r ++ t) = some (m, n) ∧ r.length < n := by
  obtain ⟨kind, body, rfl, hbody, hslash⟩ := h
  have hne : body ≠ [] :=
    ((hr.of_cons (by decide)).of_cons (u := []) (by decide)).ne_nil
  obtain ⟨w, -, hread⟩ := readValue_closed hbody ht
  have hne' : body ++ w ≠ [] := List.append_ne_nil_of_left_ne_nil hne w
  have hof : ofValue kind (body ++ w) ≠ none := by
    rwa [Ne, ofValue_eq_none hne', List.head?_append_of_ne_nil _ hne]
  obtain ⟨m, hm⟩ := Option.ne_none_iff_exists'.1 hof
  refine ⟨?_, m, kind.text.length + 1 + ((body ++ w).length + 2), ?_, ?_⟩
  · rw [read_text, readValue_unclosed hbody]
    rfl
  · rw [List.append_assoc, List.cons_append, read_text, hread, Option.bind_some, if_neg hne', hm]
    rfl
  · rw [List.length_append, List.length_append, List.length_cons, List.length_cons]
    omega

/-! ## Reading a token -/

theorem needsQuotes_eq_false : needsQuotes value = false ↔
    (∀ c ∈ value, isWhitespace c = false) ∧ (∀ c ∈ value.getLast?, c ∉ trailingPunctuation) ∧
      value ≠ [] := by
  cases h : value.getLast? <;> simp [needsQuotes, and_assoc, h]

theorem IsValue.head_ne (hv : IsValue value) : value.head? ≠ some quotation :=
  hv.plain.elim (fun hq hhead => hq (List.mem_of_mem_head? hhead)) And.right

/-- A token is read as its mention, if a space follows it. -/
theorem read_body (hv : IsValue m.value) (hof : ofValue m.kind m.value = some m)
    (hm : m.Readable) (ha : after = [] ∨ BeginsSpace after) :
    read (m.body ++ after) = some (m, m.body.length) := by
  rw [Mention.body, quoteIfNeeded, List.append_assoc, List.cons_append, read_text]
  split_ifs with hneeds
  · have hq : quotation ∉ m.value := hm.resolve_left (by simp [hneeds])
    rw [List.cons_append, List.cons_append, List.append_assoc, List.singleton_append,
      readValue_quotation_append hq, Option.bind_some, if_neg hv.ne_nil, hof]
    simp [Nat.add_assoc, Nat.add_comm 1]
  · obtain ⟨hspace, hlast, -⟩ := needsQuotes_eq_false.1 (Bool.eq_false_iff.2 hneeds)
    have hword : m.value.rdropWhile (fun c => c ∈ trailingPunctuation) = m.value :=
      List.rdropWhile_eq_self_iff.2 fun hne => by
        simpa using hlast _ (List.getLast?_eq_getLast_of_ne_nil hne)
    rw [readValue_word hv.ne_nil hspace hv.head_ne ha,
      Option.bind_some, hword, if_neg hv.ne_nil, hof]
    simp [Nat.add_assoc, Nat.add_comm 1]

/-! ## What is before a token -/

/-- Where a text is visited, there is the rest of the text. -/
theorem exists_of_mem_visited {x : List (Char × Bool)} {b : Bool}
    (hx : x ∈ visited token n (flagged b s)) :
    ∃ u c v, s = u ++ c :: v ∧ x = flagged (opensAfter b u) (c :: v) := by
  obtain ⟨hsuffix, hne⟩ := suffix_of_mem_visited hx
  rw [List.suffix_iff_eq_drop, drop_flagged] at hsuffix
  rcases hdrop : s.drop ((flagged b s).length - x.length) with - | ⟨c, v⟩
  · rw [hdrop] at hsuffix
    exact absurd hsuffix hne
  · rw [hdrop] at hsuffix
    exact ⟨_, c, v, by rw [← hdrop, List.take_append_drop], hsuffix⟩

theorem not_opensQuote_of_notMem (h : '@' ∉ s) : ¬OpensQuote s := by
  rintro ⟨r, hmem, -⟩
  obtain ⟨u, c, v, rfl, hx⟩ := exists_of_mem_visited hmem
  obtain ⟨hc, -⟩ := Prod.mk.inj (List.cons.inj hx).1
  exact h (hc ▸ List.mem_append_right u List.mem_cons_self)

/-- What follows changes a token of a text that ends with a space only if it closes the
    quotation marks of its value. -/
theorem token_append {x : List (Char × Bool)} (hs : EndsSpace s)
    (hx : x ∈ visited token 0 (flagged true s)) :
    token (x ++ flagged true t) = token x ∨
      ∃ r, x = flagged true ('@' :: r) ∧ EndsSpace r ∧ Unclosed r ∧ quotation ∈ t := by
  obtain ⟨u, c, r, rfl, rfl⟩ := exists_of_mem_visited hx
  have hopens : opensAfter (opensAfter true u) (c :: r) = true := by
    rw [← opensAfter_append, hs.opensAfter]
  have happ : flagged (opensAfter true u) (c :: r) ++ flagged true t =
      flagged (opensAfter true u) (c :: (r ++ t)) := by
    rw [← List.cons_append, flagged_append, hopens]
  rw [happ, token_flagged, token_flagged]
  by_cases hat : c = '@' ∧ opensAfter true u = true
  · obtain ⟨rfl, hu⟩ := hat
    have hr : EndsSpace r := hs.of_cons (by decide)
    by_cases h : Unclosed r ∧ quotation ∈ t
    · exact .inr ⟨r, by rw [hu], hr, h⟩
    · rw [read_append hr h]
      exact .inl rfl
  · rw [if_neg hat, if_neg hat]
    exact .inl rfl

/-- The mentions of a text are found one by one where no mention goes over its end. -/
theorem tokens_append (hs : s = [] ∨ EndsSpace s) (h : ¬(OpensQuote s ∧ quotation ∈ t)) :
    tokens 0 (flagged true (s ++ t)) =
      tokens 0 (flagged true s) ++ tokens s.length (flagged true t) := by
  rcases hs with rfl | hs
  · rfl
  · rw [flagged_append, hs.opensAfter, tokens, tokensAt_append _ (Nat.zero_le _), length_flagged,
      Nat.zero_add]
    intro x hx
    rw [visited_counted] at hx
    refine ⟨?_, fun a n htoken => ?_⟩
    · rcases token_append (t := t) hs hx with heq | ⟨r, rfl, -, hopen, ht⟩
      · rw [counted, counted, heq]
      · exact absurd ⟨⟨r, hx, hopen⟩, ht⟩ h
    · obtain ⟨u, c, v, -, rfl⟩ := exists_of_mem_visited hx
      rw [counted, token_flagged] at htoken
      obtain ⟨r, hread, heq⟩ := Option.map_eq_some_iff.1 htoken
      obtain ⟨-, rfl⟩ := Prod.mk.inj heq
      rw [length_flagged, List.length_cons]
      exact Nat.lt_succ_of_le (le_of_read (Option.ite_none_right_eq_some.1 hread).2)

/-- Where a mention is open, and closed by what follows, a mention goes over the end. -/
theorem exists_token_over (hs : EndsSpace s) (h : OpensQuote s) (ht : quotation ∈ t) :
    ∃ o m n, (o, m, n) ∈ tokens 0 (flagged true (s ++ t)) ∧ o < s.length ∧ s.length ≤ o + n := by
  have hover : ∀ x ∈ visited token 0 (flagged true s), ∀ r, x = flagged true ('@' :: r) →
      EndsSpace r → Unclosed r → token x = none ∧
        ∃ m n, token (x ++ flagged true t) = some (m, n) ∧ x.length ≤ n := by
    rintro x - r rfl hr hopen
    obtain ⟨hnone, m, n, hsome, hlt⟩ := read_unclosed hr hopen ht
    have happ : flagged true ('@' :: r) ++ flagged true t = flagged true ('@' :: (r ++ t)) := by
      have hopens : opensAfter true ('@' :: r) = true := by
        rw [← hr.opensAfter]
        obtain ⟨c, r, rfl⟩ := List.exists_cons_of_ne_nil hr.ne_nil
        rfl
      rw [← List.cons_append, flagged_append, hopens]
    rw [happ, token_flagged, token_flagged, hnone, hsome, length_flagged]
    exact ⟨rfl, m, n, rfl, hlt⟩
  have hlen : 0 + (flagged true s).length = s.length := by rw [length_flagged, Nat.zero_add]
  rw [flagged_append, hs.opensAfter, ← hlen]
  refine exists_mem_tokensAt_over ?_ fun x hx hne => ?_
  · obtain ⟨r, hmem, hopen⟩ := h
    obtain ⟨u, c, v, rfl, hx⟩ := exists_of_mem_visited hmem
    have hfst := congrArg (List.map Prod.fst) hx
    rw [map_fst_flagged, map_fst_flagged] at hfst
    obtain ⟨rfl, rfl⟩ := List.cons.inj hfst
    obtain ⟨hnone, m, n, hsome, -⟩ := hover _ hmem _ rfl (hs.of_cons (by decide)) hopen
    exact ⟨_, hmem, by rw [hnone, hsome]; exact Option.some_ne_none _⟩
  · obtain ⟨r, hr, hspace, hopen, -⟩ := (token_append hs hx).resolve_left hne
    exact (hover x hx r hr hspace hopen).2

/-- A span over the end of the text, where a mention is open. -/
theorem exists_span_over (hs : EndsSpace s) (h : OpensQuote s) (ht : quotation ∈ t) :
    ∃ x ∈ mentionSpans (s ++ t), x.start < size s ∧ size s < x.stop := by
  obtain ⟨o, m, n, hmem, hlt, hle⟩ := exists_token_over hs h ht
  have hlen : s.length < (s ++ t).length := by
    rw [List.length_append]
    exact Nat.lt_add_of_pos_right (List.length_pos_of_mem ht)
  have hs' : size ((s ++ t).take s.length) = size s := by rw [List.take_left]
  refine ⟨_, List.mem_map.2 ⟨_, hmem, rfl⟩, ?_, ?_⟩
  · exact hs' ▸ size_take_lt (hlt.trans hlen) hlt
  · have hlt' : s.length < o + 1 + n := by omega
    exact hs' ▸ size_take_lt hlen hlt'

/-- Two spans of a text are the same, or one is after the other. -/
theorem SpansIn.eq_or_le {l : List MentionSpan} (hl : SpansIn s l) {x y : MentionSpan}
    (hx : x ∈ l) (hy : y ∈ l) : x = y ∨ x.stop ≤ y.start ∨ y.stop ≤ x.start := by
  have hsymm : Std.Symm fun x y : MentionSpan => x.stop ≤ y.start ∨ y.stop ≤ x.start :=
    ⟨fun _ _ => Or.symm⟩
  have hpair : l.Pairwise fun x y => x.stop ≤ y.start ∨ y.stop ≤ x.start :=
    hl.disjoint.imp Or.inl
  exact or_iff_not_imp_left.2 fun hne => hpair.forall hx hy hne

/-- A mention which was read is read from its token again, unless the text before the
    token leaves a mention open which is closed in the token, or after it. -/
theorem foundIn_iff {text : String} (h : m ∈ parseMentions text) (hm : m.Readable)
    (hb : before = [] ∨ EndsSpace before) (ha : after = [] ∨ BeginsSpace after) :
    m.FoundIn before after ↔ ¬(OpensQuote before ∧ quotation ∈ m.toToken ++ after) := by
  obtain ⟨hv, hof⟩ := isValue_of_mem h
  rw [FoundIn, List.append_assoc, parseMentionSpans_eq]
  constructor
  · rintro ⟨l, hl, hmem⟩ ⟨hopen, ht⟩
    obtain rfl := Except.ok.inj hl
    have hbefore : EndsSpace before :=
      hb.resolve_left fun hnil => not_opensQuote_of_notMem (by simp [hnil]) hopen
    obtain ⟨x, hx, hstart, hstop⟩ := exists_span_over hbefore hopen ht
    rcases (mentionSpans_spansIn _).eq_or_le hx hmem with rfl | hle | hle
    · exact absurd hstart (lt_irrefl _)
    · exact absurd hstop (not_lt.2 hle)
    · simp only at hle
      omega
  · intro hopen
    refine ⟨_, rfl, List.mem_map.2 ⟨(before.length, m, m.body.length), ?_, ?_⟩⟩
    · change _ ∈ tokens 0 (flagged true (before ++ (m.toToken ++ after)))
      rw [tokens_append hb hopen, Mention.toToken, List.cons_append, tokens_at, if_pos rfl,
        read_body hv hof hm ha]
      exact List.mem_append_right _ List.mem_cons_self
    · have hlen : before.length + 1 + m.body.length = (before ++ m.toToken).length := by
        rw [List.length_append, Mention.toToken, List.length_cons]
        omega
      simp only [List.nil_append, List.take_left, hlen]
      rw [← List.append_assoc, List.take_left, size_append]

/-- The token of a capability whose name has a space, and ends as a sentence does. -/
theorem foundIn_peer :
    FoundIn ⟨.peer, "b c", some "d!", fun _ => .inl rfl⟩ "ask ".toList " now".toList := by
  have hmem : ⟨.peer, "b c", some "d!", fun _ => .inl rfl⟩ ∈
      parseMentions "(@x) @peer:\"b c/d!\"" := by decide
  have hopen : ¬OpensQuote "ask ".toList := not_opensQuote_of_notMem (by decide)
  exact (foundIn_iff hmem (.inr (by decide)) (.inr ⟨' ', rfl, rfl⟩)
    (.inr ⟨' ', rfl, rfl⟩)).2 fun h => hopen h.1

theorem not_foundIn (h : m ∉ parseMentions (String.ofList (before ++ m.toToken ++ after))) :
    ¬m.FoundIn before after := by
  rintro ⟨l, hl, hmem⟩
  rw [parseMentionSpans_eq] at hl
  obtain rfl := Except.ok.inj hl
  rw [← map_mention_mentionSpans, String.toList_ofList] at h
  exact h (List.mem_map_of_mem hmem)

/-- A file whose second quotation mark is missing has the token in its name, and a peer
    with a quotation mark at its end is not read again. -/
theorem not_foundIn_open :
    let m : Mention := ⟨.peer, "b c", none, fun h => nomatch h⟩
    let m' : Mention := ⟨.peer, "a\"", none, fun h => nomatch h⟩
    (m ∈ parseMentions "@peer:\"b c\"" ∧ EndsSpace "@file:\"a ".toList ∧
      ¬m.FoundIn "@file:\"a ".toList []) ∧
    (m' ∈ parseMentions "@peer:a\"/" ∧ ¬m'.FoundIn [] []) := by
  refine ⟨⟨by decide, ⟨' ', rfl, rfl⟩, not_foundIn ?_⟩, by decide,
    not_foundIn ?_⟩
  · decide
  · decide

end N3ur0n
