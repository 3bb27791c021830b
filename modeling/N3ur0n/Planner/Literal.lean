import N3ur0n.Lib.Braces
import N3ur0n.Planner.Inline
import N3ur0n.Planner.Safety

/-!
# Literal text

A prompt may hold braces that are no references: JSON, code, placeholders. What
the two scanners make of such a fragment `{inner}`, whose head names no step, is
told apart with the places of the characters:

* validation reads a key at some places of a text (`keysAt`);
* substitution keeps some characters of the text, and puts the texts of values
  between them: `trace` is its output, every character that is kept with its
  place in the text.

The fragment is treated as text if validation accepts whatever key it reads in
it, and if substitution keeps all its characters (`TreatedAsText`). It is not so
when its head looks like a step id, as then validation rejects the plan, or when
a reference is opened inside of the fragment, or before it, in braces that it
closes (`treatedAsText_iff`).
-/

namespace N3ur0n

open Cut

/-! ## Places -/

/-- The keys read by `extractTemplateKeys`, with their places. -/
def keysAt (s : List Char) : List (ℕ × List Char) :=
  (tokensAt keyToken 0 0 s).filterMap fun x => x.2.map fun key => (x.1, key)

/-- The characters of a text, with their places from `k` on. -/
def placed (k : ℕ) (s : List Char) : List (Char × Option ℕ) :=
  (s.zipIdx k).map fun x => (x.1, some x.2)

/-- What a piece becomes: what is kept of it has places from `k` on, and the text
    of a value has none. -/
def tracePiece (blackboard : Blackboard) (k : ℕ) : Char ⊕ Ref → List (Char × Option ℕ)
  | .inl c => placed k [c]
  | .inr r =>
    match lookupPath r.inner blackboard with
    | some v => (valueToText v).map fun c => (c, none)
    | none => placed k r.verbatim

/-- What pieces become, the first of them being at the place `k`. -/
def tracePieces (blackboard : Blackboard) : ℕ → List (Char ⊕ Ref) → List (Char × Option ℕ)
  | _, [] => []
  | k, p :: ps =>
    tracePiece blackboard k p ++ tracePieces blackboard (k + (pieceSource p).length) ps

/-- What a text becomes, the places counted from `k`. -/
def trace (blackboard : Blackboard) (k : ℕ) (s : List Char) : List (Char × Option ℕ) :=
  tracePieces blackboard k (cut (boardToken blackboard) 0 s)

variable {blackboard : Blackboard} {s t : List Char} {k : ℕ}

theorem placed_append : placed k (s ++ t) = placed k s ++ placed (k + s.length) t := by
  rw [placed, List.zipIdx_append, List.map_append]
  rfl

theorem placed_map_fst : (placed k s).map Prod.fst = s := by
  rw [placed, List.map_map]
  exact List.zipIdx_map_fst k s

theorem mem_placed {c : Char} {o : Option ℕ} (h : (c, o) ∈ placed k s) :
    ∃ i, o = some i ∧ k ≤ i ∧ i < k + s.length ∧ s[i - k]? = some c := by
  obtain ⟨⟨d, i⟩, hmem, heq⟩ := List.mem_map.1 h
  obtain ⟨rfl, rfl⟩ := Prod.mk.inj heq
  obtain ⟨hle, hlt, hget⟩ := List.mem_zipIdx hmem
  exact ⟨i, rfl, hle, by omega, List.getElem?_eq_some_iff.2 ⟨by omega, hget.symm⟩⟩

/-- The places forgotten, the trace is the text substituted. -/
theorem trace_map_fst : (trace blackboard k s).map Prod.fst = inlineText blackboard s := by
  rw [trace, inlineText]
  induction cut (boardToken blackboard) 0 s generalizing k with
  | nil => rfl
  | cons p ps ih =>
    rw [tracePieces, List.map_append, ih, List.flatMap_cons]
    congr 1
    rcases p with c | r
    · rfl
    · simp only [tracePiece, substitutePiece]
      cases lookupPath r.inner blackboard with
      | none => exact placed_map_fst
      | some v => simp [Function.comp_def]

theorem tracePieces_append {ps qs : List (Char ⊕ Ref)} :
    tracePieces blackboard k (ps ++ qs) = tracePieces blackboard k ps ++
      tracePieces blackboard (k + (ps.flatMap pieceSource).length) qs := by
  induction ps generalizing k with
  | nil => rfl
  | cons p ps ih =>
    rw [List.cons_append, tracePieces, ih, tracePieces, List.append_assoc, List.flatMap_cons,
      List.length_append, Nat.add_assoc]

/-- What is kept of pieces has its places among theirs. -/
theorem mem_tracePieces {ps : List (Char ⊕ Ref)} {c : Char} {i : ℕ}
    (h : (c, some i) ∈ tracePieces blackboard k ps) :
    k ≤ i ∧ i < k + (ps.flatMap pieceSource).length ∧
      (ps.flatMap pieceSource)[i - k]? = some c := by
  induction ps generalizing k with
  | nil => simp [tracePieces] at h
  | cons p ps ih =>
    rw [List.flatMap_cons, List.length_append]
    rw [tracePieces, List.mem_append] at h
    rcases h with h | h
    · have hp : (c, some i) ∈ placed k (pieceSource p) := by
        rcases p with d | r
        · exact h
        · simp only [tracePiece] at h
          cases hl : lookupPath r.inner blackboard with
          | none =>
            simp only [hl] at h
            exact h
          | some v => simp [hl] at h
      obtain ⟨j, hj, hle, hlt, hget⟩ := mem_placed hp
      obtain rfl := Option.some.inj hj
      exact ⟨hle, by omega, by rw [List.getElem?_append_left (by omega), hget]⟩
    · obtain ⟨hle, hlt, hget⟩ := ih h
      refine ⟨by omega, by omega, ?_⟩
      rw [List.getElem?_append_right (by omega), ← hget]
      congr 1
      omega

/-- What is kept of a text has its place in it. -/
theorem mem_trace {c : Char} {i : ℕ} (h : (c, some i) ∈ trace blackboard k s) :
    k ≤ i ∧ i < k + s.length ∧ s[i - k]? = some c := by
  have := mem_tracePieces h
  rwa [flatMap_pieceSource] at this

/-! ## The two scanners -/

/-- What substitution takes. -/
def refTaken (known : String → Bool) (dollar : Bool) (inner : List Char) : Option Ref :=
  if dollar ∨ headOf inner ≠ "" ∧ known (headOf inner) then some ⟨dollar, inner⟩ else none

/-- What validation takes, with the key it reads, if any. -/
def keyTaken (dollar : Bool) (inner : List Char) : Option (Option (List Char)) :=
  some (if dollar ∨ looksLikeStepId (headOf inner) then some inner else none)

theorem refToken_eq (known : String → Bool) : refToken known = braceToken (refTaken known) := by
  funext s
  unfold refToken
  split
  · simp [braceToken, opening, refTaken, Option.map_eq_bind]
  · rename_i cs
    simp only [braceToken, opening, Option.bind_some, refTaken]
    congr 1
    funext inner
    split_ifs <;> simp_all
  · rename_i hd hb
    rw [braceToken, opening_eq_none hd hb, Option.bind_none]

theorem keyToken_eq : keyToken = braceToken keyTaken := by
  funext s
  unfold keyToken
  split
  · simp [braceToken, opening, keyTaken, Option.map_eq_bind]
  · simp [braceToken, opening, keyTaken, Option.map_eq_bind]
  · rename_i hd hb
    rw [braceToken, opening_eq_none hd hb, Option.bind_none]

/-- The keys with their places are those collected. -/
theorem keysAt_map_snd (s : String) :
    (keysAt s.toList).map Prod.snd = extractTemplateKeys s := by
  have hsnd : (keysAt s.toList).map Prod.snd =
      ((tokensAt keyToken 0 0 s.toList).map Prod.snd).filterMap id := by
    rw [keysAt, List.map_filterMap, List.filterMap_map]
    refine List.filterMap_congr fun ⟨i, key⟩ _ => ?_
    rcases key with _ | key <;> rfl
  rw [hsnd, tokensAt_map_snd, List.filterMap_filterMap, extractTemplateKeys]
  refine List.filterMap_congr fun x _ => ?_
  rcases x with c | key <;> rfl

/-- A string that is not replaced as a whole becomes the text of its trace. -/
theorem resolveString_eq_trace {s : String}
    (h : ((wholeTemplate s).bind fun key => lookupPath key blackboard) = none) :
    resolveString blackboard s =
      .string (String.ofList ((trace blackboard 0 s.toList).map Prod.fst)) := by
  rw [trace_map_fst, resolveString, h]
  rfl

theorem trace_closed (hs : Closed s) :
    trace blackboard k (s ++ t) = trace blackboard k s ++ trace blackboard (k + s.length) t := by
  rw [trace, boardToken, refToken_eq, cut_closed hs, tracePieces_append, ← refToken_eq,
    flatMap_pieceSource]
  rfl

/-! ## What substitution keeps -/

/-- In braces that the end of the text closes, a reference is opened whose step
    is one of `K`. What a `${` opens hides what is opened after it. -/
def OpensTo (K : String → Prop) : List Char → Prop
  | [] => False
  | c :: cs =>
    match opening (c :: cs) with
    | some (true, inner) => K (headOf inner)
    | some (false, inner) => headOf inner ≠ "" ∧ K (headOf inner) ∨ OpensTo K cs
    | none => OpensTo K cs

/-- A path leads to a value on some blackboard, which holds only its head. -/
theorem exists_lookupPath (key : List Char) :
    ∃ blackboard : Blackboard, (∀ id, id ∈ blackboard ↔ id = headOf key) ∧
      lookupPath key blackboard = some .null := by
  obtain ⟨ps, hps⟩ := splitOn_eq_headOf key
  -- The value nests an object for every field of the path.
  have hwalk (ps : List String) : ∃ v, walk ps v = some .null := by
    induction ps with
    | nil => exact ⟨.null, rfl⟩
    | cons p ps ih =>
      obtain ⟨v, hv⟩ := ih
      exact ⟨.object [(p, v)], by simp [walk, Value.get, hv]⟩
  obtain ⟨v, hv⟩ := hwalk (ps.map String.ofList)
  refine ⟨Finmap.singleton (headOf key) v, fun id => Finmap.mem_singleton _ _ _, ?_⟩
  simp only [lookupPath, hps]
  rw [← headOf, Finmap.lookup_singleton_eq, Option.bind_some, hv]

theorem lookupPath_eq_none {key : List Char} (h : headOf key ∉ blackboard) :
    lookupPath key blackboard = none := by
  obtain ⟨ps, hps⟩ := splitOn_eq_headOf key
  simp only [lookupPath, hps]
  rw [← headOf, Finmap.lookup_eq_none.2 h, Option.bind_none]

variable {K : String → Prop}

theorem trace_close (t : List Char) :
    trace blackboard k ('}' :: t) = placed k ['}'] ++ trace blackboard (k + 1) t := by
  rw [trace, boardToken, refToken_eq, cut_close, ← refToken_eq]
  rfl

/-- The character is kept, if no reference is taken there. -/
theorem trace_left {c : Char} (hs : '}' ∉ c :: s)
    (ho : ∀ o, opening (c :: s) = some o →
      refTaken (fun id => decide (id ∈ blackboard)) o.1 o.2 = none) (t : List Char) :
    trace blackboard k (c :: s ++ '}' :: t) =
      placed k [c] ++ trace blackboard (k + 1) (s ++ '}' :: t) := by
  rw [trace, boardToken, refToken_eq, cut_left hs ho, ← refToken_eq]
  rfl

theorem trace_taken {dollar : Bool} {inner : List Char} (hs : '}' ∉ s)
    (ho : opening s = some (dollar, inner))
    (ha : refTaken (fun id => decide (id ∈ blackboard)) dollar inner = some ⟨dollar, inner⟩)
    (t : List Char) : trace blackboard k (s ++ '}' :: t) =
      tracePiece blackboard k (.inr ⟨dollar, inner⟩) ++ trace blackboard (k + s.length + 1) t := by
  have hlen : (pieceSource (.inr ⟨dollar, inner⟩)).length = s.length + 1 := by
    rw [opening_eq_some.1 ho]
    simp [pieceSource, Ref.verbatim, Nat.add_assoc]
  rw [trace, boardToken, refToken_eq, cut_taken hs ho ha, tracePieces, hlen, ← refToken_eq]
  rfl

theorem refTaken_eq_none {known : String → Bool} {inner : List Char}
    (h : ¬(headOf inner ≠ "" ∧ known (headOf inner))) : refTaken known false inner = none := by
  rw [refTaken, if_neg]
  simpa using h

/-- Without a reference to `K`, everything is kept up to the closing brace. -/
theorem trace_kept (hs : '}' ∉ s) (hb : ∀ id ∈ blackboard, K id) (hK : ¬OpensTo K s)
    (t : List Char) : trace blackboard k (s ++ '}' :: t) =
      placed k (s ++ ['}']) ++ trace blackboard (k + s.length + 1) t := by
  induction s generalizing k with
  | nil => exact trace_close t
  | cons c s ih =>
    have hs' : '}' ∉ s := fun h => hs (List.mem_cons_of_mem _ h)
    have hlen : k + (c :: s).length + 1 = k + 1 + s.length + 1 := by
      rw [List.length_cons]
      omega
    -- If the character is kept, the rest is read on its own.
    have hleft (hK' : ¬OpensTo K s) (ho : ∀ o, opening (c :: s) = some o →
        refTaken (fun id => decide (id ∈ blackboard)) o.1 o.2 = none) :
        trace blackboard k (c :: s ++ '}' :: t) =
          placed k (c :: s ++ ['}']) ++ trace blackboard (k + (c :: s).length + 1) t := by
      have hplaced : placed k (c :: s ++ ['}']) = placed k [c] ++ placed (k + 1) (s ++ ['}']) :=
        placed_append (s := [c])
      rw [trace_left hs ho, ih hs' hK', hlen, hplaced, List.append_assoc]
    unfold OpensTo at hK
    cases ho : opening (c :: s) with
    | none =>
      rw [ho] at hK
      exact hleft hK fun o h => absurd h (by rw [ho]; simp)
    | some o =>
      obtain ⟨dollar, inner⟩ := o
      rw [ho] at hK
      rcases dollar
      · simp only [not_or] at hK
        refine hleft hK.2 fun o h => ?_
        obtain rfl := Option.some.inj (ho.symm.trans h)
        exact refTaken_eq_none fun h => hK.1 ⟨h.1, hb _ (of_decide_eq_true h.2)⟩
      · have hnone : lookupPath inner blackboard = none :=
          lookupPath_eq_none fun h => hK (hb _ h)
        rw [trace_taken hs ho (by simp [refTaken])]
        simp only [tracePiece, hnone]
        rw [opening_eq_some.1 ho]
        simp [Ref.verbatim]

/-- With a reference to `K`, the closing brace may be lost. -/
theorem trace_lost (hs : '}' ∉ s) (hK : OpensTo K s) :
    ∃ blackboard : Blackboard, (∀ id ∈ blackboard, K id) ∧
      ∀ k t c, (c, some (k + s.length)) ∉ trace blackboard k (s ++ '}' :: t) := by
  induction s with
  | nil => exact hK.elim
  | cons c s ih =>
    have hs' : '}' ∉ s := fun h => hs (List.mem_cons_of_mem _ h)
    -- A reference with a value runs up to the closing brace.
    have htaken {dollar : Bool} {inner : List Char} (ho : opening (c :: s) = some (dollar, inner))
        (hd : dollar ∨ headOf inner ≠ "") (hk : K (headOf inner)) :
        ∃ blackboard : Blackboard, (∀ id ∈ blackboard, K id) ∧
          ∀ k t d, (d, some (k + (c :: s).length)) ∉ trace blackboard k (c :: s ++ '}' :: t) := by
      obtain ⟨blackboard, hmem, hnull⟩ := exists_lookupPath inner
      refine ⟨blackboard, fun id hid => (hmem id).1 hid ▸ hk, fun k t d hd' => ?_⟩
      have ha : refTaken (fun id => decide (id ∈ blackboard)) dollar inner =
          some ⟨dollar, inner⟩ := by
        rw [refTaken, if_pos]
        exact hd.imp_right fun h => ⟨h, decide_eq_true ((hmem _).2 rfl)⟩
      rw [trace_taken hs ho ha, List.mem_append] at hd'
      rcases hd' with hd' | hd'
      · simp [tracePiece, hnull] at hd'
      · have := (mem_trace hd').1
        omega
    -- If the character is kept, the closing brace is lost later.
    have hleft (hK' : OpensTo K s) (ho : ∀ blackboard : Blackboard, (∀ id ∈ blackboard, K id) →
        ∀ o, opening (c :: s) = some o →
          refTaken (fun id => decide (id ∈ blackboard)) o.1 o.2 = none) :
        ∃ blackboard : Blackboard, (∀ id ∈ blackboard, K id) ∧
          ∀ k t d, (d, some (k + (c :: s).length)) ∉ trace blackboard k (c :: s ++ '}' :: t) := by
      obtain ⟨blackboard, hb, hlost⟩ := ih hs' hK'
      refine ⟨blackboard, hb, fun k t d hd => ?_⟩
      rw [trace_left hs (ho blackboard hb), List.mem_append] at hd
      rcases hd with hd | hd
      · obtain ⟨i, hi, -, hlt, -⟩ := mem_placed hd
        obtain rfl := Option.some.inj hi
        simp at hlt
      · refine hlost (k + 1) t d ?_
        rwa [List.length_cons, Nat.add_comm s.length, ← Nat.add_assoc] at hd
    unfold OpensTo at hK
    cases ho : opening (c :: s) with
    | none =>
      rw [ho] at hK
      exact hleft hK fun _ _ o h => absurd h (by rw [ho]; simp)
    | some o =>
      obtain ⟨dollar, inner⟩ := o
      rw [ho] at hK
      rcases dollar
      · by_cases hk : headOf inner ≠ "" ∧ K (headOf inner)
        · exact htaken ho (.inr hk.1) hk.2
        · refine hleft (hK.resolve_left hk) fun blackboard hb o h => ?_
          obtain rfl := Option.some.inj (ho.symm.trans h)
          exact refTaken_eq_none fun h => hk ⟨h.1, hb _ (of_decide_eq_true h.2)⟩
      · exact htaken ho (.inl rfl) hK

/-! ## What validation reads -/

/-- A text that opens braces has a token in it, running up to the closing brace. -/
theorem tokensAt_nested {u : List Char} (hu : '{' ∈ u) (hs : '}' ∉ u ++ s) (t : List Char) :
    ∃ i < u.length, ∃ key, tokensAt (braceToken keyTaken) k 0 (u ++ s ++ '}' :: t) =
      (k + i, key) :: tokensAt (braceToken keyTaken) (k + (u ++ s).length + 1) 0 t := by
  induction u generalizing k with
  | nil => exact absurd hu List.not_mem_nil
  | cons c u ih =>
    rw [List.cons_append] at hs ⊢
    cases ho : opening (c :: (u ++ s)) with
    | some o => exact ⟨0, Nat.succ_pos _, _, tokensAt_taken hs ho rfl⟩
    | none =>
      have hc : '{' ≠ c := fun h => by simp [← h, opening] at ho
      obtain ⟨i, hi, key, hrest⟩ := ih (k := k + 1) ((List.mem_cons.1 hu).resolve_left hc)
        fun h => hs (List.mem_cons_of_mem _ h)
      refine ⟨i + 1, Nat.succ_lt_succ hi, key, ?_⟩
      rw [tokensAt_left hs fun o h => absurd h (by rw [ho]; simp), hrest, List.length_cons]
      congr 2 <;> omega

/-- Plain text before the braces is left alone. -/
theorem tokensAt_fragment {u inner : List Char} (hu : '{' ∉ u) (hlast : u.getLast? ≠ some '$')
    (hs : '}' ∉ u ++ '{' :: inner) (t : List Char) :
    tokensAt (braceToken keyTaken) k 0 (u ++ '{' :: inner ++ '}' :: t) =
      (k + u.length, if looksLikeStepId (headOf inner) then some inner else none) ::
        tokensAt (braceToken keyTaken) (k + (u ++ '{' :: inner).length + 1) 0 t := by
  induction u generalizing k with
  | nil => exact tokensAt_taken (o := (false, inner)) hs rfl (by simp [keyTaken])
  | cons c u ih =>
    have hopen : opening (c :: u ++ '{' :: inner) = none := by
      rw [List.cons_append]
      refine opening_eq_none (fun cs h => ?_) fun cs h => hu (by simp [(List.cons.inj h).1])
      obtain ⟨rfl, h'⟩ := List.cons.inj h
      rcases u with _ | ⟨d, u⟩
      · exact hlast rfl
      · exact hu (by simp [(List.cons.inj h').1])
    have hlast' : u.getLast? ≠ some '$' := by
      rcases u with _ | ⟨d, u⟩
      · simp
      · rwa [List.getLast?_cons_cons] at hlast
    rw [List.cons_append] at hs hopen ⊢
    rw [tokensAt_left hs fun o h => absurd h (by rw [hopen]; simp),
      ih (fun h => hu (List.mem_cons_of_mem _ h)) hlast' fun h => hs (List.mem_cons_of_mem _ h)]
    simp only [List.length_cons]
    congr 2 <;> omega

/-! ## Fragments -/

/-- A braced fragment of a text, without a dollar before it. -/
structure Fragment (s : List Char) where
  pre : List Char
  inner : List Char
  post : List Char
  text : s = pre ++ '{' :: (inner ++ '}' :: post)
  closed : '}' ∉ inner
  bare : pre.getLast? ≠ some '$'

namespace Fragment

variable (f : Fragment s)

/-- What is before the fragment, after the last closing brace. -/
def front : List Char := f.pre.rtakeWhile (· ≠ '}')

/-- Whether a place is that of a character of the fragment. -/
def Covers (i : ℕ) : Prop := f.pre.length ≤ i ∧ i ≤ f.pre.length + f.inner.length + 1

theorem front_closed : '}' ∉ f.front ++ '{' :: f.inner := by
  rw [List.mem_append, List.mem_cons, not_or, not_or]
  refine ⟨fun h => ?_, by decide, f.closed⟩
  simpa using List.mem_rtakeWhile_imp h

/-- The scanners start anew in front of the fragment. -/
theorem exists_front : ∃ u, Closed u ∧ f.pre = u ++ f.front ∧
    s = u ++ ((f.front ++ '{' :: f.inner) ++ '}' :: f.post) := by
  obtain ⟨u, hu, hpre⟩ := exists_closed f.pre
  refine ⟨u, hu, hpre, ?_⟩
  calc s = f.pre ++ '{' :: (f.inner ++ '}' :: f.post) := f.text
    _ = u ++ f.front ++ '{' :: (f.inner ++ '}' :: f.post) := congrArg (· ++ _) hpre
    _ = _ := by simp only [List.append_assoc, List.cons_append]

theorem front_getLast? : f.front.getLast? ≠ some '$' := by
  obtain ⟨u, -, hpre, -⟩ := f.exists_front
  rcases List.eq_nil_or_concat f.front with h | ⟨v, c, h⟩
  · simp [h]
  · have hlast := f.bare
    rw [hpre, h, List.concat_eq_append, ← List.append_assoc, List.getLast?_concat] at hlast
    rwa [h, List.concat_eq_append, List.getLast?_concat]

/-- Validation reads a key in the fragment, its own, when its head looks like a
    step id and it is not within braces. -/
theorem mem_keysAt {i : ℕ} {key : List Char} :
    (i, key) ∈ keysAt s ∧ f.Covers i ↔
      '{' ∉ f.front ∧ looksLikeStepId (headOf f.inner) ∧ i = f.pre.length ∧ key = f.inner := by
  obtain ⟨u, hu, hpre, hs⟩ := f.exists_front
  have hlen : f.pre.length = u.length + f.front.length := by rw [hpre, List.length_append]
  have hmem : (i, key) ∈ keysAt s ↔ (i, some key) ∈ tokensAt (braceToken keyTaken) 0 0 u ++
      tokensAt (braceToken keyTaken) u.length 0 ((f.front ++ '{' :: f.inner) ++ '}' :: f.post) := by
    have htokens := tokensAt_closed (f := keyTaken) hu (k := 0)
      (t := (f.front ++ '{' :: f.inner) ++ '}' :: f.post)
    rw [← hs, Nat.zero_add] at htokens
    rw [← htokens, keysAt, keyToken_eq]
    simp [List.mem_filterMap]
  -- Tokens elsewhere start before the fragment, or after it.
  have hbefore (x : Option (List Char)) (hi : f.Covers i) :
      (i, x) ∉ tokensAt (braceToken keyTaken) 0 0 u := fun h => by
    have := le_of_mem_tokensAt h
    have := hi.1
    omega
  have hafter (x : Option (List Char)) (hi : f.Covers i) : (i, x) ∉ tokensAt (braceToken keyTaken)
      (u.length + (f.front ++ '{' :: f.inner).length + 1) 0 f.post := fun h => by
    have := (le_of_mem_tokensAt h).1
    have := hi.2
    rw [List.length_append, List.length_cons] at *
    omega
  have hcovers : f.Covers f.pre.length := ⟨le_rfl, by omega⟩
  rw [hmem, List.mem_append]
  by_cases hopen : '{' ∈ f.front
  · obtain ⟨j, hj, x, htokens⟩ := tokensAt_nested (k := u.length) hopen f.front_closed f.post
    rw [htokens, List.mem_cons]
    refine ⟨fun ⟨h, hi⟩ => ?_, fun h => absurd hopen h.1⟩
    rcases h with h | h | h
    · exact absurd h (hbefore _ hi)
    · have := (Prod.mk.inj h).1
      have := hi.1
      omega
    · exact absurd h (hafter _ hi)
  · rw [tokensAt_fragment hopen f.front_getLast? f.front_closed, List.mem_cons, ← hlen]
    constructor
    · rintro ⟨h | h | h, hi⟩
      · exact absurd h (hbefore _ hi)
      · obtain ⟨rfl, hkey⟩ := Prod.mk.inj h
        rw [eq_comm, Option.ite_none_right_eq_some, Option.some.injEq] at hkey
        exact ⟨hopen, hkey.1, rfl, hkey.2.symm⟩
      · exact absurd h (hafter _ hi)
    · rintro ⟨-, hlook, rfl, rfl⟩
      exact ⟨.inr (.inl (by rw [if_pos hlook])), hcovers⟩

/-- The fragment with its braces, as it is written. -/
def source : List Char := '{' :: (f.inner ++ ['}'])

/-- Substitution keeps the fragment, whatever results of `K` it is given, unless
    a reference to `K` is opened that the fragment closes. -/
theorem kept_iff : (∀ blackboard : Blackboard, (∀ id ∈ blackboard, K id) →
      placed f.pre.length f.source <:+: trace blackboard 0 s) ↔
    ¬OpensTo K (f.front ++ '{' :: f.inner) := by
  obtain ⟨u, hu, hpre, hs⟩ := f.exists_front
  have hlen : f.pre.length = u.length + f.front.length := by rw [hpre, List.length_append]
  have htrace (blackboard : Blackboard) : trace blackboard 0 s = trace blackboard 0 u ++
      trace blackboard u.length ((f.front ++ '{' :: f.inner) ++ '}' :: f.post) := by
    have happ : trace blackboard 0 (u ++ ((f.front ++ '{' :: f.inner) ++ '}' :: f.post)) = _ :=
      trace_closed hu
    rwa [← hs, Nat.zero_add] at happ
  constructor
  · intro h hopens
    obtain ⟨blackboard, hb, hlost⟩ := trace_lost f.front_closed hopens
    -- The place of the closing brace would be kept.
    have hclose : ('}', some (u.length + (f.front ++ '{' :: f.inner).length)) ∈
        placed f.pre.length f.source := by
      have hsplit : f.source = ('{' :: f.inner) ++ ['}'] := rfl
      have hplace : f.pre.length + ('{' :: f.inner).length =
          u.length + (f.front ++ '{' :: f.inner).length := by
        rw [hlen, List.length_append, Nat.add_assoc]
      rw [hsplit, placed_append, hplace]
      exact List.mem_append_right _ List.mem_cons_self
    have hmem := (h blackboard hb).subset hclose
    rw [htrace, List.mem_append] at hmem
    rcases hmem with hmem | hmem
    · have := (mem_trace hmem).2.1
      omega
    · exact hlost _ _ _ hmem
  · intro hopens blackboard hb
    have hsplit : f.front ++ '{' :: f.inner ++ ['}'] = f.front ++ f.source := by
      rw [List.append_assoc]
      rfl
    rw [htrace, trace_kept f.front_closed hb hopens, hsplit, placed_append, ← hlen]
    refine ⟨trace blackboard 0 u ++ placed u.length f.front,
      trace blackboard (u.length + (f.front ++ '{' :: f.inner).length + 1) f.post, ?_⟩
    simp only [List.append_assoc]

end Fragment

/-- The fragment is plain text: validation accepts what it reads in it, and infers
    no dependency from it, and substitution keeps it as it is, whatever the
    results of the steps of `K`. -/
structure TreatedAsText (p : Plan) (catalog : Catalog) (step : PlanStep) (K : String → Prop)
    (s : String) (f : Fragment s.toList) : Prop where
  accepted : ∀ i key, (i, key) ∈ keysAt s.toList ∧ f.Covers i →
    checkReference p catalog step key = .ok ()
  independent : ∀ i key, (i, key) ∈ keysAt s.toList ∧ f.Covers i → headOf key ∉ p.knownDeps step
  kept : ∀ blackboard : Blackboard, (∀ id ∈ blackboard, K id) →
    ((wholeTemplate s).bind fun key => lookupPath key blackboard) = none ∧
      placed f.pre.length f.source <:+: trace blackboard 0 s.toList

/-- A fragment whose head names no step is plain text if its head does not look
    like a step id, or it is within braces; if no reference is opened in braces
    that it closes; and if the string is not a reference as a whole. -/
theorem treatedAsText_iff {p : Plan} {catalog : Catalog} {step : PlanStep} {s : String}
    (f : Fragment s.toList) (hhead : headOf f.inner ∉ p.ids) :
    TreatedAsText p catalog step K s f ↔
      (looksLikeStepId (headOf f.inner) → '{' ∈ f.front) ∧
        ¬OpensTo K (f.front ++ '{' :: f.inner) ∧
        ∀ key, wholeTemplate s = some key → ¬K (headOf key) := by
  constructor
  · intro h
    refine ⟨fun hlook => ?_, f.kept_iff.1 fun bb hbb => (h.kept bb hbb).2, fun key hkey hk => ?_⟩
    · by_contra hopen
      have hread := (f.mem_keysAt (i := f.pre.length)).2 ⟨hopen, hlook, rfl, rfl⟩
      exact hhead (checkReference_eq_ok (h.accepted _ _ hread)).1
    · obtain ⟨bb, hmem, hnull⟩ := exists_lookupPath key
      have hnone := (h.kept bb fun id hid => (hmem id).1 hid ▸ hk).1
      rw [hkey, Option.bind_some, hnull] at hnone
      exact absurd hnone (by simp)
  · rintro ⟨hlook, hopens, hwhole⟩
    have hread (i : ℕ) (key : List Char) : ¬((i, key) ∈ keysAt s.toList ∧ f.Covers i) := fun h => by
      obtain ⟨hopen, hl, -⟩ := f.mem_keysAt.1 h
      exact hopen (hlook hl)
    refine ⟨fun i key h => absurd h (hread i key), fun i key h => absurd h (hread i key),
      fun bb hbb => ⟨?_, f.kept_iff.2 hopens bb hbb⟩⟩
    cases hkey : wholeTemplate s with
    | none => rfl
    | some key => exact lookupPath_eq_none fun h => hwhole key hkey (hbb _ h)

/-- A step whose text mentions a file in braces. -/
def readmeStep : PlanStep :=
  ⟨"s1", "abc", "t", .object [("text", .string "see \x7breadme\x7d")], []⟩

def readmeFragment : Fragment "see \x7breadme\x7d".toList where
  pre := "see ".toList
  inner := "readme".toList
  post := []
  text := by decide
  closed := by decide
  bare := by decide

theorem treatedAsText_iff_readme :
    TreatedAsText ⟨[readmeStep]⟩ ExecState.oneTool readmeStep (· = "s0") _ readmeFragment ↔
      (looksLikeStepId (headOf readmeFragment.inner) → '{' ∈ readmeFragment.front) ∧
        ¬OpensTo (· = "s0") (readmeFragment.front ++ '{' :: readmeFragment.inner) ∧
        ∀ key, wholeTemplate "see \x7breadme\x7d" = some key → headOf key ≠ "s0" :=
  treatedAsText_iff readmeFragment (by decide)

/-- The head of the fragment names no step, and yet the plan is rejected for it. -/
theorem not_treatedAsText_readme : headOf readmeFragment.inner ∉ (⟨[readmeStep]⟩ : Plan).ids ∧
    validatePlan ExecState.observing.compile ⟨[readmeStep]⟩ ExecState.oneTool = .error (.validation
      "step `s1`: reference `$\x7breadme\x7d` points to unknown step `readme`") ∧
    ¬TreatedAsText ⟨[readmeStep]⟩ ExecState.oneTool readmeStep (fun _ => False) _
      readmeFragment := by
  refine ⟨by decide, by decide, fun h => ?_⟩
  have hread := (readmeFragment.mem_keysAt (i := 4)).2 ⟨by decide, by decide, rfl, rfl⟩
  have hknown := (checkReference_eq_ok (h.accepted _ _ hread)).1
  exact absurd hknown (by decide)

end N3ur0n
