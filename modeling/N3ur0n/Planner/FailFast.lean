import N3ur0n.Planner.Literal

/-!
# Failing fast

Once the references in the arguments of a step are replaced, the step fails
without being invoked if some `${…}` is left. This is to mean that one of its
references has no value; but the check reads the text after substitution, where
it knows neither which characters are those of values, nor lenient references.

* `refused_iff`: the step fails because of a reference without a value that is
  written with a `${` (`KeptDollar`), or because of characters of values
  (`FromValues`);
* `failFast_exact_iff`: when that is the same as one of its references having no
  value.
-/

namespace N3ur0n

open Cut

variable {blackboard : Blackboard} {s t : List Char} {k : ℕ}

/-! ## Templates -/

theorem unresolvedIn_isSome :
    (unresolvedIn s).isSome ↔ ∃ x y z, s = x ++ '$' :: '{' :: (y ++ '}' :: z) := by
  induction s using unresolvedIn.induct with
  | case1 => simp [unresolvedIn]
  | case2 cs =>
    rw [unresolvedIn, Option.isSome_map]
    constructor
    · intro h
      obtain ⟨inner, hin⟩ := Option.isSome_iff_exists.1 h
      obtain ⟨z, rfl, -⟩ := upTo_eq_some.1 hin
      exact ⟨[], inner, z, rfl⟩
    · rintro ⟨x, y, z, hx⟩
      have hclose : '}' ∈ '$' :: '{' :: cs := by rw [hx]; simp
      have hcs : '}' ∈ cs := by simpa using hclose
      exact Option.isSome_iff_ne_none.2 (mt upTo_eq_none.1 (not_not.2 hcs))
  | case3 c cs hno ih =>
    rw [unresolvedIn]
    · rw [ih]
      constructor
      · rintro ⟨x, y, z, rfl⟩
        exact ⟨c :: x, y, z, rfl⟩
      · rintro ⟨x, y, z, hx⟩
        rcases x with _ | ⟨d, x⟩
        · obtain ⟨rfl, rfl⟩ := List.cons.inj hx
          exact absurd rfl (hno _ rfl)
        · exact ⟨x, y, z, (List.cons.inj hx).2⟩
    · exact hno

theorem firstUnresolvedTemplate_isSome {v : Value} :
    (firstUnresolvedTemplate v).isSome ↔ ∃ s ∈ v.strings, (unresolvedIn s.toList).isSome := by
  rw [firstUnresolvedTemplate, Option.isSome_iff_ne_none, ne_eq, List.findSome?_eq_none_iff]
  simp only [not_forall, ← ne_eq, Option.isSome_iff_ne_none, exists_prop]

mutual

/-- The strings of a value whose strings are replaced are those of what replaces
    them. -/
theorem Value.strings_mapStrings {f : String → Value} : ∀ v : Value,
    (v.mapStrings f).strings = v.strings.flatMap fun s => (f s).strings
  | .null | .bool _ | .number _ => rfl
  | .string s => by simp [Value.mapStrings, Value.strings]
  | .array xs => Value.strings_mapStringsList xs
  | .object fs => Value.strings_mapStringsFields fs

theorem Value.strings_mapStringsList {f : String → Value} : ∀ xs : List Value,
    Value.stringsList (Value.mapStringsList f xs) =
      (Value.stringsList xs).flatMap fun s => (f s).strings
  | [] => rfl
  | x :: xs => by
    rw [Value.mapStringsList, Value.stringsList, Value.strings_mapStrings x,
      Value.strings_mapStringsList xs, Value.stringsList, List.flatMap_append]

theorem Value.strings_mapStringsFields {f : String → Value} : ∀ fs : List (String × Value),
    Value.stringsFields (Value.mapStringsFields f fs) =
      (Value.stringsFields fs).flatMap fun s => (f s).strings
  | [] => rfl
  | (k, x) :: fs => by
    rw [Value.mapStringsFields, Value.stringsFields, Value.strings_mapStrings x,
      Value.strings_mapStringsFields fs, Value.stringsFields, List.flatMap_append]

end

/-! ## Where templates come from -/

/-- The value that replaces a string as a whole. -/
def wholeValue (blackboard : Blackboard) (s : String) : Option Value :=
  (wholeTemplate s).bind fun key => lookupPath key blackboard

/-- A reference without a value leaves a `${…}`. -/
def KeptDollar (blackboard : Blackboard) (s : List Char) : Prop :=
  ∃ r, .inr r ∈ cut (boardToken blackboard) 0 s ∧ lookupPath r.inner blackboard = none ∧
    (unresolvedIn r.verbatim).isSome

/-- A `${…}` that is not found in the text before substitution: one of its braces,
    or its dollar, is that of a value, or a value was between the dollar and the
    brace. -/
def Formed (traced : List (Char × Option ℕ)) : Prop :=
  ∃ x y z i j k, traced = x ++ ('$', i) :: ('{', j) :: (y ++ ('}', k) :: z) ∧
    ¬∃ a, i = some a ∧ j = some (a + 1) ∧ k.isSome

/-- A `${…}` comes with the values put in the string. -/
def FromValues (blackboard : Blackboard) (s : String) : Prop :=
  match wholeValue blackboard s with
  | some v => (firstUnresolvedTemplate v).isSome
  | none => Formed (trace blackboard 0 s.toList)

/-- Places grow along a text. -/
def Ascending (traced : List (Char × Option ℕ)) : Prop :=
  traced.Pairwise fun x y => ∀ i j, x.2 = some i → y.2 = some j → i < j

theorem ascending_placed : Ascending (placed k s) := by
  induction s generalizing k with
  | nil => exact List.Pairwise.nil
  | cons c s ih =>
    have hcons : placed k (c :: s) = placed k [c] ++ placed (k + 1) s := placed_append (s := [c])
    rw [hcons]
    refine List.pairwise_cons.2 ⟨fun x hx i j hi hj => ?_, ih⟩
    obtain ⟨l, hl, hle, -⟩ := mem_placed hx
    obtain rfl := Option.some.inj (hl.symm.trans hj)
    obtain rfl := Option.some.inj hi
    exact hle

theorem ascending_tracePieces (ps : List (Char ⊕ Ref)) :
    Ascending (tracePieces blackboard k ps) := by
  induction ps generalizing k with
  | nil => exact List.Pairwise.nil
  | cons p ps ih =>
    refine List.pairwise_append.2 ⟨?_, ih, fun x hx y hy i j hi hj => ?_⟩
    · rcases p with c | r
      · exact ascending_placed
      · simp only [tracePiece]
        cases lookupPath r.inner blackboard with
        | none => exact ascending_placed
        | some v => exact List.pairwise_map.2 (List.pairwise_of_forall fun _ _ i _ h => by simp at h)
    · obtain ⟨c, _⟩ := x
      obtain ⟨d, _⟩ := y
      obtain rfl := hi
      obtain rfl := hj
      have hfirst : (c, some i) ∈ tracePieces blackboard k [p] := by
        simpa [tracePieces] using hx
      have hlt := (mem_tracePieces hfirst).2.1
      have hle := (mem_tracePieces hy).1
      rw [List.flatMap_singleton] at hlt
      exact hlt.trans_le hle

/-- What is kept is kept by one of the pieces. -/
theorem exists_piece {ps : List (Char ⊕ Ref)} {c : Char} {i : ℕ}
    (h : (c, some i) ∈ tracePieces blackboard k ps) : ∃ before p after, ps = before ++ p :: after ∧
      (c, some i) ∈ tracePiece blackboard (k + (before.flatMap pieceSource).length) p := by
  induction ps generalizing k with
  | nil => simp [tracePieces] at h
  | cons p ps ih =>
    rw [tracePieces, List.mem_append] at h
    rcases h with h | h
    · exact ⟨[], p, ps, rfl, h⟩
    · obtain ⟨before, q, after, rfl, hq⟩ := ih h
      refine ⟨p :: before, q, after, rfl, ?_⟩
      rwa [List.flatMap_cons, List.length_append, ← Nat.add_assoc]

/-- A character of the text is left where no reference is recognised. -/
theorem boardToken_of_left {before after : List (Char ⊕ Ref)} {c : Char}
    (h : cut (boardToken blackboard) 0 s = before ++ .inl c :: after) :
    boardToken blackboard (c :: after.flatMap pieceSource) = none := by
  obtain ⟨t, ht⟩ := exists_cut_eq h
  have hsource := flatMap_pieceSource (fun id => decide (id ∈ blackboard)) t
  rw [ht, List.flatMap_cons] at hsource
  have hcut : cut (boardToken blackboard) 0 (c :: after.flatMap pieceSource) =
      .inl c :: after := by
    rw [← ht, ← hsource]
    rfl
  cases hn : boardToken blackboard (c :: after.flatMap pieceSource) with
  | none => rfl
  | some r => simp [cut, hn] at hcut

theorem eq_take_cons_cons {x y : Char} {j : ℕ} (hx : s[j]? = some x) (hy : s[j + 1]? = some y) :
    s = s.take j ++ x :: y :: s.drop (j + 2) := by
  obtain ⟨hj, rfl⟩ := List.getElem?_eq_some_iff.1 hx
  obtain ⟨hj', rfl⟩ := List.getElem?_eq_some_iff.1 hy
  rw [← List.drop_eq_getElem_cons hj', ← List.drop_eq_getElem_cons hj, List.take_append_drop]

/-- A dollar and braces that follow each other in the text are kept only by a
    reference without a value. -/
theorem keptDollar_of_places {a c : ℕ} (hd : ('$', some a) ∈ trace blackboard 0 s)
    (ho : ('{', some (a + 1)) ∈ trace blackboard 0 s)
    (hc : ('}', some c) ∈ trace blackboard 0 s) (hac : a + 1 < c) :
    KeptDollar blackboard s := by
  obtain ⟨-, -, ho⟩ := mem_trace ho
  obtain ⟨-, -, hc⟩ := mem_trace hc
  rw [Nat.sub_zero] at ho hc
  obtain ⟨before, p, after, hps, hp⟩ := exists_piece hd
  rw [Nat.zero_add] at hp
  have hs : s = before.flatMap pieceSource ++ (pieceSource p ++ after.flatMap pieceSource) := by
    rw [← flatMap_pieceSource (fun id => decide (id ∈ blackboard)) s, hps, List.flatMap_append,
      List.flatMap_cons]
  rcases p with d | r
  · -- The scan would have recognised a reference there.
    obtain ⟨i, hi, hle, hlt, hget⟩ := mem_placed hp
    obtain rfl := Option.some.inj hi
    have ha : a = (before.flatMap pieceSource).length := by
      rw [List.length_singleton] at hlt
      omega
    rw [ha, Nat.sub_self] at hget
    obtain rfl : d = '$' := by simpa using hget
    have hnone := boardToken_of_left hps
    rw [hs, ha, List.getElem?_append_right (by omega), Nat.add_sub_cancel_left] at ho
    rw [hs, List.getElem?_append_right (by omega)] at hc
    obtain ⟨j, hj⟩ : ∃ j, c - (before.flatMap pieceSource).length = j + 2 := ⟨c - a - 2, by omega⟩
    obtain ⟨cs, hcs⟩ : ∃ cs, after.flatMap pieceSource = '{' :: cs := by
      obtain ⟨cs, hcs⟩ := List.head?_eq_some_iff.1 (List.head?_eq_getElem?.trans ho)
      exact ⟨cs, hcs⟩
    rw [hcs] at hnone hc
    rw [hj] at hc
    have hclose : '}' ∈ cs := List.mem_of_getElem? (i := j) hc
    have hup : upTo '}' cs = none := by
      simpa [boardToken, refToken] using hnone
    exact absurd hclose (upTo_eq_none.1 hup)
  · have hcut : .inr r ∈ cut (boardToken blackboard) 0 s := by
      rw [hps]
      exact List.mem_append_right _ List.mem_cons_self
    simp only [tracePiece] at hp
    cases hl : lookupPath r.inner blackboard with
    | some v => simp [hl] at hp
    | none =>
      simp only [hl] at hp
      obtain ⟨i, hi, hle, hlt, hget⟩ := mem_placed hp
      obtain rfl := Option.some.inj hi
      refine ⟨r, hcut, hl, unresolvedIn_isSome.2 ?_⟩
      -- The closing brace of the reference is neither of the two characters.
      obtain ⟨w, hw⟩ : ∃ w, r.verbatim = w ++ ['}'] := ⟨_, rfl⟩
      have hbefore {e : Char} {j : ℕ} (he : e ≠ '}') (hj : r.verbatim[j]? = some e) :
          w[j]? = some e := by
        rw [hw] at hj
        obtain ⟨hlen, -⟩ := List.getElem?_eq_some_iff.1 hj
        rw [List.length_append, List.length_singleton] at hlen
        rcases Nat.lt_or_eq_of_le (Nat.le_of_lt_succ hlen) with hlt | rfl
        · rwa [List.getElem?_append_left hlt] at hj
        · rw [List.getElem?_concat_length] at hj
          exact absurd (Option.some.inj hj).symm he
      have hdollar := hbefore (by decide) hget
      obtain ⟨hlen, -⟩ := List.getElem?_eq_some_iff.1 hdollar
      have hopen : r.verbatim[a - (before.flatMap pieceSource).length + 1]? = some '{' := by
        have hlt' : a - (before.flatMap pieceSource).length + 1 < r.verbatim.length := by
          rw [hw, List.length_append, List.length_singleton]
          omega
        rw [hs, List.getElem?_append_right (by omega), Nat.sub_add_comm hle] at ho
        rwa [pieceSource, List.getElem?_append_left hlt'] at ho
      obtain ⟨x, y, hxy⟩ : ∃ x y, w = x ++ '$' :: '{' :: y :=
        ⟨_, _, eq_take_cons_cons hdollar (hbefore (by decide) hopen)⟩
      exact ⟨x, y, [], by rw [hw, hxy, List.append_assoc]; rfl⟩

/-- What a string becomes has a `${…}` left by a reference, or by values. -/
theorem unresolvedIn_inlineText : (unresolvedIn (inlineText blackboard s)).isSome ↔
    KeptDollar blackboard s ∨ Formed (trace blackboard 0 s) := by
  rw [← trace_map_fst (k := 0), unresolvedIn_isSome]
  constructor
  · rintro ⟨x, y, z, h⟩
    obtain ⟨x', l₁, hl, -, h₁⟩ := List.map_eq_append_iff.1 h
    obtain ⟨⟨_, i⟩, l₂, rfl, rfl, h₂⟩ := List.map_eq_cons_iff.1 h₁
    obtain ⟨⟨_, j⟩, l₃, rfl, rfl, h₃⟩ := List.map_eq_cons_iff.1 h₂
    obtain ⟨y', l₄, rfl, -, h₄⟩ := List.map_eq_append_iff.1 h₃
    obtain ⟨⟨_, m⟩, z', rfl, rfl, -⟩ := List.map_eq_cons_iff.1 h₄
    by_cases hown : ∃ a, i = some a ∧ j = some (a + 1) ∧ m.isSome
    · obtain ⟨a, rfl, rfl, hm⟩ := hown
      obtain ⟨c, rfl⟩ := Option.isSome_iff_exists.1 hm
      -- The places of the three characters grow.
      have hasc : Ascending (trace blackboard 0 s) := ascending_tracePieces _
      rw [hl] at hasc
      have hac := (List.pairwise_cons.1 (List.pairwise_cons.1
        (List.pairwise_append.1 hasc).2.1).2).1 ('}', some c) (by simp) (a + 1) c rfl rfl
      left
      exact keptDollar_of_places (by rw [hl]; simp) (by rw [hl]; simp) (by rw [hl]; simp) hac
    · exact .inr ⟨x', y', z', i, j, m, hl, hown⟩
  · rintro (⟨r, hr, hnone, hsome⟩ | ⟨x, y, z, i, j, m, hl, -⟩)
    · -- The reference is kept as it is written.
      obtain ⟨x, y, z, hxyz⟩ := unresolvedIn_isSome.1 hsome
      obtain ⟨before, after, hcut⟩ := List.append_of_mem hr
      refine ⟨before.flatMap (substitutePiece blackboard) ++ x, y,
        z ++ after.flatMap (substitutePiece blackboard), ?_⟩
      have hpiece : substitutePiece blackboard (.inr r) = r.verbatim := by
        simp only [substitutePiece, hnone]
      rw [trace_map_fst, inlineText, hcut, List.flatMap_append, List.flatMap_cons, hpiece, hxyz]
      simp only [List.append_assoc, List.cons_append]
    · refine ⟨x.map Prod.fst, y.map Prod.fst, z.map Prod.fst, ?_⟩
      rw [hl]
      simp

/-! ## References without a value -/

deriving instance DecidableEq for Ref

/-- The references written in a string, the lenient ones naming a step of the
    plan. -/
def ownRefs (p : Plan) (s : List Char) : List Ref :=
  (cut (refToken fun id => decide (id ∈ p.ids)) 0 s).filterMap (·.getRight?)

/-- A reference in the string has no value. -/
def Missing (p : Plan) (blackboard : Blackboard) (s : List Char) : Prop :=
  ∃ r ∈ ownRefs p s, lookupPath r.inner blackboard = none

theorem mem_ownRefs {p : Plan} {r : Ref} :
    r ∈ ownRefs p s ↔ .inr r ∈ cut (refToken fun id => decide (id ∈ p.ids)) 0 s := by
  rw [ownRefs, List.mem_filterMap]
  constructor
  · rintro ⟨c | r', hmem, hr⟩
    · exact absurd hr (by simp)
    · obtain rfl := Option.some.inj hr
      exact hmem
  · exact fun h => ⟨_, h, rfl⟩

theorem refToken_mono {known known' : String → Bool} (h : ∀ id, known id → known' id)
    {r : Ref} {n : ℕ} (ht : refToken known s = some (r, n)) : refToken known' s = some (r, n) := by
  unfold refToken at ht ⊢
  split at ht
  · exact ht
  · simp only [Option.bind_eq_some_iff, Option.ite_none_right_eq_some] at ht ⊢
    obtain ⟨inner, hin, hhead, heq⟩ := ht
    exact ⟨inner, hin, ⟨hhead.1, h _ hhead.2⟩, heq⟩
  · exact absurd ht (by simp)

/-- A reference recognised only for a longer list of steps names one of the others. -/
theorem refToken_more {known known' : String → Bool} {r : Ref} {n : ℕ}
    (h : refToken known s = none) (ht : refToken known' s = some (r, n)) :
    known (headOf r.inner) = false := by
  unfold refToken at h ht
  split at ht
  · exact absurd (ht.symm.trans h) (by simp)
  · simp only [Option.bind_eq_some_iff, Option.ite_none_right_eq_some, Option.some.injEq,
      Prod.mk.injEq] at ht
    obtain ⟨inner, hin, hhead, rfl, rfl⟩ := ht
    simp only [hin, Option.bind_some] at h
    by_contra hk
    rw [if_pos ⟨hhead.1, Bool.of_not_eq_false hk⟩] at h
    exact absurd h (by simp)
  · exact absurd ht (by simp)

/-- A reference without a value that substitution reads is one of the references of
    the string, or comes after one that has no value either. -/
theorem missing_of_cut {p : Plan} (hb : ∀ id ∈ blackboard, id ∈ p.ids) {r : Ref}
    (hr : .inr r ∈ cut (boardToken blackboard) 0 s)
    (hnone : lookupPath r.inner blackboard = none) : Missing p blackboard s := by
  induction hn : s.length using Nat.strong_induction_on generalizing s with
  | _ n ih =>
    rcases s with _ | ⟨c, cs⟩
    · simp [cut] at hr
    rw [List.length_cons] at hn
    have hmono {r : Ref} {n : ℕ} := @refToken_mono (c :: cs) (fun id => decide (id ∈ blackboard))
      (fun id => decide (id ∈ p.ids)) (fun id hid => by simpa using hb id (by simpa using hid)) r n
    cases ht : boardToken blackboard (c :: cs) with
    | some x =>
      obtain ⟨r₁, m⟩ := x
      have hown : cut (refToken fun id => decide (id ∈ p.ids)) 0 (c :: cs) =
          .inr r₁ :: cut (refToken fun id => decide (id ∈ p.ids)) 0 (cs.drop m) := by
        rw [← cut_eq_drop]
        simp [cut, hmono ht]
      have hboard : cut (boardToken blackboard) 0 (c :: cs) =
          .inr r₁ :: cut (boardToken blackboard) 0 (cs.drop m) := by
        rw [← cut_eq_drop]
        simp [cut, ht]
      rw [hboard, List.mem_cons] at hr
      rcases hr with hr | hr
      · obtain rfl := Sum.inr.inj hr
        exact ⟨r, mem_ownRefs.2 (hown ▸ List.mem_cons_self), hnone⟩
      · have hlen : (cs.drop m).length < n := by
          rw [List.length_drop]
          omega
        obtain ⟨r₂, hr₂, hnone₂⟩ := ih _ hlen hr rfl
        exact ⟨r₂, mem_ownRefs.2 (hown ▸ List.mem_cons_of_mem _ (mem_ownRefs.1 hr₂)), hnone₂⟩
    | none =>
      have hboard : cut (boardToken blackboard) 0 (c :: cs) =
          .inl c :: cut (boardToken blackboard) 0 cs := by simp [cut, ht]
      cases ht' : refToken (fun id => decide (id ∈ p.ids)) (c :: cs) with
      | some x =>
        -- The step is not on the blackboard.
        obtain ⟨r₁, m⟩ := x
        have hown : .inr r₁ ∈ cut (refToken fun id => decide (id ∈ p.ids)) 0 (c :: cs) := by
          simp [cut, ht']
        have hhead := of_decide_eq_false (refToken_more ht ht')
        exact ⟨r₁, mem_ownRefs.2 hown, lookupPath_eq_none hhead⟩
      | none =>
        have hown : cut (refToken fun id => decide (id ∈ p.ids)) 0 (c :: cs) =
            .inl c :: cut (refToken fun id => decide (id ∈ p.ids)) 0 cs := by simp [cut, ht']
        rw [hboard, List.mem_cons, or_iff_right (by simp)] at hr
        obtain ⟨r₂, hr₂, hnone₂⟩ := ih _ (by omega) hr rfl
        exact ⟨r₂, mem_ownRefs.2 (hown ▸ List.mem_cons_of_mem _ (mem_ownRefs.1 hr₂)), hnone₂⟩

/-! ## Failing -/

/-- The error of a step with a `${…}` left in its arguments. -/
def unresolvedError (step : PlanStep) (unresolved : String) : String :=
  s!"step `{step.id}`: unresolved template `{unresolved}` (no expressions allowed " ++
    "in $\x7b...\x7d; use raw refs only, let the downstream tool combine values)"

/-- The step fails when it is spawned, without being invoked, for a template left
    in its arguments. -/
def Refused (compile : SchemaCompiler) (catalog : Catalog) (step : PlanStep) (callId : String)
    (blackboard : Blackboard) : Prop :=
  ∃ unresolved, (prepare compile catalog step callId blackboard).2 =
    .failed (unresolvedError step unresolved)

theorem refused_iff {compile : SchemaCompiler} {catalog : Catalog} {step : PlanStep}
    {callId : String} : Refused compile catalog step callId blackboard ↔
      (firstUnresolvedTemplate (resolveValue step.args blackboard)).isSome := by
  cases hf : firstUnresolvedTemplate (resolveValue step.args blackboard) with
  | some unresolved =>
    refine ⟨fun _ => rfl, fun _ => ⟨unresolved, ?_⟩⟩
    simp only [prepare, hf]
    rfl
  | none =>
    simp only [Option.isSome_none, Bool.false_eq_true, iff_false]
    rintro ⟨unresolved, h⟩
    simp only [prepare, hf] at h
    -- The other errors read differently.
    have hstring (s : String) : toString s = s := rfl
    split at h
    · have herr := congrArg String.toList (Work.failed.inj h)
      simp [unresolvedError, hstring] at herr
    · split at h
      · have herr := congrArg String.toList (Work.failed.inj h)
        simp [unresolvedError, hstring] at herr
      · exact absurd h (by simp)

theorem exists_unresolved_iff (s : String) :
    (∃ u ∈ (resolveString blackboard s).strings, (unresolvedIn u.toList).isSome) ↔
      (wholeValue blackboard s = none ∧ KeptDollar blackboard s.toList) ∨
        FromValues blackboard s := by
  rw [FromValues]
  cases hw : wholeValue blackboard s with
  | some v =>
    have hresolve : resolveString blackboard s = v := by
      rw [wholeValue] at hw
      rw [resolveString, hw]
    rw [hresolve, ← firstUnresolvedTemplate_isSome]
    simp
  | none =>
    have hresolve : resolveString blackboard s =
        .string (String.ofList (inlineText blackboard s.toList)) := by
      rw [wholeValue] at hw
      rw [resolveString, hw]
      rfl
    rw [hresolve]
    simp [Value.strings, unresolvedIn_inlineText]

/-- Why a step fails for a template left: a reference without a value is written
    with a `${`, or values bring one. -/
theorem refused_iff_cases {compile : SchemaCompiler} {catalog : Catalog} {step : PlanStep}
    {callId : String} : Refused compile catalog step callId blackboard ↔
      (∃ s ∈ step.args.strings, wholeValue blackboard s = none ∧ KeptDollar blackboard s.toList) ∨
        ∃ s ∈ step.args.strings, FromValues blackboard s := by
  rw [refused_iff, firstUnresolvedTemplate_isSome, resolveValue, Value.strings_mapStrings]
  simp only [List.mem_flatMap]
  constructor
  · rintro ⟨u, ⟨s, hs, hu⟩, hsome⟩
    rcases (exists_unresolved_iff s).1 ⟨u, hu, hsome⟩ with h | h
    · exact .inl ⟨s, hs, h⟩
    · exact .inr ⟨s, hs, h⟩
  · rintro (⟨s, hs, h⟩ | ⟨s, hs, h⟩)
    · obtain ⟨u, hu, hsome⟩ := (exists_unresolved_iff s).2 (.inl h)
      exact ⟨u, ⟨s, hs, hu⟩, hsome⟩
    · obtain ⟨u, hu, hsome⟩ := (exists_unresolved_iff s).2 (.inr h)
      exact ⟨u, ⟨s, hs, hu⟩, hsome⟩

/-- The step fails for a template left exactly if one of its own references has no
    value. (So no step is invoked with one of them left, and values do not matter.) -/
def FailFastExact (compile : SchemaCompiler) (catalog : Catalog) (p : Plan) (step : PlanStep)
    (callId : String) (blackboard : Blackboard) : Prop :=
  Refused compile catalog step callId blackboard ↔
    ∃ s ∈ step.args.strings, Missing p blackboard s.toList

/-- Failing fast is exact when a reference without a value is written with a `${`,
    in a string that is not replaced as a whole; or else, when values bring a
    `${…}` if and only if some reference has no value. -/
theorem failFast_exact_iff {compile : SchemaCompiler} {catalog : Catalog} {p : Plan}
    {step : PlanStep} {callId : String} (hb : ∀ id ∈ blackboard, id ∈ p.ids) :
    FailFastExact compile catalog p step callId blackboard ↔
      (∃ s ∈ step.args.strings, wholeValue blackboard s = none ∧
        KeptDollar blackboard s.toList) ∨
      ((∃ s ∈ step.args.strings, Missing p blackboard s.toList) ↔
        ∃ s ∈ step.args.strings, FromValues blackboard s) := by
  rw [FailFastExact, refused_iff_cases]
  by_cases hd : ∃ s ∈ step.args.strings, wholeValue blackboard s = none ∧
      KeptDollar blackboard s.toList
  · have hmissing : ∃ s ∈ step.args.strings, Missing p blackboard s.toList := by
      obtain ⟨s, hs, -, r, hr, hnone, -⟩ := hd
      exact ⟨s, hs, missing_of_cut hb hr hnone⟩
    simp only [hd, hmissing, true_or]
  · simp only [hd, false_or]
    exact iff_comm

/-- The value read by the second step is itself written as a template. -/
def priced : Blackboard := Finmap.singleton "s1" (.object [("v", .string "cost: $\x7bx\x7d")])

def secondStep : PlanStep :=
  ⟨"s2", "abc", "t", .object [("a", .string "$\x7bs1.v\x7d")], []⟩

theorem failFast_exact_iff_priced :
    FailFastExact ExecState.observing.compile ExecState.oneTool ExecState.twoSteps secondStep ""
        priced ↔
      (∃ s ∈ secondStep.args.strings, wholeValue priced s = none ∧ KeptDollar priced s.toList) ∨
      ((∃ s ∈ secondStep.args.strings, Missing ExecState.twoSteps priced s.toList) ↔
        ∃ s ∈ secondStep.args.strings, FromValues priced s) :=
  failFast_exact_iff fun id hid => by
    rw [(Finmap.mem_singleton _ _ _).1 hid]
    decide

/-- The run of an accepted plan where the only reference of the second step has a
    value, and the step fails for the text of this value. -/
theorem not_failFastExact_priced :
    validatePlan ExecState.observing.compile ExecState.twoSteps ExecState.oneTool = .ok () ∧
    secondStep ∈ ExecState.twoSteps.plan ∧
    (ExecState.execute ExecState.observing ExecState.oneTool ExecState.twoSteps [.start "s1",
      .returned "s1" (.ok (.object [("v", .string "cost: $\x7bx\x7d")]))]).map (fun σ =>
        (decide (σ.blackboard = priced), σ.work "s2")) =
      some (true, some (.failed (unresolvedError secondStep "$\x7bx\x7d"))) ∧
    ¬FailFastExact ExecState.observing.compile ExecState.oneTool ExecState.twoSteps secondStep ""
      priced := by
  refine ⟨by decide, ?_, by decide, fun h => ?_⟩
  · exact List.mem_cons_of_mem _ List.mem_cons_self
  · have hrefused : Refused ExecState.observing.compile ExecState.oneTool secondStep "" priced :=
      refused_iff.2 (by decide)
    obtain ⟨s, hs, r, hr, hnone⟩ := h.1 hrefused
    obtain rfl : s = "$\x7bs1.v\x7d" := by simpa [secondStep, Value.strings,
      Value.stringsFields] using hs
    have hrefs : ownRefs ExecState.twoSteps "$\x7bs1.v\x7d".toList = [⟨true, "s1.v".toList⟩] := by
      decide
    rw [hrefs, List.mem_singleton] at hr
    rw [hr] at hnone
    exact absurd hnone (by decide)

end N3ur0n
