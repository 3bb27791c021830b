import N3ur0n.Lib.Loop
import N3ur0n.Lib.Slices
import N3ur0n.Planner.Reference

/-!
# Inline substitution

The code replaces the references inside a text by a loop over the bytes of the
text: an index goes from one reference, or one character, to the next, and the
texts of the values are found and cut out by byte offsets. A slice that does not
start and end between two characters would panic.

* `substituteTurn`: one turn of the loop;
* `substitute_exact`: the loop never panics, its index is always between two
  characters, and its result is that of cutting the text into characters and
  references (`substituteInline`), none of which is lost.

A lenient reference needs a head, so that `{}` is always text: the empty string
may be an id, but it is never looked up leniently (`substitute_empty_id`).
-/

namespace N3ur0n

open Cut Slice

def asciiByte (c : Char) : UInt8 := c.val.toUInt8

/-- The preferred form `${stepid.path}`: the index and the output after it, if
    there is one at the index. -/
def substituteDollar (s : List Char) (blackboard : Blackboard) (i : ℕ) (out : List Char) :
    Option (Option (ℕ × List Char)) :=
  if i + 1 < (bytes s).length ∧ (bytes s)[i]? = some (asciiByte '$') ∧
      (bytes s)[i + 1]? = some (asciiByte '{') then do
    let tail ← dropBytes (i + 2) s
    match find (· = '}') tail with
    | none => pure none
    | some stop => do
      let inner ← slice (i + 2) (i + 2 + stop) s
      pure (some (i + 2 + stop + 1, out ++ substitutePiece blackboard (.inr ⟨true, inner⟩)))
  else pure none

/-- The lenient form `{stepid.path}`, if its head is on the blackboard. -/
def substituteBare (s : List Char) (blackboard : Blackboard) (i : ℕ) (out : List Char) :
    Option (Option (ℕ × List Char)) :=
  if (bytes s)[i]? = some (asciiByte '{') then do
    let tail ← dropBytes (i + 1) s
    match find (· = '}') tail with
    | none => pure none
    | some stop => do
      let inner ← slice (i + 1) (i + 1 + stop) s
      if headOf inner ≠ "" ∧ headOf inner ∈ blackboard then
        pure (some (i + 1 + stop + 1, out ++ substitutePiece blackboard (.inr ⟨false, inner⟩)))
      else pure none
  else pure none

/-- A turn of the loop of `substitute_inline`: the state is the index, and the
    output so far. -/
def substituteTurn (s : List Char) (blackboard : Blackboard) :
    ℕ × List Char → Option (Loop.Turn (ℕ × List Char) (List Char))
  | (i, out) =>
    if (bytes s).length ≤ i then some (.done out)
    else do
      match ← substituteDollar s blackboard i out with
      | some next => pure (.next next)
      | none =>
        match ← substituteBare s blackboard i out with
        | some next => pure (.next next)
        | none =>
          let rest ← dropBytes i s
          let ch ← rest.head?
          pure (.next (i + ch.utf8Size, out ++ [ch]))

/-- The text of a piece, as it was before the substitution. -/
def pieceSource : Char ⊕ Ref → List Char
  | .inl c => [c]
  | .inr r => r.verbatim

/-- A token recognised covers the reference as it is written. -/
theorem refToken_eq_some {known : String → Bool} {t : List Char} {r : Ref} {n : ℕ}
    (h : refToken known t = some (r, n)) :
    ∃ post, t = r.verbatim ++ post ∧ n + 1 = r.verbatim.length ∧ '}' ∉ r.inner := by
  unfold refToken at h
  split at h
  · simp only [Option.map_eq_some_iff, Prod.mk.injEq] at h
    obtain ⟨inner, hu, rfl, rfl⟩ := h
    obtain ⟨post, rfl, hin⟩ := upTo_eq_some.1 hu
    exact ⟨post, by simp [Ref.verbatim], by simp [Ref.verbatim], hin⟩
  · simp only [Option.bind_eq_some_iff, Option.ite_none_right_eq_some, Option.some.injEq,
      Prod.mk.injEq] at h
    obtain ⟨inner, hu, -, rfl, rfl⟩ := h
    obtain ⟨post, rfl, hin⟩ := upTo_eq_some.1 hu
    exact ⟨post, by simp [Ref.verbatim], by simp [Ref.verbatim], hin⟩
  · exact absurd h (by simp)

/-- The pieces of a text make it up. -/
theorem flatMap_pieceSource (known : String → Bool) (s : List Char) :
    (cut (refToken known) 0 s).flatMap pieceSource = s := by
  refine cut_flatMap (fun _ => rfl) (fun t r n ht => ?_) 0 s
  obtain ⟨post, hpost, hlen, -⟩ := refToken_eq_some ht
  exact ⟨post, hpost, hlen⟩

/-! ## What a turn does -/

section

variable {s u t : List Char} {blackboard : Blackboard} {i : ℕ} {out : List Char}

/-- The byte at a boundary tells an ASCII character. -/
theorem byteAt_eq (hs : s = u ++ t) (hi : size u = i) {c : Char} (hc : c.utf8Size = 1) :
    (bytes s)[i]? = some (asciiByte c) ↔ t.head? = some c := by
  rw [hs, getElem?_bytes_append hi, asciiByte, head?_bytes hc]

theorem size_verbatim (r : Ref) :
    size r.verbatim = (if r.dollar then 1 else 0) + 1 + size r.inner + 1 := by
  obtain ⟨dollar, inner⟩ := r
  have hopen : Char.utf8Size '{' = 1 := rfl
  have hclose : Char.utf8Size '}' = 1 := rfl
  have hdollar : Char.utf8Size '$' = 1 := rfl
  cases dollar <;> simp [Ref.verbatim, hopen, hclose, hdollar] <;> omega

/-- The preferred form is read where the text goes on with `${`. -/
theorem substituteDollar_open {cs : List Char} (hs : s = u ++ '$' :: '{' :: cs) (hi : size u = i) :
    substituteDollar s blackboard i out = some ((upTo '}' cs).map fun inner =>
      (i + size (Ref.verbatim ⟨true, inner⟩),
        out ++ substitutePiece blackboard (.inr ⟨true, inner⟩))) := by
  have hdollar : size (u ++ ['$']) = i + 1 := by rw [size_append, hi]; rfl
  have hopen : size (u ++ ['$', '{']) = i + 2 := by rw [size_append, hi]; rfl
  have hs' : s = (u ++ ['$']) ++ '{' :: cs := by rw [hs, List.append_assoc]; rfl
  have hs'' : s = (u ++ ['$', '{']) ++ cs := by rw [hs, List.append_assoc]; rfl
  have hlen : i + 1 < (bytes s).length := by
    rw [length_bytes, hs', size_append, hdollar]
    exact Nat.lt_add_of_pos_right (size_pos (List.cons_ne_nil _ _))
  have htail : dropBytes (i + 2) s = some cs := by rw [hs'', dropBytes_append hopen]
  rw [substituteDollar,
    if_pos ⟨hlen, (byteAt_eq hs hi rfl).2 rfl, (byteAt_eq hs' hdollar rfl).2 rfl⟩]
  simp only [htail, Option.bind_eq_bind, Option.bind_some, find_eq_upTo]
  cases hup : upTo '}' cs with
  | none => rfl
  | some inner =>
    obtain ⟨post, rfl, -⟩ := upTo_eq_some.1 hup
    have hslice : slice (i + 2) (i + 2 + size inner) s = some inner := by
      rw [hs'', slice_append hopen (by rw [hopen])]
    have hend : i + 2 + size inner + 1 = i + size (Ref.verbatim ⟨true, inner⟩) := by
      rw [size_verbatim, if_pos rfl]
      change _ = i + (1 + 1 + size inner + 1)
      omega
    simp only [Option.map_some, hslice, Option.bind_some, hend, Option.pure_def]

theorem substituteDollar_none (hs : s = u ++ t) (hi : size u = i)
    (hno : ∀ cs, t ≠ '$' :: '{' :: cs) :
    substituteDollar s blackboard i out = some none := by
  rw [substituteDollar, if_neg]
  · rfl
  · rintro ⟨-, h1, h2⟩
    obtain ⟨t', rfl⟩ := List.head?_eq_some_iff.1 ((byteAt_eq hs hi rfl).1 h1)
    have hdollar : size (u ++ ['$']) = i + 1 := by rw [size_append, hi]; rfl
    have hs' : s = (u ++ ['$']) ++ t' := by rw [hs, List.append_assoc]; rfl
    obtain ⟨cs, rfl⟩ := List.head?_eq_some_iff.1 ((byteAt_eq hs' hdollar rfl).1 h2)
    exact hno cs rfl

/-- The lenient form is read where the text goes on with `{`. -/
theorem substituteBare_open {cs : List Char} (hs : s = u ++ '{' :: cs) (hi : size u = i) :
    substituteBare s blackboard i out = some ((upTo '}' cs).bind fun inner =>
      if headOf inner ≠ "" ∧ headOf inner ∈ blackboard then
        some (i + size (Ref.verbatim ⟨false, inner⟩),
          out ++ substitutePiece blackboard (.inr ⟨false, inner⟩))
      else none) := by
  have hopen : size (u ++ ['{']) = i + 1 := by rw [size_append, hi]; rfl
  have hs' : s = (u ++ ['{']) ++ cs := by rw [hs, List.append_assoc]; rfl
  have htail : dropBytes (i + 1) s = some cs := by rw [hs', dropBytes_append hopen]
  rw [substituteBare, if_pos ((byteAt_eq hs hi rfl).2 rfl)]
  simp only [htail, Option.bind_eq_bind, Option.bind_some, find_eq_upTo]
  cases hup : upTo '}' cs with
  | none => rfl
  | some inner =>
    obtain ⟨post, rfl, -⟩ := upTo_eq_some.1 hup
    have hslice : slice (i + 1) (i + 1 + size inner) s = some inner := by
      rw [hs', slice_append hopen (by rw [hopen])]
    have hend : i + 1 + size inner + 1 = i + size (Ref.verbatim ⟨false, inner⟩) := by
      rw [size_verbatim, if_neg Bool.false_ne_true]
      change _ = i + (0 + 1 + size inner + 1)
      omega
    simp only [Option.map_some, hslice, Option.bind_some, hend, Option.pure_def]
    split_ifs <;> rfl

theorem substituteBare_none (hs : s = u ++ t) (hi : size u = i) (hno : ∀ cs, t ≠ '{' :: cs) :
    substituteBare s blackboard i out = some none := by
  rw [substituteBare, if_neg]
  · rfl
  · intro h
    obtain ⟨cs, rfl⟩ := List.head?_eq_some_iff.1 ((byteAt_eq hs hi rfl).1 h)
    exact hno cs rfl

/-- The tokens of the scan, with a blackboard. -/
abbrev boardToken (blackboard : Blackboard) : List Char → Option (Ref × ℕ) :=
  refToken fun id => decide (id ∈ blackboard)

/-- A turn reads a reference where the scan recognises one, and a character
    elsewhere. -/
theorem substituteTurn_cons {c : Char} {cs : List Char} (hs : s = u ++ c :: cs) (hi : size u = i) :
    substituteTurn s blackboard (i, out) = some (.next
      (match boardToken blackboard (c :: cs) with
        | some (r, _) => (i + size r.verbatim, out ++ substitutePiece blackboard (.inr r))
        | none => (i + c.utf8Size, out ++ [c]))) := by
  have hlt : ¬(bytes s).length ≤ i := by
    rw [length_bytes, hs, size_append, hi, not_le]
    exact Nat.lt_add_of_pos_right (size_pos (List.cons_ne_nil _ _))
  have hrest : dropBytes i s = some (c :: cs) := by rw [hs, dropBytes_append hi]
  -- A character is read after both forms failed.
  have hchar (hd : substituteDollar s blackboard i out = some none)
      (hb : substituteBare s blackboard i out = some none) :
      substituteTurn s blackboard (i, out) = some (.next (i + c.utf8Size, out ++ [c])) := by
    simp [substituteTurn, hlt, hd, hb, hrest]
  by_cases hd : ∃ cs', c :: cs = '$' :: '{' :: cs'
  · obtain ⟨cs', hcs⟩ := hd
    obtain ⟨rfl, rfl⟩ := List.cons.inj hcs
    have hdollar : substituteDollar s blackboard i out = _ := substituteDollar_open hs hi
    have htoken : boardToken blackboard ('$' :: '{' :: cs') =
        (upTo '}' cs').map fun inner => (⟨true, inner⟩, inner.length + 2) := rfl
    cases hup : upTo '}' cs' with
    | some inner => simp [substituteTurn, hlt, hdollar, htoken, hup]
    | none =>
      rw [hup, Option.map_none] at hdollar
      have hbare : substituteBare s blackboard i out = _ := substituteBare_none hs hi (by simp)
      rw [hchar hdollar hbare, htoken, hup, Option.map_none]
  · have hdollar : substituteDollar s blackboard i out = _ := substituteDollar_none hs hi
      fun cs' h => hd ⟨cs', h⟩
    by_cases hc : c = '{'
    · subst hc
      have hbare : substituteBare s blackboard i out = _ := substituteBare_open hs hi
      have htoken : boardToken blackboard ('{' :: cs) = (upTo '}' cs).bind fun inner =>
          if headOf inner ≠ "" ∧ decide (headOf inner ∈ blackboard) then
            some (⟨false, inner⟩, inner.length + 1)
          else none := rfl
      cases hup : upTo '}' cs with
      | some inner =>
        by_cases hhead : headOf inner ≠ "" ∧ headOf inner ∈ blackboard
        · simp [substituteTurn, hlt, hdollar, hbare, htoken, hup, hhead]
        · rw [hup, Option.bind_some, if_neg hhead] at hbare
          rw [hchar hdollar hbare, htoken, hup, Option.bind_some, if_neg (by simpa using hhead)]
      | none =>
        rw [hup, Option.bind_none] at hbare
        rw [hchar hdollar hbare, htoken, hup, Option.bind_none]
    · have hbare : substituteBare s blackboard i out = _ := substituteBare_none hs hi
        fun cs' h => hc (List.cons.inj h).1
      have htoken : boardToken blackboard (c :: cs) = none := by
        rw [boardToken, refToken]
        · exact fun cs' h => hd ⟨cs', h⟩
        · exact fun cs' h => hc (List.cons.inj h).1
      rw [hchar hdollar hbare, htoken]

variable (blackboard) in
/-- What a text becomes. -/
def inlineText (t : List Char) : List Char :=
  (cut (boardToken blackboard) 0 t).flatMap (substitutePiece blackboard)

theorem inlineText_token {r : Ref} {n : ℕ} (ht : boardToken blackboard t = some (r, n)) :
    ∃ post, t = r.verbatim ++ post ∧ inlineText blackboard t =
      substitutePiece blackboard (.inr r) ++ inlineText blackboard post := by
  obtain ⟨post, hpost, hlen, -⟩ := refToken_eq_some ht
  refine ⟨post, hpost, ?_⟩
  rcases t with _ | ⟨c, cs⟩
  · exact absurd ht (by simp [boardToken, refToken])
  · have hcut : cut (boardToken blackboard) 0 (c :: cs) =
        .inr r :: cut (boardToken blackboard) n cs := by simp [cut, ht]
    have hdrop : cs.drop n = post := by
      rw [← List.drop_succ_cons (a := c), hpost, hlen, List.drop_left]
    rw [inlineText, hcut, List.flatMap_cons, cut_eq_drop, hdrop]
    rfl

theorem inlineText_char {c : Char} {cs : List Char} (ht : boardToken blackboard (c :: cs) = none) :
    inlineText blackboard (c :: cs) = c :: inlineText blackboard cs := by
  have hcut : cut (boardToken blackboard) 0 (c :: cs) =
      .inl c :: cut (boardToken blackboard) 0 cs := by simp [cut, ht]
  rw [inlineText, hcut, List.flatMap_cons]
  rfl

/-- The loop is at a boundary, and has the text before it replaced. -/
theorem substituteTurn_computes (s : List Char) (blackboard : Blackboard) :
    Loop.Computes (substituteTurn s blackboard) (fun st => Boundary st.1 s)
      (fun st => size s - st.1)
      (fun st => st.2 ++ inlineText blackboard ((dropBytes st.1 s).getD [])) := by
  rintro ⟨i, out⟩ ⟨u, t, hs, hi⟩
  have hrest : dropBytes i s = some t := by rw [hs, dropBytes_append hi]
  simp only at hi
  rcases t with _ | ⟨c, cs⟩
  · have hend : (bytes s).length ≤ i := by
      rw [length_bytes, hs, List.append_nil, hi]
    left
    simp [substituteTurn, hend, hrest, inlineText, cut]
  · right
    have hlt : size s = i + (c.utf8Size + size cs) := by rw [hs, size_append, hi, size_cons]
    have hturn : substituteTurn s blackboard (i, out) = _ := substituteTurn_cons hs hi
    -- a turn takes one character, or the text of a whole reference
    cases ht : boardToken blackboard (c :: cs) with
    | none =>
      have hs' : s = (u ++ [c]) ++ cs := by rw [hs, List.append_assoc]; rfl
      have hi' : size (u ++ [c]) = i + c.utf8Size := by rw [size_append, hi]; simp
      rw [ht] at hturn
      refine ⟨_, hturn, ⟨u ++ [c], cs, hs', hi'⟩, ?_, ?_⟩
      · have := c.utf8Size_pos
        simp only
        omega
      · simp only [hrest, Option.getD_some, inlineText_char ht]
        rw [hs', dropBytes_append hi', Option.getD_some, List.append_assoc]
        rfl
    | some x =>
      obtain ⟨r, n⟩ := x
      obtain ⟨post, hpost, htext⟩ := inlineText_token ht
      have hs' : s = (u ++ r.verbatim) ++ post := by rw [hs, hpost, List.append_assoc]
      have hi' : size (u ++ r.verbatim) = i + size r.verbatim := by rw [size_append, hi]
      rw [ht] at hturn
      refine ⟨_, hturn, ⟨u ++ r.verbatim, post, hs', hi'⟩, ?_, ?_⟩
      · have hpos : 0 < size r.verbatim := by
          rw [size_verbatim]
          omega
        have hsize : size (c :: cs) = size r.verbatim + size post := by rw [hpost, size_append]
        rw [size_cons] at hsize
        simp only
        omega
      · simp only [hrest, Option.getD_some, htext]
        rw [hs', dropBytes_append hi', Option.getD_some, List.append_assoc]

end

/-- The loop neither panics nor goes on forever, its index is always between two
    characters, and its result is that of cutting the text into characters and
    references and replacing the references which have a value; the pieces make
    up the text. -/
theorem substitute_exact (s : List Char) (blackboard : Blackboard) :
    (∀ n, size s < n → Loop.run (substituteTurn s blackboard) n (0, []) =
        .ok ((cut (refToken fun id => decide (id ∈ blackboard)) 0 s).flatMap
          (substitutePiece blackboard))) ∧
      (∀ st, Loop.Reached (substituteTurn s blackboard) (0, []) st →
        Boundary st.1 s ∧ (substituteTurn s blackboard st).isSome) ∧
      (cut (refToken fun id => decide (id ∈ blackboard)) 0 s).flatMap pieceSource = s := by
  have hcomp := substituteTurn_computes s blackboard
  have hstart : Boundary 0 s := ⟨[], s, rfl, rfl⟩
  refine ⟨fun n hn => ?_, fun st hst => ?_, flatMap_pieceSource _ s⟩
  · rw [Loop.run_eq_ok hcomp (s := (0, [])) hstart hn, dropBytes]
    rfl
  · have hb := Loop.reached_invariant hcomp hstart hst
    refine ⟨hb, ?_⟩
    rcases hcomp st hb with hd | ⟨_, hn, -⟩
    · rw [hd, Option.isSome_some]
    · rw [hn, Option.isSome_some]

/-- References, with the lenient ones that have an empty head. -/
def headlessToken (known : String → Bool) : List Char → Option (Ref × ℕ)
  | '$' :: '{' :: cs => (upTo '}' cs).map fun inner => (⟨true, inner⟩, inner.length + 2)
  | '{' :: cs => (upTo '}' cs).bind fun inner =>
      if known (headOf inner) then some (⟨false, inner⟩, inner.length + 1) else none
  | _ => none

/-- A lenient reference to the step whose id is empty is not replaced. -/
theorem substitute_empty_id :
    ¬∀ (s : List Char) (blackboard : Blackboard) (n : ℕ), size s < n →
      Loop.run (substituteTurn s blackboard) n (0, []) =
        .ok ((cut (headlessToken fun id => decide (id ∈ blackboard)) 0 s).flatMap
          (substitutePiece blackboard)) := by
  intro h
  let blackboard : Blackboard := Finmap.singleton "" (.bool true)
  have hclaim := h ['{', '}'] blackboard 3 (by decide)
  have hrun := Loop.run_eq_ok (substituteTurn_computes ['{', '}'] blackboard)
    (s := (0, [])) ⟨[], _, rfl, rfl⟩ (n := 3) (by decide)
  rw [hrun, Except.ok.injEq] at hclaim
  exact absurd hclaim (by decide)

end N3ur0n
