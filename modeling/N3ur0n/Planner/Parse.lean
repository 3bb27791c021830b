import N3ur0n.JsonScan
import N3ur0n.Planner.PlanJson

/-!
# Plans in answers

The answer of a model is read as a plan, without its Markdown fences, and if need
be from its first object only.

* `closeObject_scan`: the brace matcher and the scanner of JSON texts go together,
  so the first object ends where the text of the plan does
  (`extractFirstJsonObject_embedded`), whatever its strings hold;
* `parsePlan_embedded_iff`: a plan is recovered from the text around it exactly if
  the fences leave it. They are looked for in the plan as well: a fence whose line
  goes on up to the plan is cut with the plan, and the last fence in a string of
  the plan cuts it.
-/

namespace N3ur0n

open Cut Json

/-! ## Reading answers -/

def mdFence : List Char := "```".toList

/-- The text without its opening fence, up to its last fence. -/
def stripMdFences (s : List Char) : List Char :=
  let s := trim isWhitespace s
  if mdFence.isPrefixOf s then
    match splitOnce ['\n'] s with
    | some (_, body) =>
      match upToLast mdFence body with
      | some before => trim isWhitespace before
      | none => trim isWhitespace body
    | none => s
  else s

/-- The text up to the brace that closes the first one. -/
def closeObject (depth : ℤ) (inString escape : Bool) : List Char → Option (List Char)
  | [] => none
  | b :: cs =>
    if inString then
      if escape then (closeObject depth true false cs).map (b :: ·)
      else if b = '\\' then (closeObject depth true true cs).map (b :: ·)
      else if b = quote then (closeObject depth false escape cs).map (b :: ·)
      else (closeObject depth true escape cs).map (b :: ·)
    else if b = quote then (closeObject depth true escape cs).map (b :: ·)
    else if b = '{' then (closeObject (depth + 1) false escape cs).map (b :: ·)
    else if b = '}' then
      if depth - 1 = 0 then some [b] else (closeObject (depth - 1) false escape cs).map (b :: ·)
    else (closeObject depth false escape cs).map (b :: ·)

def extractFirstJsonObject (s : List Char) : Option (List Char) :=
  match s.dropWhile (· ≠ '{') with
  | [] => none
  | cs => closeObject 0 false false cs

/-- The plan of a text without fences. -/
def planIn (nearest : String → Option String) (cleaned : List Char) : Option Plan :=
  (Plan.ofJson nearest cleaned).or
    ((extractFirstJsonObject cleaned).bind (Plan.ofJson nearest))

def parsePlan (nearest : String → Option String) (raw : List Char) : Except String Plan :=
  let trimmed := trim isWhitespace raw
  if trimmed = [] then .error "empty plan response"
  else
    let cleaned := stripMdFences trimmed
    match planIn nearest cleaned with
    | some p => .ok p
    | none =>
      .error ("could not parse Plan from response: " ++ String.ofList (cleaned.take 120))

/-! ## The first object -/

/-- The scanner is in a string. -/
def Json.Mode.inString : Mode → Bool
  | .outside _ => false
  | .inside | .escaped => true

/-- The scanner is after a backslash. -/
def Json.Mode.escape : Mode → Bool
  | .outside _ | .inside => false
  | .escaped => true

variable {m m' : Mode} {d d' : ℕ} {k : ℤ} {c : Char} {u v t json : List Char}

theorem closeObject_advance (hk : 0 < k) (h : advance (m, d) c = some (m', d')) :
    closeObject (d + k) m.inString m.escape (c :: t) =
      (closeObject (d' + k) m'.inString m'.escape t).map (c :: ·) := by
  rcases m with b | - | -
  · simp only [advance] at h
    split_ifs at h with hq hopen hclose hzero hcolon hagain hslash
    all_goals obtain ⟨rfl, rfl⟩ : _ = m' ∧ _ = d' := by simpa using h
    · simp [closeObject, Mode.inString, Mode.escape, hq]
    · simp [closeObject, Mode.inString, Mode.escape, hopen, quote, add_right_comm]
    · have hne : ((d : ℤ) + k - 1 = 0) = False := by
        simp only [eq_iff_iff, iff_false]
        omega
      have hpred : ((d - 1 : ℕ) : ℤ) + k = d + k - 1 := by omega
      simp [closeObject, Mode.inString, Mode.escape, hclose, quote, hne, hpred]
    · simp [closeObject, Mode.inString, Mode.escape, hcolon, quote]
    · simp [closeObject, Mode.inString, Mode.escape, hq, hopen, hclose]
  · simp only [advance] at h
    obtain ⟨rfl, rfl⟩ : _ = m' ∧ _ = d' := by simpa using h
    split_ifs with hslash hq
    · simp [closeObject, Mode.inString, Mode.escape, hslash]
    · have hquote : (quote = '\\') = False := by decide
      simp [closeObject, Mode.inString, Mode.escape, hq, hquote]
    · simp [closeObject, Mode.inString, Mode.escape, hq, hslash]
  · obtain ⟨rfl, rfl⟩ : _ = m' ∧ _ = d' := by simpa [advance] using h
    simp [closeObject, Mode.inString, Mode.escape]

/-- What the scanner passes inside an object is inside for the brace matcher. -/
theorem closeObject_scan (hk : 0 < k) (h : scan (m, d) u = some (m', d')) :
    closeObject (d + k) m.inString m.escape (u ++ t) =
      (closeObject (d' + k) m'.inString m'.escape t).map (u ++ ·) := by
  induction u generalizing m d with
  | nil =>
    obtain ⟨rfl, rfl⟩ : m = m' ∧ d = d' := by simpa [scan] using h
    simp
  | cons c u ih =>
    obtain ⟨-, ⟨m₁, d₁⟩, hc, hu⟩ := scan_cons_eq_some.1 h
    rw [List.cons_append, closeObject_advance hk hc, ih hu, Option.map_map]
    rfl

/-- The text of an object: between its braces, the scanner passes. -/
def ObjectText (json : List Char) : Prop :=
  ∃ m, json = '{' :: m ++ ['}'] ∧ Passes m

theorem closeObject_objectText (h : ObjectText json) :
    closeObject 0 false false (json ++ t) = some json := by
  obtain ⟨m, rfl, hm⟩ := h
  have hopen : closeObject 0 false false ('{' :: m ++ ['}'] ++ t) =
      (closeObject (0 + 1) false false (m ++ ('}' :: t))).map ('{' :: ·) := by
    simp [closeObject, quote]
  have hclose : closeObject (0 + 1) false false ('}' :: t) = some ['}'] := by
    simp [closeObject, quote]
  have hpass : closeObject (0 + 1) false false (m ++ ('}' :: t)) =
      (closeObject (0 + 1) false false ('}' :: t)).map (m ++ ·) :=
    closeObject_scan Int.one_pos (hm false 0)
  rw [hopen, hpass, hclose]
  rfl

theorem extractFirstJsonObject_embedded (h : ObjectText json) (hu : '{' ∉ u) :
    extractFirstJsonObject (u ++ json ++ t) = some json := by
  have hdrop : (u ++ json ++ t).dropWhile (· ≠ '{') = json ++ t := by
    obtain ⟨m, rfl, -⟩ := h
    have hall : ∀ c ∈ u, decide (c ≠ '{') = true := fun c hc =>
      decide_eq_true fun e => hu (e ▸ hc)
    rw [List.append_assoc, List.dropWhile_append_of_pos hall]
    exact List.dropWhile_cons_of_neg (by simp)
  rw [extractFirstJsonObject, hdrop, ← closeObject_objectText h (t := t)]
  obtain ⟨m, rfl, -⟩ := h
  rfl

/-! ## Fences -/

/-- The fences, if any, leave the text of the plan: there is no opening fence;
    or no line ends before the plan or after it; or the first line ends before the
    plan, and there is a fence after the plan, or none from there up to its end. -/
def FencesKeep (pre json suf : List Char) : Prop :=
  let head := pre.dropWhile isWhitespace
  let tail := suf.rdropWhile isWhitespace
  ¬mdFence <+: head ∨ ('\n' ∉ head ∧ '\n' ∉ tail) ∨
    ∃ line rest, head = line ++ '\n' :: rest ∧ '\n' ∉ line ∧
      (mdFence <:+: tail ∨ ¬mdFence <:+: rest ++ json)

theorem ObjectText.trim_append (h : ObjectText json) (u v : List Char) :
    trim isWhitespace (u ++ json ++ v) =
      u.dropWhile isWhitespace ++ json ++ v.rdropWhile isWhitespace := by
  obtain ⟨m, rfl, -⟩ := h
  have hlast : '{' :: m ++ ['}'] = ('{' :: m) ++ ['}'] := rfl
  exact Cut.trim_append rfl (by decide) hlast (by decide)

theorem ObjectText.newline (h : ObjectText json) : '\n' ∉ json := by
  obtain ⟨m, rfl, hm⟩ := h
  intro hmem
  have hchars : ∀ c ∈ '{' :: m ++ ['}'], 32 ≤ c.toNat :=
    le_of_scan (Passes.braces (.inl hm) false 0)
  exact absurd (hchars _ hmem) (by decide)

theorem mdFence_prefix (h : ObjectText json) :
    mdFence <+: u ++ json ++ v ↔ mdFence <+: u := by
  obtain ⟨m, rfl, -⟩ := h
  rw [List.append_assoc]
  exact prefix_append_cons (by decide)

theorem mdFence_infix (h : ObjectText json) :
    mdFence <:+: u ++ json ++ v ↔ mdFence <:+: u ++ json ∨ mdFence <:+: v := by
  obtain ⟨m, rfl, -⟩ := h
  have hclose : '}' ∉ mdFence := by decide
  have happ : u ++ ('{' :: m ++ ['}']) ++ v = (u ++ '{' :: m) ++ '}' :: v := by simp
  have hinfix : mdFence <:+: u ++ ('{' :: m ++ ['}']) ↔ mdFence <:+: u ++ '{' :: m := by
    have happ' : u ++ ('{' :: m ++ ['}']) = (u ++ '{' :: m) ++ '}' :: [] := by simp
    rw [happ', infix_append_cons hclose]
    exact or_iff_left (by decide)
  rw [happ, infix_append_cons hclose, hinfix]

/-- Where the fences keep the text of the plan, it is left between a text without
    braces and another one. -/
theorem stripMdFences_of_keep (h : ObjectText json) (hpre : '{' ∉ u) (hkeep : FencesKeep u json v) :
    ∃ u' v', '{' ∉ u' ∧ stripMdFences (trim isWhitespace (u ++ json ++ v)) = u' ++ json ++ v' := by
  obtain ⟨head, hhead⟩ : ∃ head, head = u.dropWhile isWhitespace := ⟨_, rfl⟩
  obtain ⟨tail, htail⟩ : ∃ tail, tail = v.rdropWhile isWhitespace := ⟨_, rfl⟩
  have hbrace : '{' ∉ head := fun hmem => hpre ((List.dropWhile_sublist _).subset (hhead ▸ hmem))
  have htrim : trim isWhitespace (u ++ json ++ v) = head ++ json ++ tail := by
    rw [h.trim_append, hhead, htail]
  have htrim' : trim isWhitespace (head ++ json ++ tail) = head ++ json ++ tail := by
    rw [h.trim_append, hhead, htail, List.dropWhile_idempotent, List.rdropWhile_idempotent]
  have hfence : mdFence.isPrefixOf (head ++ json ++ tail) = true ↔ mdFence <+: head := by
    rw [List.isPrefixOf_iff_prefix, mdFence_prefix h]
  rw [htrim, stripMdFences, htrim']
  by_cases hopen : mdFence <+: head
  · rw [if_pos (hfence.2 hopen)]
    simp only [FencesKeep, ← hhead, ← htail] at hkeep
    -- the three cases of `FencesKeep`: with a line end before the plan, the first line goes
    rcases hkeep with hclosed | ⟨hnl, hnl'⟩ | ⟨line, rest, hline, hnl, hlast⟩
    · exact absurd hopen hclosed
    · have hnone : splitOnce ['\n'] (head ++ json ++ tail) = none :=
        splitOnce_eq_none (by simp [hnl, hnl', h.newline])
      rw [hnone]
      exact ⟨head, tail, hbrace, rfl⟩
    · have hsplit : splitOnce ['\n'] (head ++ json ++ tail) =
          some (line, rest ++ json ++ tail) := by
        have happ : head ++ json ++ tail = line ++ '\n' :: (rest ++ json ++ tail) := by
          simp [hline]
        rw [happ, splitOnce_append hnl]
      have hrest : '{' ∉ rest.dropWhile isWhitespace := fun hmem => hbrace <| by
        rw [hline]
        exact List.mem_append_right _
          (List.mem_cons_of_mem _ ((List.dropWhile_sublist _).subset hmem))
      have hne : mdFence ≠ [] := by decide
      rw [hsplit]
      by_cases hfence' : mdFence <:+: tail
      · obtain ⟨before, hbefore⟩ :=
          Option.ne_none_iff_exists'.1 ((upToLast_eq_none hne).not.2 (not_not.2 hfence'))
        simp only [upToLast_append hbefore]
        exact ⟨_, _, hrest, h.trim_append rest before⟩
      · have hnone : upToLast mdFence (rest ++ json ++ tail) = none := by
          rw [upToLast_eq_none hne, mdFence_infix h, not_or]
          exact ⟨hlast.resolve_left hfence', hfence'⟩
        simp only [hnone]
        exact ⟨_, _, hrest, h.trim_append rest tail⟩
  · rw [if_neg (hfence.not.2 hopen)]
    exact ⟨head, tail, hbrace, rfl⟩

/-! ## Plans in a text -/

variable {nearest : String → Option String} {p : Plan} {pre suf : List Char}

theorem Plan.objectText_toJson (hp : p.HasJson some) : ObjectText p.toJson := by
  refine ⟨Value.renderField ("plan", .array (p.plan.map PlanStep.toValue)), rfl, ?_⟩
  refine (passes_quote "plan").colon (@Value.passes_render (numberOf some) _ fun n hn => ?_)
  have hnumbers : n ∈ p.toValue.numbers := by
    simpa [Plan.toValue, Value.numbers, Value.numbersFields] using hn
  obtain ⟨s, hs, hmem⟩ := Plan.mem_numbers_toValue hnumbers
  exact ((hp s hs).2 n hmem).readsNumber

theorem parsePlan_eq_ok {raw : List Char} (hne : trim isWhitespace raw ≠ []) :
    parsePlan nearest raw = .ok p ↔
      planIn nearest (stripMdFences (trim isWhitespace raw)) = some p := by
  rw [parsePlan, if_neg hne]
  dsimp only
  cases planIn nearest (stripMdFences (trim isWhitespace raw)) with
  | none => simp
  | some q => simp

/-- A plan which is left in the text is found, unless the text is read as another
    one. -/
theorem planIn_embedded (hp : p.HasJson nearest) (hu : '{' ∉ u) :
    planIn nearest (u ++ p.toJson ++ v) = some p ↔
      p.Fits ∧ ∀ q, Plan.ofJson nearest (u ++ p.toJson ++ v) = some q → q = p := by
  rw [planIn, extractFirstJsonObject_embedded (Plan.objectText_toJson hp.form) hu, Option.bind_some,
    Plan.ofJson_toJson hp]
  cases hread : Plan.ofJson nearest (u ++ p.toJson ++ v) with
  | none => simp
  | some q =>
    simp only [Option.some_or, Option.some.injEq, forall_eq']
    refine ⟨fun hq => ⟨?_, hq⟩, And.right⟩
    exact Plan.fits_of_ofJson (hread.trans (congrArg some hq))

/-- A plan of one step, with braces and quotes in its arguments. -/
def onePlan : Plan := ⟨[⟨"s1", "abc", "echo", .object [("text", .string "\x7b\"```")], []⟩]⟩

theorem hasJson_onePlan : onePlan.HasJson some := by
  rintro s hs
  obtain rfl := List.mem_singleton.1 hs
  simp [Value.Ordered, Value.OrderedFields, Sorted.InOrder, Value.numbers, Value.numbersFields]

/-- A text around the plan may make it an argument of another one. -/
example : (Plan.ofJson some
    ("[[[\"s0\",\"abc\",\"echo\",".toList ++ onePlan.toJson ++ "]]]".toList)).isSome := by
  decide +kernel

end N3ur0n
