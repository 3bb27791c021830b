import N3ur0n.Json
import N3ur0n.Lib.Cut
import N3ur0n.Lib.Table

/-!
# References

The arguments of a step may refer to the results of other steps, as
`${step.path}`, or leniently as `{step.path}`. References are read twice, by
two scanners written separately:

* before execution, `collectRefs` finds the steps a step refers to, from which
  its dependencies are inferred;
* when the step starts, `resolveValue` replaces the references by the values
  they have on the *blackboard*, the results so far.

Both cut a text from left to right (`Cut.cut`), but they do not recognise the
same tokens: the first jumps over any pair of braces, the second only over
those it replaces. What the second one looks up is `readHeads`; the value it
gives depends on nothing else (`resolveString_congr`).
-/

namespace N3ur0n

open Cut

/-- The results of the steps, by step id. -/
abbrev Blackboard := Table String Value

/-- The characters `str::trim` removes: those of Unicode's `White_Space`. -/
def isWhitespace (c : Char) : Bool :=
  let n := c.toNat
  (9 ≤ n && n ≤ 13) || n = 0x20 || n = 0x85 || n = 0xA0 || n = 0x1680 ||
    (0x2000 ≤ n && n ≤ 0x200A) || n = 0x2028 || n = 0x2029 || n = 0x202F || n = 0x205F ||
    n = 0x3000

/-- The first segment of a key, up to its first dot. -/
def headOf (key : List Char) : String := String.ofList (key.takeWhile (· ≠ '.'))

/-! ## Collecting -/

def looksLikeStepId (s : String) : Bool :=
  match s.toList with
  | [] => false
  | c :: cs => c.isAlpha && (c :: cs).all fun d => d.isAlphanum || d = '_'

/-- What the scan of `extractTemplateKeys` recognises: `${key}`, or a pair of
    braces, which holds a key when its head could be a step id. -/
def keyToken : List Char → Option (Option (List Char) × ℕ)
  | '$' :: '{' :: cs => (upTo '}' cs).map fun inner => (some inner, inner.length + 2)
  | '{' :: cs => (upTo '}' cs).map fun inner =>
      (if looksLikeStepId (headOf inner) then some inner else none, inner.length + 1)
  | _ => none

def extractTemplateKeys (s : String) : List (List Char) :=
  (cut keyToken 0 s.toList).filterMap fun
    | .inl _ => none
    | .inr key => key

/-- The full keys of the references in a value. -/
def collectRefKeys (v : Value) : List (List Char) := v.strings.flatMap extractTemplateKeys

/-- The ids of the steps a value refers to. -/
def collectRefs (v : Value) : List String := ((collectRefKeys v).map headOf).filter (· ≠ "")

/-- The first `${…}` of a text. -/
def unresolvedIn : List Char → Option String
  | [] => none
  | '$' :: '{' :: cs => (upTo '}' cs).map fun inner => String.ofList ('$' :: '{' :: inner ++ ['}'])
  | _ :: cs => unresolvedIn cs

/-- The first `${…}` left in any string of a value. -/
def firstUnresolvedTemplate (v : Value) : Option String :=
  v.strings.findSome? fun s => unresolvedIn s.toList

/-! ## Resolving -/

/-- The key of a string which is a single reference, spaces around it aside. -/
def wholeTemplate (s : String) : Option (List Char) :=
  match trim isWhitespace s.toList with
  | '$' :: '{' :: cs =>
    if cs.getLast? = some '}' ∧ '{' ∉ cs.dropLast then some cs.dropLast else none
  | '{' :: cs =>
    if cs.getLast? = some '}' ∧ '{' ∉ cs.dropLast ∧ cs.dropLast ≠ [] then some cs.dropLast
    else none
  | _ => none

/-- The value at the end of a path of fields. -/
def walk : List String → Value → Option Value
  | [], v => some v
  | p :: ps, v => (v.get p).bind (walk ps)

def lookupPath (path : List Char) (blackboard : Blackboard) : Option Value :=
  match path.splitOn '.' with
  | [] => none
  | id :: ps => (blackboard.lookup (String.ofList id)).bind (walk (ps.map String.ofList))

/-- A reference in a text, with or without its dollar. -/
structure Ref where
  dollar : Bool
  inner : List Char

/-- The reference as it is written. -/
def Ref.verbatim (r : Ref) : List Char :=
  (if r.dollar then ['$'] else []) ++ '{' :: r.inner ++ ['}']

/-- What the scan of `substituteInline` recognises: `${key}`, or `{key}` when
    its head is `known`, i.e., on the blackboard. -/
def refToken (known : String → Bool) : List Char → Option (Ref × ℕ)
  | '$' :: '{' :: cs => (upTo '}' cs).map fun inner => (⟨true, inner⟩, inner.length + 2)
  | '{' :: cs => (upTo '}' cs).bind fun inner =>
      if headOf inner ≠ "" ∧ known (headOf inner) then some (⟨false, inner⟩, inner.length + 1)
      else none
  | _ => none

def valueToText : Value → List Char
  | .string s => s.toList
  | v => v.render

/-- A piece of a text after substitution: a reference without a value stays as
    it is. -/
def substitutePiece (blackboard : Blackboard) : Char ⊕ Ref → List Char
  | .inl c => [c]
  | .inr r =>
    match lookupPath r.inner blackboard with
    | some v => valueToText v
    | none => r.verbatim

def substituteInline (s : String) (blackboard : Blackboard) : String :=
  String.ofList ((cut (refToken fun id => decide (id ∈ blackboard)) 0 s.toList).flatMap
    (substitutePiece blackboard))

/-- A string with its references replaced: the value itself for a string which
    is a single reference, text otherwise. -/
def resolveString (blackboard : Blackboard) (s : String) : Value :=
  match (wholeTemplate s).bind fun inner => lookupPath inner blackboard with
  | some v => v
  | none => .string (substituteInline s blackboard)

def resolveValue (v : Value) (blackboard : Blackboard) : Value :=
  v.mapStrings (resolveString blackboard)

/-! ## What is looked up -/

/-- The head of the reference a text starts with, if it does. -/
def braceHead : List Char → Option String
  | '$' :: '{' :: cs => (upTo '}' cs).map headOf
  | '{' :: cs => (upTo '}' cs).map headOf
  | _ => none

/-- The ids looked up when a string is resolved, with the ids `known` on the
    blackboard. -/
def readHeads (known : String → Bool) (s : String) : List String :=
  ((wholeTemplate s).map headOf).toList ++
    (visited (refToken known) 0 s.toList).filterMap braceHead

theorem splitOn_eq_headOf (key : List Char) :
    ∃ ps, key.splitOn '.' = key.takeWhile (· ≠ '.') :: ps := by
  induction key with
  | nil => exact ⟨[], rfl⟩
  | cons c cs ih =>
    obtain ⟨ps, hps⟩ := ih
    rw [List.splitOn_cons_eq_if_modifyHead, hps]
    by_cases hc : c = '.'
    · exact ⟨cs.takeWhile (· ≠ '.') :: ps, by simp [hc]⟩
    · exact ⟨ps, by simp [hc]⟩

/-- A path is looked up under its head. -/
theorem lookupPath_congr {path : List Char} {bb bb' : Blackboard}
    (h : bb.lookup (headOf path) = bb'.lookup (headOf path)) :
    lookupPath path bb = lookupPath path bb' := by
  obtain ⟨ps, hps⟩ := splitOn_eq_headOf path
  simp only [lookupPath, hps]
  rw [← headOf, h]

theorem refToken_congr {known known' : String → Bool} {p : List Char}
    (h : ∀ id, braceHead p = some id → known id = known' id) :
    refToken known p = refToken known' p := by
  unfold refToken
  split
  · rfl
  · rename_i cs
    cases hu : upTo '}' cs with
    | none => rfl
    | some inner =>
      have := h (headOf inner) (by simp only [braceHead, hu, Option.map_some])
      simp only [Option.bind_some, this]
  · rfl

theorem braceHead_of_refToken {known : String → Bool} {p : List Char} {r : Ref} {n : ℕ}
    (h : refToken known p = some (r, n)) : braceHead p = some (headOf r.inner) := by
  unfold refToken at h
  split at h
  · simp only [Option.map_eq_some_iff, Prod.mk.injEq] at h
    obtain ⟨inner, hu, rfl, -⟩ := h
    simp only [braceHead, hu, Option.map_some]
  · simp only [Option.bind_eq_some_iff, Option.ite_none_right_eq_some, Option.some.injEq,
      Prod.mk.injEq] at h
    obtain ⟨inner, hu, -, rfl, -⟩ := h
    simp only [braceHead, hu, Option.map_some]
  · exact absurd h (by simp)

/-- What a string resolves to depends only on what is looked up. -/
theorem resolveString_congr {known : String → Bool} {bb bb' : Blackboard} {s : String}
    (hk : ∀ id ∈ readHeads known s, (id ∈ bb ↔ known id) ∧ bb.lookup id = bb'.lookup id) :
    resolveString bb s = resolveString bb' s := by
  have hmem (id : String) (hid : id ∈ readHeads known s) : id ∈ bb ↔ id ∈ bb' := by
    rw [← Finmap.lookup_isSome, ← Finmap.lookup_isSome, (hk id hid).2]
  have hread {p : List Char} (hp : p ∈ visited (refToken known) 0 s.toList) {id : String}
      (hid : braceHead p = some id) : id ∈ readHeads known s :=
    List.mem_append_right _ (List.mem_filterMap.2 ⟨p, hp, hid⟩)
  -- The two boards hold the ids `known`, as far as the scan can see.
  have hcut : cut (refToken fun id => decide (id ∈ bb)) 0 s.toList =
      cut (refToken known) 0 s.toList :=
    cut_congr fun p hp => refToken_congr fun id hid => by
      simp [(hk id (hread hp hid)).1]
  have hcut' : cut (refToken fun id => decide (id ∈ bb')) 0 s.toList =
      cut (refToken known) 0 s.toList :=
    cut_congr fun p hp => refToken_congr fun id hid => by
      simp [← hmem id (hread hp hid), (hk id (hread hp hid)).1]
  have hpiece : (cut (refToken known) 0 s.toList).flatMap (substitutePiece bb) =
      (cut (refToken known) 0 s.toList).flatMap (substitutePiece bb') := by
    refine List.flatMap_congr fun x hx => ?_
    cases x with
    | inl c => rfl
    | inr r =>
      obtain ⟨p, hp, n, hn⟩ := mem_visited_of_mem_cut hx
      have := (hk _ (hread hp (braceHead_of_refToken hn))).2
      simp only [substitutePiece, lookupPath_congr this]
  have hwhole : ((wholeTemplate s).bind fun inner => lookupPath inner bb) =
      (wholeTemplate s).bind fun inner => lookupPath inner bb' := by
    cases hw : wholeTemplate s with
    | none => rfl
    | some inner =>
      exact lookupPath_congr (hk _ (by simp [readHeads, hw])).2
  simp only [resolveString, substituteInline, hwhole, hcut, hcut', hpiece]

theorem resolveValue_congr {known : String → Bool} {bb bb' : Blackboard} {v : Value}
    (hk : ∀ s ∈ v.strings, ∀ id ∈ readHeads known s,
      (id ∈ bb ↔ known id) ∧ bb.lookup id = bb'.lookup id) :
    resolveValue v bb = resolveValue v bb' :=
  Value.mapStrings_congr fun s hs => resolveString_congr (hk s hs)

end N3ur0n
