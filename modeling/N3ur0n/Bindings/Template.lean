import N3ur0n.Lib.Fallible
import N3ur0n.Planner.Inline

/-!
# Templates of bindings

The templates of a binding (the URL and the body of an HTTP call, the arguments of an
MCP tool, a prompt) refer to the arguments of the call as `{{args.path}}`.

* `render`, `renderValue`: a template is rendered as the value it refers to if its
  outer braces are taken for one placeholder, and by a loop over its bytes otherwise;
* `rendered`: what the documentation says, i.e., the value for a template which is
  one placeholder, and one pass from left to right otherwise;
* `render_iff_readsAlike`: the two agree unless the outer braces are not those of one
  placeholder, or those of one with braces in its path.
-/

namespace N3ur0n.Template

open Cut Slice

inductive TemplateError
  | pathNotFound (path : List Char)
  | unknownRoot (name : List Char)
  deriving DecidableEq

def TemplateError.message : TemplateError → String
  | .pathNotFound path =>
    "template references `" ++ String.ofList path ++ "` which is not present in args"
  | .unknownRoot name =>
    "template references `" ++ String.ofList name ++ "` which is not a known root (expected `args`)"

/-- The root and the path; a bare root has an empty path. -/
def splitRoot (path : List Char) : Except TemplateError (List Char × List Char) :=
  match splitOnce ['.'] path with
  | some (root, rest) => if rest ≠ [] then .ok (root, rest) else .error (.pathNotFound path)
  | none => .ok (path, [])

def checkRoot (root : List Char) : Except TemplateError Unit :=
  .reject (root ≠ "args".toList) (.unknownRoot root)

/-- The value the segments of a path lead to, none of which is empty. -/
def resolveSegments : List (List Char) → Value → Option Value
  | [], current => some current
  | segment :: segments, current =>
    if segment = [] then none
    else (current.get (String.ofList segment)).bind (resolveSegments segments)

def resolvePath (args : Value) (dotted : List Char) : Option Value :=
  if dotted = [] then some args else resolveSegments (dotted.splitOn '.') args

/-- The value of a placeholder, as both `render` and `substitute_inline` look it up. -/
def resolve (args : Value) (inner : List Char) : Except TemplateError Value := do
  let (root, path) ← splitRoot inner
  checkRoot root
  (resolvePath args path).elim (.error (.pathNotFound (root ++ '.' :: path))) .ok

/-- What is between the braces at the two ends of the text, if there are no others
    that open. -/
def wholeTemplate (s : List Char) : Option (List Char) :=
  if ['{', '{'] <+: s ∧ ['}', '}'] <:+ s then
    let inner := trim isWhitespace ((s.drop 2).rdrop 2)
    if ['{', '{'] <:+: inner then none else some inner
  else none

/-- A turn of the loop of `substitute_inline`: the state is the index, and the output
    so far. -/
def substituteTurn (s : List Char) (args : Value) :
    ℕ × List Char → Option (Loop.Turn (ℕ × List Char) (Except TemplateError (List Char)))
  | (i, out) =>
    if (bytes s).length ≤ i then some (.done (.ok out))
    else if i + 1 < (bytes s).length ∧ (bytes s)[i]? = some (asciiByte '{') ∧
        (bytes s)[i + 1]? = some (asciiByte '{') then do
      let tail ← dropBytes (i + 2) s
      match findText ['}', '}'] tail with
      | none => do
        -- Unbalanced: the text is kept from here on.
        let rest ← dropBytes i s
        pure (.done (.ok (out ++ rest)))
      | some relEnd => do
        let inner ← slice (i + 2) (i + 2 + relEnd) s
        match resolve args (trim isWhitespace inner) with
        | .error e => pure (.done (.error e))
        | .ok resolved => pure (.next (i + 2 + relEnd + 2, out ++ valueToText resolved))
    else do
      let rest ← dropBytes i s
      let ch ← rest.head?
      pure (.next (i + ch.utf8Size, out ++ [ch]))

/-- Every turn goes over one byte at least. -/
def substituteInline (s : List Char) (args : Value) :
    Except Loop.Fault (Except TemplateError (List Char)) :=
  Loop.run (substituteTurn s args) ((bytes s).length + 1) (0, [])

def render (template : List Char) (args : Value) :
    Except Loop.Fault (Except TemplateError Value) :=
  match wholeTemplate (trim isWhitespace template) with
  | some inner => .ok (resolve args inner)
  | none => (substituteInline template args).map fun r =>
      r.map fun out => .string (String.ofList out)

/-! ## What the documentation says -/

/-- The value of `args.path`: the one which the fields of the path lead to. -/
def referenced (args : Value) (path : List Char) : Option Value :=
  match path.splitOn '.' with
  | root :: fields =>
    if root = "args".toList ∧ [] ∉ fields then walk (fields.map String.ofList) args else none
  | [] => none

/-- A placeholder goes to the first braces that close; there may be spaces around its
    path. -/
def placeholder : List Char → Option (List Char × ℕ)
  | '{' :: '{' :: cs =>
    (splitOnce ['}', '}'] cs).map fun r => (trim isWhitespace r.1, r.1.length + 3)
  | _ => none

/-- The text of a piece of the template. -/
def pieceText (args : Value) : Char ⊕ List Char → Option (List Char)
  | .inl c => some [c]
  | .inr path => (referenced args path).map valueToText

/-- The text of the pieces, if all of them have one. -/
def textOf (args : Value) (pieces : List (Char ⊕ List Char)) : Option (List Char) :=
  (pieces.mapM (pieceText args)).map List.flatten

/-- What a template stands for: the value of its only placeholder, if there is nothing
    else but spaces around, or the text of its pieces. -/
def rendered (args : Value) (template : List Char) : Option Value :=
  match cut placeholder 0 (trim isWhitespace template) with
  | [.inr path] => referenced args path
  | _ => (textOf args (cut placeholder 0 template)).map fun out => .string (String.ofList out)

variable {args : Value} {s t u w : List Char}

/-! ## Paths -/

theorem resolveSegments_eq {segments : List (List Char)} {current : Value} :
    resolveSegments segments current =
      if [] ∉ segments then walk (segments.map String.ofList) current else none := by
  induction segments generalizing current with
  | nil => simp [resolveSegments, walk]
  | cons segment segments ih =>
    rw [resolveSegments, List.map_cons, walk]
    by_cases hs : segment = []
    · simp [hs]
    · rw [if_neg hs]
      cases current.get (String.ofList segment) with
      | none => simp
      | some v => simp [ih, Ne.symm hs]

/-- After the root is checked, the path is looked up. -/
theorem toOption_checkRoot {root path : List Char} {e : TemplateError} :
    ((checkRoot root).bind fun _ => (resolvePath args path).elim (.error e) .ok).toOption =
      if root = "args".toList then resolvePath args path else none := by
  rw [Except.toOption_bind, checkRoot, Except.reject]
  by_cases hroot : root = "args".toList
  · rw [if_neg (not_not.2 hroot), if_pos hroot]
    exact Except.toOption_elim
  · rw [if_pos hroot, if_neg hroot]
    rfl

/-- Both look the same value up, or none. -/
theorem toOption_resolve {inner : List Char} :
    (resolve args inner).toOption = referenced args inner := by
  have hbind : resolve args inner = (splitRoot inner).bind fun x =>
      (checkRoot x.1).bind fun _ =>
        (resolvePath args x.2).elim (.error (.pathNotFound (x.1 ++ '.' :: x.2))) .ok := rfl
  rw [hbind]
  by_cases hdot : '.' ∈ inner
  · obtain ⟨root, rest, rfl, hmem⟩ := List.eq_append_cons_of_mem hdot
    rw [splitRoot, splitOnce_append hmem, referenced,
      List.splitOn_append_cons_self_of_not_mem hmem]
    by_cases hrest : rest = []
    · simp [hrest, Except.toOption, Except.bind]
    · have hres : resolvePath args rest = resolveSegments (rest.splitOn '.') args := if_neg hrest
      dsimp only
      rw [if_pos hrest, Except.bind, toOption_checkRoot, hres, resolveSegments_eq, ite_and]
  · rw [splitRoot, splitOnce_eq_none hdot, referenced, List.splitOn_eq_singleton hdot]
    dsimp only
    rw [Except.bind, toOption_checkRoot, ite_and]
    rfl

/-! ## The pass -/

/-- The text of a piece, or why it has none. -/
def substitutePiece (args : Value) : Char ⊕ List Char → Except TemplateError (List Char)
  | .inl c => .ok [c]
  | .inr path => (resolve args path).map valueToText

/-- What the loop computes for a text. -/
def inlineText (args : Value) (t : List Char) : Except TemplateError (List Char) :=
  ((cut placeholder 0 t).mapM (substitutePiece args)).map List.flatten

theorem mapM_flatten_cons {x : Char ⊕ List Char} {l : List (Char ⊕ List Char)} :
    ((x :: l).mapM (substitutePiece args)).map List.flatten =
      (substitutePiece args x).bind fun out =>
        ((l.mapM (substitutePiece args)).map List.flatten).map (out ++ ·) := by
  rw [List.mapM_cons]
  rcases substitutePiece args x with e | out
  · rfl
  · rcases l.mapM (substitutePiece args) with e | outs
    · rfl
    · rfl

/-- A placeholder is cut off where the text starts with one. -/
theorem cut_open (h : splitOnce ['}', '}'] s = some (u, w)) :
    cut placeholder 0 ('{' :: '{' :: s) = .inr (trim isWhitespace u) :: cut placeholder 0 w := by
  have htoken : placeholder ('{' :: '{' :: s) = some (trim isWhitespace u, u.length + 3) := by
    rw [placeholder, h, Option.map_some]
  have hdrop : s.drop (u.length + 2) = w := by
    rw [eq_of_splitOnce h, ← List.append_assoc]
    exact List.drop_left' (by simp)
  simp only [cut, htoken]
  rw [cut_eq_drop, hdrop]

theorem inlineText_open (h : splitOnce ['}', '}'] s = some (u, w)) :
    inlineText args ('{' :: '{' :: s) = (resolve args (trim isWhitespace u)).bind fun v =>
      (inlineText args w).map (valueToText v ++ ·) := by
  rw [inlineText, cut_open h, mapM_flatten_cons, substitutePiece]
  rcases resolve args (trim isWhitespace u) with e | v
  · rfl
  · rfl

theorem inlineText_char {c : Char} (h : placeholder (c :: s) = none) :
    inlineText args (c :: s) = (inlineText args s).map (c :: ·) := by
  have hcut : cut placeholder 0 (c :: s) = .inl c :: cut placeholder 0 s := by simp [cut, h]
  rw [inlineText, hcut, mapM_flatten_cons]
  rfl

/-- Without braces that close, or braces that open, there are no placeholders. -/
theorem placeholder_eq_none (h : ¬['}', '}'] <:+: s ∨ ¬['{', '{'] <:+: s) :
    placeholder s = none := by
  unfold placeholder
  split
  · rename_i cs
    rcases h with h | h
    · have hsuffix : cs <:+ '{' :: '{' :: cs := List.suffix_append ['{', '{'] cs
      rw [splitOnce_eq_none_iff.2 fun hcs => h (hcs.trans hsuffix.isInfix), Option.map_none]
    · exact absurd (List.prefix_append ['{', '{'] cs).isInfix h
  · rfl

theorem cut_plain (h : ¬['}', '}'] <:+: s ∨ ¬['{', '{'] <:+: s) :
    cut placeholder 0 s = s.map .inl := by
  have hno (x : List Char) (hx : x <:+ s) : placeholder (x ++ []) = none := by
    rw [List.append_nil]
    exact placeholder_eq_none (h.imp (fun h hi => h (hi.trans hx.isInfix))
      fun h hi => h (hi.trans hx.isInfix))
  have hskip := cut_skip fun x hx _ => hno x hx
  rwa [List.append_nil, cut, List.append_nil] at hskip

theorem mapM_chars : ((s.map .inl).mapM (substitutePiece args)).map List.flatten = .ok s := by
  induction s with
  | nil => rfl
  | cons c s ih =>
    rw [List.map_cons, mapM_flatten_cons, ih]
    rfl

theorem inlineText_plain (h : ¬['}', '}'] <:+: s ∨ ¬['{', '{'] <:+: s) :
    inlineText args s = .ok s := by
  rw [inlineText, cut_plain h, mapM_chars]

/-! ## The loop -/

section Turn

variable {u t : List Char} {i : ℕ} {out : List Char}

/-- Where braces open, the placeholder is read, or the rest of the text. -/
theorem substituteTurn_open (hs : s = u ++ '{' :: '{' :: t) (hi : size u = i) :
    substituteTurn s args (i, out) = some (
      match splitOnce ['}', '}'] t with
      | none => .done (.ok (out ++ '{' :: '{' :: t))
      | some (inner, _) =>
        match resolve args (trim isWhitespace inner) with
        | .error e => .done (.error e)
        | .ok v => .next (i + 2 + size inner + 2, out ++ valueToText v)) := by
  have hopen : size (u ++ ['{']) = i + 1 := by rw [size_append, hi]; rfl
  have hopen' : size (u ++ ['{', '{']) = i + 2 := by rw [size_append, hi]; rfl
  have hs' : s = (u ++ ['{']) ++ '{' :: t := by rw [hs, List.append_assoc]; rfl
  have hs'' : s = (u ++ ['{', '{']) ++ t := by rw [hs, List.append_assoc]; rfl
  have hlen : i + 1 < (bytes s).length := by
    rw [length_bytes, hs', size_append, hopen]
    exact Nat.lt_add_of_pos_right (size_pos (List.cons_ne_nil _ _))
  have hrest : dropBytes i s = some ('{' :: '{' :: t) := by rw [hs, dropBytes_append hi]
  have htail : dropBytes (i + 2) s = some t := by rw [hs'', dropBytes_append hopen']
  rw [substituteTurn, if_neg (by omega),
    if_pos ⟨hlen, (byteAt_eq hs hi rfl).2 rfl, (byteAt_eq hs' hopen rfl).2 rfl⟩]
  simp only [htail, hrest, Option.bind_eq_bind, Option.bind_some, findText]
  cases hsplit : splitOnce ['}', '}'] t with
  | none => rfl
  | some r =>
    obtain ⟨inner, w⟩ := r
    have hslice : slice (i + 2) (i + 2 + size inner) s = some inner := by
      rw [hs'', eq_of_splitOnce hsplit, slice_append hopen' (by rw [hopen'])]
    simp only [Option.map_some, hslice, Option.bind_some]
    rcases resolve args (trim isWhitespace inner) with e | v
    · rfl
    · rfl

/-- Elsewhere, one character is read. -/
theorem substituteTurn_char {c : Char} (hs : s = u ++ c :: t) (hi : size u = i)
    (hno : ∀ cs, c :: t ≠ '{' :: '{' :: cs) :
    substituteTurn s args (i, out) = some (.next (i + c.utf8Size, out ++ [c])) := by
  have hlt : ¬(bytes s).length ≤ i := by
    rw [length_bytes, hs, size_append, hi, not_le]
    exact Nat.lt_add_of_pos_right (size_pos (List.cons_ne_nil _ _))
  have hrest : dropBytes i s = some (c :: t) := by rw [hs, dropBytes_append hi]
  rw [substituteTurn, if_neg hlt, if_neg]
  · simp [hrest]
  · rintro ⟨-, h1, h2⟩
    obtain ⟨t', ht'⟩ := List.head?_eq_some_iff.1 ((byteAt_eq hs hi rfl).1 h1)
    obtain ⟨rfl, rfl⟩ := List.cons.inj ht'
    have hopen : size (u ++ ['{']) = i + 1 := by rw [size_append, hi]; rfl
    have hs' : s = (u ++ ['{']) ++ t := by rw [hs, List.append_assoc]; rfl
    obtain ⟨cs, rfl⟩ := List.head?_eq_some_iff.1 ((byteAt_eq hs' hopen rfl).1 h2)
    exact hno cs rfl

end Turn

theorem map_append_map_append {out out' : List Char} {x : Except TemplateError (List Char)} :
    (x.map (out' ++ ·)).map (out ++ ·) = x.map (out ++ out' ++ ·) := by
  rcases x with e | t
  · rfl
  · exact congrArg Except.ok (List.append_assoc out out' t).symm

/-- The loop is at a boundary, and has the text before it replaced. -/
theorem substituteTurn_computes (s : List Char) (args : Value) :
    Loop.Computes (substituteTurn s args) (fun st => Boundary st.1 s) (fun st => size s - st.1)
      (fun st => (inlineText args ((dropBytes st.1 s).getD [])).map (st.2 ++ ·)) := by
  rintro ⟨i, out⟩ ⟨u, t, hs, hi⟩
  have hrest : dropBytes i s = some t := by rw [hs, dropBytes_append hi]
  simp only at hi
  simp only [hrest, Option.getD_some]
  rcases t with _ | ⟨c, cs⟩
  · left
    have hend : (bytes s).length ≤ i := by rw [length_bytes, hs, List.append_nil, hi]
    rw [substituteTurn, if_pos hend, inlineText_plain (.inl (by simp)), Except.map,
      List.append_nil]
  · have hlt : size s = i + size (c :: cs) := by rw [hs, size_append, hi]
    -- a turn takes a whole placeholder, or one character
    by_cases hopen : ∃ t', c :: cs = '{' :: '{' :: t'
    · obtain ⟨t', ht'⟩ := hopen
      rw [ht'] at hs hlt ⊢
      have hturn : substituteTurn s args (i, out) = _ := substituteTurn_open hs hi
      cases hsplit : splitOnce ['}', '}'] t' with
      | none =>
        left
        have hplain : ¬['}', '}'] <:+: '{' :: '{' :: t' := by
          simpa [List.infix_cons_iff] using splitOnce_eq_none_iff.1 hsplit
        rw [hturn, hsplit, inlineText_plain (.inl hplain)]
        rfl
      | some r =>
        obtain ⟨inner, w⟩ := r
        have hvalue : inlineText args _ = _ := inlineText_open hsplit
        simp only [hsplit] at hturn
        rw [hvalue, hturn]
        rcases resolve args (trim isWhitespace inner) with e | v
        · exact .inl rfl
        · right
          -- the next boundary is behind the closing braces
          have hs' : s = (u ++ '{' :: '{' :: (inner ++ ['}', '}'])) ++ w := by
            rw [hs, eq_of_splitOnce hsplit]
            simp
          have hi' : size (u ++ '{' :: '{' :: (inner ++ ['}', '}'])) = i + 2 + size inner + 2 := by
            have hbrace : Char.utf8Size '{' = 1 := rfl
            have hbrace' : Char.utf8Size '}' = 1 := rfl
            simp only [size_append, size_cons, size_nil, hi, hbrace, hbrace']
            omega
          refine ⟨_, rfl, ⟨_, w, hs', hi'⟩, ?_, ?_⟩
          · have hsize : size s = i + 2 + size inner + 2 + size w := by
              rw [hs', size_append, hi']
            simp only
            omega
          · rw [hs', dropBytes_append hi', Option.getD_some, Except.bind, map_append_map_append]
    · right
      have hno : ∀ t', c :: cs ≠ '{' :: '{' :: t' := fun t' h => hopen ⟨t', h⟩
      have hs' : s = (u ++ [c]) ++ cs := by rw [hs, List.append_assoc]; rfl
      have hi' : size (u ++ [c]) = i + c.utf8Size := by rw [size_append, hi]; simp
      refine ⟨_, substituteTurn_char hs hi hno, ⟨u ++ [c], cs, hs', hi'⟩, ?_, ?_⟩
      · have := c.utf8Size_pos
        rw [size_cons] at hlt
        simp only
        omega
      · have htoken : placeholder (c :: cs) = none := by
          rw [placeholder]
          exact hno
        rw [hs', dropBytes_append hi', Option.getD_some, inlineText_char htoken,
          ← map_append_map_append]
        rfl

theorem substituteInline_eq (s : List Char) (args : Value) :
    substituteInline s args = .ok (inlineText args s) := by
  have hstart : Boundary 0 s := ⟨[], s, rfl, rfl⟩
  rw [substituteInline, Loop.run_eq_ok (substituteTurn_computes s args) (s := (0, [])) hstart
    (by rw [length_bytes]; exact Nat.lt_succ_self _), dropBytes, Option.getD_some]
  rcases inlineText args s with e | out
  · rfl
  · rfl

/-! ## The two readings -/

theorem toOption_inlineText : (inlineText args s).toOption = textOf args (cut placeholder 0 s) := by
  have hpiece : (fun x => (substitutePiece args x).toOption) = pieceText args := by
    funext x
    rcases x with c | path
    · rfl
    · rw [substitutePiece, Except.toOption_map, toOption_resolve, pieceText]
  rw [inlineText, Except.toOption_map, Except.toOption_mapM, hpiece, textOf]

/-- The code renders the path between the outer braces, or the text of the pieces. -/
theorem render_toOption : (render s args).map Except.toOption = .ok (
    match wholeTemplate (trim isWhitespace s) with
    | some inner => referenced args inner
    | none => (textOf args (cut placeholder 0 s)).map fun out => .string (String.ofList out)) := by
  rw [render]
  cases wholeTemplate (trim isWhitespace s) with
  | some inner =>
    simp only [Except.map]
    rw [toOption_resolve]
  | none =>
    simp only [substituteInline_eq, Except.map]
    rw [← toOption_inlineText, ← Except.toOption_map]
    rfl

theorem textOf_cons {x : Char ⊕ List Char} {l : List (Char ⊕ List Char)} :
    textOf args (x :: l) =
      (pieceText args x).bind fun out => (textOf args l).map (out ++ ·) := by
  rw [textOf, List.mapM_cons]
  rcases pieceText args x with - | out
  · rfl
  · rw [textOf]
    rcases l.mapM (pieceText args) with - | outs
    · rfl
    · rfl

/-- Characters around a placeholder are kept around its text. -/
theorem textOf_around {path lead trail : List Char} :
    textOf args (lead.map .inl ++ .inr path :: trail.map .inl) =
      (referenced args path).map fun v => lead ++ (valueToText v ++ trail) := by
  induction lead with
  | nil =>
    have htrail : textOf args (trail.map .inl) = some trail := by
      induction trail with
      | nil => rfl
      | cons c trail ih => rw [List.map_cons, textOf_cons, ih]; rfl
    rw [List.map_nil, List.nil_append, textOf_cons, htrail, pieceText]
    rcases referenced args path with - | v
    · rfl
    · rfl
  | cons c lead ih =>
    rw [List.map_cons, List.cons_append, textOf_cons, ih]
    rcases referenced args path with - | v
    · rfl
    · rfl

/-- Where the first piece is a placeholder, the text starts with it. -/
theorem cut_cons {path : List Char} {l : List (Char ⊕ List Char)}
    (h : cut placeholder 0 s = .inr path :: l) :
    ∃ cs u w, s = '{' :: '{' :: cs ∧ splitOnce ['}', '}'] cs = some (u, w) ∧
      path = trim isWhitespace u ∧ l = cut placeholder 0 w := by
  by_cases hopen : ∃ cs, s = '{' :: '{' :: cs
  · obtain ⟨cs, rfl⟩ := hopen
    cases hsplit : splitOnce ['}', '}'] cs with
    | none =>
      have hno : placeholder ('{' :: '{' :: cs) = none := by
        rw [placeholder, hsplit, Option.map_none]
      simp [cut, hno] at h
    | some r =>
      obtain ⟨u, w⟩ := r
      rw [cut_open hsplit, List.cons.injEq, Sum.inr.injEq] at h
      exact ⟨cs, u, w, rfl, hsplit, h.1.symm, h.2.symm⟩
  · have hno : placeholder s = none := by
      rw [placeholder]
      exact fun cs h => hopen ⟨cs, h⟩
    rcases s with - | ⟨c, s⟩
    · simp [cut] at h
    · simp [cut, hno] at h

/-- The text between the outer braces. -/
theorem wholeTemplate_eq_some {long : List Char} : wholeTemplate s = some long ↔
    ∃ mid, s = '{' :: '{' :: (mid ++ ['}', '}']) ∧ ¬['{', '{'] <:+: trim isWhitespace mid ∧
      trim isWhitespace mid = long := by
  have hdrop {mid : List Char} :
      (('{' :: '{' :: (mid ++ ['}', '}'])).drop 2).rdrop 2 = mid := by
    simp [List.rdrop]
  rw [wholeTemplate]
  constructor
  · intro h
    obtain ⟨⟨⟨t, rfl⟩, hclose⟩, h⟩ := Option.ite_none_right_eq_some.1 h
    obtain ⟨mid, rfl⟩ : ['}', '}'] <:+ t := by simpa [List.suffix_cons_iff] using hclose
    rw [List.cons_append, List.cons_append, List.nil_append, hdrop] at h
    obtain ⟨hno, h⟩ := Option.ite_none_left_eq_some.1 h
    exact ⟨mid, rfl, hno, Option.some.inj h⟩
  · rintro ⟨mid, rfl, hno, rfl⟩
    rw [if_pos ⟨List.prefix_append ['{', '{'] _, List.suffix_append ('{' :: '{' :: mid) _⟩, hdrop]
    exact if_neg hno

theorem not_infix_append {v : List Char} (hw : ¬['{', '{'] <:+: w) (hv : '{' ∉ v) :
    ¬['{', '{'] <:+: w ++ v := by
  rcases v with - | ⟨c, v⟩
  · rwa [List.append_nil]
  · obtain ⟨hc, hv⟩ := not_or.1 (List.mem_cons.not.1 hv)
    rw [infix_append_cons (by simpa using Ne.symm hc)]
    rintro (h | h)
    · exact hw h
    · exact hv (h.subset List.mem_cons_self)

/-- What has braces in it has them when trimmed. -/
theorem infix_trim_braces : ['{', '{'] <:+: trim isWhitespace s ↔ ['{', '{'] <:+: s := by
  refine ⟨fun h => h.trans ?_, infix_trim (by decide)⟩
  have hinfix := List.infix_append (s.takeWhile isWhitespace) (trim isWhitespace s)
    ((s.dropWhile isWhitespace).rtakeWhile isWhitespace)
  rwa [List.append_assoc, append_trim_append] at hinfix

/-- Where the outer braces are taken for one placeholder, the text starts with one,
    and has no other. -/
theorem wholeTemplate_cut {long : List Char} (h : wholeTemplate s = some long) :
    ∃ cs u w, s = '{' :: '{' :: cs ∧ splitOnce ['}', '}'] cs = some (u, w) ∧
      ¬['{', '{'] <:+: w := by
  obtain ⟨mid, rfl, hno, -⟩ := wholeTemplate_eq_some.1 h
  cases hsplit : splitOnce ['}', '}'] (mid ++ ['}', '}']) with
  | none => exact absurd (List.suffix_append mid _).isInfix (splitOnce_eq_none_iff.1 hsplit)
  | some r =>
    obtain ⟨u, w⟩ := r
    refine ⟨_, u, w, rfl, hsplit, fun hw => ?_⟩
    have hin : ['{', '{'] <:+: mid ++ ['}', '}'] := by
      rw [eq_of_splitOnce hsplit, ← List.append_assoc]
      exact hw.trans (List.suffix_append _ w).isInfix
    exact not_infix_append (infix_trim_braces.not.1 hno) (by decide) hin

theorem cut_single {path : List Char} (h : cut placeholder 0 s = [.inr path]) :
    ∃ cs u, s = '{' :: '{' :: cs ∧ splitOnce ['}', '}'] cs = some (u, []) ∧
      path = trim isWhitespace u := by
  obtain ⟨cs, u, w, hs, hsplit, hpath, hw⟩ := cut_cons h
  rcases w with - | ⟨c, w⟩
  · exact ⟨cs, u, hs, hsplit, hpath⟩
  · cases hp : placeholder (c :: w) with
    | none => simp [cut, hp] at hw
    | some r => simp [cut, hp] at hw

/-- A text which is one placeholder is not taken for one if there are braces in its
    path. -/
theorem wholeTemplate_single {path : List Char} (h : cut placeholder 0 s = [.inr path]) :
    wholeTemplate s = if ['{', '{'] <:+: path then none else some path := by
  obtain ⟨cs, u, rfl, hsplit, rfl⟩ := cut_single h
  rw [eq_of_splitOnce hsplit, List.append_nil]
  split_ifs with hin
  · rw [← Option.not_isSome_iff_eq_none, Option.isSome_iff_exists]
    rintro ⟨long, hlong⟩
    obtain ⟨mid, hmid, hno, -⟩ := wholeTemplate_eq_some.1 hlong
    rw [List.cons.injEq, List.cons.injEq] at hmid
    exact hno (List.append_cancel_right hmid.2.2 ▸ hin)
  · exact wholeTemplate_eq_some.2 ⟨u, rfl, hin, rfl⟩

/-- In the template, spaces are around the pieces. -/
theorem cut_around {cs : List Char} (hs : trim isWhitespace s = '{' :: '{' :: cs)
    (hsplit : splitOnce ['}', '}'] cs = some (u, w)) (hw : ¬['{', '{'] <:+: w) :
    cut placeholder 0 s = (s.takeWhile isWhitespace).map .inl ++ .inr (trim isWhitespace u) ::
      (w ++ (s.dropWhile isWhitespace).rtakeWhile isWhitespace).map .inl := by
  have hlead : ∀ x, x <:+ s.takeWhile isWhitespace → x ≠ [] →
      placeholder (x ++ (trim isWhitespace s ++
        (s.dropWhile isWhitespace).rtakeWhile isWhitespace)) = none := by
    intro x hx hne
    obtain ⟨c, x, rfl⟩ := List.exists_cons_of_ne_nil hne
    have hc : isWhitespace c := List.mem_takeWhile_imp (hx.subset List.mem_cons_self)
    rw [placeholder]
    intro cs h
    rw [List.cons_append, List.cons.injEq] at h
    exact absurd (h.1 ▸ hc) (by decide)
  have htrail : '{' ∉ (s.dropWhile isWhitespace).rtakeWhile isWhitespace := fun h =>
    absurd (List.mem_rtakeWhile_imp h) (by decide)
  conv_lhs => rw [← append_trim_append isWhitespace s, cut_skip hlead, hs]
  rw [List.cons_append, List.cons_append, cut_open (splitOnce_append_right hsplit _),
    cut_plain (.inr (not_infix_append hw htrail))]

/-- The text, with the spaces of the template around. -/
def around (template t : List Char) : List Char :=
  template.takeWhile isWhitespace ++
    (t ++ (template.dropWhile isWhitespace).rtakeWhile isWhitespace)

theorem append_append_eq_self {v : List Char} : u ++ (t ++ v) = t ↔ u = [] ∧ v = [] := by
  constructor
  · intro h
    have hlen := congrArg List.length h
    rw [List.length_append, List.length_append] at hlen
    exact ⟨List.eq_nil_of_length_eq_zero (by omega), List.eq_nil_of_length_eq_zero (by omega)⟩
  · rintro ⟨rfl, rfl⟩
    rw [List.nil_append, List.append_nil]

theorem around_eq_self : around s t = t ↔ trim isWhitespace s = s := by
  have hs := append_trim_append isWhitespace s
  rw [around, append_append_eq_self]
  constructor
  · rintro ⟨hlead, htrail⟩
    rwa [hlead, htrail, List.nil_append, List.append_nil] at hs
  · intro h
    exact append_append_eq_self.1 (hs.trans h.symm)

theorem textOf_placeholder {cs : List Char} (hs : trim isWhitespace s = '{' :: '{' :: cs)
    (hsplit : splitOnce ['}', '}'] cs = some (u, w)) (hw : ¬['{', '{'] <:+: w) :
    textOf args (cut placeholder 0 s) = (referenced args (trim isWhitespace u)).map fun v =>
      around s (valueToText v ++ w) := by
  rw [cut_around hs hsplit hw, textOf_around]
  congr 1
  funext v
  rw [around, List.append_assoc]

theorem rendered_single {path : List Char}
    (h : cut placeholder 0 (trim isWhitespace s) = [.inr path]) :
    rendered args s = referenced args path := by
  rw [rendered, h]

theorem rendered_pieces (h : ∀ path, cut placeholder 0 (trim isWhitespace s) ≠ [.inr path]) :
    rendered args s =
      (textOf args (cut placeholder 0 s)).map fun out => .string (String.ofList out) := by
  rw [rendered]
  split
  · exact absurd ‹_› (h _)
  · rfl

/-- The two readings of a template are alike.

    They are not where the outer braces are taken for one placeholder, but the first
    one closes earlier (`whole`), nor where the template is a placeholder with braces
    in its path, which is not taken for one (`single`). -/
structure ReadsAlike (args : Value) (template : List Char) : Prop where
  whole : ∀ long path w, wholeTemplate (trim isWhitespace template) = some long →
    cut placeholder 0 (trim isWhitespace template) = .inr path :: w.map .inl → w ≠ [] →
    referenced args long = (referenced args path).map fun v =>
      .string (String.ofList (around template (valueToText v ++ w)))
  single : ∀ path v, cut placeholder 0 (trim isWhitespace template) = [.inr path] →
    ['{', '{'] <:+: path → referenced args path = some v →
    trim isWhitespace template = template ∧ ∃ t, v = .string t

theorem string_around {v : Value} : .string (String.ofList (around s (valueToText v))) = v ↔
    trim isWhitespace s = s ∧ ∃ t, v = .string t := by
  constructor
  · intro h
    obtain ⟨t, rfl⟩ : ∃ t, v = .string t := ⟨_, h.symm⟩
    rw [Value.string.injEq, valueToText] at h
    refine ⟨around_eq_self.1 (?_ : around s t.toList = t.toList), t, rfl⟩
    rw [← String.toList_ofList (l := around s t.toList), h]
  · rintro ⟨hs, t, rfl⟩
    rw [around_eq_self.2 hs, valueToText, String.ofList_toList]

theorem readsAlike_single {path : List Char}
    (h : cut placeholder 0 (trim isWhitespace s) = [.inr path]) :
    ReadsAlike args s ↔ (['{', '{'] <:+: path → ∀ v, referenced args path = some v →
      trim isWhitespace s = s ∧ ∃ t, v = .string t) := by
  constructor
  · exact fun hr hin v hv => hr.single path v h hin hv
  · intro hr
    refine ⟨fun _ path' w _ hw hne => ?_, fun path' v hpath' hin hv => ?_⟩
    · have hnil := (List.cons.inj (h.symm.trans hw)).2
      exact absurd (List.map_eq_nil_iff.1 hnil.symm) hne
    · obtain rfl : path = path' := by simpa using h.symm.trans hpath'
      exact hr hin v hv

theorem readsAlike_whole {long path : List Char}
    (hwhole : wholeTemplate (trim isWhitespace s) = some long)
    (h : cut placeholder 0 (trim isWhitespace s) = .inr path :: w.map .inl) (hne : w ≠ []) :
    ReadsAlike args s ↔ referenced args long = (referenced args path).map fun v =>
      .string (String.ofList (around s (valueToText v ++ w))) := by
  constructor
  · exact fun hr => hr.whole long path w hwhole h hne
  · intro hr
    refine ⟨fun long' path' w' hlong' hw' _ => ?_, fun path' _ hpath' => ?_⟩
    · obtain rfl := Option.some.inj (hwhole.symm.trans hlong')
      obtain ⟨hpath, hmap⟩ := List.cons.inj (h.symm.trans hw')
      obtain rfl := Sum.inr.inj hpath
      obtain rfl := List.map_injective_iff.2 Sum.inl_injective hmap
      exact hr
    · have hnil := (List.cons.inj (h.symm.trans hpath')).2
      exact absurd (List.map_eq_nil_iff.1 hnil) hne

/-- A template is rendered as it is documented where its two readings are alike. -/
theorem render_iff_readsAlike (template : List Char) (args : Value) :
    (render template args).map Except.toOption = .ok (rendered args template) ↔
      ReadsAlike args template := by
  rw [render_toOption, Except.ok.injEq]
  by_cases hone : ∃ path, cut placeholder 0 (trim isWhitespace template) = [.inr path]
  · obtain ⟨path, hpath⟩ := hone
    rw [readsAlike_single hpath, rendered_single hpath, wholeTemplate_single hpath]
    by_cases hin : ['{', '{'] <:+: path
    · -- The text of the value is given instead of the value.
      obtain ⟨cs, u, hs, hsplit, rfl⟩ := cut_single hpath
      rw [if_pos hin, textOf_placeholder hs hsplit (by simp)]
      rcases referenced args (trim isWhitespace u) with - | v
      · simp
      · simp [hin, string_around]
    · simp [hin]
  · have hmany : ∀ path, cut placeholder 0 (trim isWhitespace template) ≠ [.inr path] :=
      fun path h => hone ⟨path, h⟩
    rw [rendered_pieces hmany]
    cases hwhole : wholeTemplate (trim isWhitespace template) with
    | none => exact iff_of_true rfl ⟨fun _ _ _ hlong => absurd (hwhole.symm.trans hlong) (by simp),
        fun path _ h => absurd h (hmany path)⟩
    | some long =>
      -- The outer braces are those of a placeholder and of what follows it.
      obtain ⟨cs, u, w, hs, hsplit, hw⟩ := wholeTemplate_cut hwhole
      have hcut : cut placeholder 0 (trim isWhitespace template) =
          .inr (trim isWhitespace u) :: w.map .inl := by
        rw [hs, cut_open hsplit, cut_plain (.inr hw)]
      have hne : w ≠ [] := by
        rintro rfl
        exact hmany _ hcut
      rw [readsAlike_whole hwhole hcut hne, textOf_placeholder hs hsplit hw, Option.map_map]
      rfl

/-- A template that begins with neither spaces nor braces is rendered as a text with the
    same beginning. -/
theorem render_head {c : Char} {v : Value} (hc : c ≠ '{') (hspace : isWhitespace c = false)
    (h : render (c :: s) args = .ok (.ok v)) : ∃ t, v = .string (String.ofList (c :: t)) := by
  have hwhole : wholeTemplate (trim isWhitespace (c :: s)) = none := by
    rw [← Option.not_isSome_iff_eq_none, Option.isSome_iff_exists]
    rintro ⟨long, hlong⟩
    obtain ⟨mid, hmid, -⟩ := wholeTemplate_eq_some.1 hlong
    have hall := append_trim_append isWhitespace (c :: s)
    rw [List.takeWhile_cons_of_neg (by simp [hspace]), hmid] at hall
    exact hc (List.cons.inj hall).1.symm
  have hopen : placeholder (c :: s) = none := by
    rw [placeholder]
    exact fun cs h => hc (List.cons.inj h).1
  rw [render, hwhole, substituteInline_eq, inlineText_char hopen] at h
  rcases hs : inlineText args s with e | t
  · rw [hs] at h
    exact absurd (Except.ok.inj h) (by simp [Except.map])
  · rw [hs] at h
    exact ⟨t, (Except.ok.inj (Except.ok.inj h)).symm⟩

/-- A template of which the first placeholder closes before the last braces. -/
theorem render_two_closers :
    ¬(render "\x7b\x7bargs.a\x7d\x7d and \x7d\x7d".toList
          (.object [("a", .number (.int 1))])).map Except.toOption =
      .ok (rendered (.object [("a", .number (.int 1))])
        "\x7b\x7bargs.a\x7d\x7d and \x7d\x7d".toList) := by
  decide

/-! ## Trees -/

mutual

/-- The strings of a value are rendered, wherever they are. -/
def renderValue (args : Value) : Value → Except Loop.Fault (Except TemplateError Value)
  | .string s => render s.toList args
  | .array arr => (renderList args arr).map fun r => r.map .array
  | .object o => (renderFields args o).map fun r => r.map .object
  | other => .ok (.ok other)

def renderList (args : Value) : List Value → Except Loop.Fault (Except TemplateError (List Value))
  | [] => .ok (.ok [])
  | v :: vs => do
    match ← renderValue args v with
    | .error e => pure (.error e)
    | .ok out => pure ((← renderList args vs).map (out :: ·))

def renderFields (args : Value) :
    List (String × Value) → Except Loop.Fault (Except TemplateError (List (String × Value)))
  | [] => .ok (.ok [])
  | (k, v) :: fields => do
    match ← renderValue args v with
    | .error e => pure (.error e)
    | .ok out => pure ((← renderFields args fields).map ((k, out) :: ·))

end

mutual

/-- Where every string is rendered, the value is rendered as it is made. -/
theorem renderValue_ok {f : String → Value} :
    ∀ {v : Value}, (∀ s ∈ v.strings, render s.toList args = .ok (.ok (f s))) →
      renderValue args v = .ok (.ok (v.mapStrings f))
  | .null, _ | .bool _, _ | .number _, _ => rfl
  | .string s, h => h s (by simp [Value.strings])
  | .array arr, h => by
    rw [renderValue, renderList_ok (by simpa only [Value.strings] using h)]
    rfl
  | .object o, h => by
    rw [renderValue, renderFields_ok (by simpa only [Value.strings] using h)]
    rfl

theorem renderList_ok {f : String → Value} :
    ∀ {vs : List Value}, (∀ s ∈ Value.stringsList vs, render s.toList args = .ok (.ok (f s))) →
      renderList args vs = .ok (.ok (Value.mapStringsList f vs))
  | [], _ => rfl
  | v :: vs, h => by
    rw [renderList, renderValue_ok fun s hs => h s (by simp [Value.stringsList, hs]),
      renderList_ok fun s hs => h s (by simp [Value.stringsList, hs])]
    rfl

theorem renderFields_ok {f : String → Value} :
    ∀ {o : List (String × Value)},
      (∀ s ∈ Value.stringsFields o, render s.toList args = .ok (.ok (f s))) →
      renderFields args o = .ok (.ok (Value.mapStringsFields f o))
  | [], _ => rfl
  | (k, v) :: o, h => by
    rw [renderFields, renderValue_ok fun s hs => h s (by simp [Value.stringsFields, hs]),
      renderFields_ok fun s hs => h s (by simp [Value.stringsFields, hs])]
    rfl

end

end N3ur0n.Template
