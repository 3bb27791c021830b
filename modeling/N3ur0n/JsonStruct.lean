import Mathlib.Data.List.ReduceOption
import N3ur0n.JsonText

/-!
# Structs in JSON texts

Where `serde_json` reads a struct, the fields that the struct does not have are gone
over without being read: their strings may have lone surrogates, their numbers may be
too large for a double, and they may be nested to any depth. A struct may also be
written as the array of its fields, in their order.

* `readShape`: what is read of a text with structs of known fields (`Shape`), as a value
  that only has these fields;
* `readsShape_struct`, `readsShape_list`: how such a text is read from its parts;
* `readShapeText_depth`: no value is nested deeper than the reader goes.
-/

namespace N3ur0n
namespace Json

/-! ## Values that are gone over -/

/-- What follows a backslash: the code unit of a `\u` need not be a character. -/
def skipEscape : List Char → Option (List Char)
  | [] => none
  | e :: cs =>
    if e = 'u' then (readUnit cs).map Prod.snd
    else if e = '/' ∨ (Toml.unescape e).isSome then some cs
    else none

/-- The characters of a string, after its opening quote. -/
def skipChars : ℕ → Reader Unit
  | 0, _ => none
  | _ + 1, [] => none
  | n + 1, c :: cs =>
    if c = quote then some ((), cs)
    else if c = '\\' then (skipEscape cs).bind fun cs => skipChars n cs
    else if c.toNat < 32 then none
    else skipChars n cs

/-- A key, a colon and a value. -/
def skipField (value : Reader Unit) (n : ℕ) (cs : List Char) : Option (Unit × List Char) :=
  match skipSpaces cs with
  | c :: cs =>
    if c = quote then do
      let ((), cs) ← skipChars n cs
      match skipSpaces cs with
      | c :: cs => if c = ':' then value cs else none
      | [] => none
    else none
  | [] => none

/-- `ignore_value`: no number is out of range, and no depth is too much. The bound is on
    the lengths of the parts, as it is for `readValue`. -/
def skipValue : ℕ → Reader Unit
  | 0, _ => none
  | n + 1, cs =>
    match skipSpaces cs with
    | [] => none
    | c :: cs =>
      if c = quote then skipChars n cs
      else if c = '[' then (readGroup ']' (skipValue n) n cs).map fun r => ((), r.2)
      else if c = '{' then (readGroup '}' (skipField (skipValue n) n) n cs).map fun r => ((), r.2)
      else (readScalar (numberOf some) (c :: cs)).map fun r => ((), r.2)

/-! ## Structs -/

/-- What is read: any value, a list, or a struct with its fields, in their order. -/
inductive Shape
  | any
  | list (item : Shape)
  | struct (fields : List (String × Shape))

/-- A key, a colon and a value, which is read if the key is that of a field. -/
def readNamed (field : String → Option (Reader Value)) (n : ℕ) (cs : List Char) :
    Option (Option (String × Value) × List Char) :=
  match skipSpaces cs with
  | c :: cs =>
    if c = quote then do
      let (k, cs) ← readString n cs
      match skipSpaces cs with
      | c :: cs =>
        if c = ':' then
          match field k with
          | some value => (value cs).map fun r => (some (k, r.1), r.2)
          | none => (skipValue n cs).map fun r => (none, r.2)
        else none
      | [] => none
    else none
  | [] => none

/-- Items that are read each in its own way, at least one, up to the bracket. -/
def readTupleItems : List (Reader Value) → Reader (List Value)
  | [], _ => none
  | item :: items, cs => do
    let (x, cs) ← item cs
    match skipSpaces cs with
    | c :: cs =>
      if c = ',' then consResult x (readTupleItems items cs)
      else if c = ']' then some ([x], cs)
      else none
    | [] => none

/-- The items of an array, after its bracket. The last ones may be missing. -/
def readTuple (items : List (Reader Value)) (cs : List Char) : Option (List Value × List Char) :=
  match skipSpaces cs with
  | c :: cs => if c = ']' then some ([], cs) else readTupleItems items (c :: cs)
  | [] => none

/-- A value of this shape. The structs are objects of the fields that they have, or
    arrays. -/
def readShape (num : List Char → Option Number) : ℕ → ℕ → Shape → Reader Value
  | 0, _, _, _ => none
  | n + 1, depth, .any, cs => readValue num (n + 1) depth cs
  | n + 1, depth, .list item, cs =>
    match skipSpaces cs with
    | [] => none
    | c :: cs =>
      if c = '[' then
        if depth = 0 then none
        else (readGroup ']' (readShape num n (depth - 1) item) n cs).map
          fun r => (.array r.1, r.2)
      else none
  | n + 1, depth, .struct fields, cs =>
    match skipSpaces cs with
    | [] => none
    | c :: cs =>
      if c = '{' then
        if depth = 0 then none
        else (readGroup '}' (readNamed (fun k =>
          (fields.lookup k).map (readShape num n (depth - 1))) n) n cs).map
            fun r => (.object r.1.reduceOption, r.2)
      else if c = '[' then
        if depth = 0 then none
        else (readTuple (fields.map fun f => readShape num n (depth - 1) f.2) cs).map
          fun r => (.array r.1, r.2)
      else none

/-- The value of a whole text. -/
def readShapeText (num : List Char → Option Number) (depth : ℕ) (shape : Shape)
    (text : List Char) : Option Value :=
  (readShape num (text.length + 1) depth shape text).bind fun r =>
    if skipSpaces r.2 = [] then some r.1 else none

/-! ## What a text is read as -/

/-- A value of a shape that is read as `r`, if it may be nested up to `depth`. -/
def ReadsShape (num : List Char → Option Number) (depth : ℕ) (shape : Shape) (text : List Char)
    (r : Option Value) : Prop :=
  Starts text ∧ ∀ n, text.length ≤ n → Reads (readShape num n depth shape) text r

/-- An entry that is read as `r`, where it is the one of a field. -/
def ReadsNamed (num : List Char → Option Number) (depth : ℕ) (fields : List (String × Shape))
    (text : List Char) (r : Option (String × Value)) : Prop :=
  Starts text ∧ ∀ n, text.length ≤ n → Reads (readNamed (fun k =>
    (fields.lookup k).map (readShape num n depth)) n) text (r.map some)

variable {num : List Char → Option Number} {n depth : ℕ} {shape : Shape}
  {fields : List (String × Shape)} {w w' t cs body : List Char} {c : Char} {r : Option Value}

theorem readShape_any : readShape num n depth .any = readValue num n depth := by
  rcases n with _ | n
  · rfl
  · rfl

theorem readsShape_any (h : ReadsValue num depth t r) : ReadsShape num depth .any t r :=
  ⟨h.1, fun n hn => readShape_any ▸ h.2 n hn⟩

theorem skipSpaces_readShape :
    readShape num n depth shape (skipSpaces cs) = readShape num n depth shape cs := by
  rcases n with _ | n
  · rfl
  · cases shape with
    | any => exact skipSpaces_readValue
    | list item => rw [readShape, readShape, skipSpaces_skipSpaces]
    | struct fields => rw [readShape, readShape, skipSpaces_skipSpaces]

theorem skipSpaces_readNamed {field : String → Option (Reader Value)} :
    readNamed field n (skipSpaces cs) = readNamed field n cs := by
  rw [readNamed, readNamed, skipSpaces_skipSpaces]

/-- Spaces around a value do not matter. -/
theorem ReadsShape.spaces (h : ReadsShape num depth shape t r) (hw : IsSpaces w)
    (hw' : IsSpaces w') : ReadsShape num depth shape (w ++ (t ++ w')) r := by
  refine ⟨(h.1.append_right w').append_left hw, fun n hn rest hrest => ?_⟩
  rw [List.length_append, List.length_append] at hn
  rw [List.append_assoc, ← skipSpaces_readShape, skipSpaces_append hw, skipSpaces_readShape]
  exact (h.2 n (by omega)).append_right hw' rest hrest

theorem ReadsNamed.spaces {r : Option (String × Value)} (h : ReadsNamed num depth fields t r)
    (hw : IsSpaces w) (hw' : IsSpaces w') :
    ReadsNamed num depth fields (w ++ (t ++ w')) r := by
  refine ⟨(h.1.append_right w').append_left hw, fun n hn rest hrest => ?_⟩
  rw [List.length_append, List.length_append] at hn
  rw [List.append_assoc, ← skipSpaces_readNamed, skipSpaces_append hw, skipSpaces_readNamed]
  exact (h.2 n (by omega)).append_right hw' rest hrest

/-- The entry of a field. -/
theorem readsNamed {k : String} (hk : ReadsString body (some k)) (hw : IsSpaces w)
    (hfield : fields.lookup k = some shape) (hv : ReadsShape num depth shape t r) :
    ReadsNamed num depth fields (quote :: (body ++ (w ++ ':' :: t))) (r.map (k, ·)) := by
  refine ⟨starts_cons rfl (by decide), fun n hn rest hrest => ?_⟩
  simp only [List.length_cons, List.length_append] at hn
  have htext : quote :: (body ++ (w ++ ':' :: t)) ++ rest =
      quote :: (body ++ (w ++ ':' :: (t ++ rest))) := by
    simp only [List.cons_append, List.append_assoc]
  rw [htext, readNamed, skipSpaces_cons rfl]
  simp only [if_true]
  rw [hk n (by omega)]
  simp only [Option.map_some, Option.bind_eq_bind, Option.bind_some, skipSpaces_append hw,
    skipSpaces_cons (show isSpace ':' = false from rfl), if_true, hfield]
  rcases (hv.2 n (by omega)).cases hrest with ⟨rfl, hread⟩ | ⟨v, cs, rfl, hread, hcs⟩
  · rw [hread]
    rfl
  · rw [hread, Option.map_some, Option.map_some, Prod.map, hcs]
    rfl

theorem readShape_bracket : readShape num (n + 1) (depth + 1) (.list shape) ('[' :: cs) =
    (readGroup ']' (readShape num n depth shape) n cs).map fun r => (.array r.1, r.2) := by
  rw [readShape, skipSpaces_cons rfl]
  exact (if_pos rfl).trans (if_neg (Nat.succ_ne_zero _))

theorem readShape_brace : readShape num (n + 1) (depth + 1) (.struct fields) ('{' :: cs) =
    (readGroup '}' (readNamed (fun k => (fields.lookup k).map (readShape num n depth)) n) n cs).map
      fun r => (.object r.1.reduceOption, r.2) := by
  rw [readShape, skipSpaces_cons rfl]
  exact (if_pos rfl).trans (if_neg (Nat.succ_ne_zero _))

variable {β : Type} {ys : List β} {txt : β → List Char} {val : β → Option Value}
  {field : β → Option (String × Value)}

theorem readsShape_list (hne : ys ≠ [])
    (h : ∀ y ∈ ys, ReadsShape num depth shape (txt y) (val y)) :
    ReadsShape num (depth + 1) (.list shape) ('[' :: commaJoin (ys.map txt) ++ [']'])
      ((ys.mapM val).map .array) := by
  refine ⟨starts_cons rfl (by decide), fun n hn rest _ => ?_⟩
  obtain ⟨hcount, hitems⟩ := length_commaJoin (starts_map fun y hy => (h y hy).1)
  rw [List.length_map] at hcount
  simp only [List.length_append, List.length_cons] at hn
  rcases n with _ | n
  · omega
  have hread : readGroup ']' (readShape num n depth shape) n
      (commaJoin (ys.map txt) ++ ']' :: rest) = (ys.mapM val).map (·, rest) := by
    refine readGroup_commaJoin (Or.inl rfl) hne (fun _ => skipSpaces_readShape)
      (fun y hy => (h y hy).1) (fun y hy => (h y hy).2 n ?_) (by omega)
    have := hitems _ (List.mem_map_of_mem hy)
    omega
  rw [List.append_assoc, List.singleton_append, List.cons_append, readShape_bracket, hread]
  rcases ys.mapM val with _ | vs
  · rfl
  · rfl

theorem readsShape_list_nil (hw : IsSpaces w) :
    ReadsShape num (depth + 1) (.list shape) ('[' :: (w ++ [']'])) (some (.array [])) := by
  refine ⟨starts_cons rfl (by decide), fun n hn rest _ => ?_⟩
  rcases n with _ | n
  · exact absurd hn (Nat.not_succ_le_zero _)
  rw [List.cons_append, List.append_assoc, List.singleton_append, readShape_bracket,
    readGroup_nil (Or.inl rfl) hw]
  rfl

theorem mapM_map_some {α : Type} {f : β → Option α} :
    (ys.mapM fun y => (f y).map some) = (ys.mapM f).map (List.map some) := by
  induction ys with
  | nil => rfl
  | cons y ys ih =>
    rw [List.mapM_cons, List.mapM_cons, ih]
    cases f y with
    | none => rfl
    | some a =>
      cases ys.mapM f with
      | none => rfl
      | some as => rfl

/-- An object of which all entries are those of fields. -/
theorem readsShape_struct (hne : ys ≠ [])
    (h : ∀ y ∈ ys, ReadsNamed num depth fields (txt y) (field y)) :
    ReadsShape num (depth + 1) (.struct fields) ('{' :: commaJoin (ys.map txt) ++ ['}'])
      ((ys.mapM field).map .object) := by
  refine ⟨starts_cons rfl (by decide), fun n hn rest _ => ?_⟩
  obtain ⟨hcount, hitems⟩ := length_commaJoin (starts_map fun y hy => (h y hy).1)
  rw [List.length_map] at hcount
  simp only [List.length_append, List.length_cons] at hn
  rcases n with _ | n
  · omega
  have hread : readGroup '}' (readNamed (fun k => (fields.lookup k).map (readShape num n depth)) n) n
      (commaJoin (ys.map txt) ++ '}' :: rest) =
        ((ys.mapM field).map (List.map some)).map (·, rest) := by
    rw [← mapM_map_some]
    refine readGroup_commaJoin (Or.inr rfl) hne (fun _ => skipSpaces_readNamed)
      (fun y hy => (h y hy).1) (fun y hy => (h y hy).2 n ?_) (by omega)
    have := hitems _ (List.mem_map_of_mem hy)
    omega
  rw [List.append_assoc, List.singleton_append, List.cons_append, readShape_brace, hread]
  rcases ys.mapM field with _ | vs
  · rfl
  · simp [List.reduceOption]

/-- No list or struct is read beyond the limit. -/
theorem readsShape_zero (hshape : shape ≠ .any) (hc : c = '[' ∨ c = '{') :
    ReadsShape num 0 shape (c :: cs) none := by
  have hspec : isSpace c = false ∧ c ≠ ']' ∧ c ≠ '}' := by
    rcases hc with rfl | rfl
    · decide
    · decide
  refine ⟨starts_cons hspec.1 hspec.2, fun n hn rest _ => ?_⟩
  rcases n with _ | n
  · exact absurd hn (Nat.not_succ_le_zero _)
  have hnone : readShape num (n + 1) 0 shape (c :: (cs ++ rest)) = none := by
    cases shape with
    | any => exact absurd rfl hshape
    | list item => simp [readShape, skipSpaces_cons hspec.1]
    | struct fields => simp [readShape, skipSpaces_cons hspec.1]
  rw [List.cons_append, hnone]
  rfl

theorem readShapeText_of_reads {text : List Char} (h : ReadsShape num depth shape text r) :
    readShapeText num depth shape text = r :=
  bind_of_reads (h.2 (text.length + 1) (Nat.le_succ _))

/-! ## Depth -/

theorem readNamed_eq_some {field : String → Option (Reader Value)}
    {s : Option (String × Value) × List Char} (h : readNamed field n cs = some s) :
    ∀ x ∈ s.1, ∃ value ∈ field x.1, ∃ cs rest, value cs = some (x.2, rest) := by
  rw [readNamed] at h
  split at h
  · split_ifs at h
    obtain ⟨⟨k, cs₁⟩, -, hrest⟩ := Option.bind_eq_some_iff.1 h
    simp only at hrest
    split at hrest
    · split_ifs at hrest
      split at hrest
      · rename_i value hvalue
        obtain ⟨⟨v, rest⟩, hv, rfl⟩ := Option.map_eq_some_iff.1 hrest
        intro x hx
        obtain rfl := Option.some.inj hx
        exact ⟨value, hvalue, _, rest, hv⟩
      · obtain ⟨-, -, rfl⟩ := Option.map_eq_some_iff.1 hrest
        exact fun x hx => absurd hx (by simp)
    · exact absurd hrest (by simp)
  · exact absurd h (by simp)

theorem forall_mem_readTupleItems {P : Value → Prop} {items : List (Reader Value)}
    (h : ∀ item ∈ items, ∀ cs s, item cs = some s → P s.1) {s : List Value × List Char}
    (hs : readTupleItems items cs = some s) : ∀ v ∈ s.1, P v := by
  induction items generalizing cs s with
  | nil => exact absurd hs (by simp [readTupleItems])
  | cons item items ih =>
    obtain ⟨hitem, hitems⟩ := List.forall_mem_cons.1 h
    obtain ⟨⟨x, cs₁⟩, hx, hrest⟩ := Option.bind_eq_some_iff.1 hs
    have hx : P x := hitem _ _ hx
    simp only at hrest
    split at hrest
    · split_ifs at hrest
      · exact forall_mem_consResult hrest hx fun t ht => ih hitems ht
      · obtain rfl := Option.some.inj hrest
        simpa using hx
    · exact absurd hrest (by simp)

theorem forall_mem_readTuple {P : Value → Prop} {items : List (Reader Value)}
    (h : ∀ item ∈ items, ∀ cs s, item cs = some s → P s.1) {s : List Value × List Char}
    (hs : readTuple items cs = some s) : ∀ v ∈ s.1, P v := by
  rw [readTuple] at hs
  split at hs
  · split_ifs at hs
    · obtain rfl := Option.some.inj hs
      exact fun v hv => absurd hv List.not_mem_nil
    · exact forall_mem_readTupleItems h hs
  · exact absurd hs (by simp)

/-- A value is not nested deeper than the reader goes. -/
theorem readShape_depth {s : Value × List Char} (h : readShape num n depth shape cs = some s) :
    s.1.depth ≤ depth := by
  induction n generalizing depth shape cs s with
  | zero => exact absurd h (by simp [readShape])
  | succ n ih =>
    cases shape with
    | any => exact readValue_depth h
    | list item =>
      rw [readShape] at h
      split at h
      · exact absurd h (by simp)
      · split_ifs at h with hbracket hzero
        obtain ⟨s, hs, rfl⟩ := Option.map_eq_some_iff.1 h
        have hitems := forall_mem_readGroup (P := fun v => v.depth ≤ depth - 1)
          (fun _ _ hr => ih hr) hs
        have hle := Value.depthList_le.2 hitems
        rw [Value.depth]
        omega
    | struct fields =>
      rw [readShape] at h
      split at h
      · exact absurd h (by simp)
      · split_ifs at h with hbrace hzero hbracket hzero
        -- an object: the fields that are known, the others having been skipped
        · obtain ⟨s, hs, rfl⟩ := Option.map_eq_some_iff.1 h
          have hitems := forall_mem_readGroup (P := fun x => ∀ f ∈ x, f.2.depth ≤ depth - 1)
            (fun cs s hs f hf => by
              obtain ⟨value, hvalue, cs', rest, hv⟩ := readNamed_eq_some hs f hf
              obtain ⟨shape, -, rfl⟩ := Option.map_eq_some_iff.1 hvalue
              exact ih hv) hs
          have hle : Value.depthFields s.1.reduceOption ≤ depth - 1 :=
            Value.depthFields_le.2 fun f hf =>
              hitems (some f) (List.reduceOption_mem_iff.1 hf) f rfl
          rw [Value.depth]
          omega
        -- an array: the fields in order
        · obtain ⟨s, hs, rfl⟩ := Option.map_eq_some_iff.1 h
          have hitems := forall_mem_readTuple (P := fun v => v.depth ≤ depth - 1)
            (fun item hitem cs s hs => by
              obtain ⟨f, -, rfl⟩ := List.mem_map.1 hitem
              exact ih hs) hs
          have hle := Value.depthList_le.2 hitems
          rw [Value.depth]
          omega

theorem readShapeText_depth {text : List Char} {v : Value}
    (h : readShapeText num depth shape text = some v) : v.depth ≤ depth := by
  obtain ⟨s, hs, hv⟩ := Option.bind_eq_some_iff.1 h
  split_ifs at hv
  obtain rfl := Option.some.inj hv
  exact readShape_depth hs

end Json

/-! ## What is written -/

namespace Value

open Json

variable {num : List Char → Option Number} {limit : ℕ} {shape : Shape}
  {fields : List (String × Shape)}

/-- A list is read where it is written, if its items are. -/
theorem readsShape_renderList {xs : List Value}
    (h : ∀ x ∈ xs, ReadsShape num limit shape x.render (within limit x)) :
    ReadsShape num (limit + 1) (.list shape) (array xs).render (within (limit + 1) (array xs)) := by
  by_cases hne : xs = []
  · subst hne
    exact readsShape_list_nil (w := []) fun c hc => absurd hc List.not_mem_nil
  · have hread := readsShape_list hne h
    rw [mapM_within, ← renderList_eq] at hread
    exact hread

/-- An object of known fields is read where it is written, if its values are. -/
theorem readsShape_renderFields {fs : List (String × Value)} (hne : fs ≠ [])
    (h : ∀ x ∈ fs, ∃ shape, fields.lookup x.1 = some shape ∧
      ReadsShape num limit shape x.2.render (within limit x.2)) :
    ReadsShape num (limit + 1) (.struct fields) (object fs).render
      (within (limit + 1) (object fs)) := by
  have hfields : ∀ x ∈ fs, ReadsNamed num limit fields (renderField x) (fieldWithin limit x) := by
    intro x hx
    obtain ⟨shape, hshape, hread⟩ := h x hx
    have hnamed := readsNamed (readsString_escaped x.1) (w := [])
      (fun c hc => absurd hc List.not_mem_nil) hshape hread
    have hresult : (within limit x.2).map (x.1, ·) = fieldWithin limit x := by
      rw [within, fieldWithin]
      split
      · rfl
      · rfl
    rw [List.nil_append, hresult] at hnamed
    exact hnamed
  have hread := readsShape_struct hne hfields
  rw [mapM_fieldWithin, ← renderFields_eq] at hread
  exact hread

end Value

end N3ur0n
