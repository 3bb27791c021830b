import Mathlib.Data.Int.Notation
import Mathlib.Data.List.Basic
import N3ur0n.Lib.Text

/-!
# JSON values

The values of `serde_json`, as the node exchanges them: arguments and results
of capabilities, schemas, payloads. An object keeps its entries in the order of
`serde_json`'s map. A number is an integer, or a finite double given by the
shortest decimal text that reads back as it, which is how it is written.

* `Value.get`, `Value.render`: a field of an object, the compact text;
* `Value.strings`, `Value.mapStrings`: the strings of a value, in order, and
  the value with every one of them replaced. A replacement only depends on what
  it does to the strings of the value (`mapStrings_congr`).
-/

namespace N3ur0n

/-- A JSON number. -/
inductive Number
  | int (i : ℤ)
  | float (text : String)
  deriving DecidableEq

/-- A JSON value. -/
inductive Value
  | null
  | bool (b : Bool)
  | number (n : Number)
  | string (s : String)
  | array (xs : List Value)
  | object (fields : List (String × Value))

namespace Value

mutual

/-- Equality of values is decided structurally. -/
def decEq : (v w : Value) → Decidable (v = w)
  | .null, .null => isTrue rfl
  | .bool a, .bool b => decidable_of_iff (a = b) (by simp)
  | .number a, .number b => decidable_of_iff (a = b) (by simp)
  | .string a, .string b => decidable_of_iff (a = b) (by simp)
  | .array xs, .array ys =>
    @decidable_of_iff _ (xs = ys) (by simp) (decEqList xs ys)
  | .object fs, .object gs =>
    @decidable_of_iff _ (fs = gs) (by simp) (decEqFields fs gs)
  | .null, .bool _ | .null, .number _ | .null, .string _ | .null, .array _ | .null, .object _
  | .bool _, .null | .bool _, .number _ | .bool _, .string _ | .bool _, .array _
  | .bool _, .object _
  | .number _, .null | .number _, .bool _ | .number _, .string _ | .number _, .array _
  | .number _, .object _
  | .string _, .null | .string _, .bool _ | .string _, .number _ | .string _, .array _
  | .string _, .object _
  | .array _, .null | .array _, .bool _ | .array _, .number _ | .array _, .string _
  | .array _, .object _
  | .object _, .null | .object _, .bool _ | .object _, .number _ | .object _, .string _
  | .object _, .array _ => isFalse (by simp)

def decEqList : (xs ys : List Value) → Decidable (xs = ys)
  | [], [] => isTrue rfl
  | x :: xs, y :: ys =>
    @decidable_of_iff _ (x = y ∧ xs = ys) (by simp)
      (@instDecidableAnd _ _ (decEq x y) (decEqList xs ys))
  | [], _ :: _ | _ :: _, [] => isFalse (by simp)

def decEqFields : (fs gs : List (String × Value)) → Decidable (fs = gs)
  | [], [] => isTrue rfl
  | (k, x) :: fs, (l, y) :: gs =>
    @decidable_of_iff _ ((k = l ∧ x = y) ∧ fs = gs) (by simp)
      (@instDecidableAnd _ _ (@instDecidableAnd _ _ (inferInstance) (decEq x y))
        (decEqFields fs gs))
  | [], _ :: _ | _ :: _, [] => isFalse (by simp)

end

instance : DecidableEq Value := decEq

/-- The field `key` of an object. -/
def get (key : String) : Value → Option Value
  | .object fields => fields.lookup key
  | _ => none

/-- The text, if it is one. -/
def asStr : Value → Option String
  | .string s => some s
  | _ => none

/-! ## Text -/

/-- A hexadecimal digit, in lower case. -/
def hexDigit (n : ℕ) : Char :=
  if n < 10 then Char.ofNat (48 + n) else Char.ofNat (87 + n)

/-- A character inside a JSON string: quotes, backslashes and control characters
    are escaped, everything else is written as it is. -/
def escape (c : Char) : List Char :=
  match c.toNat with
  | 34 => ['\\', c]
  | 92 => ['\\', c]
  | 8 => ['\\', 'b']
  | 9 => ['\\', 't']
  | 10 => ['\\', 'n']
  | 12 => ['\\', 'f']
  | 13 => ['\\', 'r']
  | n => if n < 32 then ['\\', 'u', '0', '0', hexDigit (n / 16), hexDigit (n % 16)] else [c]

/-- A JSON string, between quotes. -/
def quote (s : String) : List Char :=
  Char.ofNat 34 :: s.toList.flatMap escape ++ [Char.ofNat 34]

def Number.render : Number → List Char
  | .int i => (toString i).toList
  | .float text => text.toList

mutual

/-- The compact JSON text of a value. -/
def render : Value → List Char
  | .null => "null".toList
  | .bool b => (if b then "true" else "false").toList
  | .number n => Number.render n
  | .string s => quote s
  | .array xs => '[' :: renderList xs ++ [']']
  | .object fs => '{' :: renderFields fs ++ ['}']

def renderList : List Value → List Char
  | [] => []
  | [x] => render x
  | x :: xs => render x ++ ',' :: renderList xs

def renderFields : List (String × Value) → List Char
  | [] => []
  | [(k, x)] => quote k ++ ':' :: render x
  | (k, x) :: fs => quote k ++ ':' :: render x ++ ',' :: renderFields fs

end

/-! ## Strings -/

mutual

/-- The strings of a value, in order (keys left out). -/
def strings : Value → List String
  | .string s => [s]
  | .array xs => stringsList xs
  | .object fs => stringsFields fs
  | _ => []

def stringsList : List Value → List String
  | [] => []
  | x :: xs => strings x ++ stringsList xs

def stringsFields : List (String × Value) → List String
  | [] => []
  | (_, x) :: fs => strings x ++ stringsFields fs

end

mutual

/-- The value with every string `s` replaced by the value `f s`. -/
def mapStrings (f : String → Value) : Value → Value
  | .string s => f s
  | .array xs => .array (mapStringsList f xs)
  | .object fs => .object (mapStringsFields f fs)
  | v => v

def mapStringsList (f : String → Value) : List Value → List Value
  | [] => []
  | x :: xs => mapStrings f x :: mapStringsList f xs

def mapStringsFields (f : String → Value) : List (String × Value) → List (String × Value)
  | [] => []
  | (k, x) :: fs => (k, mapStrings f x) :: mapStringsFields f fs

end

mutual

theorem mapStrings_congr {f g : String → Value} :
    ∀ {v : Value}, (∀ s ∈ strings v, f s = g s) → mapStrings f v = mapStrings g v
  | .null, _ | .bool _, _ | .number _, _ => rfl
  | .string s, h => h s (by simp [strings])
  | .array xs, h => by
    simp only [mapStrings]
    rw [mapStringsList_congr (by simpa only [strings] using h)]
  | .object fs, h => by
    simp only [mapStrings]
    rw [mapStringsFields_congr (by simpa only [strings] using h)]

theorem mapStringsList_congr {f g : String → Value} :
    ∀ {xs : List Value}, (∀ s ∈ stringsList xs, f s = g s) →
      mapStringsList f xs = mapStringsList g xs
  | [], _ => rfl
  | x :: xs, h => by
    simp only [mapStringsList]
    rw [mapStrings_congr fun s hs => h s (by simp [stringsList, hs]),
      mapStringsList_congr fun s hs => h s (by simp [stringsList, hs])]

theorem mapStringsFields_congr {f g : String → Value} :
    ∀ {fs : List (String × Value)}, (∀ s ∈ stringsFields fs, f s = g s) →
      mapStringsFields f fs = mapStringsFields g fs
  | [], _ => rfl
  | (k, x) :: fs, h => by
    simp only [mapStringsFields]
    rw [mapStrings_congr fun s hs => h s (by simp [stringsFields, hs]),
      mapStringsFields_congr fun s hs => h s (by simp [stringsFields, hs])]

end

/-! ## Addresses of blobs -/

mutual

/-- `strip_fetch_url`: the value without the address of a blob that has been fetched. -/
def stripFetchUrl (hash : String) : Value → Value
  | .object fields =>
    if (fields.lookup "hash").bind asStr = some hash then
      .object (fields.filter (·.1 ≠ "fetch_url"))
    else .object (stripFields hash fields)
  | .array xs => .array (stripList hash xs)
  | value => value

def stripList (hash : String) : List Value → List Value
  | [] => []
  | x :: xs => stripFetchUrl hash x :: stripList hash xs

def stripFields (hash : String) : List (String × Value) → List (String × Value)
  | [] => []
  | (k, x) :: fields => (k, stripFetchUrl hash x) :: stripFields hash fields

end

end Value

end N3ur0n
