import Mathlib.Data.List.Sort
import Mathlib.Data.String.Basic
import N3ur0n.Lib.Toml.Document
import N3ur0n.Manifests.Types

/-!
# Manifests as TOML documents

The text of a manifest is parsed as TOML, and its sections are read from the
tables of the document: fields that are missing, or of another type, make an
error; fields that are not known are passed over. Where a section has free
fields, the TOML in it becomes JSON (`TomlParser.toValue`).

A record is read from a table (one given by the order of its fields, as an
array, is left out).
-/

namespace N3ur0n

/-- What reading a document takes from libraries: the TOML of a text, and the
    shortest decimal text of the double that a number stands for. -/
structure TomlParser where
  parse : String → Except String Toml
  shortest : String → String

/-- The entries of an object, in the order of the keys. -/
def sortFields (fields : List (String × Value)) : List (String × Value) :=
  fields.insertionSort fun a b => a.1 ≤ b.1

theorem sortFields_perm (fields : List (String × Value)) : (sortFields fields).Perm fields :=
  List.perm_insertionSort _ _

/-- What is looked up in distinct keys does not depend on their order. -/
theorem lookup_eq_of_perm {α : Type} {l l' : List (String × α)} (h : l.Perm l')
    (hn : (l.map Prod.fst).Nodup) {k : String} : l.lookup k = l'.lookup k := by
  induction h with
  | nil => rfl
  | cons x h ih =>
    rw [List.map_cons, List.nodup_cons] at hn
    rw [List.lookup_cons, List.lookup_cons, ih hn.2]
  | swap x y l =>
    rw [List.map_cons, List.map_cons, List.nodup_cons, List.mem_cons, not_or] at hn
    have hne : y.1 ≠ x.1 := hn.1.1
    rw [List.lookup_cons, List.lookup_cons, List.lookup_cons, List.lookup_cons]
    rcases hx : k == x.1 with _ | _
    · rfl
    · have hy : (k == y.1) = false := by
        rw [beq_iff_eq] at hx
        exact beq_false_of_ne fun hy => hne (hy ▸ hx)
      rw [hy]
  | trans h h' ih ih' => exact (ih hn).trans (ih' ((h.map _).nodup_iff.1 hn))

/-- The order of the entries does not matter to the fields. -/
theorem lookup_sortFields {fields : List (String × Value)} (hn : (fields.map Prod.fst).Nodup)
    {k : String} : (sortFields fields).lookup k = fields.lookup k :=
  lookup_eq_of_perm (sortFields_perm fields) (((sortFields_perm fields).map _).nodup_iff.2 hn)

/-- Nor does the map that they are collected in. -/
theorem collect_eq_of_perm {l l' : List (String × String)} (h : l.Perm l')
    (hn : (l.map Prod.fst).Nodup) : Finmap.collect l = Finmap.collect l' := by
  refine Finmap.ext_lookup fun k => Option.ext fun v => ?_
  rw [Finmap.lookup_collect hn, Finmap.lookup_collect ((h.map _).nodup_iff.1 hn)]
  exact h.mem_iff

namespace TomlParser

variable (P : TomlParser)

mutual

/-- A document as a value. -/
def toValue : Toml → Value
  | .string s => .string s
  | .integer i => .number (.int i)
  | .float text => .number (.float (P.shortest text))
  | .boolean b => .bool b
  | .array xs => .array (toValues xs)
  | .table fields => .object (sortFields (toObject fields))

def toValues : List Toml → List Value
  | [] => []
  | x :: xs => toValue x :: toValues xs

def toObject : List (String × Toml) → List (String × Value)
  | [] => []
  | (k, x) :: fields => (k, toValue x) :: toObject fields

end

theorem toValues_eq_map {xs : List Toml} : P.toValues xs = xs.map P.toValue := by
  induction xs with
  | nil => rfl
  | cons x xs ih => rw [toValues, ih, List.map_cons]

theorem toObject_eq_map {fields : List (String × Toml)} :
    P.toObject fields = fields.map fun x => (x.1, P.toValue x.2) := by
  induction fields with
  | nil => rfl
  | cons x fields ih => rw [toObject, ih, List.map_cons]

end TomlParser

namespace Document

/-! ## Fields -/

def table : Toml → Except String (List (String × Toml))
  | .table fields => .ok fields
  | _ => .error "invalid type"

def string : Toml → Except String String
  | .string s => .ok s
  | _ => .error "invalid type"

variable {α : Type}

def array (read : Toml → Except String α) : Toml → Except String (List α)
  | .array xs => xs.mapM read
  | _ => .error "invalid type"

/-- A field that has to be there. -/
def required (k : String) (read : Toml → Except String α) (fields : List (String × Toml)) :
    Except String α :=
  match fields.lookup k with
  | some v => read v
  | none => .error s!"missing field `{k}`"

/-- A field that may be missing. -/
def optional (k : String) (read : Toml → Except String α) (fields : List (String × Toml)) :
    Except String (Option α) :=
  match fields.lookup k with
  | some v => (read v).map some
  | none => .ok none

/-- A field that stands for `default` when it is missing. -/
def withDefault (k : String) (read : Toml → Except String α) (default : α)
    (fields : List (String × Toml)) : Except String α :=
  (optional k read fields).map (·.getD default)

end Document

end N3ur0n
