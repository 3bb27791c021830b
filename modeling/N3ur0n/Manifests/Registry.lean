import N3ur0n.Lib.Rows
import N3ur0n.Manifests.Types

/-!
# The registry of capabilities

The capabilities of the node by name, each with its declaration and, when it
comes from a manifest, its binding to a backend. A registry is built from a list
of them, a later one replacing an earlier one of the same name.

* `get_insert`, `get_fromEntries`: the entry under a name;
* `get_enforceInstanceLobes`: the entries once the lobes that the instance does
  not declare are dropped from them.
-/

namespace N3ur0n

/-- A live backend. -/
inductive BackendInstance
  | openAI (cfg : OpenAICompatConfig)
  | http (cfg : HttpBaseConfig)
  | mcp (cfg : McpServerConfig)
  deriving DecidableEq

/-- What a capability is invoked with. -/
structure Binding where
  spec : BindingSpec
  backend : BackendInstance
  deriving DecidableEq

/-- The backend has to be of the kind that the binding requires. -/
def buildBinding (spec : BindingSpec) (backend : BackendInstance) : Except String Binding :=
  match spec, backend with
  | .prompt .., .openAI _ | .http .., .http _ | .mcp .., .mcp _ => .ok ⟨spec, backend⟩
  | .prompt name .., _ => .error
    s!"prompt binding requires an `openai_compat` backend; `{name}` is a different kind"
  | .http name .., _ => .error
    s!"http binding requires an `http_base` backend; `{name}` is a different kind"
  | .mcp name .., _ => .error
    s!"mcp binding requires an `mcp_server` backend; `{name}` is a different kind"

structure RegistryEntry where
  decl : CapabilityDescriptor
  binding : Option Binding
  deriving DecidableEq

def RegistryEntry.name (e : RegistryEntry) : String := e.decl.name

/-- The entries by name, in the order they are iterated. -/
structure CapabilityRegistry where
  entries : List RegistryEntry
  names_nodup : (entries.map (·.name)).Nodup

/-- The lobes of a capability that its instance does not declare. -/
def unclaimableLobes (capLobes instanceLobes : List String) : List String :=
  capLobes.filter (· ∉ instanceLobes)

/-- The declaration without these. -/
def CapabilityDescriptor.enforceLobes (decl : CapabilityDescriptor) (instanceLobes : List String) :
    CapabilityDescriptor :=
  { decl with lobeIds := decl.lobeIds.filter (· ∈ instanceLobes) }

def RegistryEntry.enforceLobes (e : RegistryEntry) (instanceLobes : List String) : RegistryEntry :=
  { e with decl := e.decl.enforceLobes instanceLobes }

@[simp] theorem RegistryEntry.name_enforceLobes {e : RegistryEntry} {lobes : List String} :
    (e.enforceLobes lobes).name = e.name := rfl

namespace CapabilityRegistry

def empty : CapabilityRegistry := ⟨[], List.nodup_nil⟩

variable (R : CapabilityRegistry)

/-- The entry under a name. -/
def get (name : String) : Option RegistryEntry := R.entries.find? fun e => e.name = name

/-- The entry replaces the one of the same name, or is added. -/
def insert (e : RegistryEntry) : CapabilityRegistry :=
  if h : e.name ∈ R.entries.map (·.name) then
    ⟨R.entries.map fun x => if x.name = e.name then e else x,
      Rows.nodup_update R.names_nodup fun x => by split <;> simp_all⟩
  else ⟨R.entries ++ [e], Rows.nodup_insert R.names_nodup h⟩

def fromEntries (entries : List RegistryEntry) : CapabilityRegistry := entries.foldl insert empty

/-- The declarations of a compile-time backend. -/
def fromDecls (decls : List CapabilityDescriptor) : CapabilityRegistry :=
  fromEntries (decls.map fun d => ⟨d, none⟩)

/-- The binding of a capability, if one was registered. -/
def bindingFor (name : String) : Option Binding := (R.get name).bind (·.binding)

/-- The declarations that the peers may see. -/
def publicDecls : List CapabilityDescriptor :=
  (R.entries.filter (·.decl.mode.isPublic)).map (·.decl)

/-- Every lobe that the instance does not declare is dropped. -/
def enforceInstanceLobes (instanceLobes : List String) : CapabilityRegistry :=
  ⟨R.entries.map (·.enforceLobes instanceLobes),
    Rows.nodup_update R.names_nodup fun _ => RegistryEntry.name_enforceLobes⟩

variable {R} {name : String} {e : RegistryEntry}

theorem get_eq_some : R.get name = some e ↔ e ∈ R.entries ∧ e.name = name :=
  Rows.find?_key (fun e : RegistryEntry => e.name) R.names_nodup

theorem get_eq_none : R.get name = none ↔ name ∉ R.entries.map (·.name) :=
  Rows.find?_key_eq_none

theorem name_of_get (h : R.get name = some e) : e.name = name := (get_eq_some.1 h).2

theorem get_insert : (R.insert e).get name = if name = e.name then some e else R.get name := by
  rw [insert]
  split
  · next h =>
    have hkey (x : RegistryEntry) : (if x.name = e.name then e else x).name = x.name := by
      split <;> simp_all
    rw [get, Rows.find?_update (fun e : RegistryEntry => e.name) hkey, ← get]
    cases hx : R.get name with
    | none =>
      have hne : name ≠ e.name := fun hn => get_eq_none.1 hx (hn ▸ h)
      exact (if_neg hne).symm
    | some x =>
      rw [Option.map_some, name_of_get hx]
      exact apply_ite some _ _ _
  · next h => rw [get, Rows.find?_insert (fun e : RegistryEntry => e.name) h, ← get]

theorem get_foldl_insert {l : List RegistryEntry} :
    (l.foldl insert R).get name = (l.reverse.find? (·.name = name)).or (R.get name) := by
  induction l generalizing R with
  | nil => rfl
  | cons x l ih =>
    rw [List.foldl_cons, ih, get_insert, List.reverse_cons, List.find?_append, Option.or_assoc]
    congr 1
    by_cases h : name = x.name
    · simp [h]
    · simp [h, eq_comm]

/-- The last entry of a name is kept. -/
theorem get_fromEntries {l : List RegistryEntry} :
    (fromEntries l).get name = l.reverse.find? (·.name = name) := by
  rw [fromEntries, get_foldl_insert]
  exact Option.or_none

theorem get_enforceInstanceLobes {lobes : List String} :
    (R.enforceInstanceLobes lobes).get name = (R.get name).map (·.enforceLobes lobes) :=
  Rows.find?_update (fun e : RegistryEntry => e.name) fun _ => RegistryEntry.name_enforceLobes

/-- The names under which there is an entry. -/
def Serves (R : CapabilityRegistry) (name : String) : Prop := (R.get name).isSome

instance : Decidable (R.Serves name) := inferInstanceAs (Decidable (_ = true))

theorem serves_enforceInstanceLobes {lobes : List String} :
    (R.enforceInstanceLobes lobes).Serves name ↔ R.Serves name := by
  rw [Serves, Serves, get_enforceInstanceLobes, Option.isSome_map]

theorem serves_fromEntries {l : List RegistryEntry} :
    (fromEntries l).Serves name ↔ ∃ e ∈ l, e.name = name := by
  rw [Serves, get_fromEntries]
  simp

end CapabilityRegistry

end N3ur0n
