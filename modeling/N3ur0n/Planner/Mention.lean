import N3ur0n.Lib.Cut
import N3ur0n.Planner.Reference

/-!
# Mentions

A message may say where it is to go: a *mention* `@type:value`, at the start of a
word, names a file, a peer, a lobe or a capability; that of a peer or a lobe may
go on with the name of a capability, after a slash. What is not of this form is
left to the text.

* `parseMentions`: the mentions of a message, in order;
* `MentionScope`: what they restrict a request to, kind by kind, each name once
  (`mem_peers`, `mem_lobes`, `mem_capabilities`).
-/

namespace N3ur0n

open Cut

/-- What is mentioned. -/
inductive MentionKind
  | file
  | peer
  | lobe
  | cap
  deriving DecidableEq

/-- The kind that is written before the colon. -/
def MentionKind.ofPrefix (s : List Char) : Option MentionKind :=
  match String.ofList s with
  | "file" => some .file
  | "peer" => some .peer
  | "lobe" => some .lobe
  | "cap" => some .cap
  | _ => none

/-- Only that of a peer or a lobe may have a capability. -/
structure Mention where
  kind : MentionKind
  entity : String
  capability : Option String
  descends : capability.isSome → kind = .peer ∨ kind = .lobe
  deriving DecidableEq

namespace Mention

/-- The mark around a value with spaces. -/
def quotation : Char := Char.ofNat 34

/-- What ends a sentence, and not a mention. -/
def trailingPunctuation : List Char := ".,;:!?)]\x7d".toList ++ [quotation, Char.ofNat 39]

/-- The value at the head of a text, with how many characters it covers: what is between
    two quotation marks, or what is before a space. -/
def readValue : List Char → Option (List Char × ℕ)
  | [] => some ([], 0)
  | c :: s =>
    if c = quotation then (upTo quotation s).map fun value => (value, value.length + 2)
    else
      let value := ((c :: s).takeWhile fun c => !isWhitespace c).rdropWhile
        fun c => c ∈ trailingPunctuation
      some (value, value.length)

/-- A slash separates an entity from a capability, except in files and capabilities. -/
def ofValue (kind : MentionKind) (value : List Char) : Option Mention :=
  let whole : Mention := ⟨kind, String.ofList value, none, fun h => nomatch h⟩
  if h : kind = .peer ∨ kind = .lobe then
    match splitOnce ['/'] value with
    | some ([], _) => none
    | some (entity, []) => some ⟨kind, String.ofList entity, none, fun h => nomatch h⟩
    | some (entity, cap) => some ⟨kind, String.ofList entity, some (String.ofList cap), fun _ => h⟩
    | none => some whole
  else some whole

/-- The mention whose `@` is before the text, with how many characters it covers. -/
def read (s : List Char) : Option (Mention × ℕ) := do
  let type ← upTo ':' s
  let kind ← MentionKind.ofPrefix type
  let (value, n) ← readValue (s.drop (type.length + 1))
  if value = [] then none else
    (ofValue kind value).map fun m => (m, type.length + 1 + n)

/-- Every character comes with whether a word may start there. -/
def token : List (Char × Bool) → Option (Mention × ℕ)
  | (c, opens) :: s => if c = '@' ∧ opens then read (s.map Prod.fst) else none
  | [] => none

end Mention

/-- The mentions of a text, where a word starts. -/
def parseMentions (text : String) : List Mention :=
  (cut Mention.token 0 (text.toList.zip (true :: text.toList.map isWhitespace))).filterMap
    (·.getRight?)

/-! ## What they restrict to -/

/-- A list without repetitions stays so. -/
def pushUnique (v : List String) (item : String) : List String :=
  if item ∈ v then v else v ++ [item]

theorem mem_pushUnique {v : List String} {item x : String} :
    x ∈ pushUnique v item ↔ x ∈ v ∨ x = item := by
  rw [pushUnique]
  split_ifs with h
  · exact ⟨.inl, fun hx => hx.elim id fun hx => hx ▸ h⟩
  · simp

/-- What a message asks to be restricted to. -/
structure MentionScope where
  peers : List String
  lobes : List String
  capabilities : List String
  files : List String

namespace MentionScope

def empty : MentionScope := ⟨[], [], [], []⟩

/-- Nothing is restricted: files are not looked at. -/
def isEmpty (scope : MentionScope) : Bool :=
  scope.peers.isEmpty ∧ scope.lobes.isEmpty ∧ scope.capabilities.isEmpty

/-- A mention of a peer or a lobe may add a capability too. -/
def push (scope : MentionScope) (m : Mention) : MentionScope :=
  let scope := match m.kind with
    | .file => { scope with files := pushUnique scope.files m.entity }
    | .peer => { scope with peers := pushUnique scope.peers m.entity }
    | .lobe => { scope with lobes := pushUnique scope.lobes m.entity }
    | .cap => { scope with capabilities := pushUnique scope.capabilities m.entity }
  match m.capability with
  | some cap => { scope with capabilities := pushUnique scope.capabilities cap }
  | none => scope

/-- The scope of some mentions, in their order. -/
def ofMentions (ms : List Mention) : MentionScope := ms.foldl push empty

def ofText (text : String) : MentionScope := ofMentions (parseMentions text)

end MentionScope

/-- The capability that a mention names, if it does. -/
def Mention.cap? (m : Mention) : Option String :=
  if m.kind = .cap then some m.entity else m.capability

namespace MentionScope

variable {scope : MentionScope} {m : Mention} {ms : List Mention} {x : String}

/-- The peers are those of the mentions of peers. -/
theorem mem_peers_push : x ∈ (scope.push m).peers ↔
    x ∈ scope.peers ∨ m.kind = .peer ∧ m.entity = x := by
  obtain ⟨kind, entity, capability, hcap⟩ := m
  rcases kind <;> rcases capability <;> simp [push, mem_pushUnique, eq_comm]

/-- The lobes are those of the mentions of lobes. -/
theorem mem_lobes_push : x ∈ (scope.push m).lobes ↔
    x ∈ scope.lobes ∨ m.kind = .lobe ∧ m.entity = x := by
  obtain ⟨kind, entity, capability, hcap⟩ := m
  rcases kind <;> rcases capability <;> simp [push, mem_pushUnique, eq_comm]

/-- The capabilities are those that are mentioned, alone or of a peer or a lobe. -/
theorem mem_capabilities_push : x ∈ (scope.push m).capabilities ↔
    x ∈ scope.capabilities ∨ m.cap? = some x := by
  obtain ⟨kind, entity, capability, hcap⟩ := m
  rcases capability with _ | cap
  · rcases kind <;> simp [push, mem_pushUnique, Mention.cap?, eq_comm]
  · rcases hcap rfl with rfl | rfl <;> simp [push, mem_pushUnique, Mention.cap?, eq_comm]

/-- What is collected from the mentions, one after the other. -/
theorem mem_foldl_push {f : MentionScope → List String} {p : Mention → Prop}
    (hpush : ∀ scope m, x ∈ f (push scope m) ↔ x ∈ f scope ∨ p m) :
    x ∈ f (ms.foldl push scope) ↔ x ∈ f scope ∨ ∃ m ∈ ms, p m := by
  induction ms generalizing scope with
  | nil => simp
  | cons m ms ih => rw [List.foldl_cons, ih, hpush, or_assoc, List.exists_mem_cons_iff]

/-- The peers of a scope. -/
theorem mem_peers : x ∈ (ofMentions ms).peers ↔ ∃ m ∈ ms, m.kind = .peer ∧ m.entity = x := by
  rw [ofMentions, mem_foldl_push (f := peers) fun _ _ => mem_peers_push]
  exact or_iff_right List.not_mem_nil

/-- Its lobes. -/
theorem mem_lobes : x ∈ (ofMentions ms).lobes ↔ ∃ m ∈ ms, m.kind = .lobe ∧ m.entity = x := by
  rw [ofMentions, mem_foldl_push (f := lobes) fun _ _ => mem_lobes_push]
  exact or_iff_right List.not_mem_nil

/-- Its capabilities. -/
theorem mem_capabilities : x ∈ (ofMentions ms).capabilities ↔ ∃ m ∈ ms, m.cap? = some x := by
  rw [ofMentions, mem_foldl_push (f := capabilities) fun _ _ => mem_capabilities_push]
  exact or_iff_right List.not_mem_nil

end MentionScope

end N3ur0n
