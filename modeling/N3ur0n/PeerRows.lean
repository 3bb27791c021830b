import N3ur0n.Directory
import N3ur0n.Lib.Last

/-!
# The rows of the peers

The row of a peer has several writers, each of which knows a part of it: a refresh
writes the descriptor of the peer and its alias, a reverse announce the endpoint only.
They call `Directory.upsert` and `Directory.setAlias`, in any order.

* `lookup_writes`, `isSome_lookup_writes`: only the writes under an id matter for its row,
  which is there since the first upsert;
* `row_lastWritten`: every column holds the last value that was written of it, where an alias
  is set only once there is a row.
-/

namespace N3ur0n

open Last

/-- A write to the directory. -/
inductive PeerWrite
  | upsert (record : PeerRecord)
  | setAlias (id : String) (aliasName : Option String)

namespace PeerWrite

/-- The id of the row. -/
def id : PeerWrite → String
  | .upsert record => record.id
  | .setAlias id _ => id

def apply (d : Directory) : PeerWrite → Directory
  | .upsert record => d.upsert record
  | .setAlias id aliasName => d.setAlias id aliasName

/-- The directory after some writes. -/
def writes (ws : List PeerWrite) (d : Directory) : Directory := ws.foldl apply d

def isUpsert : PeerWrite → Bool
  | .upsert _ => true
  | .setAlias _ _ => false

/-- What a write knows of a column other than the alias. -/
def column {α : Type} (f : PeerRecord → Option α) : PeerWrite → Option α
  | .upsert record => f record
  | .setAlias _ _ => none

/-- The alias it writes, which may be none. -/
def aliasWrite : PeerWrite → Option (Option String)
  | .upsert record => record.aliasName.map some
  | .setAlias _ aliasName => some aliasName

/-- The writes from the first one that makes a row. -/
def sinceRow (ws : List PeerWrite) : List PeerWrite := ws.dropWhile (!·.isUpsert)

/-- The writes under an id. -/
def under (id : String) (ws : List PeerWrite) : List PeerWrite := ws.filter (·.id = id)

end PeerWrite

/-- The row holds what was written last of each of its columns. -/
structure LastWritten (ws : List PeerWrite) (row : PeerRecord) : Prop where
  endpoint : last (PeerWrite.column fun r => some r.endpoint) ws = some row.endpoint
  aliasName : row.aliasName = (last PeerWrite.aliasWrite (PeerWrite.sinceRow ws)).join
  lastSeen : row.lastSeen = last (PeerWrite.column (·.lastSeen)) ws
  tlsFingerprint : row.tlsFingerprint = last (PeerWrite.column (·.tlsFingerprint)) ws
  describeSelfCached : row.describeSelfCached = last (PeerWrite.column (·.describeSelfCached)) ws
  describeSelfFetchedAt :
    row.describeSelfFetchedAt = last (PeerWrite.column (·.describeSelfFetchedAt)) ws
  source : row.source = last (PeerWrite.column (·.source)) ws

/-- The cached descriptor and the time when it was fetched are written together. -/
def SetTogether (ws : List PeerWrite) : Prop :=
  ∀ record, .upsert record ∈ ws →
    record.describeSelfCached.isSome = record.describeSelfFetchedAt.isSome

/-- They come from the same call. -/
def SameUpsert (ws : List PeerWrite) (row : PeerRecord) : Prop :=
  ∃ record, .upsert record ∈ ws ∧ row.describeSelfCached = record.describeSelfCached ∧
    row.describeSelfFetchedAt = record.describeSelfFetchedAt

variable {ws : List PeerWrite} {d : Directory} {id : String} {row : PeerRecord}

namespace PeerWrite

/-- What a write makes of the row under its id. -/
def rowAfter : PeerWrite → Option PeerRecord → Option PeerRecord
  | .upsert record, none => some record
  | .upsert record, some old => some {
      id := record.id
      endpoint := record.endpoint
      aliasName := record.aliasName.or old.aliasName
      lastSeen := record.lastSeen.or old.lastSeen
      tlsFingerprint := record.tlsFingerprint.or old.tlsFingerprint
      describeSelfCached := record.describeSelfCached.or old.describeSelfCached
      describeSelfFetchedAt := record.describeSelfFetchedAt.or old.describeSelfFetchedAt
      source := record.source.or old.source }
  | .setAlias _ aliasName, old => old.map ({ · with aliasName })

theorem lookup_apply (w : PeerWrite) :
    (apply d w).lookup id = if w.id = id then w.rowAfter (d.lookup id) else d.lookup id := by
  split_ifs with h
  · subst h
    rcases w with record | ⟨id, a⟩
    · simp only [apply, Directory.upsert, PeerWrite.id]
      cases d.lookup record.id with
      | none => exact Finmap.lookup_insert _
      | some old => exact Finmap.lookup_insert _
    · exact (Finmap.lookup_modify _ _ _ _).trans (if_pos rfl)
  · rcases w with record | ⟨id', a⟩
    · exact Directory.lookup_upsert_ne d (Ne.symm h)
    · exact Directory.lookup_setAlias_ne d (Ne.symm h) a

/-- The row under an id depends on the writes under it only. -/
theorem lookup_writes :
    (writes ws d).lookup id = (under id ws).foldl (fun row w => w.rowAfter row) (d.lookup id) := by
  induction ws generalizing d with
  | nil => rfl
  | cons w ws ih =>
    rw [writes, List.foldl_cons, ← writes, ih, lookup_apply]
    by_cases h : w.id = id
    · have hunder : under id (w :: ws) = w :: under id ws := List.filter_cons_of_pos (by simp [h])
      rw [if_pos h, hunder, List.foldl_cons]
    · have hunder : under id (w :: ws) = under id ws := List.filter_cons_of_neg (by simp [h])
      rw [if_neg h, hunder]

/-- Before there is a row, an alias is not set. -/
theorem sinceRow_concat_of_none {w : PeerWrite} (h : ∀ v ∈ ws, v.isUpsert = false) :
    sinceRow (ws ++ [w]) = sinceRow [w] := by
  have hnil : ws.dropWhile (!·.isUpsert) = [] :=
    List.dropWhile_eq_nil_iff.2 fun v hv => by simp [h v hv]
  rw [sinceRow, List.dropWhile_append, hnil]
  rfl

theorem sinceRow_concat {w : PeerWrite} (h : ∃ v ∈ ws, v.isUpsert) :
    sinceRow (ws ++ [w]) = sinceRow ws ++ [w] := by
  obtain ⟨v, hv, hup⟩ := h
  have hne : ws.dropWhile (!·.isUpsert) ≠ [] := fun hnil => by
    have := List.dropWhile_eq_nil_iff.1 hnil v hv
    rw [hup] at this
    exact absurd this (by decide)
  rw [sinceRow, List.dropWhile_append, if_neg (by simpa using hne)]
  rfl

theorem last_column_eq_none {α : Type} {f : PeerRecord → Option α}
    (h : ∀ w ∈ ws, w.isUpsert = false) : last (column f) ws = none := by
  have hnil : ws.filterMap (column f) = [] := List.filterMap_eq_nil_iff.2 fun w hw => by
    rcases w with record | ⟨id, a⟩
    · exact absurd (h _ hw) (by simp [isUpsert])
    · rfl
  rw [last, hnil, List.getLast?_nil]

end PeerWrite

open PeerWrite

/-- The first upsert makes the row. -/
theorem lastWritten_first {record : PeerRecord} (h : ∀ w ∈ ws, w.isUpsert = false) :
    LastWritten (ws ++ [.upsert record]) record := by
  have hcolumn {α : Type} (f : PeerRecord → Option α) :
      last (column f) (ws ++ [.upsert record]) = f record := by
    rw [last_concat, last_column_eq_none h, Option.or_none, column]
  refine ⟨hcolumn _, ?_, (hcolumn _).symm, (hcolumn _).symm, (hcolumn _).symm, (hcolumn _).symm,
    (hcolumn _).symm⟩
  rw [sinceRow_concat_of_none h]
  change record.aliasName = (last aliasWrite ([] ++ [.upsert record])).join
  rw [last_concat, aliasWrite]
  cases record.aliasName with
  | none => rfl
  | some a => rfl

/-- One more write keeps what it does not know. -/
theorem LastWritten.rowAfter {w : PeerWrite} (hrow : LastWritten ws row)
    (hup : ∃ v ∈ ws, v.isUpsert) : ∃ row', w.rowAfter (some row) = some row' ∧
      LastWritten (ws ++ [w]) row' := by
  rcases w with record | ⟨id, a⟩
  · refine ⟨_, rfl, ?_, ?_, ?_, ?_, ?_, ?_, ?_⟩
    · rw [last_concat]
      rfl
    · rw [sinceRow_concat hup, last_concat, hrow.aliasName, aliasWrite]
      cases record.aliasName with
      | none => rfl
      | some a => rfl
    · rw [last_concat, hrow.lastSeen]
      rfl
    · rw [last_concat, hrow.tlsFingerprint]
      rfl
    · rw [last_concat, hrow.describeSelfCached]
      rfl
    · rw [last_concat, hrow.describeSelfFetchedAt]
      rfl
    · rw [last_concat, hrow.source]
      rfl
  · refine ⟨_, rfl, ?_, ?_, ?_, ?_, ?_, ?_, ?_⟩
    · rw [last_concat]
      exact hrow.endpoint
    · rw [sinceRow_concat hup, last_concat]
      rfl
    · rw [last_concat]
      exact hrow.lastSeen
    · rw [last_concat]
      exact hrow.tlsFingerprint
    · rw [last_concat]
      exact hrow.describeSelfCached
    · rw [last_concat]
      exact hrow.describeSelfFetchedAt
    · rw [last_concat]
      exact hrow.source

/-- What some writes make of a row that was not there. -/
def Written (ws : List PeerWrite) : Option PeerRecord → Prop
  | none => ∀ w ∈ ws, w.isUpsert = false
  | some row => (∃ w ∈ ws, w.isUpsert) ∧ LastWritten ws row

/-- One more write, before there is a row and after. -/
theorem Written.rowAfter {w : PeerWrite} {old : Option PeerRecord} (h : Written ws old) :
    Written (ws ++ [w]) (w.rowAfter old) := by
  rcases old with _ | old
  · rcases w with record | ⟨id, a⟩
    · exact ⟨⟨_, List.mem_append_right _ (List.mem_singleton_self _), rfl⟩, lastWritten_first h⟩
    · exact List.forall_mem_append.2 ⟨h, List.forall_mem_singleton.2 rfl⟩
  · obtain ⟨⟨v, hv, hup⟩, hrow⟩ := h
    obtain ⟨row', hafter, hrow'⟩ := hrow.rowAfter (w := w) ⟨v, hv, hup⟩
    rw [hafter]
    exact ⟨⟨v, List.mem_append_left _ hv, hup⟩, hrow'⟩

theorem written_foldl (ws : List PeerWrite) :
    Written ws (ws.foldl (fun row w => w.rowAfter row) none) := by
  induction ws using List.reverseRecOn with
  | nil => exact nofun
  | append_singleton ws w ih =>
    rw [List.foldl_concat]
    exact ih.rowAfter

theorem Written.isSome_iff {row : Option PeerRecord} (h : Written ws row) :
    row.isSome ↔ ∃ w ∈ ws, w.isUpsert := by
  rcases row with _ | row
  · refine iff_of_false Bool.false_ne_true fun ⟨w, hw, hup⟩ => ?_
    exact absurd ((h w hw).symm.trans hup) Bool.false_ne_true
  · exact iff_of_true rfl h.1

/-- A peer has a row since the first upsert. -/
theorem isSome_lookup_writes (h : d.lookup id = none) :
    ((writes ws d).lookup id).isSome ↔ ∃ w ∈ under id ws, w.isUpsert := by
  rw [lookup_writes, h]
  exact (written_foldl (under id ws)).isSome_iff

/-- A column is null only when no upsert knew it. -/
theorem column_eq_none {α : Type} {f : PeerRecord → Option α} {record : PeerRecord}
    (h : last (column f) ws = none) (hmem : .upsert record ∈ ws) : f record = none :=
  List.filterMap_eq_nil_iff.1 (List.getLast?_eq_none_iff.1 h) _ hmem

theorem sameUpsert_of_setTogether (hrow : LastWritten ws row) (hup : ∃ w ∈ ws, w.isUpsert)
    (h : SetTogether ws) : SameUpsert ws row := by
  have hsame : ∀ w ∈ ws, (column (·.describeSelfCached) w).isSome =
      (column (·.describeSelfFetchedAt) w).isSome := by
    intro w hw
    rcases w with record | ⟨id, a⟩
    · exact h record hw
    · rfl
  have hnone : last (column (·.describeSelfCached)) ws = none →
      last (column (·.describeSelfFetchedAt)) ws = none → SameUpsert ws row := by
    intro hcached hfetched
    obtain ⟨w, hw, hupsert⟩ := hup
    rcases w with record | ⟨id, a⟩
    · refine ⟨record, hw, ?_, ?_⟩
      · rw [hrow.describeSelfCached, hcached, column_eq_none hcached hw]
      · rw [hrow.describeSelfFetchedAt, hfetched, column_eq_none hfetched hw]
    · exact absurd hupsert Bool.false_ne_true
  rcases last_same hsame with ⟨hcached, hfetched⟩ | ⟨w, hw, hcached, hfetched⟩
  · exact hnone hcached hfetched
  · rcases w with record | ⟨id, a⟩
    · exact ⟨record, hw, hrow.describeSelfCached.trans hcached,
        hrow.describeSelfFetchedAt.trans hfetched⟩
    · exact hnone hcached hfetched

/-- Every column of a row holds the last value written of it, where an alias set before
    the row was there is lost, and the cached descriptor comes with its own time. -/
theorem row_lastWritten (h : d.lookup id = none) (hrow : (writes ws d).lookup id = some row) :
    LastWritten (under id ws) row ∧ (SetTogether (under id ws) → SameUpsert (under id ws) row) := by
  have hwritten := written_foldl (under id ws)
  rw [← h, ← lookup_writes, hrow] at hwritten
  exact ⟨hwritten.2, sameUpsert_of_setTogether hwritten.2 hwritten.1⟩

/-- A reverse announce, which knows the endpoint. -/
def announced (endpoint : String) : PeerRecord where
  id := "n3:a"
  endpoint := endpoint
  aliasName := none
  lastSeen := none
  tlsFingerprint := none
  describeSelfCached := none
  describeSelfFetchedAt := none
  source := none

theorem row_lastWritten_renamed :
    LastWritten [.upsert (announced "http://a"), .setAlias "n3:a" (some "toolbox"),
      .upsert (announced "http://b")] { announced "http://b" with aliasName := some "toolbox" } :=
  (@row_lastWritten [.upsert (announced "http://a"), .setAlias "n3:a" (some "toolbox"),
    .upsert (announced "http://b")] ∅ "n3:a" _ rfl (by decide)).1

/-- The alias of a row is the last that was written, with or without the row. -/
def AliasLast : Prop :=
  ∀ (ws : List PeerWrite) (row : PeerRecord), (writes ws ∅).lookup "n3:a" = some row →
    row.aliasName = (last aliasWrite (under "n3:a" ws)).join

/-- An alias that is set before the first upsert goes to no row. -/
theorem not_aliasLast : ¬ AliasLast := fun h =>
  absurd (h [.setAlias "n3:a" (some "toolbox"), .upsert (announced "http://a")]
    (announced "http://a") (by decide)) (by decide)

end N3ur0n
