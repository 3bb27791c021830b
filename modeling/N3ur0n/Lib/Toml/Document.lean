import N3ur0n.Lib.Toml.Values

/-!
# TOML documents

A document is read line by line into *statements*, entries and headers; these
are grouped into *sections*, a header with its entries; and the sections are put
in their places in a tree of tables (`build`). Tables that are written as values
are closed: no header extends them.

* `ReadsLines`: what the statements of some lines are, whatever lines follow;
* `read_of_readsLines`: a document is read as the tables of its statements;
* `Conforms`: a parser reads what `read` reads, and rejects what it finds invalid.
-/

namespace Toml

inductive Statement
  | entry (k : String) (v : Toml)
  | header (path : List String)
  | item (path : List String)

/-! ## Lines -/

/-- The rest after the end of a line. -/
def endLine (cs : List Char) : Except Failure (List Char) :=
  match skipSpaces cs with
  | [] => .ok []
  | c :: cs => if c = '\n' then .ok cs else .error .unsupported

/-- Keys separated by points, up to the closing bracket. -/
def readPath : ℕ → Reader (List String)
  | 0, _ => .error .unsupported
  | n + 1, cs => do
    let (k, cs) ← readKey (skipSpaces cs)
    match skipSpaces cs with
    | c :: cs =>
      if c = '.' then consResult k (readPath n cs)
      else if c = ']' then .ok ([k], cs)
      else .error .unsupported
    | [] => .error .unsupported

/-- A header in double brackets, after the first two. -/
def readItem (n : ℕ) (cs : List Char) : Except Failure (Statement × List Char) := do
  let (path, cs) ← readPath n cs
  if cs.head? = some ']' then .ok (.item path, cs.tail) else .error .unsupported

def readStatement (n : ℕ) (cs : List Char) : Except Failure (Statement × List Char) :=
  if cs.head? = some '[' then
    if cs.tail.head? = some '[' then readItem n cs.tail.tail
    else (readPath n cs.tail).map fun r => (.header r.1, r.2)
  else (readEntry (readValue n) cs).map fun r => (.entry r.1.1 r.1.2, r.2)

/-- The statements of a document. The first argument has to exceed the length of
    the input. -/
def readLines : ℕ → List Char → Except Failure (List Statement)
  | 0, _ => .error .unsupported
  | n + 1, cs =>
    match skipSpaces cs with
    | [] => .ok []
    | c :: cs =>
      if c = '\n' then readLines n cs
      else do
        let (s, cs) ← readStatement n (c :: cs)
        let cs ← endLine cs
        (readLines n cs).map (s :: ·)

/-! ## Sections -/

/-- A header, of a table or of an item of an array, with its entries. -/
structure Section where
  path : List String
  isItem : Bool
  fields : List (String × Toml)

/-- The entries before the first header, and the sections. -/
def sections : List Statement → List (String × Toml) × List Section
  | [] => ([], [])
  | .entry k v :: ss => ((k, v) :: (sections ss).1, (sections ss).2)
  | .header path :: ss => ([], ⟨path, false, (sections ss).1⟩ :: (sections ss).2)
  | .item path :: ss => ([], ⟨path, true, (sections ss).1⟩ :: (sections ss).2)

/-- A tree of tables: values, tables with a header, and arrays of such. -/
inductive Node
  | value (v : Toml)
  | table (fields : List (String × Node))
  | tables (items : List (List (String × Toml)))

mutual

def Node.toToml : Node → Toml
  | .value v => v
  | .table fields => .table (toFields fields)
  | .tables items => .array (items.map .table)

def toFields : List (String × Node) → List (String × Toml)
  | [] => []
  | (k, v) :: fields => (k, v.toToml) :: toFields fields

end

/-- The entries of a table with a header. -/
def nodes (fields : List (String × Toml)) : List (String × Node) :=
  fields.map fun x => (x.1, .value x.2)

/-- What is under a key is replaced, or added at the end. -/
def alter (k : String) (f : Option Node → Except Failure Node) :
    List (String × Node) → Except Failure (List (String × Node))
  | [] => (f none).map fun v => [(k, v)]
  | x :: fields =>
    if x.1 = k then (f (some x.2)).map fun v => (k, v) :: fields
    else (alter k f fields).map (x :: ·)

/-- What is at a path is replaced, or added. -/
def place (leaf : Option Node → Except Failure Node) :
    List String → List (String × Node) → Except Failure (List (String × Node))
  | [], _ => .error .unsupported
  | k :: path, fields =>
    alter k (if path = [] then leaf else fun
      | none => (place leaf path []).map .table
      | some (.table fields) => (place leaf path fields).map .table
      | some _ => .error .unsupported) fields

/-- A section is the new table at its path, or the last item of the array. -/
def Section.leaf (s : Section) : Option Node → Except Failure Node
  | none => .ok (if s.isItem then .tables [s.fields] else .table (nodes s.fields))
  | some (.tables items) =>
    if s.isItem then .ok (.tables (items ++ [s.fields])) else .error .unsupported
  | some _ => .error .unsupported

def Section.place (s : Section) (fields : List (String × Node)) :
    Except Failure (List (String × Node)) :=
  if (s.fields.map Prod.fst).Nodup then Toml.place s.leaf s.path fields else .error .invalid

def placeAll : List Section → List (String × Node) → Except Failure (List (String × Node))
  | [], fields => .ok fields
  | s :: ss, fields => (s.place fields).bind (placeAll ss)

/-- The table of a document, from its statements. -/
def build (ss : List Statement) : Except Failure Toml :=
  if ((sections ss).1.map Prod.fst).Nodup then
    (placeAll (sections ss).2 (nodes (sections ss).1)).map fun fields => .table (toFields fields)
  else .error .invalid

def read (text : List Char) : Except Failure Toml := (readLines (text.length + 1) text).bind build

/-- A parser of TOML 1.0: it agrees with the reader, where this one reads. -/
structure Conforms (parse : String → Except String Toml) : Prop where
  of_ok : ∀ {text t}, read text.toList = .ok t → parse text = .ok t
  of_invalid : ∀ {text}, read text.toList = .error .invalid → ∃ e, parse text = .error e

/-! ## What lines are read as -/

/-- The statements of these lines, which are followed by others. -/
def ReadsLines (text : List Char) (r : Option (List Statement)) : Prop :=
  ∀ n rest, text.length + rest.length < n → ∃ m, rest.length < m ∧
    readLines n (text ++ rest) =
      r.elim (.error .invalid) fun ss => (readLines m rest).map (ss ++ ·)

/-- What some lines and the lines after them are read as. -/
def joinLines (r r' : Option (List Statement)) : Option (List Statement) :=
  r.bind fun ss => r'.map (ss ++ ·)

variable {t t' : List Char} {r r' : Option (List Statement)}

theorem readsLines_nil : ReadsLines [] (some []) := by
  intro n rest hn
  refine ⟨n, by simpa using hn, ?_⟩
  rw [List.nil_append]
  rcases readLines n rest with e | ss
  · rfl
  · rfl

theorem ReadsLines.append (h : ReadsLines t r) (h' : ReadsLines t' r') :
    ReadsLines (t ++ t') (joinLines r r') := by
  intro n rest hn
  rw [List.length_append, Nat.add_assoc, ← List.length_append] at hn
  obtain ⟨m, hm, hread⟩ := h n (t' ++ rest) hn
  rw [List.length_append] at hm
  obtain ⟨m', hm', hread'⟩ := h' m rest hm
  refine ⟨m', hm', ?_⟩
  rw [List.append_assoc, hread, hread', joinLines]
  rcases r with _ | ss
  · rfl
  rcases r' with _ | ss'
  · rfl
  rcases readLines m' rest with e | ss''
  · rfl
  · simp [Except.map]

/-- The statements of lines that are all alike. -/
theorem ReadsLines.flatMap {β : Type} {xs : List β} {txt : β → List Char}
    {out : β → Option (List Statement)} (h : ∀ x ∈ xs, ReadsLines (txt x) (out x)) :
    ReadsLines (xs.flatMap txt) ((xs.mapM out).map List.flatten) := by
  induction xs with
  | nil => exact readsLines_nil
  | cons x xs ih =>
    obtain ⟨hx, hxs⟩ := List.forall_mem_cons.1 h
    have hjoin : ((x :: xs).mapM out).map List.flatten =
        joinLines (out x) ((xs.mapM out).map List.flatten) := by
      rw [List.mapM_cons, joinLines]
      rcases out x with _ | ss
      · rfl
      rcases xs.mapM out with _ | sss
      · rfl
      · rfl
    rw [List.flatMap_cons, hjoin]
    exact hx.append (ih hxs)

theorem readsLines_blank : ReadsLines ['\n'] (some []) := by
  intro n rest hn
  rcases n with _ | n
  · omega
  rw [List.length_singleton] at hn
  refine ⟨n, by omega, ?_⟩
  have hskip : skipSpaces (['\n'] ++ rest) = '\n' :: rest := rfl
  rw [readLines.eq_def]
  simp only [hskip, if_true]
  rcases readLines n rest with e | ss
  · rfl
  · rfl

/-- A line with a statement. -/
theorem readsLines_statement {r : Option Statement} (hstarts : Starts t)
    (h : ∀ n rest, t.length ≤ n → readStatement n (t ++ '\n' :: rest) = outcome r ('\n' :: rest)) :
    ReadsLines (t ++ ['\n']) (r.map fun s => [s]) := by
  intro n rest hn
  rw [List.length_append, List.length_singleton] at hn
  rcases n with _ | n
  · omega
  refine ⟨n, by omega, ?_⟩
  have hskip := skipSpaces_of_starts hstarts ('\n' :: rest)
  obtain ⟨c, hc, -, -, -, hnewline, -⟩ := hstarts
  obtain ⟨cs, rfl⟩ := List.head?_eq_some_iff.1 hc
  have hread := h n rest (by omega)
  rw [List.append_assoc, List.singleton_append, readLines.eq_def]
  rw [List.cons_append] at hskip hread ⊢
  simp only [hskip, if_neg hnewline, hread]
  rcases r with _ | s
  · rfl
  · rfl

theorem readsLines_entry {r : Option (String × Toml)} (h : ReadsEntry t r) :
    ReadsLines (t ++ ['\n']) (r.map fun x => [.entry x.1 x.2]) := by
  obtain ⟨⟨hstarts, hbracket⟩, hread⟩ := h
  have hline := readsLines_statement (r := r.map fun x => .entry x.1 x.2) hstarts fun n rest hn => ?_
  · rw [Option.map_map] at hline
    exact hline
  · have hends : ValueEnds ('\n' :: rest) := by
      intro c hc
      rw [List.head?_cons, Option.mem_some_iff] at hc
      exact hc ▸ by decide
    have hhead : (t ++ '\n' :: rest).head? ≠ some '[' := by
      obtain ⟨c, hc, -⟩ := hstarts
      rw [List.head?_append, hc]
      rw [hc] at hbracket
      exact hbracket
    rw [readStatement, if_neg hhead, hread n hn _ hends]
    rcases r with _ | x
    · rfl
    · rfl

/-- The lines are read as `ss` if `p`, and are invalid otherwise. -/
def ReadsWhen (t : List Char) (p : Prop) (ss : List Statement) : Prop :=
  (p → ReadsLines t (some ss)) ∧ (¬p → ReadsLines t none)

section When

variable {p q : Prop} {ss ss' : List Statement}

/-- Lines that are read whatever holds. -/
theorem ReadsLines.when (h : ReadsLines t (some ss)) : ReadsWhen t True ss :=
  ⟨fun _ => h, fun hp => absurd trivial hp⟩

/-- Lines whose reading is decided. -/
theorem readsWhen_ite [Decidable p] (h : ReadsLines t (if p then some ss else none)) :
    ReadsWhen t p ss :=
  ⟨fun hp => (if_pos hp : ite p (some ss) none = _) ▸ h,
    fun hp => (if_neg hp : ite p (some ss) none = _) ▸ h⟩

theorem ReadsWhen.congr (h : ReadsWhen t p ss) (hpq : p ↔ q) : ReadsWhen t q ss :=
  ⟨fun hq => h.1 (hpq.2 hq), fun hq => h.2 fun hp => hq (hpq.1 hp)⟩

/-- Lines after lines are read if both are. -/
theorem ReadsWhen.append (h : ReadsWhen t p ss) (h' : ReadsWhen t' q ss') :
    ReadsWhen (t ++ t') (p ∧ q) (ss ++ ss') := by
  refine ⟨fun ⟨hp, hq⟩ => (h.1 hp).append (h'.1 hq), fun hnot => ?_⟩
  by_cases hp : p
  · exact (h.1 hp).append (h'.2 fun hq => hnot ⟨hp, hq⟩)
  · by_cases hq : q
    · exact (h.2 hp).append (h'.1 hq)
    · exact (h.2 hp).append (h'.2 hq)

/-- Lines that are all alike are read if each of them is. -/
theorem ReadsWhen.flatMap {β : Type} {xs : List β} {txt : β → List Char} {p : β → Prop}
    {out : β → List Statement} (h : ∀ x ∈ xs, ReadsWhen (txt x) (p x) (out x)) :
    ReadsWhen (xs.flatMap txt) (∀ x ∈ xs, p x) (xs.flatMap out) := by
  induction xs with
  | nil => exact readsLines_nil.when.congr (iff_of_true trivial (List.forall_mem_nil _))
  | cons x xs ih =>
    obtain ⟨hx, hxs⟩ := List.forall_mem_cons.1 h
    rw [List.flatMap_cons, List.flatMap_cons]
    exact (hx.append (ih hxs)).congr List.forall_mem_cons.symm

end When

/-! ### Headers -/

/-- Bare keys separated by points. -/
def pathText (path : List String) : List Char := ['.'].intercalate (path.map String.toList)

/-- A path that is written with bare keys. -/
def BarePath (path : List String) : Prop :=
  path ≠ [] ∧ ∀ k ∈ path, k ≠ "" ∧ ∀ c ∈ k.toList, isBareKeyChar c

instance (path : List String) : Decidable (BarePath path) := inferInstanceAs (Decidable (_ ∧ _))

theorem pathText_singleton {k : String} : pathText [k] = k.toList := List.intercalate_singleton

theorem pathText_cons_cons {k l : String} {path : List String} :
    pathText (k :: l :: path) = k.toList ++ '.' :: pathText (l :: path) := by
  rw [pathText, pathText, List.map_cons, List.map_cons, List.intercalate_cons_cons,
    List.append_assoc]
  rfl

theorem readKey_bare {k : String} (hk : k ≠ "" ∧ ∀ c ∈ k.toList, isBareKeyChar c) {rest : List Char}
    (hrest : KeyEnds rest) : readKey (skipSpaces (k.toList ++ rest)) = .ok (k, rest) := by
  obtain ⟨⟨hstarts, -⟩, hread⟩ := readsKey_bare hk.2 hk.1
  rw [skipSpaces_of_starts hstarts, hread rest hrest, outcome_some]

theorem readPath_bare {path : List String} (h : BarePath path) {n : ℕ} (hn : path.length ≤ n)
    (rest : List Char) : readPath n (pathText path ++ ']' :: rest) = .ok (path, rest) := by
  obtain ⟨hne, hkeys⟩ := h
  induction path generalizing n with
  | nil => exact absurd rfl hne
  | cons k path ih =>
    obtain ⟨hk, hpath⟩ := List.forall_mem_cons.1 hkeys
    rcases n with _ | n
    · exact absurd hn (Nat.not_succ_le_zero _)
    have hends : ∀ c cs, c = '.' ∨ c = ']' → KeyEnds (c :: cs) := by
      rintro c cs hc d hd
      rw [List.head?_cons, Option.mem_some_iff] at hd
      rcases hc with rfl | rfl
      · exact hd ▸ by decide
      · exact hd ▸ by decide
    rcases path with _ | ⟨l, path⟩
    · rw [pathText_singleton, readPath, readKey_bare hk (hends ']' rest (Or.inr rfl))]
      rfl
    · have ih' := ih (Nat.le_of_succ_le_succ hn) (List.cons_ne_nil _ _) hpath
      rw [pathText_cons_cons, List.append_assoc, List.cons_append, readPath,
        readKey_bare hk (hends '.' _ (Or.inl rfl))]
      change consResult k (readPath n _) = _
      rw [ih']
      rfl

theorem length_le_pathText {path : List String} (h : BarePath path) :
    path.length ≤ (pathText path).length := by
  obtain ⟨hne, hkeys⟩ := h
  induction path with
  | nil => exact Nat.zero_le _
  | cons k path ih =>
    obtain ⟨⟨hk, -⟩, hpath⟩ := List.forall_mem_cons.1 hkeys
    have hlength : 0 < k.toList.length :=
      List.length_pos_iff.2 fun h => hk (String.toList_inj.1 h)
    rcases path with _ | ⟨l, path⟩
    · rw [pathText_singleton]
      exact hlength
    · have ih' := ih (List.cons_ne_nil _ _) hpath
      rw [pathText_cons_cons]
      simp only [List.length_append, List.length_cons] at ih' ⊢
      omega

/-- A path does not start with a bracket. -/
theorem pathText_head {path : List String} (h : BarePath path) (rest : List Char) :
    (pathText path ++ rest).head? ≠ some '[' := by
  obtain ⟨hne, hkeys⟩ := h
  rcases path with _ | ⟨k, path⟩
  · exact absurd rfl hne
  · obtain ⟨hk, hchars⟩ := hkeys k List.mem_cons_self
    have hk' : k.toList ≠ [] := fun h => hk (String.toList_inj.1 h)
    rcases path with _ | ⟨l, path⟩
    · rw [pathText_singleton]
      exact (starts_bare hchars hk' _).2.1
    · rw [pathText_cons_cons, List.append_assoc]
      exact (starts_bare hchars hk' _).2.1

theorem starts_bracket {cs : List Char} : Starts ('[' :: cs) := ⟨'[', rfl, by decide⟩

theorem readsLines_header {path : List String} (h : BarePath path) :
    ReadsLines ('[' :: pathText path ++ [']', '\n']) (some [.header path]) := by
  have hlength := length_le_pathText h
  have hline := readsLines_statement (t := '[' :: pathText path ++ [']'])
    (r := some (.header path)) starts_bracket fun n rest hn => ?_
  · rw [List.append_assoc] at hline
    exact hline
  · rw [List.length_append, List.length_cons] at hn
    have htext : '[' :: pathText path ++ [']'] ++ '\n' :: rest =
        '[' :: (pathText path ++ ']' :: '\n' :: rest) := by
      simp only [List.cons_append, List.append_assoc, List.nil_append]
    rw [htext, readStatement, List.head?_cons, if_pos rfl, List.tail_cons,
      if_neg (pathText_head h _),
      readPath_bare h (by omega)]
    rfl

theorem readsLines_item {path : List String} (h : BarePath path) :
    ReadsLines ('[' :: '[' :: pathText path ++ [']', ']', '\n']) (some [.item path]) := by
  have hlength := length_le_pathText h
  have hline := readsLines_statement (t := '[' :: '[' :: pathText path ++ [']', ']'])
    (r := some (.item path)) starts_bracket fun n rest hn => ?_
  · rw [List.append_assoc] at hline
    exact hline
  · rw [List.length_append, List.length_cons, List.length_cons] at hn
    have htext : '[' :: '[' :: pathText path ++ [']', ']'] ++ '\n' :: rest =
        '[' :: '[' :: (pathText path ++ ']' :: ']' :: '\n' :: rest) := by
      simp only [List.cons_append, List.append_assoc, List.nil_append]
    rw [htext, readStatement, List.head?_cons, if_pos rfl, List.tail_cons, List.head?_cons,
      if_pos rfl, List.tail_cons, readItem,
      readPath_bare h (by omega)]
    rfl

/-! ### Documents -/

def entries (fields : List (String × Toml)) : List Statement := fields.map fun x => .entry x.1 x.2

/-- The statements of sections. -/
def ofSections (secs : List Section) : List Statement :=
  secs.flatMap fun s => (if s.isItem then .item s.path else .header s.path) :: entries s.fields

variable {fields fields' : List (String × Node)} {k l : String} {secs : List Section}

/-- A blank line in front of others. -/
theorem ReadsWhen.blank {p : Prop} {ss : List Statement} (h : ReadsWhen t p ss) :
    ReadsWhen ('\n' :: t) p ss :=
  (readsLines_blank.when.append h).congr ⟨And.right, And.intro trivial⟩

/-- A line with an entry. -/
theorem readsWhen_entry {p : Prop} [Decidable p] {v : Toml}
    (h : ReadsEntry t (if p then some (k, v) else none)) :
    ReadsWhen (t ++ ['\n']) p [.entry k v] := by
  have hline := readsLines_entry h
  refine readsWhen_ite ?_
  split_ifs at hline ⊢
  · exact hline
  · exact hline

/-- A header, and the entries after it. -/
theorem readsWhen_section {s : Section} {p : Prop}
    (h : ReadsLines t (some [if s.isItem then .item s.path else .header s.path]))
    (h' : ReadsWhen t' p (entries s.fields)) : ReadsWhen (t ++ t') p (ofSections [s]) := by
  have hsection := (h.when.append h').congr ⟨And.right, And.intro trivial⟩
  rw [ofSections, List.flatMap_singleton]
  exact hsection

/-- Sections after sections. -/
theorem ReadsWhen.sections {secs secs' : List Section} {p q : Prop}
    (h : ReadsWhen t p (ofSections secs)) (h' : ReadsWhen t' q (ofSections secs')) :
    ReadsWhen (t ++ t') (p ∧ q) (ofSections (secs ++ secs')) := by
  rw [ofSections, List.flatMap_append]
  exact h.append h'

theorem sections_entries {fs : List (String × Toml)} {ss : List Statement} :
    sections (entries fs ++ ss) = (fs ++ (sections ss).1, (sections ss).2) := by
  induction fs with
  | nil => rfl
  | cons x fs ih =>
    change sections (.entry x.1 x.2 :: (entries fs ++ ss)) = _
    rw [sections, ih]
    rfl

theorem sections_ofSections : sections (ofSections secs) = ([], secs) := by
  induction secs with
  | nil => rfl
  | cons s secs ih =>
    obtain ⟨path, isItem, fs⟩ := s
    change sections ((if isItem then .item path else .header path) :: (entries fs ++
      ofSections secs)) = _
    cases isItem with
    | true =>
      simp only [if_true]
      rw [sections, sections_entries, ih, List.append_nil]
    | false =>
      simp only [Bool.false_eq_true, if_false]
      rw [sections, sections_entries, ih, List.append_nil]

/-- A document of sections is the tree in which they are placed. -/
theorem build_ofSections :
    build (ofSections secs) = (placeAll secs []).map fun fields => .table (toFields fields) := by
  rw [build, sections_ofSections]
  exact if_pos List.nodup_nil

theorem alter_new {f : Option Node → Except Failure Node} (h : k ∉ fields.map Prod.fst) :
    alter k f fields = (f none).map fun v => fields ++ [(k, v)] := by
  induction fields with
  | nil => rfl
  | cons x fields ih =>
    rw [List.map_cons, List.mem_cons, not_or] at h
    rw [alter, if_neg fun hx => h.1 hx.symm, ih h.2]
    rcases f none with e | v
    · rfl
    · rfl

theorem alter_last {f : Option Node → Except Failure Node} {v : Node}
    (h : k ∉ fields.map Prod.fst) :
    alter k f (fields ++ [(k, v)]) = (f (some v)).map fun v => fields ++ [(k, v)] := by
  induction fields with
  | nil => exact if_pos rfl
  | cons x fields ih =>
    rw [List.map_cons, List.mem_cons, not_or] at h
    rw [List.cons_append, alter, if_neg fun hx => h.1 hx.symm, ih h.2]
    rcases f (some v) with e | v
    · rfl
    · rfl

/-- A table of its own. -/
theorem place_table {fs : List (String × Toml)} (hk : k ∉ fields.map Prod.fst)
    (hfs : (fs.map Prod.fst).Nodup) :
    Section.place ⟨[k], false, fs⟩ fields = .ok (fields ++ [(k, .table (nodes fs))]) := by
  rw [Section.place, if_pos hfs, place, alter_new hk]
  rfl

/-- A section below the last table goes on with what is in this one. -/
theorem place_below {isItem : Bool} {path : List String} {fs : List (String × Toml)}
    (hk : k ∉ fields.map Prod.fst) :
    Section.place ⟨k :: l :: path, isItem, fs⟩ (fields ++ [(k, .table fields')]) =
      (Section.place ⟨l :: path, isItem, fs⟩ fields').map fun fields' =>
        fields ++ [(k, .table fields')] := by
  have hleaf : Section.leaf ⟨k :: l :: path, isItem, fs⟩ = Section.leaf ⟨l :: path, isItem, fs⟩ := by
    funext o
    rcases o with _ | _ | _ | _
    all_goals rfl
  rw [Section.place, Section.place, hleaf]
  split
  · rw [place, alter_last hk, if_neg (List.cons_ne_nil _ _)]
    change ((place _ (l :: path) fields').map Node.table).map _ = _
    rcases place (Section.leaf ⟨l :: path, isItem, fs⟩) (l :: path) fields' with e | fields'
    · rfl
    · rfl
  · rfl

/-- The sections are placed one after the other. -/
theorem placeAll_cons {s : Section} (h : s.place fields = .ok fields') :
    placeAll (s :: secs) fields = placeAll secs fields' := by
  rw [placeAll, h]
  rfl

/-- A table below the last one. -/
theorem place_subtable {fs : List (String × Toml)} (hk : k ∉ fields.map Prod.fst)
    (hl : l ∉ fields'.map Prod.fst) (hfs : (fs.map Prod.fst).Nodup) :
    Section.place ⟨[k, l], false, fs⟩ (fields ++ [(k, .table fields')]) =
      .ok (fields ++ [(k, .table (fields' ++ [(l, .table (nodes fs))]))]) := by
  rw [place_below hk, place_table hl hfs]
  rfl

/-- The first item of an array of tables. -/
theorem place_item_new {fs : List (String × Toml)} (hk : k ∉ fields.map Prod.fst)
    (hfs : (fs.map Prod.fst).Nodup) :
    Section.place ⟨[k], true, fs⟩ fields = .ok (fields ++ [(k, .tables [fs])]) := by
  rw [Section.place, if_pos hfs, place, alter_new hk]
  rfl

/-- An item after the others. -/
theorem place_item {fs : List (String × Toml)} {items : List (List (String × Toml))}
    (hk : k ∉ fields.map Prod.fst) (hfs : (fs.map Prod.fst).Nodup) :
    Section.place ⟨[k], true, fs⟩ (fields ++ [(k, .tables items)]) =
      .ok (fields ++ [(k, .tables (items ++ [fs]))]) := by
  rw [Section.place, if_pos hfs, place, alter_last hk]
  rfl

/-- Items of an array below the last table, after those that are there. -/
theorem placeAll_tables {items done : List (List (String × Toml))} (hl : l ∉ fields.map Prod.fst)
    (hk : k ∉ fields'.map Prod.fst) (hitems : ∀ fs ∈ items, (fs.map Prod.fst).Nodup) :
    placeAll (items.map (fun fs => ⟨[l, k], true, fs⟩) ++ secs)
        (fields ++ [(l, .table (fields' ++ [(k, .tables done)]))]) =
      placeAll secs (fields ++ [(l, .table (fields' ++ [(k, .tables (done ++ items))]))]) := by
  induction items generalizing done with
  | nil => rw [List.map_nil, List.nil_append, List.append_nil]
  | cons fs items ih =>
    obtain ⟨hfs, hitems⟩ := List.forall_mem_cons.1 hitems
    rw [List.map_cons, List.cons_append, placeAll, place_below hl, place_item hk hfs]
    refine (ih hitems).trans ?_
    rw [List.append_assoc, List.singleton_append]

/-- The items of an array below the last table. -/
theorem placeAll_items {items : List (List (String × Toml))} (hl : l ∉ fields.map Prod.fst)
    (hk : k ∉ fields'.map Prod.fst) (hitems : ∀ fs ∈ items, (fs.map Prod.fst).Nodup)
    (hne : items ≠ []) :
    placeAll (items.map (fun fs => ⟨[l, k], true, fs⟩) ++ secs)
        (fields ++ [(l, .table fields')]) =
      placeAll secs (fields ++ [(l, .table (fields' ++ [(k, .tables items)]))]) := by
  rcases items with _ | ⟨fs, items⟩
  · exact absurd rfl hne
  · obtain ⟨hfs, hitems⟩ := List.forall_mem_cons.1 hitems
    rw [List.map_cons, List.cons_append, placeAll, place_below hl, place_item_new hk hfs]
    exact placeAll_tables hl hk hitems

theorem toFields_nodes {fs : List (String × Toml)} : toFields (nodes fs) = fs := by
  induction fs with
  | nil => rfl
  | cons x fs ih =>
    change (x.1, x.2) :: toFields (nodes fs) = _
    rw [ih]

/-- A table with a header has the keys of its entries. -/
theorem keys_nodes {fs : List (String × Toml)} : (nodes fs).map Prod.fst = fs.map Prod.fst := by
  rw [nodes, List.map_map]
  rfl

theorem toFields_append : toFields (fields ++ fields') = toFields fields ++ toFields fields' := by
  induction fields with
  | nil => rfl
  | cons x fields ih => rw [List.cons_append, toFields, toFields, ih, List.cons_append]

/-! ### Tables with optional fields -/

/-- The fields that there are. -/
def present (l : List (String × Option Toml)) : List (String × Toml) :=
  l.filterMap fun x => x.2.map (x.1, ·)

variable {l l' : List (String × Option Toml)}

theorem present_append : present (l ++ l') = present l ++ present l' := List.filterMap_append

theorem present_cons {o : Option Toml} :
    present ((k, o) :: l) = (o.map (k, ·)).toList ++ present l := by
  rw [present, List.filterMap_cons]
  rcases o with _ | v
  · rfl
  · rfl

/-- The fields that there are have some of the keys, in their order. -/
theorem keys_present : ((present l).map Prod.fst).Sublist (l.map Prod.fst) := by
  induction l with
  | nil => exact List.Sublist.refl _
  | cons x l ih =>
    obtain ⟨a, o⟩ := x
    rw [present_cons, List.map_cons]
    rcases o with _ | v
    · exact ih.cons a
    · exact ih.cons_cons a

theorem nodup_present (h : (l.map Prod.fst).Nodup) : ((present l).map Prod.fst).Nodup :=
  h.sublist keys_present

/-- What is found under a key is the field, if there is one. -/
theorem lookup_present (h : (l.map Prod.fst).Nodup) {k : String} :
    (present l).lookup k = (l.lookup k).join := by
  induction l with
  | nil => rfl
  | cons x l ih =>
    obtain ⟨a, o⟩ := x
    obtain ⟨ha, hl⟩ := List.nodup_cons.1 h
    rw [present_cons, List.lookup_cons]
    rcases hk : k == a with _ | _
    · rcases o with _ | v
      · exact ih hl
      · change List.lookup k ((a, v) :: present l) = _
        rw [List.lookup_cons, hk]
        exact ih hl
    · rcases o with _ | v
      · have hnone : (present l).lookup k = none := by
          refine List.lookup_eq_none_iff.2 fun y hy => ?_
          have hmem := keys_present.subset (List.mem_map_of_mem hy)
          rw [beq_iff_eq] at hk
          refine bne_iff_ne.2 fun heq => ha ?_
          rwa [← hk, heq]
        exact hnone
      · change List.lookup k ((a, v) :: present l) = _
        rw [List.lookup_cons, hk]
        rfl

/-- A document is read as what its statements build. -/
theorem read_of_readsLines (h : ReadsLines t r) :
    read t = r.elim (.error .invalid) build := by
  obtain ⟨m, hm, hread⟩ := h (t.length + 1) [] (by simp)
  rw [List.append_nil] at hread
  rcases m with _ | m
  · exact absurd hm (Nat.not_lt_zero _)
  have hnil : readLines (m + 1) [] = .ok [] := rfl
  rw [read, hread, hnil]
  rcases r with _ | ss
  · rfl
  · exact congrArg build (List.append_nil ss)

end Toml
