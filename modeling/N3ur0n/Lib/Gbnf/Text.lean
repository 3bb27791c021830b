import Mathlib.Data.Nat.Notation
import N3ur0n.Lib.Gbnf.Grammar
import N3ur0n.Lib.Text

/-!
# GBNF texts

A reader of the texts of GBNF grammars with one rule on each line: a line is cut
into *tokens*, and these are read as an expression. It leaves out comments,
numbered repetitions and rules that go on over several lines.

* `readRule`: the rule of a line;
* `read`: the grammar of a text;
* `readText_escaped`: a text is read back from its escaped form between quotes.
-/

namespace Gbnf

/-- What is read, and the rest of the input. -/
abbrev Reader (α : Type) := List Char → Option (α × List Char)

/-! ## Characters -/

/-- A quote, by its code. -/
def quote : Char := Char.ofNat 34

def isSpace (c : Char) : Bool := c = ' ' ∨ c = '\t'

/-- The characters of a name. -/
def isWordChar (c : Char) : Bool := c.isAlphanum ∨ c = '-'

def hexValue (c : Char) : Option ℕ := "0123456789abcdef".toList.idxOf? c.toLower

/-- The character of a code of `k` digits. -/
def readCode (k : ℕ) (cs : List Char) : Option (Char × List Char) := do
  let digits ← (cs.take k).mapM hexValue
  if digits.length = k then some (Char.ofNat (digits.foldl (16 * · + ·) 0), cs.drop k) else none

/-- What follows a backslash. -/
def readEscape : Reader Char
  | 'x' :: cs => readCode 2 cs
  | 'u' :: cs => readCode 4 cs
  | 'U' :: cs => readCode 8 cs
  | 't' :: cs => some ('\t', cs)
  | 'r' :: cs => some ('\r', cs)
  | 'n' :: cs => some ('\n', cs)
  | c :: cs => if c = '\\' ∨ c = quote ∨ c = '[' ∨ c = ']' then some (c, cs) else none
  | [] => none

def readChar : Reader Char
  | [] => none
  | c :: cs => if c = '\\' then readEscape cs else some (c, cs)

/-- What is read first, in front of what is read next. -/
def consResult {α : Type} (x : α) (r : Option (List α × List Char)) : Option (List α × List Char) :=
  r.map fun r => (x :: r.1, r.2)

/-- A text, after its opening quote. The first argument bounds its length, as it
    does below: the length of the input is enough. -/
def readText : ℕ → Reader (List Char)
  | 0, _ => none
  | n + 1, cs =>
    if cs.head? = some quote then some ([], cs.tail)
    else (readChar cs).bind fun r => consResult r.1 (readText n r.2)

/-- The ranges of a class, after its opening bracket. -/
def readRanges : ℕ → Reader (List (Char × Char))
  | 0, _ => none
  | n + 1, cs =>
    if cs.head? = some ']' then some ([], cs.tail)
    else (readChar cs).bind fun r =>
      if r.2.head? = some '-' ∧ r.2.tail.head? ≠ some ']' then
        (readChar r.2.tail).bind fun r' => consResult (r.1, r'.1) (readRanges n r'.2)
      else consResult (r.1, r.1) (readRanges n r.2)

/-! ## Tokens -/

inductive Token
  | expr (e : Expr)
  | opening
  | closing
  | bar
  | mark (repeated : Expr → Expr)

/-- A token of one character. -/
def Token.ofChar (c : Char) : Option Token :=
  match c with
  | '(' => some .opening
  | ')' => some .closing
  | '|' => some .bar
  | '?' => some (.mark .opt)
  | '*' => some (.mark .star)
  | '+' => some (.mark .plus)
  | _ => none

/-- The token at the head of an input. -/
def readToken (n : ℕ) (cs : List Char) : Option (Token × List Char) :=
  match cs with
  | [] => none
  | c :: cs =>
    if c = quote then (readText n cs).map fun r => (.expr (.text r.1), r.2)
    else if c = '[' then
      let negated := cs.head? = some '^'
      (readRanges n (if negated then cs.tail else cs)).map fun r =>
        (.expr (.chars negated r.1), r.2)
    else if isWordChar c then
      some (.expr (.rule (c :: cs.takeWhile isWordChar)), cs.dropWhile isWordChar)
    else (Token.ofChar c).map (·, cs)

def readTokens : ℕ → List Char → Option (List Token)
  | 0, _ => none
  | n + 1, cs =>
    match cs.dropWhile isSpace with
    | [] => some []
    | c :: cs => (readToken n (c :: cs)).bind fun r => (readTokens n r.2).map (r.1 :: ·)

/-! ## Expressions -/

/-- Expressions one after the other. -/
def Expr.andThen (e : Expr) : Expr → Expr
  | .empty => e
  | f => .seq e f

/-- Items, up to a bar, a closing bracket or the end. A group is read by `group`. -/
def readSequence (group : List Token → Option (Expr × List Token)) :
    ℕ → List Token → Option (Expr × List Token)
  | 0, _ => none
  | n + 1, ts =>
    match ts with
    | .expr e :: .mark f :: ts => (readSequence group n ts).map fun r => ((f e).andThen r.1, r.2)
    | .expr e :: ts => (readSequence group n ts).map fun r => (e.andThen r.1, r.2)
    | .opening :: ts =>
      (group ts).bind fun r =>
        match r.2 with
        | .closing :: .mark f :: ts =>
          (readSequence group n ts).map fun r' => ((f r.1).andThen r'.1, r'.2)
        | .closing :: ts => (readSequence group n ts).map fun r' => (r.1.andThen r'.1, r'.2)
        | _ => none
    | .mark _ :: _ => none
    | ts => some (.empty, ts)

/-- Sequences separated by bars. -/
def readAlternates : ℕ → List Token → Option (Expr × List Token)
  | 0, _ => none
  | n + 1, ts =>
    (readSequence (readAlternates n) (n + 1) ts).bind fun r =>
      match r.2 with
      | .bar :: ts => (readAlternates n ts).map fun r' => (.alt r.1 r'.1, r'.2)
      | ts => some (r.1, ts)

/-! ## Rules -/

/-- The expression of a text. -/
def readExpr (cs : List Char) : Option Expr := do
  let ts ← readTokens (cs.length + 1) cs
  match ← readAlternates (ts.length + 1) ts with
  | (e, []) => some e
  | _ => none

/-- The rule of a line. -/
def readRule (line : List Char) : Option (List Char × Expr) :=
  let name := line.takeWhile isWordChar
  match (line.dropWhile isWordChar).dropWhile isSpace with
  | ':' :: ':' :: '=' :: cs => if name = [] then none else (readExpr cs).map (name, ·)
  | _ => none

/-- The grammar of a text, whose lines are blank or rules. -/
def read (text : List Char) : Option Grammar :=
  ((text.splitOn '\n').filter fun line => !line.all isSpace).mapM readRule


/-! ## Writing and reading -/

/-- How a character is written between quotes. -/
def escape (c : Char) : List Char := if c = '\\' ∨ c = quote then ['\\', c] else [c]

variable {n : ℕ} {s name rest : List Char}

theorem readChar_escape {c : Char} : readChar (escape c ++ rest) = some (c, rest) := by
  unfold escape
  split_ifs with hc
  · rcases hc with rfl | rfl
    · rfl
    · rfl
  · rw [not_or] at hc
    exact if_neg hc.1

/-- What is written for a character does not end the text. -/
theorem head?_escape {c : Char} : (escape c ++ rest).head? ≠ some quote := by
  unfold escape
  split_ifs with hc
  · exact fun h => absurd (Option.some.inj h) (by decide)
  · exact fun h => hc (.inr (Option.some.inj h))

theorem readText_escaped (hn : s.length < n) :
    readText n (s.flatMap escape ++ quote :: rest) = some (s, rest) := by
  induction s generalizing n with
  | nil =>
    obtain ⟨n, rfl⟩ := Nat.exists_eq_succ_of_ne_zero (Nat.ne_of_gt hn)
    rfl
  | cons c s ih =>
    rcases n with _ | n
    · exact absurd hn (Nat.not_lt_zero _)
    rw [List.flatMap_cons, List.append_assoc, readText, if_neg head?_escape, readChar_escape,
      Option.bind_some, ih (Nat.lt_of_succ_lt_succ hn)]
    rfl

theorem readTokens_space (n : ℕ) (rest : List Char) :
    readTokens n (' ' :: rest) = readTokens n rest := by
  rcases n with _ | n
  · rfl
  · rfl

/-- An input that starts with a token. -/
theorem readTokens_of_readToken {t : Token} {cs : List Char} (h : readToken n cs = some (t, rest))
    (hcs : ∀ c ∈ cs.head?, isSpace c = false) :
    readTokens (n + 1) cs = (readTokens n rest).map (t :: ·) := by
  rcases cs with _ | ⟨c, cs⟩
  · exact absurd h (by simp [readToken])
  · have hskip : (c :: cs).dropWhile isSpace = c :: cs :=
      List.dropWhile_cons_of_neg (by rw [hcs c rfl]; exact Bool.false_ne_true)
    rw [readTokens, hskip]
    simp only [h, Option.bind_some]

theorem readTokens_text (hn : s.length < n) :
    readTokens (n + 1) (quote :: (s.flatMap escape ++ quote :: rest)) =
      (readTokens n rest).map (.expr (.text s) :: ·) := by
  refine readTokens_of_readToken ?_ fun c hc => Option.some.inj hc ▸ rfl
  rw [readToken, readText_escaped hn]
  rfl

/-- A name, up to the first character that is not of one. -/
def IsName (name : List Char) : Prop := name ≠ [] ∧ ∀ c ∈ name, isWordChar c

instance (name : List Char) : Decidable (IsName name) := inferInstanceAs (Decidable (_ ∧ _))

theorem readTokens_name (h : IsName name) (hrest : ∀ c ∈ rest.head?, isWordChar c = false) :
    readTokens (n + 1) (name ++ rest) = (readTokens n rest).map (.expr (.rule name) :: ·) := by
  obtain ⟨htake, hdrop⟩ := Text.takeWhile_append_ends h.2 hrest
  obtain ⟨c, cs, rfl⟩ := List.exists_cons_of_ne_nil h.1
  have hc := h.2 c List.mem_cons_self
  have hne : ∀ d, isWordChar d = false → c ≠ d := by
    rintro d hd rfl
    exact Bool.false_ne_true (hd.symm.trans hc)
  refine readTokens_of_readToken ?_ fun d hd => ?_
  · rw [List.cons_append, List.takeWhile_cons_of_pos hc] at htake
    rw [List.cons_append, List.dropWhile_cons_of_pos hc] at hdrop
    rw [List.cons_append, readToken]
    simp only [if_neg (hne quote rfl), if_neg (hne '[' rfl), if_pos hc, htake, hdrop]
  · obtain rfl := Option.some.inj hd
    rw [isSpace, decide_eq_false_iff_not]
    rintro (rfl | rfl)
    · exact hne ' ' rfl rfl
    · exact hne '\t' rfl rfl

/-! ### Alternatives of names -/

/-- The names, with a bar between each two. -/
def barTokens : List (List Char) → List Token
  | [] => []
  | [name] => [.expr (.rule name)]
  | name :: name' :: names => .expr (.rule name) :: .bar :: barTokens (name' :: names)

/-- One of the rules. -/
def anyRule : List (List Char) → Expr
  | [] => .empty
  | [name] => .rule name
  | name :: name' :: names => .alt (.rule name) (anyRule (name' :: names))

variable {names : List (List Char)}

theorem derives_anyRule {G : Grammar} {s : List Char} (hne : names ≠ []) :
    Derives G (anyRule names) s ↔ ∃ name ∈ names, Derives G (.rule name) s := by
  induction names with
  | nil => exact absurd rfl hne
  | cons name names ih =>
    rcases names with _ | ⟨name', names⟩
    · rw [anyRule, List.exists_mem_cons_iff]
      simp only [List.not_mem_nil, false_and, exists_false, or_false]
    · rw [anyRule, derives_alt, ih (List.cons_ne_nil _ _), List.exists_mem_cons_iff (a := name)]

theorem readTokens_bars (hne : names ≠ []) (h : ∀ name ∈ names, IsName name)
    (hn : 2 * names.length ≤ n) :
    readTokens n ([' ', '|', ' '].intercalate names) = some (barTokens names) := by
  induction names generalizing n with
  | nil => exact absurd rfl hne
  | cons name names ih =>
    obtain ⟨hname, hnames⟩ := List.forall_mem_cons.1 h
    rw [List.length_cons] at hn
    obtain ⟨n, rfl⟩ := Nat.exists_eq_add_of_le' (show 2 ≤ n by omega)
    rcases names with _ | ⟨name', names⟩
    · have hname' : readTokens (n + 2) (name ++ []) = _ :=
        readTokens_name hname fun c hc => nomatch hc
      rw [List.append_nil] at hname'
      rw [List.intercalate_singleton, hname']
      rfl
    · have ih' := @ih n (List.cons_ne_nil _ _) hnames (by omega)
      have hbar (cs : List Char) : readTokens (n + 1) ([' ', '|', ' '] ++ cs) =
          (readTokens n cs).map (.bar :: ·) := by
        rw [← readTokens_space n cs]
        rfl
      have hends : ∀ c ∈ ([' ', '|', ' '] ++ [' ', '|', ' '].intercalate (name' :: names)).head?,
          isWordChar c = false := fun c hc => Option.some.inj hc ▸ rfl
      rw [List.intercalate_cons_cons, List.append_assoc, readTokens_name hname hends, hbar, ih']
      rfl

theorem readAlternates_bars (hne : names ≠ []) (hn : names.length < n) :
    readAlternates n (barTokens names) = some (anyRule names, []) := by
  induction names generalizing n with
  | nil => exact absurd rfl hne
  | cons name names ih =>
    rw [List.length_cons] at hn
    obtain ⟨n, rfl⟩ := Nat.exists_eq_add_of_le' (show 2 ≤ n by omega)
    rcases names with _ | ⟨name', names⟩
    · rfl
    · have ih' := @ih (n + 1) (List.cons_ne_nil _ _) (by omega)
      rw [barTokens, readAlternates]
      change ((readAlternates (n + 1) (barTokens (name' :: names))).map _) = _
      rw [ih']
      rfl

theorem length_le_intercalate (h : ∀ name ∈ names, IsName name) :
    2 * names.length ≤ ([' ', '|', ' '].intercalate names).length + 2 := by
  induction names with
  | nil => exact Nat.zero_le _
  | cons name names ih =>
    obtain ⟨hname, hnames⟩ := List.forall_mem_cons.1 h
    have hlength := List.length_pos_iff.2 hname.1
    have ih' := ih hnames
    rcases names with _ | ⟨name', names⟩
    · simp
    · rw [List.intercalate_cons_cons]
      simp only [List.length_append, List.length_cons, List.length_nil] at ih' ⊢
      omega

theorem newline_notMem_intercalate (h : ∀ name ∈ names, IsName name) :
    '\n' ∉ [' ', '|', ' '].intercalate names := by
  induction names with
  | nil => exact List.not_mem_nil
  | cons name names ih =>
    obtain ⟨hname, hnames⟩ := List.forall_mem_cons.1 h
    have hnot : '\n' ∉ name := fun hmem => absurd (hname.2 _ hmem) (by decide)
    rcases names with _ | ⟨name', names⟩
    · rw [List.intercalate_singleton]
      exact hnot
    · rw [List.intercalate_cons_cons, List.mem_append, List.mem_append, not_or, not_or]
      exact ⟨⟨hnot, by decide⟩, ih hnames⟩

theorem length_le_barTokens : names.length ≤ (barTokens names).length := by
  induction names with
  | nil => exact Nat.le_refl _
  | cons name names ih =>
    rcases names with _ | ⟨name', names⟩
    · exact Nat.le_refl _
    · rw [barTokens, List.length_cons, List.length_cons, List.length_cons]
      exact Nat.succ_le_succ (Nat.le_succ_of_le ih)

/-! ### Rules -/

theorem readExpr_of_readTokens {cs : List Char} {ts : List Token} {e : Expr}
    (hts : readTokens (cs.length + 1) cs = some ts)
    (he : readAlternates (ts.length + 1) ts = some (e, [])) : readExpr cs = some e := by
  rw [readExpr, hts]
  simp only [Option.bind_eq_bind, Option.bind_some, he]

/-- One of some rules. -/
theorem readExpr_bars (hne : names ≠ []) (h : ∀ name ∈ names, IsName name) :
    readExpr (' ' :: [' ', '|', ' '].intercalate names) = some (anyRule names) := by
  have hle := length_le_intercalate h
  have htokens : readTokens (([' ', '|', ' '].intercalate names).length + 2)
      (' ' :: [' ', '|', ' '].intercalate names) = some (barTokens names) :=
    (readTokens_space _ _).trans (readTokens_bars hne h hle)
  exact readExpr_of_readTokens htokens
    (readAlternates_bars hne (Nat.lt_succ_of_le length_le_barTokens))

theorem readRule_eq {spaces cs : List Char} (h : IsName name) (hs : ∀ c ∈ spaces, isSpace c) :
    readRule (name ++ (spaces ++ ':' :: ':' :: '=' :: cs)) = (readExpr cs).map (name, ·) := by
  have hends : ∀ c ∈ (spaces ++ ':' :: ':' :: '=' :: cs).head?, isWordChar c = false := by
    intro c hc
    rcases spaces with _ | ⟨d, spaces⟩
    · obtain rfl := Option.some.inj hc
      rfl
    · obtain rfl := Option.some.inj hc
      have hd := hs d List.mem_cons_self
      rw [isSpace, decide_eq_true_iff] at hd
      rcases hd with rfl | rfl
      · rfl
      · rfl
  obtain ⟨htake, hdrop⟩ := Text.takeWhile_append_ends h.2 hends
  rw [readRule, htake, hdrop, List.dropWhile_append_of_pos hs]
  exact if_neg h.1

/-! ### Lines -/

theorem read_nil : read [] = some [] := rfl

/-- A blank line is passed over. -/
theorem read_blank : read ('\n' :: rest) = read rest := by
  rw [read, ← List.nil_append ('\n' :: rest),
    List.splitOn_append_cons_self_of_not_mem List.not_mem_nil]
  rfl

theorem not_blank_of_readRule {line : List Char} {r : List Char × Expr}
    (h : readRule line = some r) : line.all isSpace = false := by
  by_contra hall
  rw [Bool.not_eq_false, List.all_eq_true] at hall
  have hnil : line.takeWhile isWordChar = [] := by
    rcases line with _ | ⟨c, cs⟩
    · rfl
    · refine List.takeWhile_cons_of_neg fun hc => ?_
      have hspace := hall c List.mem_cons_self
      rw [isSpace, decide_eq_true_iff] at hspace
      rcases hspace with rfl | rfl
      · exact absurd hc (by decide)
      · exact absurd hc (by decide)
  rw [readRule, hnil] at h
  split at h
  · exact absurd h (by simp)
  · exact absurd h (by simp)

/-- A line with a rule. -/
theorem read_rule {line : List Char} {r : List Char × Expr} (h : readRule line = some r)
    (hline : '\n' ∉ line) : read (line ++ '\n' :: rest) = (read rest).map (r :: ·) := by
  rw [read, List.splitOn_append_cons_self_of_not_mem hline, List.filter_cons_of_pos, List.mapM_cons,
    h]
  · rw [read]
    rcases List.mapM readRule _ with _ | rs
    · rfl
    · rfl
  · rw [not_blank_of_readRule h]
    rfl

/-- Lines with rules. -/
theorem read_rules {lines : List (List Char)} {rs : List (List Char × Expr)}
    (h : lines.mapM readRule = some rs) (hlines : ∀ line ∈ lines, '\n' ∉ line) :
    read (lines.flatMap (· ++ ['\n']) ++ rest) = (read rest).map (rs ++ ·) := by
  induction lines generalizing rs with
  | nil =>
    obtain rfl := Option.some.inj h
    rcases hread : read rest with _ | rs
    · exact hread
    · exact hread
  | cons line lines ih =>
    obtain ⟨hline, hlines⟩ := List.forall_mem_cons.1 hlines
    rw [List.mapM_cons] at h
    obtain ⟨r, hr, h⟩ := Option.bind_eq_some_iff.1 h
    obtain ⟨rs', hrs, h⟩ := Option.bind_eq_some_iff.1 h
    obtain rfl := Option.some.inj h
    rw [List.flatMap_cons, List.append_assoc, List.append_assoc, List.singleton_append,
      read_rule hr hline, ih hrs hlines, Option.map_map]
    rfl

/-- Lines, each with its end. -/
def lines (ls : List String) : List Char := ls.flatMap fun l => l.toList ++ ['\n']

/-- The lines are read as these rules, whatever follows them. -/
def ReadsLines (ls : List String) (rs : Grammar) : Prop :=
  ∀ rest, read (lines ls ++ rest) = (read rest).map (rs ++ ·)

theorem ReadsLines.nil : ReadsLines [] [] := by
  intro rest
  rw [show (fun rs : Grammar => [] ++ rs) = id from rfl, Option.map_id]
  rfl

theorem ReadsLines.cons {line : List Char} {ls : List String} {r : List Char × Expr} {rs : Grammar}
    (hr : readRule line = some r) (hline : line.contains '\n' = false) (h : ReadsLines ls rs) :
    ReadsLines (String.ofList line :: ls) (r :: rs) := by
  intro rest
  have hmem : '\n' ∉ line := by
    rw [← List.contains_iff_mem, hline]
    exact Bool.false_ne_true
  rw [lines, List.flatMap_cons, String.toList_ofList, List.append_assoc, List.append_assoc,
    List.singleton_append, read_rule hr hmem, ← lines, h, Option.map_map]
  rfl

end Gbnf
