import N3ur0n.JsonScan
import N3ur0n.Lib.Firsts
import N3ur0n.Lib.Gbnf.Text

/-!
# The grammar of plans

A model that writes a plan is held to a grammar, which is built from the tools it
may use: each of them has a rule of its own, with its peer and its capability.

* `planGrammar`: the text of the grammar;
* `planRules`: the rules that it is read as (`read_planGrammar`);
* `wellFormed_planRules`: these are a grammar.
-/

namespace N3ur0n

open Gbnf

/-- A peer, by its short id, and one of its capabilities. -/
abbrev ToolName := String × String

/-! ## The text -/

/-- `PLAN_GBNF_HEAD`, line by line: the plan, its steps and their fields. -/
def planGbnfHead : List String := [
  "root        ::= ws \"\x7b\" ws \"\\\"plan\\\"\" ws \":\" ws \"[\" ws steps? ws \"]\" ws \"\x7d\" ws",
  r#"steps       ::= step (ws "," ws step)*"#,
  "step        ::= \"\x7b\" ws step-fields ws \"\x7d\"",
  r#"step-fields ::= step-id ws "," ws step-tool ws "," ws step-args (ws "," ws step-deps)?"#,
  r#"step-id     ::= "\"id\""         ws ":" ws string"#,
  r#"step-args   ::= "\"args\""       ws ":" ws object"#,
  r#"step-deps   ::= "\"depends_on\"" ws ":" ws "[" ws (string (ws "," ws string)*)? ws "]""#]

/-- `PLAN_GBNF_TAIL`, line by line: the rules of JSON. -/
def planGbnfTail : List String := [
  "",
  r#"value       ::= object | array | string | number | "true" | "false" | "null""#,
  "object      ::= \"\x7b\" ws (pair (ws \",\" ws pair)*)? ws \"\x7d\"",
  r#"pair        ::= string ws ":" ws value"#,
  r#"array       ::= "[" ws (value (ws "," ws value)*)? ws "]""#,
  r#"string      ::= "\"" char* "\"""#,
  r#"char        ::= [^"\\\x00-\x1F] | "\\" (["\\/bfnrt] | "u" hex hex hex hex)"#,
  r#"hex         ::= [0-9a-fA-F]"#,
  r#"number      ::= "-"? int frac? exp?"#,
  r#"int         ::= "0" | [1-9] [0-9]*"#,
  r#"frac        ::= "." [0-9]+"#,
  r#"exp         ::= [eE] [-+]? [0-9]+"#,
  r#"ws          ::= [ \t\n\r]*"#]

/-- The head of the grammar when there are no tools: names are any strings. -/
def freePlanGbnfHead : List String := [
  "root        ::= ws \"\x7b\" ws \"\\\"plan\\\"\" ws \":\" ws \"[\" ws steps? ws \"]\" ws \"\x7d\" ws",
  r#"steps       ::= step (ws "," ws step)*"#,
  "step        ::= \"\x7b\" ws step-fields ws \"\x7d\"",
  r#"step-fields ::= step-id ws "," ws step-peer ws "," ws step-cap ws "," ws step-args (ws "," ws step-deps)?"#,
  r#"step-id     ::= "\"id\""         ws ":" ws string"#,
  r#"step-peer   ::= "\"peer\""       ws ":" ws string"#,
  r#"step-cap    ::= "\"capability\"" ws ":" ws string"#,
  r#"step-args   ::= "\"args\""       ws ":" ws object"#,
  r#"step-deps   ::= "\"depends_on\"" ws ":" ws "[" ws (string (ws "," ws string)*)? ws "]""#]

/-- `FREE_PLAN_GBNF`, for a catalogue without tools. -/
def freePlanGbnf : List String := freePlanGbnfHead ++ planGbnfTail

/-- A string of JSON, as a text of the grammar. -/
def gbnfJsonString (s : String) : List Char :=
  Gbnf.quote :: (Value.quote s).flatMap escape ++ [Gbnf.quote]

/-- The name of the rule of a tool, by its place. -/
def toolName (i : ℕ) : List Char := "tool-".toList ++ i.repr.toList

/-- The rule of the tool with this index. -/
def toolLine (tool : ToolName × ℕ) : List Char :=
  toolName tool.2 ++ ("      ::= \"\\\"peer\\\"\" ws \":\" ws ".toList ++
    (gbnfJsonString tool.1.1 ++ (" ws \",\" ws \"\\\"capability\\\"\" ws \":\" ws ".toList ++
      gbnfJsonString tool.1.2)))

/-- The pairs, each once, in their order. -/
def dedup (tools : List ToolName) : List ToolName := Firsts.firsts id ∅ tools

/-- `plan_grammar`: between the two parts, one rule for each tool, and one that chooses a tool. -/
def planGrammar (tools : List ToolName) : List Char :=
  let deduped := dedup tools
  if deduped = [] then lines freePlanGbnf
  else
    let branches := ['\n'].intercalate (deduped.zipIdx.map toolLine)
    let alternatives := " | ".toList.intercalate ((List.range deduped.length).map toolName)
    lines planGbnfHead ++ ("step-tool   ::= ".toList ++ alternatives ++ '\n' :: branches ++
      '\n' :: lines planGbnfTail)

/-! ## The rules -/

namespace PlanGrammar

/-- Expressions in a row. -/
def seqs : List Expr → Expr
  | [] => .empty
  | [e] => e
  | e :: f :: es => .seq e (seqs (f :: es))

/-- One of these expressions. -/
def alts : List Expr → Expr
  | [] => .empty
  | [e] => e
  | e :: f :: es => .alt e (alts (f :: es))

/-- A text in quotes. -/
def word (s : String) : Expr := .text s.toList

/-- What another rule derives. -/
def ref (s : String) : Expr := .rule s.toList

/-- Spaces, which may be none. -/
def ws : Expr := ref "ws"

/-- Items separated by commas, at least one. -/
def listOf (e : Expr) : Expr := .seq e (.star (seqs [ws, word ",", ws, e]))

/-- One of these characters, each a range of its own. -/
def oneOf (s : String) : Expr := .chars false (s.toList.map fun c => (c, c))

def digit : Expr := .chars false [('0', '9')]

/-- The rules of plans, but for those of the tools. -/
def headRules : Grammar := [
  ("root".toList, seqs [ws, word "\x7b", ws, word "\"plan\"", ws, word ":", ws, word "[", ws,
    .opt (ref "steps"), ws, word "]", ws, word "\x7d", ws]),
  ("steps".toList, listOf (ref "step")),
  ("step".toList, seqs [word "\x7b", ws, ref "step-fields", ws, word "\x7d"]),
  ("step-fields".toList, seqs [ref "step-id", ws, word ",", ws, ref "step-tool", ws, word ",", ws,
    ref "step-args", .opt (seqs [ws, word ",", ws, ref "step-deps"])]),
  ("step-id".toList, seqs [word "\"id\"", ws, word ":", ws, ref "string"]),
  ("step-args".toList, seqs [word "\"args\"", ws, word ":", ws, ref "object"]),
  ("step-deps".toList, seqs [word "\"depends_on\"", ws, word ":", ws, word "[", ws,
    .opt (listOf (ref "string")), ws, word "]"])]

/-- The rules of JSON. -/
def tailRules : Grammar := [
  ("value".toList, alts [ref "object", ref "array", ref "string", ref "number", word "true",
    word "false", word "null"]),
  ("object".toList, seqs [word "\x7b", ws, .opt (listOf (ref "pair")), ws, word "\x7d"]),
  ("pair".toList, seqs [ref "string", ws, word ":", ws, ref "value"]),
  ("array".toList, seqs [word "[", ws, .opt (listOf (ref "value")), ws, word "]"]),
  ("string".toList, seqs [word "\"", .star (ref "char"), word "\""]),
  ("char".toList, .alt
    (.chars true [(Gbnf.quote, Gbnf.quote), ('\\', '\\'), (Char.ofNat 0, Char.ofNat 31)])
    (.seq (word "\\") (.alt (oneOf "\"\\/bfnrt")
      (seqs [word "u", ref "hex", ref "hex", ref "hex", ref "hex"])))),
  ("hex".toList, .chars false [('0', '9'), ('a', 'f'), ('A', 'F')]),
  ("number".toList, seqs [.opt (word "-"), ref "int", .opt (ref "frac"), .opt (ref "exp")]),
  ("int".toList, .alt (word "0") (.seq (.chars false [('1', '9')]) (.star digit))),
  ("frac".toList, .seq (word ".") (.plus digit)),
  ("exp".toList, seqs [oneOf "eE", .opt (oneOf "-+"), .plus digit]),
  ("ws".toList, .star (oneOf " \t\n\r"))]

/-- The rules when there are no tools. -/
def freeRules : Grammar := [
  ("root".toList, seqs [ws, word "\x7b", ws, word "\"plan\"", ws, word ":", ws, word "[", ws,
    .opt (ref "steps"), ws, word "]", ws, word "\x7d", ws]),
  ("steps".toList, listOf (ref "step")),
  ("step".toList, seqs [word "\x7b", ws, ref "step-fields", ws, word "\x7d"]),
  ("step-fields".toList, seqs [ref "step-id", ws, word ",", ws, ref "step-peer", ws, word ",", ws,
    ref "step-cap", ws, word ",", ws, ref "step-args", .opt (seqs [ws, word ",", ws,
    ref "step-deps"])]),
  ("step-id".toList, seqs [word "\"id\"", ws, word ":", ws, ref "string"]),
  ("step-peer".toList, seqs [word "\"peer\"", ws, word ":", ws, ref "string"]),
  ("step-cap".toList, seqs [word "\"capability\"", ws, word ":", ws, ref "string"]),
  ("step-args".toList, seqs [word "\"args\"", ws, word ":", ws, ref "object"]),
  ("step-deps".toList, seqs [word "\"depends_on\"", ws, word ":", ws, word "[", ws,
    .opt (listOf (ref "string")), ws, word "]"])]

/-- The peer of a tool, and its capability. -/
def toolExpr (tool : ToolName) : Expr := seqs [word "\"peer\"", ws, word ":", ws,
  .text (Value.quote tool.1), ws, word ",", ws, word "\"capability\"", ws, word ":", ws,
  .text (Value.quote tool.2)]

/-- A tool, with the index of its rule. -/
def toolRule (tool : ToolName × ℕ) : List Char × Expr := (toolName tool.2, toolExpr tool.1)

/-- The names of the rules of the tools. -/
def names (tools : List ToolName) : List (List Char) := (List.range tools.length).map toolName

/-- The rules of the grammar of these tools. -/
def planRules (tools : List ToolName) : Grammar :=
  headRules ++ (("step-tool".toList, anyRule (names tools)) ::
    (tools.zipIdx.map toolRule ++ tailRules))

/-! ## Reading the text -/

/-- The lines are read one by one, and each is its rule. -/
theorem readsLines_head : ReadsLines planGbnfHead headRules :=
  .cons rfl rfl <| .cons rfl rfl <| .cons rfl rfl <| .cons rfl rfl <| .cons rfl rfl <|
    .cons rfl rfl <| .cons rfl rfl .nil

theorem readsLines_tail : ReadsLines planGbnfTail.tail tailRules :=
  .cons rfl rfl <| .cons rfl rfl <| .cons rfl rfl <| .cons rfl rfl <| .cons rfl rfl <|
    .cons rfl rfl <| .cons rfl rfl <| .cons rfl rfl <| .cons rfl rfl <| .cons rfl rfl <|
    .cons rfl rfl <| .cons rfl rfl .nil

/-- The last part begins with a blank line. -/
theorem read_tail : read (lines planGbnfTail) = some tailRules := by
  have htail : lines planGbnfTail = '\n' :: (lines planGbnfTail.tail ++ []) := by
    rw [List.append_nil]
    rfl
  rw [htail, read_blank, readsLines_tail, read_nil]
  rfl

theorem readsLines_free : ReadsLines freePlanGbnfHead freeRules :=
  .cons rfl rfl <| .cons rfl rfl <| .cons rfl rfl <| .cons rfl rfl <| .cons rfl rfl <|
    .cons rfl rfl <| .cons rfl rfl <| .cons rfl rfl <| .cons rfl rfl .nil

/-- Without tools, the grammar is read as the rules for free names. -/
theorem read_freePlanGbnf : Gbnf.read (planGrammar []) = some (freeRules ++ tailRules) := by
  have hlines : planGrammar [] = lines freePlanGbnfHead ++ lines planGbnfTail :=
    List.flatMap_append
  rw [hlines, readsLines_free, read_tail]
  rfl

/-! ### Tools -/

/-- What names a tool is the name of a rule. -/
theorem isName_toolName (i : ℕ) : IsName (toolName i) := by
  refine ⟨List.append_ne_nil_of_left_ne_nil (by decide) _, List.forall_mem_append.2 ⟨by decide, ?_⟩⟩
  intro c hc
  rw [Nat.repr, String.toList_ofList] at hc
  exact decide_eq_true (.inl (Text.isAlphanum_iff.2 (.inr (Toml.isDigit_toDigits hc))))

/-- The tokens before the peer of a tool. -/
theorem readTokens_peer {n : ℕ} {cs : List Char} :
    readTokens (n + 12) (" \"\\\"peer\\\"\" ws \":\" ws ".toList ++ cs) =
      (readTokens (n + 8) cs).map
        ([.expr (word "\"peer\""), .expr ws, .expr (word ":"), .expr ws] ++ ·) := by
  rw [← readTokens_space _ cs, word, word, ws, ref]
  simp only [String.reduceToList]
  change Option.map _ (Option.map _ (Option.map _ (Option.map _
    (readTokens (n + 8) (' ' :: cs))))) = _
  rw [Option.map_map, Option.map_map, Option.map_map]
  rfl

/-- The tokens between its peer and its capability. -/
theorem readTokens_capability {n : ℕ} {cs : List Char} :
    readTokens (n + 20) (" ws \",\" ws \"\\\"capability\\\"\" ws \":\" ws ".toList ++ cs) =
      (readTokens (n + 13) cs).map
        ([.expr ws, .expr (word ","), .expr ws, .expr (word "\"capability\""), .expr ws,
          .expr (word ":"), .expr ws] ++ ·) := by
  rw [← readTokens_space _ cs, word, word, word, ws, ref]
  simp only [String.reduceToList]
  change Option.map _ (Option.map _ (Option.map _ (Option.map _ (Option.map _ (Option.map _
    (Option.map _ (readTokens (n + 13) (' ' :: cs)))))))) = _
  simp only [Option.map_map]
  rfl

/-- Escaping does not make a text shorter, so that there is enough fuel to read it. -/
theorem length_le_escaped (s : List Char) : s.length ≤ (s.flatMap escape).length := by
  induction s with
  | nil => exact Nat.le_refl _
  | cons c s ih =>
    have hpos : 0 < (escape c).length := by
      unfold escape
      split_ifs
      · exact Nat.succ_pos _
      · exact Nat.succ_pos _
    rw [List.flatMap_cons, List.length_append, List.length_cons]
    omega

/-- The text of a string, whose escaped form is between quotes. -/
theorem readTokens_string {n : ℕ} {s : String} {cs : List Char}
    (hn : (gbnfJsonString s).length ≤ n) : readTokens n (gbnfJsonString s ++ cs) =
      (readTokens (n - 1) cs).map (.expr (.text (Value.quote s)) :: ·) := by
  have hle := length_le_escaped (Value.quote s)
  simp only [gbnfJsonString, List.length_append, List.length_cons, List.length_nil] at hn
  obtain ⟨n, rfl⟩ := Nat.exists_eq_succ_of_ne_zero (show n ≠ 0 by omega)
  have htext : gbnfJsonString s ++ cs =
      Gbnf.quote :: ((Value.quote s).flatMap escape ++ Gbnf.quote :: cs) := by
    simp only [gbnfJsonString, List.cons_append, List.append_assoc, List.nil_append]
  rw [htext, readTokens_text (by omega), Nat.succ_sub_one]

/-- The tokens of a tool: its two names are texts, however they are escaped. -/
theorem readTokens_tool {n : ℕ} {peer cap : String}
    (hn : 25 + (gbnfJsonString peer).length + (gbnfJsonString cap).length ≤ n) :
    readTokens n (" \"\\\"peer\\\"\" ws \":\" ws ".toList ++ (gbnfJsonString peer ++
      (" ws \",\" ws \"\\\"capability\\\"\" ws \":\" ws ".toList ++ gbnfJsonString cap))) =
      some [.expr (word "\"peer\""), .expr ws, .expr (word ":"), .expr ws,
        .expr (.text (Value.quote peer)), .expr ws, .expr (word ","), .expr ws,
        .expr (word "\"capability\""), .expr ws, .expr (word ":"), .expr ws,
        .expr (.text (Value.quote cap))] := by
  obtain ⟨n, rfl⟩ := Nat.exists_eq_add_of_le' (show 25 ≤ n by omega)
  have hcap : readTokens (n + 13) (gbnfJsonString cap ++ []) = _ := readTokens_string (by omega)
  rw [List.append_nil] at hcap
  rw [show n + 25 = n + 13 + 12 from rfl, readTokens_peer, readTokens_string (by omega),
    show n + 13 + 8 - 1 = n + 20 from rfl, readTokens_capability, hcap]
  rfl

/-- They are a sequence. -/
theorem readExpr_tool {peer cap : String} :
    readExpr (" \"\\\"peer\\\"\" ws \":\" ws ".toList ++ (gbnfJsonString peer ++
      (" ws \",\" ws \"\\\"capability\\\"\" ws \":\" ws ".toList ++ gbnfJsonString cap))) =
      some (toolExpr (peer, cap)) := by
  have hpeer : 22 ≤ (" \"\\\"peer\\\"\" ws \":\" ws ".toList).length := by
    simp only [String.reduceToList]
    decide
  have hcap : 3 ≤ (" ws \",\" ws \"\\\"capability\\\"\" ws \":\" ws ".toList).length := by
    simp only [String.reduceToList]
    decide
  refine readExpr_of_readTokens (readTokens_tool ?_) rfl
  simp only [List.length_append]
  omega

/-- The line of a tool is read as its rule. -/
theorem readRule_toolLine (tool : ToolName × ℕ) :
    readRule (toolLine tool) = some (toolRule tool) := by
  have hsplit : "      ::= \"\\\"peer\\\"\" ws \":\" ws ".toList =
      "      ".toList ++ ':' :: ':' :: '=' :: " \"\\\"peer\\\"\" ws \":\" ws ".toList := by
    simp only [String.reduceToList]
    rfl
  rw [toolLine, hsplit, List.append_assoc, List.cons_append, List.cons_append, List.cons_append,
    readRule_eq (isName_toolName tool.2) (by decide)]
  exact congrArg (Option.map _) readExpr_tool

/-- An escaped text stays on its line. -/
theorem newline_notMem_gbnfJsonString (s : String) : '\n' ∉ gbnfJsonString s := by
  intro h
  rcases List.mem_append.1 h with h | h
  · rcases List.mem_cons.1 h with h | h
    · exact absurd h (by decide)
    · obtain ⟨c, hc, hn⟩ := List.mem_flatMap.1 h
      have hle := Json.le_of_scan (Json.passes_quote s false 0) c hc
      unfold escape at hn
      split_ifs at hn
      · rcases List.mem_pair.1 hn with hn | rfl
        · exact absurd hn (by decide)
        · exact absurd hle (by decide)
      · obtain rfl := List.mem_singleton.1 hn
        exact absurd hle (by decide)
  · exact absurd h (by decide)

theorem newline_notMem_toolName (i : ℕ) : '\n' ∉ toolName i :=
  fun h => absurd ((isName_toolName i).2 _ h) (by decide)

/-- So the line of a tool is one line. -/
theorem newline_notMem_toolLine (tool : ToolName × ℕ) : '\n' ∉ toolLine tool := by
  simp only [toolLine, List.mem_append, not_or]
  exact ⟨newline_notMem_toolName _, by decide, newline_notMem_gbnfJsonString _, by decide,
    newline_notMem_gbnfJsonString _⟩

variable {tools : List ToolName}

theorem names_ne_nil (hne : tools ≠ []) : names tools ≠ [] := by
  rw [names, ne_eq, List.map_eq_nil_iff, List.range_eq_nil, List.length_eq_zero_iff]
  exact hne

theorem isName_of_mem_names {name : List Char} (h : name ∈ names tools) : IsName name := by
  obtain ⟨i, -, rfl⟩ := List.mem_map.1 h
  exact isName_toolName i

/-- The line that chooses a tool is read as the choice of its rule. -/
theorem readRule_stepTool (hne : tools ≠ []) :
    readRule ("step-tool   ::= ".toList ++ " | ".toList.intercalate (names tools)) =
      some ("step-tool".toList, anyRule (names tools)) := by
  have hsplit : "step-tool   ::= ".toList = "step-tool".toList ++
      ("   ".toList ++ ':' :: ':' :: '=' :: [' ']) := by
    simp only [String.reduceToList]
    rfl
  have hexpr := readExpr_bars (names_ne_nil hne) fun name => isName_of_mem_names
  rw [hsplit, List.append_assoc, List.append_assoc, List.cons_append, List.cons_append,
    List.cons_append, List.singleton_append, readRule_eq (by decide) (by decide)]
  exact congrArg (Option.map _) hexpr

theorem newline_notMem_stepTool :
    '\n' ∉ "step-tool   ::= ".toList ++ " | ".toList.intercalate (names tools) := by
  rw [List.mem_append, not_or]
  exact ⟨by decide, newline_notMem_intercalate fun name => isName_of_mem_names⟩

/-- Lines with a line feed between them, and one after the last. -/
theorem intercalate_newline {ls : List (List Char)} (hne : ls ≠ []) {rest : List Char} :
    ['\n'].intercalate ls ++ '\n' :: rest = ls.flatMap (· ++ ['\n']) ++ rest := by
  induction ls with
  | nil => exact absurd rfl hne
  | cons l ls ih =>
    rcases ls with _ | ⟨l', ls⟩
    · simp
    · rw [List.intercalate_cons_cons, List.flatMap_cons, List.append_assoc, List.append_assoc,
        ih (List.cons_ne_nil _ _)]
      simp only [List.append_assoc]

/-- The same tools are left when those that are repeated go. -/
theorem mem_dedup {tool : ToolName} : tool ∈ dedup tools ↔ tool ∈ tools := by
  constructor
  · exact fun h => Firsts.firsts_sublist.subset h
  · intro h
    obtain ⟨x, hx, hkey⟩ : ∃ x ∈ dedup tools, id x = id tool :=
      Firsts.exists_first h (Finset.notMem_empty _)
    obtain rfl : x = tool := hkey
    exact hx

theorem dedup_ne_nil (hne : tools ≠ []) : dedup tools ≠ [] := by
  obtain ⟨tool, htool⟩ := List.exists_mem_of_ne_nil tools hne
  exact List.ne_nil_of_mem (mem_dedup.2 htool)

/-- With tools, the grammar is read as its rules. -/
theorem read_planGrammar (hne : tools ≠ []) :
    Gbnf.read (planGrammar tools) = some (planRules (dedup tools)) := by
  have hdedup := dedup_ne_nil hne
  have hbranches : (((dedup tools).zipIdx.map toolLine).mapM readRule) =
      some ((dedup tools).zipIdx.map toolRule) := by
    rw [List.mapM_map, show readRule ∘ toolLine = pure ∘ toolRule from funext readRule_toolLine]
    exact List.mapM_pure
  have hlines : ∀ line ∈ (dedup tools).zipIdx.map toolLine, '\n' ∉ line := by
    intro line hline
    obtain ⟨tool, -, rfl⟩ := List.mem_map.1 hline
    exact newline_notMem_toolLine tool
  have hbranch : (dedup tools).zipIdx.map toolLine ≠ [] := by
    rw [ne_eq, List.map_eq_nil_iff, List.zipIdx_eq_nil_iff]
    exact hdedup
  rw [planGrammar, if_neg hdedup, ← names, readsLines_head]
  simp only [List.append_assoc, List.cons_append]
  rw [← List.append_assoc, read_rule (readRule_stepTool hdedup) newline_notMem_stepTool,
    intercalate_newline hbranch, read_rules hbranches hlines, read_tail]
  rfl

/-! ## A grammar -/

/-- The names of the rules that do not depend on the tools. -/
def fixedNames : List (List Char) :=
  headRules.map Prod.fst ++ "step-tool".toList :: tailRules.map Prod.fst

/-- No two tools have rules of the same name. -/
theorem toolName_injective : Function.Injective toolName := by
  intro i j h
  have hrepr := List.append_cancel_left h
  have hdigits := congrArg (fun ds => Nat.ofDigitChars 10 ds 0) hrepr
  simpa [Nat.repr] using hdigits

/-- No tool has a rule of the name of another part. -/
theorem toolName_notMem_fixedNames (i : ℕ) : toolName i ∉ fixedNames := by
  have hfixed : ∀ name ∈ fixedNames, ¬"tool-".toList <+: name := by decide
  exact fun h => hfixed _ h (List.prefix_append _ _)

theorem map_fst_toolRules : (tools.zipIdx.map toolRule).map Prod.fst = names tools := by
  have hfst : Prod.fst ∘ toolRule = toolName ∘ Prod.snd := rfl
  rw [List.map_map, hfst, ← List.map_map, List.zipIdx_map_snd, names, List.range_eq_range']

/-- The names of the rules. -/
theorem map_fst_planRules :
    ((planRules tools).map Prod.fst).Perm (names tools ++ fixedNames) := by
  rw [planRules, List.map_append, List.map_cons, List.map_append, map_fst_toolRules, fixedNames]
  refine (List.Perm.append_left _ List.perm_middle.symm).trans ?_
  rw [← List.append_assoc, ← List.append_assoc]
  exact List.perm_append_comm.append_right _

theorem rules_anyRule {names : List (List Char)} : (anyRule names).rules = names := by
  induction names with
  | nil => rfl
  | cons name names ih =>
    rcases names with _ | ⟨name', names⟩
    · rfl
    · rw [anyRule, Expr.rules, ih]
      rfl

/-- Every rule that is referred to is there, once. -/
theorem wellFormed_planRules : WellFormed "root".toList (planRules tools) := by
  have hmem {name : List Char} (h : name ∈ names tools ++ fixedNames) :
      name ∈ (planRules tools).map Prod.fst := map_fst_planRules.mem_iff.2 h
  have hroot : "root".toList ∈ fixedNames := List.mem_cons_self
  have hfixed : ∀ r ∈ headRules ++ tailRules, ∀ name ∈ r.2.rules, name ∈ fixedNames := by decide
  refine ⟨map_fst_planRules.nodup_iff.2 (List.nodup_append.2 ⟨?_, by decide, ?_⟩),
    hmem (List.mem_append_right _ hroot), fun r hr name hname => hmem ?_⟩
  · exact List.nodup_range.map toolName_injective
  · rintro _ h name hname rfl
    obtain ⟨i, -, rfl⟩ := List.mem_map.1 h
    exact toolName_notMem_fixedNames i hname
  · rw [planRules, List.mem_append, List.mem_cons, List.mem_append] at hr
    rcases hr with hr | rfl | hr | hr
    · exact List.mem_append_right _ (hfixed r (List.mem_append_left _ hr) name hname)
    · rw [rules_anyRule] at hname
      exact List.mem_append_left _ hname
    · obtain ⟨tool, -, rfl⟩ := List.mem_map.1 hr
      have hws : (toolExpr tool.1).rules = List.replicate 6 "ws".toList := rfl
      rw [toolRule, hws] at hname
      obtain rfl := List.eq_of_mem_replicate hname
      exact List.mem_append_right _ (by decide)
    · exact List.mem_append_right _ (hfixed r (List.mem_append_right _ hr) name hname)

/-- So it is without tools. -/
theorem wellFormed_freeRules : WellFormed "root".toList (freeRules ++ tailRules) :=
  ⟨by decide, by decide, by decide⟩

end PlanGrammar

end N3ur0n
