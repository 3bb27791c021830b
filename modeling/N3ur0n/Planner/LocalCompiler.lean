import N3ur0n.JsonCut
import N3ur0n.Planner.PlanSchema
import N3ur0n.Planner.ToolNames

/-!
# The local compiler

The local compiler asks a model for a plan, and sends it the grammar and the
schema of the catalogue. A backend *honours* the grammar if what it answers is
derived from it.

* `closeObject_skips`: a text of the grammar has its braces in pairs, so that the
  plan in it is the one that is read;
* `compile_resolves`: each step of a plan that is compiled with such a backend has
  a tool of the catalogue.
-/

namespace N3ur0n

open Gbnf (Expr Grammar Derives derives_seq derives_alt derives_opt derives_text)
open Cut Json PlanGrammar

/-! ## Braces -/

/-- No object that is open before the text is closed in it. -/
def Skips (t : List Char) : Prop := ∀ k : ℤ, 0 < k → ∀ rest,
  closeObject k false false (t ++ rest) = (closeObject k false false rest).map (t ++ ·)

variable {G : Grammar} {s t u : List Char} {c : Char} {k : ℤ} {rest : List Char}

/-- Nothing is closed in an empty text. -/
theorem Skips.nil : Skips [] := by
  intro k _ rest
  rw [List.nil_append, show (fun cs : List Char => [] ++ cs) = id from rfl, Option.map_id]
  rfl

/-- Nor is it in one text after another. -/
theorem Skips.append (ht : Skips t) (hu : Skips u) : Skips (t ++ u) := by
  intro k hk rest
  rw [List.append_assoc, ht k hk, hu k hk, Option.map_map]
  exact congrArg (Option.map · _) (funext fun cs => (List.append_assoc t u cs).symm)

/-- Only braces and quotes matter. -/
theorem skips_singleton (hq : c ≠ quote) (ho : c ≠ '\x7b') (hc : c ≠ '\x7d') : Skips [c] := by
  intro k _ rest
  rw [List.singleton_append, closeObject]
  simp only [Bool.false_eq_true, if_false, if_neg hq, if_neg ho, if_neg hc]
  rfl

theorem skips_of_forall (h : ∀ c ∈ t, c ≠ quote ∧ c ≠ '\x7b' ∧ c ≠ '\x7d') : Skips t := by
  induction t with
  | nil => exact .nil
  | cons c t ih =>
    obtain ⟨⟨hq, ho, hc⟩, ht⟩ := List.forall_mem_cons.1 h
    exact (skips_singleton hq ho hc).append (ih ht)

/-- Spaces close nothing. -/
theorem skips_spaces (h : IsSpaces t) : Skips t := by
  refine skips_of_forall fun c hc => ?_
  have hspace := h c hc
  refine ⟨?_, ?_, ?_⟩
  all_goals
    rintro rfl
    exact absurd hspace (by decide)

/-- Nor do the characters of numbers. -/
theorem skips_number (h : ∀ c ∈ t, isNumberChar c) : Skips t :=
  skips_of_forall fun c hc =>
    ⟨isNumberChar_ne (h c hc) rfl, isNumberChar_ne (h c hc) rfl, isNumberChar_ne (h c hc) rfl⟩

/-- Nor do commas between texts. -/
theorem Skips.commaJoin {ys : List (List Char)} (h : ∀ y ∈ ys, Skips y) : Skips (commaJoin ys) := by
  induction ys with
  | nil => exact .nil
  | cons y ys ih =>
    obtain ⟨hy, hys⟩ := List.forall_mem_cons.1 h
    rcases ys with _ | ⟨z, ys⟩
    · rw [commaJoin_singleton]
      exact hy
    · rw [commaJoin_cons_cons]
      exact hy.append ((skips_singleton (by decide) (by decide) (by decide)).append (ih hys))

theorem Skips.brackets (h : Skips t) : Skips ('[' :: t ++ [']']) :=
  (skips_singleton (c := '[') (by decide) (by decide) (by decide)).append
    (h.append (skips_singleton (by decide) (by decide) (by decide)))

/-- An opening brace is one more to be closed. -/
theorem closeObject_open : closeObject k false false ('\x7b' :: rest) =
    (closeObject (k + 1) false false rest).map ('\x7b' :: ·) := rfl

/-- A closing brace is one less, unless it is the last one. -/
theorem closeObject_close (hk : k ≠ 1) : closeObject k false false ('\x7d' :: rest) =
    (closeObject (k - 1) false false rest).map ('\x7d' :: ·) :=
  if_neg (show ¬k - 1 = 0 by omega)

/-- A text in braces opens what it closes. -/
theorem Skips.braces (h : Skips t) : Skips ('\x7b' :: t ++ ['\x7d']) := by
  intro k hk rest
  have htext : '\x7b' :: t ++ ['\x7d'] ++ rest = '\x7b' :: (t ++ '\x7d' :: rest) := by
    simp only [List.cons_append, List.append_assoc, List.nil_append]
  rw [htext, closeObject_open, h (k + 1) (by omega), closeObject_close (by omega),
    Option.map_map, Option.map_map, show k + 1 - 1 = k by omega]
  refine congrArg (Option.map · _) (funext fun cs => ?_)
  simp only [Function.comp_apply, List.cons_append, List.append_assoc, List.nil_append]

/-- An object is closed by its own brace. -/
theorem closeObject_braces (h : Skips t) :
    closeObject 0 false false ('\x7b' :: t ++ ['\x7d'] ++ rest) =
      some ('\x7b' :: t ++ ['\x7d']) := by
  have htext : '\x7b' :: t ++ ['\x7d'] ++ rest = '\x7b' :: (t ++ '\x7d' :: rest) := by
    simp only [List.cons_append, List.append_assoc, List.nil_append]
  rw [htext, closeObject_open, h (0 + 1) (by decide)]
  rfl

/-! ### Strings -/

/-- The characters of a string are passed over, up to its quote. -/
theorem closeObject_chars {ts : List (List Char)} (hts : ∀ t ∈ ts, CharText t) :
    closeObject k true false (ts.flatten ++ quote :: rest) =
      (closeObject k false false rest).map (ts.flatten ++ quote :: ·) := by
  have hinside {c : Char} (hq : c ≠ quote) (hb : c ≠ '\\') (cs : List Char) :
      closeObject k true false (c :: cs) = (closeObject k true false cs).map (c :: ·) := by
    rw [closeObject]
    simp only [if_true, Bool.false_eq_true, if_false, if_neg hb, if_neg hq]
  have hescape {e : Char} (cs : List Char) : closeObject k true false ('\\' :: e :: cs) =
      (closeObject k true false cs).map ('\\' :: e :: ·) := by
    have hstart : closeObject k true false ('\\' :: e :: cs) =
        (closeObject k true true (e :: cs)).map ('\\' :: ·) := rfl
    have hnext : closeObject k true true (e :: cs) =
        (closeObject k true false cs).map (e :: ·) := rfl
    rw [hstart, hnext, Option.map_map]
    rfl
  induction ts with
  | nil => rfl
  | cons t ts ih =>
    obtain ⟨ht, htail⟩ := List.forall_mem_cons.1 hts
    rw [List.flatten_cons, List.append_assoc]
    rcases ht with ⟨hq, hb, -⟩ | he | hunit
    · rw [List.singleton_append, hinside hq hb, ih htail, Option.map_map]
      rfl
    · rw [List.cons_append, List.singleton_append, hescape, ih htail, Option.map_map]
      rfl
    · have hhex {c : Char} (hc : (Json.hexValue c).isSome) : c ≠ quote ∧ c ≠ '\\' := by
        constructor
        all_goals
          rintro rfl
          exact absurd hc (by decide)
      simp only [List.forall_mem_cons] at hunit
      obtain ⟨ha, hb, hc, hd, -⟩ := hunit
      simp only [List.cons_append, List.nil_append]
      rw [hescape, hinside (hhex ha).1 (hhex ha).2, hinside (hhex hb).1 (hhex hb).2,
        hinside (hhex hc).1 (hhex hc).2, hinside (hhex hd).1 (hhex hd).2, ih htail]
      simp only [Option.map_map]
      rfl

/-- A string is passed over, whatever braces it has. -/
theorem skips_string (hG : HasJson G) (h : Derives G (ref "string") s) : Skips s := by
  obtain ⟨ts, hts, rfl⟩ := (derives_string hG).1 h
  intro k _ rest
  have hopen (cs : List Char) : closeObject k false false (quote :: cs) =
      (closeObject k true false cs).map (quote :: ·) := rfl
  rw [List.cons_append, List.append_assoc, List.singleton_append, hopen, closeObject_chars hts,
    Option.map_map]
  refine congrArg (Option.map · _) (funext fun cs => ?_)
  simp only [Function.comp_apply, List.cons_append, List.append_assoc, List.nil_append]

/-! ### Values -/

/-- Spaces around an item do not matter. -/
theorem Padded.skips {item : Expr} (h : ∀ t, Derives G item t → Skips t) (ht : Padded G item t) :
    Skips t := by
  obtain ⟨w, t, w', hw, hw', ht, rfl⟩ := ht
  exact (skips_spaces hw).append ((h t ht).append (skips_spaces hw'))

/-- The items of a list skip, so that the list between its brackets does. -/
theorem skips_group (hG : HasJson G) {item : Expr} {l r : Char}
    (hbrackets : ∀ t, Skips t → Skips (l :: t ++ [r]))
    (hitem : ∀ t, t.length < s.length → Derives G item t → Skips t)
    (h : (∃ w, IsSpaces w ∧ s = [l] ++ (w ++ [r])) ∨
      ∃ w body w', IsSpaces w ∧ IsSpaces w' ∧ Derives G (listOf item) body ∧
        s = [l] ++ (w ++ (body ++ w') ++ [r])) : Skips s := by
  rcases h with ⟨w, hw, rfl⟩ | ⟨w, body, w', hw, hw', hbody, rfl⟩
  · exact hbrackets w (skips_spaces hw)
  · obtain ⟨ys, -, hjoin, hys⟩ := exists_commaJoin hG hw hw' hbody
    rw [hjoin] at hitem ⊢
    refine hbrackets _ (.commaJoin fun y hy => ?_)
    have hle := length_le_commaJoin hy
    obtain ⟨u, t, u', hu, hu', ht, rfl⟩ := hys y hy
    have hlt : t.length < ([l] ++ (Json.commaJoin ys ++ [r])).length := by
      simp only [List.length_append, List.length_singleton] at hle ⊢
      omega
    have hskips := hitem t hlt ht
    exact (skips_spaces hu).append (hskips.append (skips_spaces hu'))

/-- The pair of a shorter value closes nothing. -/
theorem skips_pair (hG : HasJson G)
    (hvalue : ∀ v, v.length < s.length → Derives G (ref "value") v → Skips v)
    (h : Derives G (ref "pair") s) : Skips s := by
  obtain ⟨k, _, rfl, hk, h₁⟩ := derives_seq.1 ((hG.derives 2).1 h)
  obtain ⟨w, _, rfl, hw, h₂⟩ := derives_seq.1 h₁
  obtain ⟨_, _, rfl, hcolon, h₃⟩ := derives_seq.1 h₂
  obtain ⟨w', v, rfl, hw', hv⟩ := derives_seq.1 h₃
  obtain rfl := derives_text.1 hcolon
  rw [derives_ws hG] at hw hw'
  have hlt : v.length < (k ++ (w ++ (":".toList ++ (w' ++ v)))).length := by
    simp only [List.length_append, String.reduceToList, List.length_cons]
    omega
  have hskips := hvalue v hlt hv
  exact (skips_string hG hk).append ((skips_spaces hw).append
    ((skips_singleton (by decide) (by decide) (by decide)).append
      ((skips_spaces hw').append hskips)))

/-- By induction on its length, a value closes no object that is open before it. -/
theorem skips_value (hG : HasJson G) (h : Derives G (ref "value") s) : Skips s := by
  induction hk : s.length using Nat.strong_induction_on generalizing s with
  | _ k ih =>
  have hvalue : ∀ v, v.length < s.length → Derives G (ref "value") v → Skips v :=
    fun v hv hd => ih v.length (hk ▸ hv) hd rfl
  rcases (derives_value hG).1 h with h | h | h | h | rfl | rfl | rfl
  · refine skips_group hG (fun t => Skips.braces) (fun t ht hd => skips_pair hG (fun v hv =>
      hvalue v (hv.trans ht)) hd) ((derives_group hG).1 ((hG.derives 1).1 h))
  · exact skips_group hG (fun t => Skips.brackets) hvalue
      ((derives_group hG).1 ((hG.derives 3).1 h))
  · exact skips_string hG h
  · exact skips_number (isNumberChar_of_derives hG h).2
  all_goals exact skips_of_forall (by decide)

/-- Neither does an object. -/
theorem skips_object (hG : HasJson G) (h : Derives G (ref "object") s) : Skips s :=
  skips_value hG ((derives_value hG).2 (.inl h))

/-! ### Plans -/

/-- Nor the entry of a field of a plan. -/
theorem skips_entry (hG : HasJson G) (name : String) {label : String} {e : Expr}
    (hname : label.toList = Value.quote name) (he : ∀ t, Derives G e t → Skips t)
    (h : Derives G (entry label e) s) : Skips s := by
  obtain ⟨_, _, rfl, hlabel, h₁⟩ := derives_seq.1 h
  obtain ⟨w, _, rfl, hw, h₂⟩ := derives_seq.1 h₁
  obtain ⟨_, _, rfl, hcolon, h₃⟩ := derives_seq.1 h₂
  obtain ⟨w', t, rfl, hw', ht⟩ := derives_seq.1 h₃
  obtain rfl := derives_text.1 hlabel
  obtain rfl := derives_text.1 hcolon
  rw [derives_ws hG] at hw hw'
  rw [hname]
  exact (skips_string hG (derives_quote hG name)).append ((skips_spaces hw).append
    ((skips_singleton (by decide) (by decide) (by decide)).append ((skips_spaces hw').append
      (he t ht))))

variable {tools : List ToolName}

/-- Nor a step. -/
theorem skips_step (hne : tools ≠ []) (h : Derives (planRules tools) (ref "step") s) : Skips s := by
  have hG : HasJson (planRules tools) := hasJson_planRules
  obtain ⟨tool, -, i, p, c, a, ds, rfl, hi, hp, hc, ha, hds⟩ := entries_of_step hne h
  have hquote (k : String) :
      ∀ t, Derives (planRules tools) (.text (Value.quote k)) t → Skips t := by
    intro t ht
    obtain rfl := derives_text.1 ht
    exact skips_string hG (derives_quote hG k)
  have hi := Padded.skips (fun t => skips_entry hG "id" (by decide) fun t => skips_string hG) hi
  have hp := Padded.skips (fun t => skips_entry hG "peer" (by decide) (hquote tool.1)) hp
  have hc := Padded.skips (fun t => skips_entry hG "capability" (by decide) (hquote tool.2)) hc
  have ha := Padded.skips (fun t => skips_entry hG "args" (by decide) fun t => skips_object hG) ha
  refine Skips.braces (.commaJoin ?_)
  simp only [List.forall_mem_cons]
  refine ⟨hi, hp, hc, ha, ?_⟩
  rcases hds with rfl | ⟨d, rfl, hd⟩
  · exact fun y hy => absurd hy List.not_mem_nil
  · refine List.forall_mem_singleton.2
      (Padded.skips (fun t => skips_entry hG "depends_on" (by decide) ?_) hd)
    exact fun t ht => skips_group hG (fun t => Skips.brackets) (fun t _ => skips_string hG)
      ((derives_group hG).1 ht)

/-- The object of a text of the grammar, up to the spaces around it. -/
theorem exists_object (hne : tools ≠ []) (h : Derives (planRules tools) (ref "root") s) :
    ∃ w t w', IsSpaces w ∧ IsSpaces w' ∧ Skips t ∧ s = w ++ ('\x7b' :: t ++ ['\x7d']) ++ w' ∧
      Derives (planRules tools) (ref "root") ('\x7b' :: t ++ ['\x7d']) := by
  have hG : HasJson (planRules tools) := hasJson_planRules
  obtain ⟨w, y, w', hw, hw', hy, rfl⟩ := derives_root.1 h
  refine ⟨w, commaJoin [y], w', hw, hw', ?_, (List.append_assoc _ _ _).symm, derives_root.2
    ⟨[], y, [], isSpaces_nil, isSpaces_nil, hy, by rw [List.nil_append, List.append_nil]⟩⟩
  refine .commaJoin (List.forall_mem_singleton.2 (Padded.skips (fun t => ?_) hy))
  refine skips_entry hG "plan" (by decide) fun t ht => ?_
  exact skips_group hG (fun t => Skips.brackets) (fun t _ => skips_step hne)
    ((derives_group hG).1 (derives_stepsExpr.1 ht))

variable {nearest : String → Option String} {text : List Char}

/-- The spaces around an object are trimmed, and nothing of it. -/
theorem trim_object (u t v : List Char) : trim isWhitespace (u ++ ('\x7b' :: t ++ ['\x7d']) ++ v) =
    u.dropWhile isWhitespace ++ ('\x7b' :: t ++ ['\x7d']) ++ v.rdropWhile isWhitespace := by
  have hlast : '\x7b' :: t ++ ['\x7d'] = ('\x7b' :: t) ++ ['\x7d'] := rfl
  exact Cut.trim_append rfl (by decide) hlast (by decide)

/-- What is read in a text of the grammar is its object, which is of the grammar. -/
theorem parsePlan_sampled (hne : tools ≠ []) (h : Sampled tools text) : ∃ object,
    Sampled tools object ∧ ∀ nearest p, parsePlan nearest text = .ok p ↔
      Plan.ofJson nearest object = some p := by
  obtain ⟨w, t, w', hw, hw', ht, rfl, hobject⟩ := exists_object (dedup_ne_nil hne)
    ((sampled_iff hne).1 h)
  refine ⟨_, (sampled_iff hne).2 hobject, fun nearest p => ?_⟩
  have htrim : trim isWhitespace (w ++ ('\x7b' :: t ++ ['\x7d']) ++ w') =
      '\x7b' :: t ++ ['\x7d'] := by
    rw [trim_object, List.dropWhile_eq_nil_iff.2 fun c hc => isWhitespace_of_isSpace (hw c hc),
      List.rdropWhile_eq_nil_iff.2 fun c hc => isWhitespace_of_isSpace (hw' c hc),
      List.nil_append, List.append_nil]
  have hagain : trim isWhitespace ('\x7b' :: t ++ ['\x7d']) = '\x7b' :: t ++ ['\x7d'] := by
    have := trim_object [] t []
    rwa [List.dropWhile_nil, List.rdropWhile_nil, List.nil_append, List.append_nil] at this
  have hfence : mdFence.isPrefixOf ('\x7b' :: t ++ ['\x7d']) = false := rfl
  have hextract : extractFirstJsonObject ('\x7b' :: t ++ ['\x7d']) =
      some ('\x7b' :: t ++ ['\x7d']) := by
    have hclose : closeObject 0 false false ('\x7b' :: t ++ ['\x7d'] ++ []) = _ :=
      closeObject_braces ht
    rwa [List.append_nil] at hclose
  rw [parsePlan_eq_ok (by rw [htrim]; exact List.cons_ne_nil _ _), htrim, stripMdFences, hagain,
    hfence]
  simp only [Bool.false_eq_true, if_false]
  rw [planIn, hextract, Option.bind_some, Option.or_self]

/-! ## The compiler -/

/-- The tools that a planner may choose from, by their names. -/
def Catalog.toolNames (c : Catalog) : List ToolName :=
  c.tools.map fun t => (shortPeer t.peerId, t.cap.name)

/-- The backend answers the calls of its capabilities. -/
structure LocalLLMCompiler (ε : Type) where
  llmBackend : String → Value → Except ε Value
  modelHint : Option String
  systemPrompt : Catalog → String

/-- The text that a reply has for its message. -/
def messageContent (reply : Value) : String :=
  (((reply.get "message").bind (Value.get "content")).bind BlobTicketPayload.stringOf).getD ""

namespace LocalLLMCompiler

variable {ε : Type}

/-- The request to the backend, with both representations of the catalogue. -/
def chatArgs (c : LocalLLMCompiler ε) (userMsg : String) (catalog : Catalog) : Value :=
  let toolNames := catalog.toolNames
  .object ([
    ("format", planJsonSchema toolNames),
    ("grammar", .string (String.ofList (planGrammar toolNames))),
    ("messages", .array [
      .object [("content", .string (c.systemPrompt catalog)), ("role", .string "system")],
      .object [("content", .string userMsg), ("role", .string "user")]])] ++
    c.modelHint.toList.map (fun model => ("model", .string model)) ++ [
    ("response_format", planResponseFormat toolNames),
    ("temperature", .number (.float "0.0"))])

/-- A reply that is no plan makes an empty one. -/
def compile (nearest : String → Option String) (c : LocalLLMCompiler ε) (userMsg : String)
    (catalog : Catalog) : Except ε Plan := do
  let reply ← c.llmBackend "chat" (c.chatArgs userMsg catalog)
  match parsePlan nearest (messageContent reply).toList with
  | .ok p => return p
  | .error _ => return ⟨[]⟩

end LocalLLMCompiler

/-- What the backend answers is derived from the grammar that it is sent. -/
def HonoursGrammar {ε : Type} (backend : String → Value → Except ε Value) : Prop :=
  ∀ args reply text G, backend "chat" args = .ok reply → args.get "grammar" = some (.string text) →
    Gbnf.read text.toList = some G → Derives G (ref "root") (messageContent reply).toList

variable {ε : Type} {c : LocalLLMCompiler ε} {catalog : Catalog} {userMsg : String}

/-- Each name that is listed is that of a tool. -/
theorem Catalog.find_of_mem_toolNames
    (hsep : ∀ t ∈ catalog.tools, Separable (shortPeer t.peerId)) {step : PlanStep}
    (h : (step.peer, step.capability) ∈ catalog.toolNames) : ∃ t ∈ catalog.tools,
      catalog.find step.toolName = some t ∧
        (shortPeer t.peerId, t.cap.name) = (step.peer, step.capability) := by
  obtain ⟨t, ht, hname⟩ := List.mem_map.1 h
  rw [PlanStep.toolName_eq hname.symm, find_toolName (hsep t ht), ← hname]
  have hfound : (catalog.tools.find? fun t' =>
      (shortPeer t'.peerId, t'.cap.name) = (shortPeer t.peerId, t.cap.name)).isSome :=
    List.find?_isSome.2 ⟨t, ht, decide_eq_true rfl⟩
  obtain ⟨t', ht'⟩ := Option.isSome_iff_exists.1 hfound
  exact ⟨t', List.mem_of_find?_eq_some ht', ht', by simpa using List.find?_some ht'⟩

/-- The backend is sent the grammar of the catalogue. -/
theorem LocalLLMCompiler.grammar_chatArgs (c : LocalLLMCompiler ε) (userMsg : String)
    (catalog : Catalog) : (c.chatArgs userMsg catalog).get "grammar" =
    some (.string (String.ofList (planGrammar catalog.toolNames))) := rfl

/-- The plan is what is parsed from the content of the reply. -/
theorem LocalLLMCompiler.compile_eq (c : LocalLLMCompiler ε) (reply : Value) {p : Plan}
    (h : c.llmBackend "chat" (c.chatArgs userMsg catalog) = .ok reply)
    (hp : parsePlan nearest (messageContent reply).toList = .ok p) :
    c.compile nearest userMsg catalog = .ok p := by
  rw [compile]
  exact Except.bind_eq_ok.2 ⟨reply, h, by rw [hp]; rfl⟩

/-- The steps of a plan that is compiled have a tool of the catalogue, and an object
    for their arguments, whatever the model answers within the grammar. -/
theorem compile_resolves
    (hsep : ∀ t ∈ catalog.tools, Separable (shortPeer t.peerId))
    (hne : catalog.tools ≠ []) (hgrammar : HonoursGrammar c.llmBackend) {p : Plan}
    (h : c.compile nearest userMsg catalog = .ok p) : ∀ step ∈ p.plan,
      (∃ t ∈ catalog.tools, catalog.find step.toolName = some t ∧
        (shortPeer t.peerId, t.cap.name) = (step.peer, step.capability)) ∧
      ∃ fs, step.args = .object fs := by
  have hnames : catalog.toolNames ≠ [] := by rwa [Catalog.toolNames, ne_eq, List.map_eq_nil_iff]
  rw [LocalLLMCompiler.compile] at h
  obtain ⟨reply, hreply, h⟩ := Except.bind_eq_ok.1 h
  have hsampled : Sampled catalog.toolNames (messageContent reply).toList := by
    have hread := read_planGrammar hnames
    refine ⟨_, hread, hgrammar _ _ _ _ hreply (c.grammar_chatArgs userMsg catalog) ?_⟩
    rwa [String.toList_ofList]
  obtain ⟨object, hobject, hparse⟩ := parsePlan_sampled hnames hsampled
  rcases hplan : parsePlan nearest (messageContent reply).toList with e | q
  · rw [hplan] at h
    obtain rfl := Except.ok.inj h
    exact fun step hstep => absurd hstep List.not_mem_nil
  · rw [hplan] at h
    obtain rfl := Except.ok.inj h
    intro step hstep
    obtain ⟨htool, hargs⟩ :=
      usesTool_of_ofJson hnames hobject ((hparse nearest q).1 hplan) step hstep
    exact ⟨Catalog.find_of_mem_toolNames hsep htool, hargs⟩

/-! ## One answer -/

/-- The text of a plan is read as the plan. -/
theorem parsePlan_toJson {p : Plan} (hp : p.HasJson nearest) (hfits : p.Fits) :
    parsePlan nearest p.toJson = .ok p := by
  obtain ⟨t, ht, -⟩ := Plan.objectText_toJson hp.form
  have htrim : trim isWhitespace p.toJson = p.toJson := by
    have := trim_object [] t []
    rwa [List.dropWhile_nil, List.rdropWhile_nil, List.nil_append, List.append_nil, ← ht] at this
  have hfence : mdFence.isPrefixOf p.toJson = false := by
    rw [ht]
    rfl
  rw [parsePlan_eq_ok (by rw [htrim, ht]; exact List.cons_ne_nil _ _), htrim, stripMdFences, htrim,
    hfence]
  simp only [Bool.false_eq_true, if_false]
  rw [planIn, Plan.ofJson_toJson hp, if_pos hfits, Option.some_or]

/-- A catalogue with one local tool. -/
def echoCatalog : Catalog := ⟨[⟨"n3:abc", none, ⟨"echo", .object [], .object []⟩⟩]⟩

/-- The reply with a plan for its message. -/
def planReply : Value :=
  .object [("message", .object [("content", .string (String.ofList onePlan.toJson))])]

/-- The plan, for a request that has the grammar of the catalogue. -/
def answerTo (args : Value) : Except String Value :=
  if args.get "grammar" = some (.string (String.ofList (planGrammar echoCatalog.toolNames))) then
    .ok planReply
  else .error "no grammar"

/-- With the grammar it is the plan. -/
theorem answerTo_eq {args : Value} (h : args.get "grammar" =
    some (.string (String.ofList (planGrammar echoCatalog.toolNames)))) :
    answerTo args = .ok planReply := if_pos h

/-- The content of the reply is the text of the plan. -/
theorem content_planReply : (messageContent planReply).toList = onePlan.toJson :=
  String.toList_ofList

/-- The plan is a text of the grammar. -/
theorem honoursGrammar_answerTo : HonoursGrammar fun _ => answerTo := by
  intro args reply text G hreply htext hread
  simp only [answerTo] at hreply
  split at hreply
  · next hgrammar =>
    obtain rfl := Except.ok.inj hreply
    obtain rfl := Value.string.inj (Option.some.inj (htext.symm.trans hgrammar))
    rw [String.toList_ofList] at hread
    obtain ⟨G', hread', h⟩ := sampled_onePlan
    obtain rfl := Option.some.inj (hread.symm.trans hread')
    rw [content_planReply]
    exact h
  · cases hreply

/-- The compiler with this backend. -/
def answering : LocalLLMCompiler String := ⟨fun _ => answerTo, none, fun _ => ""⟩

theorem compile_resolves_onePlan : onePlan.plan ≠ [] ∧ ∀ step ∈ onePlan.plan,
    (∃ t ∈ echoCatalog.tools, echoCatalog.find step.toolName = some t ∧
      (shortPeer t.peerId, t.cap.name) = (step.peer, step.capability)) ∧
    ∃ fs, step.args = .object fs := by
  have hbackend (args : Value) : answering.llmBackend "chat" args = answerTo args := rfl
  have hanswer : answering.llmBackend "chat" (answering.chatArgs "" echoCatalog) =
      .ok planReply := by
    rw [hbackend]
    exact answerTo_eq (answering.grammar_chatArgs "" echoCatalog)
  have hplan : parsePlan some (messageContent planReply).toList = .ok onePlan := by
    rw [content_planReply]
    exact parsePlan_toJson hasJson_onePlan (by decide)
  refine ⟨List.cons_ne_nil _ _, ?_⟩
  exact compile_resolves (by decide) (by decide) honoursGrammar_answerTo
    (answering.compile_eq planReply hanswer hplan)

end N3ur0n
