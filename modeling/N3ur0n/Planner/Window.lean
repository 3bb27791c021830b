import N3ur0n.Conversation
import N3ur0n.Planner.Catalog

/-!
# What a model sees of a conversation

The model is sent the last turns of a conversation, without the calls and the
results of the requests that were answered: those up to the last turn of the
assistant. A result is not sent without its call, so that one turn more is sent
when the window would begin with a result.

* `filterVisibleForLlm_eq`: what remains visible;
* `toChatMessages_iff`: the window is as documented, except that it is too long
  exactly when it would begin with a result.
-/

namespace N3ur0n

namespace Turn

def isAssistant : Turn → Bool
  | assistant _ _ => true
  | _ => false

def isResult : Turn → Bool
  | toolResult _ _ _ _ _ => true
  | _ => false

/-- The call that a result is of. -/
def isCallOf : Turn → Turn → Bool
  | toolCall id _ _ _, toolResult callId _ _ _ _ => id = callId
  | _, _ => false

/-- The message of a turn, in the form of OpenAI. -/
def toMessage : Turn → Value
  | user content _ => .object [("content", .string content), ("role", .string "user")]
  | assistant content _ => .object [("content", .string content), ("role", .string "assistant")]
  | system content => .object [("content", .string content), ("role", .string "system")]
  | toolCall id peerId capability args =>
    let name := shortPeer peerId ++ "::" ++ capability
    .object [("content", .null), ("role", .string "assistant"),
      ("tool_calls", .array [.object [
        ("function", .object [("arguments", .string (String.ofList args.render)),
          ("name", .string name)]),
        ("id", .string id), ("type", .string "function")]])]
  | toolResult callId _ _ result error =>
    let content := match error with
      | some err => (Value.object [("error", .string err)]).render
      | none => (result.getD .null).render
    .object [("content", .string (String.ofList content)), ("role", .string "tool"),
      ("tool_call_id", .string callId)]

end Turn

/-- The place of the last turn of the assistant. -/
def lastAssistantIdx (turns : List Turn) : Option ℕ :=
  (turns.zipIdx.reverse.find? (·.1.isAssistant)).map Prod.snd

/-- The tool turns of the requests that were answered are hidden. -/
def filterVisibleForLlm (turns : List Turn) : List Turn :=
  turns.zipIdx.filterMap fun (t, i) =>
    let isPast := ((lastAssistantIdx turns).map fun li => decide (i ≤ li)).getD false
    if t.isTool ∧ isPast then none else some t

/-- The turns before `start` and there are a call and its result. -/
def splitsPair (refs : List Turn) (start : ℕ) : Bool :=
  match refs[start - 1]?, refs[start]? with
  | some call, some result => decide (0 < start) && call.isCallOf result
  | _, _ => false

/-- The last turns, one more if the first one would be the result of the one before. -/
def pruneContextRefs (refs : List Turn) (maxTurns : ℕ) : List Turn :=
  if refs.length ≤ maxTurns then refs
  else
    let start := refs.length - maxTurns
    refs.drop (if splitsPair refs start then start - 1 else start)

def ConversationState.toChatMessages (s : ConversationState) (maxTurns : ℕ) : List Value :=
  (pruneContextRefs (filterVisibleForLlm s.turns) maxTurns).map Turn.toMessage

/-! ## What it should be -/

/-- The turns that a conversation can hold: a result is pushed right after its call. -/
inductive Held : List Turn → Prop
  | nil : Held []
  | turn {turns : List Turn} {t : Turn} (h : Held turns) (ht : t.isTool = false) :
    Held (turns ++ [t])
  | call {turns : List Turn} (h : Held turns) (id peerId capability : String) (args : Value) :
    Held (turns ++ [.toolCall id peerId capability args])
  | pair {turns : List Turn} (h : Held turns) (id peerId capability : String) (args : Value)
    (result : Option Value) (error : Option String) :
    Held (turns ++ [.toolCall id peerId capability args,
      .toolResult id peerId capability result error])

/-- The turns without the tool turns up to the last turn of the assistant. -/
def visibleTurns (turns : List Turn) : List Turn :=
  (turns.rdropWhile (!·.isAssistant)).filter (!·.isTool) ++ turns.rtakeWhile (!·.isAssistant)

/-- Every result comes right after its call. -/
def Coupled (turns : List Turn) : Prop :=
  ∀ u r v, turns = u ++ r :: v → r.isResult → ∃ u' c, u = u' ++ [c] ∧ c.isCallOf r

/-- The last turns of what is visible, not too many, with the calls of their results. -/
structure IsWindow (visible kept : List Turn) (maxTurns : ℕ) : Prop where
  suffix : kept <:+ visible
  length_le : kept.length ≤ maxTurns
  coupled : Coupled kept

/-- The window would begin with a result. -/
def CutsPair (visible : List Turn) (maxTurns : ℕ) : Prop :=
  maxTurns < visible.length ∧ ∃ r ∈ visible[visible.length - maxTurns]?, r.isResult

instance (visible : List Turn) (maxTurns : ℕ) : Decidable (CutsPair visible maxTurns) :=
  inferInstanceAs (Decidable (_ ∧ _))

variable {turns u v : List Turn} {t c r : Turn} {maxTurns : ℕ}

/-! ## What is visible -/

/-- The last turn of the assistant has no other one after it. -/
theorem lastAssistantIdx_append (ht : t.isAssistant) (hv : ∀ x ∈ v, x.isAssistant = false) :
    lastAssistantIdx (u ++ t :: v) = some u.length := by
  have hnone : (v.zipIdx (u.length + 1)).reverse.find? (·.1.isAssistant) = none := by
    rw [List.find?_eq_none]
    intro x hx
    simp [hv x.1 (List.fst_mem_of_mem_zipIdx (List.mem_reverse.1 hx))]
  rw [lastAssistantIdx, List.zipIdx_append, List.zipIdx_cons, List.reverse_append,
    List.reverse_cons, List.find?_append, List.find?_append, Nat.zero_add, hnone]
  simp [ht]

theorem lastAssistantIdx_eq_none (hu : ∀ x ∈ u, x.isAssistant = false) :
    lastAssistantIdx u = none := by
  rw [lastAssistantIdx, Option.map_eq_none_iff, List.find?_eq_none]
  intro x hx
  simp [hu x.1 (List.fst_mem_of_mem_zipIdx (List.mem_reverse.1 hx))]

theorem filterMap_visible (idx : Option ℕ) {k : ℕ} {l : List Turn} {b : Bool}
    (h : ∀ i, k ≤ i → i < k + l.length → (idx.map fun li => decide (i ≤ li)).getD false = b) :
    ((l.zipIdx k).filterMap fun (t, i) =>
      if t.isTool ∧ (idx.map fun li => decide (i ≤ li)).getD false then none else some t) =
      if b then l.filter (!·.isTool) else l := by
  induction l generalizing k with
  | nil => simp
  | cons t l ih =>
    have ht := h k le_rfl (by simp)
    have hl := ih (k := k + 1) fun i hi hi' => h i (by omega) (by rw [List.length_cons]; omega)
    rw [List.zipIdx_cons, List.filterMap_cons, hl]
    simp only [ht]
    rcases b with - | -
    · simp
    · cases htool : t.isTool with
      | false => simp [htool]
      | true => simp [htool]

/-- The turns up to the last turn of the assistant, and those after it. -/
theorem filterVisibleForLlm_eq (turns : List Turn) :
    filterVisibleForLlm turns = visibleTurns turns := by
  have hafter : ∀ x ∈ turns.rtakeWhile (!·.isAssistant), x.isAssistant = false := fun x hx => by
    simpa using List.mem_rtakeWhile_imp hx
  have hsplit : turns.rdropWhile (!·.isAssistant) ++ turns.rtakeWhile (!·.isAssistant) = turns :=
    List.rdropWhile_append_rtakeWhile
  rw [visibleTurns]
  rcases List.eq_nil_or_concat (turns.rdropWhile (!·.isAssistant)) with hu | ⟨u, t, hu⟩
  · rw [hu, List.nil_append] at hsplit
    rw [hsplit] at hafter
    have hnone := filterMap_visible none (k := 0) (l := turns) (b := false) fun _ _ _ => rfl
    rw [hu, hsplit, filterVisibleForLlm, lastAssistantIdx_eq_none hafter]
    exact hnone
  · have ht : t.isAssistant := by
      have hlast := List.rdropWhile_last_not (fun t : Turn => !t.isAssistant) turns (by simp [hu])
      simpa [hu] using hlast
    rw [List.concat_eq_append] at hu
    rw [hu] at hsplit ⊢
    generalize turns.rtakeWhile (!·.isAssistant) = v at hafter hsplit
    have hidx : lastAssistantIdx turns = some u.length := by
      rw [← hsplit, List.append_assoc]
      exact lastAssistantIdx_append ht hafter
    rw [filterVisibleForLlm, hidx, ← hsplit, List.zipIdx_append, List.filterMap_append]
    congr 1
    · exact filterMap_visible _ (b := true) fun i _ hi => by
        rw [List.length_append, List.length_singleton] at hi
        exact decide_eq_true (by omega)
    · exact filterMap_visible _ (b := false) fun i hi _ => by
        rw [List.length_append, List.length_singleton] at hi
        exact decide_eq_false (by omega)

/-! ## Calls and results -/

theorem Turn.isResult_of_isCallOf (h : c.isCallOf r) : r.isResult := by
  rcases c <;> rcases r <;> first | rfl | exact absurd h Bool.false_ne_true

theorem isCallOf_of_isTool (h : c.isTool = false) : c.isCallOf r = false := by
  rcases c <;> first | rfl | exact absurd h (by simp [Turn.isTool])

theorem Coupled.concat (h : Coupled turns)
    (ht : t.isResult → ∃ u c, turns = u ++ [c] ∧ c.isCallOf t) : Coupled (turns ++ [t]) := by
  intro u r v heq hr
  rcases List.eq_nil_or_concat v with rfl | ⟨v, x, rfl⟩
  · obtain ⟨rfl, hlast⟩ := List.append_inj' heq rfl
    obtain rfl := (List.cons.inj hlast).1
    exact ht hr
  · rw [List.concat_eq_append, ← List.cons_append, ← List.append_assoc] at heq
    exact h u r v (List.append_inj' heq rfl).1 hr

theorem Held.coupled (h : Held turns) : Coupled turns := by
  induction h with
  | nil => exact fun u r v heq => absurd heq (by simp)
  | turn h ht ih =>
    refine ih.concat fun hr => ?_
    rename_i t
    rcases t <;>
      first | exact absurd hr Bool.false_ne_true | exact absurd ht (by simp [Turn.isTool])
  | call h => exact Coupled.concat ‹_› fun hr => absurd hr Bool.false_ne_true
  | pair h id peerId capability args result error ih =>
    rw [← List.singleton_append, ← List.append_assoc]
    refine Coupled.concat (ih.concat fun hr => absurd hr Bool.false_ne_true) fun _ => ?_
    exact ⟨_, _, rfl, decide_eq_true rfl⟩

/-- What follows turns is coupled, if they do not end with a call of its first one. -/
theorem Coupled.of_append (h : Coupled (u ++ turns))
    (hu : ∀ c ∈ u.getLast?, ∀ r ∈ turns.head?, c.isCallOf r = false) : Coupled turns := by
  intro w r v heq hr
  obtain ⟨u', c, hc, hcall⟩ := h (u ++ w) r v (by rw [heq, List.append_assoc]) hr
  rcases List.eq_nil_or_concat w with rfl | ⟨w, x, rfl⟩
  · rw [List.append_nil] at hc
    have := hu c (by simp [hc]) r (by simp [heq])
    exact absurd hcall (by simp [this])
  · rw [List.concat_eq_append, ← List.append_assoc] at hc
    obtain ⟨-, hx⟩ := List.append_inj' hc rfl
    exact ⟨w, x, List.concat_eq_append, (List.cons.inj hx).1 ▸ hcall⟩

/-- Other turns may come before. -/
theorem Coupled.append (hu : ∀ t ∈ u, t.isResult = false) (h : Coupled turns) :
    Coupled (u ++ turns) := by
  intro w r v heq hr
  rcases List.append_eq_append_iff.1 heq with ⟨w', rfl, heq'⟩ | ⟨w', rfl, heq'⟩
  · obtain ⟨w'', c, rfl, hcall⟩ := h w' r v heq' hr
    exact ⟨u ++ w'', c, by rw [List.append_assoc], hcall⟩
  · rcases w' with _ | ⟨x, w'⟩
    · obtain ⟨w'', c, hnil, -⟩ := h [] r v heq'.symm hr
      exact absurd hnil (by simp)
    · obtain rfl := (List.cons.inj heq').1
      exact absurd hr (by simp [hu r (by simp)])

theorem Coupled.visibleTurns (h : Coupled turns) : Coupled (visibleTurns turns) := by
  refine Coupled.append (fun t ht => ?_) (Coupled.of_append (u := turns.rdropWhile
    (!·.isAssistant)) (by rwa [List.rdropWhile_append_rtakeWhile]) fun c hc r _ => ?_)
  · have htool : t.isTool = false := by simpa using (List.mem_filter.1 ht).2
    rcases t <;> first | rfl | exact absurd htool (by simp [Turn.isTool])
  · -- The last one of them is of the assistant.
    have hne : turns.rdropWhile (!·.isAssistant) ≠ [] := by
      rintro hnil
      rw [hnil] at hc
      exact nomatch hc
    have hlast := List.rdropWhile_last_not (fun t : Turn => !t.isAssistant) turns hne
    rw [List.getLast?_eq_getLast_of_ne_nil hne] at hc
    obtain rfl := Option.some.inj hc
    refine isCallOf_of_isTool ?_
    generalize (turns.rdropWhile (!·.isAssistant)).getLast hne = t at hlast
    rcases t <;> first | rfl | exact absurd hlast (by simp [Turn.isAssistant])

/-! ## The window -/

/-- A result has its call before it. -/
theorem splitsPair_iff {start : ℕ} (h : Coupled turns) :
    splitsPair turns start ↔ ∃ r ∈ turns[start]?, r.isResult := by
  rw [splitsPair]
  rcases hstart : turns[start]? with - | r
  · simp
  · constructor
    · intro hpair
      rcases hcall : turns[start - 1]? with - | c
      · simp [hcall] at hpair
      · simp only [hcall, Bool.and_eq_true] at hpair
        exact ⟨r, rfl, Turn.isResult_of_isCallOf hpair.2⟩
    · rintro ⟨r', hr', hresult⟩
      obtain rfl := Option.some.inj hr'
      obtain ⟨hlt, hr⟩ := List.getElem?_eq_some_iff.1 hstart
      have hsplit : turns = turns.take start ++ r :: turns.drop (start + 1) := by
        rw [← hr, ← List.drop_eq_getElem_cons hlt, List.take_append_drop]
      obtain ⟨u, c, hu, hcall⟩ := h _ _ _ hsplit hresult
      have hlen : start = u.length + 1 := by
        have := congrArg List.length hu
        rwa [List.length_take_of_le hlt.le, List.length_append] at this
      have hc : turns[start - 1]? = some c := by
        rw [hsplit, hu, hlen]
        simp
      rw [hc]
      exact Bool.and_eq_true_iff.2 ⟨decide_eq_true (by omega), hcall⟩

/-- What is sent of the turns that are too many. -/
theorem pruneContextRefs_of_lt (hlt : maxTurns < turns.length) (h : Coupled turns) :
    pruneContextRefs turns maxTurns = turns.drop (if CutsPair turns maxTurns
      then turns.length - maxTurns - 1 else turns.length - maxTurns) := by
  have hpair : splitsPair turns (turns.length - maxTurns) = true ↔ CutsPair turns maxTurns := by
    rw [splitsPair_iff h, CutsPair, and_iff_right hlt]
  rw [pruneContextRefs, if_neg (not_le.2 hlt)]
  simp only [hpair]

/-- The window is one turn too long when it would begin with a result. -/
theorem length_pruneContextRefs (hcut : CutsPair turns maxTurns) (h : Coupled turns) :
    (pruneContextRefs turns maxTurns).length = maxTurns + 1 := by
  have hlt := hcut.1
  obtain ⟨r, hr, -⟩ := hcut.2
  have hstart := (List.getElem?_eq_some_iff.1 hr).1
  rw [pruneContextRefs_of_lt hlt h, if_pos hcut, List.length_drop]
  have hpos : 0 < turns.length - maxTurns := Nat.sub_pos_of_lt hlt
  omega

theorem isWindow_pruneContextRefs (hcut : ¬CutsPair turns maxTurns) (h : Coupled turns) :
    IsWindow turns (pruneContextRefs turns maxTurns) maxTurns := by
  by_cases hle : turns.length ≤ maxTurns
  · rw [pruneContextRefs, if_pos hle]
    exact ⟨List.suffix_rfl, hle, h⟩
  · have hlt : maxTurns < turns.length := not_le.1 hle
    rw [pruneContextRefs_of_lt hlt h, if_neg hcut]
    refine ⟨List.drop_suffix _ _, by rw [List.length_drop]; omega, ?_⟩
    refine Coupled.of_append (u := turns.take (turns.length - maxTurns)) ?_ fun c _ r hr => ?_
    · rwa [List.take_append_drop]
    · rw [List.head?_drop] at hr
      refine Bool.eq_false_iff.2 fun hcall => hcut ⟨hlt, r, hr, Turn.isResult_of_isCallOf hcall⟩

/-- What a model is sent is a window of what is visible, as documented, unless this
    would begin with a result. -/
theorem toChatMessages_iff (s : ConversationState) (h : Held s.turns) (maxTurns : ℕ) :
    (∃ kept, s.toChatMessages maxTurns = kept.map Turn.toMessage ∧
      IsWindow (visibleTurns s.turns) kept maxTurns) ↔
        ¬CutsPair (visibleTurns s.turns) maxTurns := by
  have hcoupled := h.coupled.visibleTurns
  rw [ConversationState.toChatMessages, filterVisibleForLlm_eq]
  constructor
  · rintro ⟨kept, hkept, hwindow⟩ hcut
    have hlen := congrArg List.length hkept
    rw [List.length_map, List.length_map, length_pruneContextRefs hcut hcoupled] at hlen
    exact absurd hwindow.length_le (by omega)
  · exact fun hcut => ⟨_, rfl, isWindow_pruneContextRefs hcut hcoupled⟩

/-- A question, and the call of a tool with its result. -/
def askedEcho : ConversationState where
  id := "c"
  clientId := "me"
  turns := [.user "hi" [], .toolCall "call_1" "n3:abc" "echo" .null,
    .toolResult "call_1" "n3:abc" "echo" (some (.string "hi")) none]
  highestSeq := 3

theorem held_askedEcho : Held askedEcho.turns :=
  .pair (.turn .nil (t := .user "hi" []) rfl) "call_1" "n3:abc" "echo" .null
    (some (.string "hi")) none

/-- Two turns are the call and its result. -/
theorem toChatMessages_iff_two : ∃ kept, askedEcho.toChatMessages 2 = kept.map Turn.toMessage ∧
    IsWindow (visibleTurns askedEcho.turns) kept 2 :=
  (toChatMessages_iff askedEcho held_askedEcho 2).2 (by decide)

/-- One turn would be the result, and two are sent. -/
theorem not_toChatMessages_one : Held askedEcho.turns ∧
    ¬∃ kept, askedEcho.toChatMessages 1 = kept.map Turn.toMessage ∧
      IsWindow (visibleTurns askedEcho.turns) kept 1 := by
  refine ⟨held_askedEcho, ?_⟩
  rintro ⟨kept, hkept, hwindow⟩
  have hlen : (askedEcho.toChatMessages 1).length = 2 := rfl
  rw [hkept, List.length_map] at hlen
  exact absurd (hlen.symm.le.trans hwindow.length_le) (by decide)

end N3ur0n
