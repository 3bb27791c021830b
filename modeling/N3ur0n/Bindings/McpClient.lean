import N3ur0n.Blobs.Ticket
import N3ur0n.JsonCut
import N3ur0n.Lib.Run
import N3ur0n.Planner.Reference

/-!
# The MCP client

A session writes its requests to a server, one at a time, and reads lines until one has
the id of the request. The server sends responses, notifications, and requests of its
own, whose ids it chooses. A call may be cancelled at any point, and what it has read of a
line is then lost.

* `readLine_rest`: a line whose beginning was lost is never taken for another message;
* `begun_nodup`: no two calls have the same id;
* `matched_iff`: only responses are returned, each to the request that it answers,
  exactly when no call reads a request of the server with its own id;
* `matched_of_ids`: so it is when the server's requests have texts for ids.
-/

namespace N3ur0n.McpClient

open BlobTicketPayload (i64Of stringOf)
open Cut Json Run

inductive McpError
  | io
  | protocol (message : String)
  | application (code : ℤ) (message : String)
  | serde
  deriving DecidableEq

/-- The field of a message. A key that is repeated has its last value. -/
def field (key : String) : Value → Option Value
  | .object fields => fields.reverse.lookup key
  | _ => none

def idOf (msg : Value) : Option ℤ := (field "id" msg).bind i64Of

/-- What a message is to the call that waits for `id`, unless it is ignored. -/
def answerTo (id : ℤ) (msg : Value) : Option (Except McpError Value) :=
  if idOf msg = some id then
    some (match field "error" msg with
      | some err => .error (.application (((field "code" err).bind i64Of).getD 0)
          (((field "message" err).bind stringOf).getD "(no message)"))
      | none => .ok ((field "result" msg).getD .null))
  else none

section

variable (nearest : String → Option String)

def parse (text : List Char) : Option Value := readText (numberOf nearest) recursionLimit text

/-- What is read of a line, unless it is blank. -/
def readLine (line : List Char) : Option (Except McpError Value) :=
  if trim isWhitespace line = [] then none
  else some ((parse nearest (trim isWhitespace line)).elim (.error .serde) .ok)

inductive Kind
  | response (id : ℤ)
  /-- An error about a message whose id the server could not read. -/
  | fault
  | notification
  | request
  deriving DecidableEq

/-- The messages of JSON-RPC: a response has a result or an error, and the id of what it
    answers, which is null when it is not known. -/
def Kind.Conforms (msg : Value) : Kind → Prop
  | .response id => idOf msg = some id ∧ field "method" msg = none ∧
      ((field "result" msg).isSome ≠ (field "error" msg).isSome)
  | .fault => field "id" msg = some .null ∧ field "method" msg = none ∧
      (field "error" msg).isSome ∧ field "result" msg = none
  | .notification => (field "method" msg).isSome ∧ field "id" msg = none
  | .request => (field "method" msg).isSome ∧ (field "id" msg).isSome

/-- A message of the server, on a line. -/
structure Sent where
  kind : Kind
  text : List Char
  fields : List (String × Value)
  parses : parse nearest (trim isWhitespace text) = some (.object fields)
  conforms : kind.Conforms (.object fields)

/-- What is left of a line. -/
structure Line where
  sent : Sent nearest
  rest : List Char
  suffix : rest <:+ sent.text

/-- What a call returns, and the message it was told by, if any. -/
structure Return where
  id : ℤ
  outcome : Except McpError Value
  source : Option (Sent nearest)

structure Session where
  nextId : ℤ
  /-- The id of the call in progress. -/
  waiting : Option ℤ
  /-- What the server has written, and was not read. -/
  pipe : List (Line nearest)
  /-- The ids of the calls, the last one first. -/
  begun : List ℤ
  returned : List (Return nearest)

inductive Action
  /-- A call begins, and writes its request. -/
  | call
  /-- The server writes a line. -/
  | serve (sent : Sent nearest)
  /-- The call reads a line. -/
  | read
  /-- The call fails, by an input or output error, or as the server is gone. -/
  | fail (e : McpError) (lost : ℕ)
  /-- The call is dropped, with what it has read of a line. -/
  | cancel (lost : ℕ)

end

variable {nearest : String → Option String}

def Line.drop (lost : ℕ) (line : Line nearest) : Line nearest where
  sent := line.sent
  rest := line.rest.drop lost
  suffix := (List.drop_suffix lost line.rest).trans line.suffix

def eof : McpError := .protocol "mcp server closed stdout (EOF)"

namespace Session

def new : Session nearest := ⟨1, none, [], [], []⟩

/-- The call ends. -/
def finish (σ : Session nearest) (r : Return nearest) : Session nearest :=
  { σ with waiting := none, returned := r :: σ.returned }

/-- The line that the call has begun to read. -/
def lose (σ : Session nearest) (lost : ℕ) : Session nearest :=
  { σ with pipe := match σ.pipe with
    | [] => []
    | line :: pipe => line.drop lost :: pipe }

/-- The call reads a line: it returns, or waits for the next one. -/
def hear (σ : Session nearest) (id : ℤ) (line : Line nearest) : Session nearest :=
  match readLine nearest line.rest with
  | none => σ
  | some (.error e) => σ.finish ⟨id, .error e, none⟩
  | some (.ok msg) =>
    match answerTo id msg with
    | none => σ
    | some outcome => σ.finish ⟨id, outcome, some line.sent⟩

/-- The server answers requests it may have got, and a session has one call at a time. -/
def step (σ : Session nearest) : Action nearest → Option (Session nearest)
  | .call =>
    if σ.waiting = none then
      some { σ with nextId := σ.nextId + 1, waiting := some σ.nextId, begun := σ.nextId :: σ.begun }
    else none
  | .serve sent =>
    if ∀ id ∈ (match sent.kind with | .response id => some id | _ => none), id ∈ σ.begun then
      some { σ with pipe := σ.pipe ++ [⟨sent, sent.text, List.suffix_rfl⟩] }
    else none
  | .read =>
    match σ.waiting, σ.pipe with
    | some id, line :: pipe => some ({ σ with pipe }.hear id line)
    | _, _ => none
  | .fail e lost =>
    match σ.waiting with
    | some id => if e = .io ∨ e = eof then some ((σ.lose lost).finish ⟨id, .error e, none⟩) else none
    | none => none
  | .cancel lost =>
    if σ.waiting = none then none else some { σ.lose lost with waiting := none }

end Session

/-- What the server said to a call, rather than that it could not be heard. -/
def IsReply : Except McpError Value → Prop
  | .ok _ => True
  | .error (.application _ _) => True
  | .error _ => False

/-- The call returns what the response to its request tells it. -/
def Return.FromResponse (r : Return nearest) : Prop :=
  ∃ sent, r.source = some sent ∧ sent.kind = .response r.id ∧
    answerTo r.id (.object sent.fields) = some r.outcome

/-- All that the calls returned was from the responses to their requests. -/
def Matched (σ : Session nearest) : Prop :=
  ∀ r ∈ σ.returned, IsReply r.outcome → r.FromResponse

/-- Nothing but spaces of the line is lost. -/
def Line.Whole (line : Line nearest) : Prop :=
  trim isWhitespace line.rest = trim isWhitespace line.sent.text

/-- A call reads a request of the server, which has the id that the call waits for. -/
def Clash (σ : Session nearest) : Action nearest → Prop
  | .read => ∃ id line, σ.waiting = some id ∧ σ.pipe.head? = some line ∧ line.Whole ∧
      line.sent.kind = .request ∧ idOf (.object line.sent.fields) = some id
  | _ => False

/-! ## Lines -/

theorem parse_nil : parse nearest [] = none := rfl

theorem readLine_whole {line : Line nearest} (h : line.Whole) :
    readLine nearest line.rest = some (.ok (.object line.sent.fields)) := by
  have hparses := line.sent.parses
  rw [← h] at hparses
  have hne : trim isWhitespace line.rest ≠ [] := fun hnil => by
    rw [hnil, parse_nil] at hparses
    exact absurd hparses (by simp)
  rw [readLine, if_neg hne, hparses]
  rfl

/-- What is left of a line is blank or an error, unless it is the whole line. -/
theorem readLine_rest (line : Line nearest) : readLine nearest line.rest = none ∨
    readLine nearest line.rest = some (.error .serde) ∨ line.Whole := by
  obtain ⟨lost, hlost⟩ := line.suffix
  by_cases hblank : ∀ c ∈ line.rest, isWhitespace c
  · exact .inl (if_pos (trim_eq_nil hblank))
  · by_cases hspaces : ∀ c ∈ lost, isWhitespace c
    · refine .inr (.inr ?_)
      rw [Line.Whole, ← hlost, trim_append_of_forall hspaces]
    · push Not at hblank hspaces
      have hlostText : ∃ c ∈ lost, ¬ isWhitespace c :=
        hspaces.imp fun c h => ⟨h.1, by simpa using h.2⟩
      have hrestText : ∃ c ∈ line.rest, ¬ isWhitespace c :=
        hblank.imp fun c h => ⟨h.1, by simpa using h.2⟩
      obtain ⟨u, htrim, c, hc, hspace⟩ := exists_trim_append hlostText hrestText
      have hparses := line.sent.parses
      rw [← hlost, htrim] at hparses
      have hnone : parse nearest (trim isWhitespace line.rest) = none :=
        readText_rest hparses ⟨c, hc, fun h => hspace (isWhitespace_of_isSpace h)⟩
      by_cases hnil : trim isWhitespace line.rest = []
      · exact .inl (if_pos hnil)
      · refine .inr (.inl ?_)
        rw [readLine, if_neg hnil, hnone]
        rfl

theorem answerTo_eq_some {id : ℤ} {msg : Value} {outcome : Except McpError Value}
    (h : answerTo id msg = some outcome) : idOf msg = some id ∧ IsReply outcome := by
  rw [answerTo] at h
  split_ifs at h with hid
  refine ⟨hid, ?_⟩
  obtain rfl := Option.some.inj h
  split
  · trivial
  · trivial

theorem answerTo_eq_none {id : ℤ} {msg : Value} : answerTo id msg = none ↔ idOf msg ≠ some id := by
  rw [answerTo]
  split_ifs with hid
  · simp [hid]
  · simp [hid]

/-! ## Runs -/

variable {σ τ : Session nearest} {a : Action nearest} {id : ℤ} {r : Return nearest}

theorem matched_finish (h : IsReply r.outcome) :
    Matched (σ.finish r) ↔ Matched σ ∧ r.FromResponse := by
  simp only [Matched, Session.finish, List.forall_mem_cons, h, true_imp_iff]
  exact and_comm

theorem matched_finish_of_not (h : ¬ IsReply r.outcome) :
    Matched (σ.finish r) ↔ Matched σ := by
  simp only [Matched, Session.finish, List.forall_mem_cons, h, false_imp_iff, true_and]

/-- A message that the call takes is a response to it, or a request of the server. -/
theorem fromResponse_iff {sent : Sent nearest} {outcome : Except McpError Value}
    (h : answerTo id (.object sent.fields) = some outcome) :
    Return.FromResponse ⟨id, outcome, some sent⟩ ↔ sent.kind ≠ .request := by
  obtain ⟨hid, -⟩ := answerTo_eq_some h
  have hconforms := sent.conforms
  constructor
  · rintro ⟨sent', hsource, hkind, -⟩
    obtain rfl := Option.some.inj hsource
    rw [hkind]
    exact nofun
  · intro hkind
    refine ⟨sent, rfl, ?_, h⟩
    rcases hk : sent.kind with id' | _ | _ | _
    · rw [hk] at hconforms
      rw [Option.some.inj (hconforms.1.symm.trans hid)]
    · -- No number is null.
      rw [hk] at hconforms
      rw [idOf, hconforms.1] at hid
      exact absurd hid (by simp [i64Of])
    · rw [hk] at hconforms
      rw [idOf, hconforms.2] at hid
      exact absurd hid (by simp)
    · exact absurd hk hkind

/-- What a call makes of a line. -/
theorem matched_hear (line : Line nearest) : Matched (σ.hear id line) ↔ Matched σ ∧
    ¬ (line.Whole ∧ line.sent.kind = .request ∧ idOf (.object line.sent.fields) = some id) := by
  have hnot (h : ∀ msg, readLine nearest line.rest ≠ some (.ok msg)) : ¬ line.Whole :=
    fun hwhole => h _ (readLine_whole hwhole)
  rcases readLine_rest line with hnone | hserde | hwhole
  · rw [Session.hear, hnone, iff_self_and]
    exact fun _ h => hnot (by simp [hnone]) h.1
  · have herror : ¬ IsReply (.error .serde) := not_false
    rw [Session.hear, hserde]
    simp only
    rw [matched_finish_of_not (r := ⟨id, .error .serde, none⟩) herror, iff_self_and]
    exact fun _ h => hnot (by simp [hserde]) h.1
  · rw [Session.hear, readLine_whole hwhole]
    rcases hanswer : answerTo id (.object line.sent.fields) with _ | outcome
    · simp only [hanswer]
      rw [iff_self_and]
      exact fun _ h => answerTo_eq_none.1 hanswer h.2.2
    · obtain ⟨hid, hreply⟩ := answerTo_eq_some hanswer
      simp only [hanswer]
      rw [matched_finish (r := ⟨id, outcome, some line.sent⟩) hreply, fromResponse_iff hanswer,
        and_iff_right hwhole, and_iff_left hid]

theorem matched_step (h : σ.step a = some τ) : Matched τ ↔ Matched σ ∧ ¬ Clash σ a := by
  rcases a with _ | sent | _ | ⟨e, lost⟩ | lost
  · simp only [Session.step] at h
    split_ifs at h
    obtain rfl := Option.some.inj h
    exact (and_iff_left not_false).symm
  · simp only [Session.step] at h
    split_ifs at h
    obtain rfl := Option.some.inj h
    exact (and_iff_left not_false).symm
  · rcases hwaiting : σ.waiting with _ | id
    · exact absurd h (by simp [Session.step, hwaiting])
    · rcases hpipe : σ.pipe with _ | ⟨line, pipe⟩
      · exact absurd h (by simp [Session.step, hwaiting, hpipe])
      · simp only [Session.step, hwaiting, hpipe] at h
        obtain rfl := Option.some.inj h
        rw [matched_hear]
        refine and_congr Iff.rfl (not_congr ⟨fun h => ⟨id, line, hwaiting, ?_, h⟩, ?_⟩)
        · rw [hpipe, List.head?_cons]
        · rintro ⟨id', line', hid', hline', hclash⟩
          rw [hwaiting, Option.some_inj] at hid'
          rw [hpipe, List.head?_cons, Option.some_inj] at hline'
          exact hid' ▸ hline' ▸ hclash
  · rcases hwaiting : σ.waiting with _ | id
    · exact absurd h (by simp [Session.step, hwaiting])
    · simp only [Session.step, hwaiting] at h
      split_ifs at h with he
      obtain rfl := Option.some.inj h
      have herror : ¬ IsReply (.error e) := by
        rcases he with rfl | rfl
        · exact not_false
        · exact not_false
      exact (matched_finish_of_not (r := ⟨id, .error e, none⟩) herror).trans
        (and_iff_left not_false).symm
  · simp only [Session.step] at h
    split_ifs at h
    obtain rfl := Option.some.inj h
    exact (and_iff_left not_false).symm

/-- Only responses are returned, each to the request that it answers, exactly when no call
    reads a request of the server with its own id. -/
theorem matched_iff {as : List (Action nearest)} (h : run Session.step .new as = some σ) :
    Matched σ ↔ Along Session.step (fun τ a => ¬ Clash τ a) .new as :=
  iff_along (I := fun _ => True) trivial (fun _ hr => absurd hr List.not_mem_nil)
    (fun _ _ _ _ _ => trivial) (fun _ _ _ _ => matched_step) h

/-! ## Ids -/

/-- The ids are counted up. -/
structure Counted (σ : Session nearest) : Prop where
  lt_nextId : ∀ id ∈ σ.begun, id < σ.nextId
  nodup : σ.begun.Nodup
  waiting : ∀ id ∈ σ.waiting, id ∈ σ.begun
  returned : ∀ r ∈ σ.returned, r.id ∈ σ.begun

theorem counted_finish (h : Counted σ) (hr : r.id ∈ σ.begun) : Counted (σ.finish r) where
  lt_nextId := h.lt_nextId
  nodup := h.nodup
  waiting _ hid := absurd hid (Option.not_mem_none _)
  returned := List.forall_mem_cons.2 ⟨hr, h.returned⟩

theorem counted_hear {line : Line nearest} (h : Counted σ) (hid : id ∈ σ.begun) :
    Counted (σ.hear id line) := by
  rw [Session.hear]
  split
  · exact h
  · exact counted_finish h hid
  · split
    · exact h
    · exact counted_finish h hid

theorem counted_step (h : Counted σ) (hstep : σ.step a = some τ) : Counted τ := by
  rcases a with _ | sent | _ | ⟨e, lost⟩ | lost
  · simp only [Session.step] at hstep
    split_ifs at hstep
    obtain rfl := Option.some.inj hstep
    have hnew : σ.nextId ∉ σ.begun := fun hmem => absurd (h.lt_nextId _ hmem) (lt_irrefl _)
    refine ⟨List.forall_mem_cons.2 ⟨Int.lt_succ _, fun id hid => ?_⟩,
      List.nodup_cons.2 ⟨hnew, h.nodup⟩, fun id hid => ?_, fun r hr => ?_⟩
    · exact (h.lt_nextId id hid).trans (Int.lt_succ _)
    · exact Option.some.inj hid ▸ List.mem_cons_self
    · exact List.mem_cons_of_mem _ (h.returned r hr)
  · simp only [Session.step] at hstep
    split_ifs at hstep
    obtain rfl := Option.some.inj hstep
    exact ⟨h.lt_nextId, h.nodup, h.waiting, h.returned⟩
  · rcases hwaiting : σ.waiting with _ | id
    · exact absurd hstep (by simp [Session.step, hwaiting])
    · rcases hpipe : σ.pipe with _ | ⟨line, pipe⟩
      · exact absurd hstep (by simp [Session.step, hwaiting, hpipe])
      · simp only [Session.step, hwaiting, hpipe] at hstep
        obtain rfl := Option.some.inj hstep
        refine counted_hear ⟨h.lt_nextId, h.nodup, fun id' hid' => ?_, h.returned⟩
          (h.waiting id hwaiting)
        exact h.waiting id' (hwaiting ▸ hid')
  · rcases hwaiting : σ.waiting with _ | id
    · exact absurd hstep (by simp [Session.step, hwaiting])
    · simp only [Session.step, hwaiting] at hstep
      split_ifs at hstep
      obtain rfl := Option.some.inj hstep
      exact counted_finish ⟨h.lt_nextId, h.nodup, h.waiting, h.returned⟩ (h.waiting id hwaiting)
  · simp only [Session.step] at hstep
    split_ifs at hstep
    obtain rfl := Option.some.inj hstep
    exact ⟨h.lt_nextId, h.nodup, fun id hid => absurd hid (Option.not_mem_none id), h.returned⟩

/-- No two calls have the same id. -/
theorem begun_nodup {as : List (Action nearest)} (h : run Session.step .new as = some σ) :
    σ.begun.Nodup :=
  have hnew : Counted (.new : Session nearest) :=
    ⟨fun _ hid => absurd hid List.not_mem_nil, List.nodup_nil,
      fun _ hid => absurd hid (Option.not_mem_none _), fun _ hr => absurd hr List.not_mem_nil⟩
  (run_invariant (fun _ _ _ => counted_step) hnew h).nodup

theorem pipe_hear (line : Line nearest) : (σ.hear id line).pipe = σ.pipe := by
  rw [Session.hear]
  split
  · rfl
  · rfl
  · split
    · rfl
    · rfl

theorem sent_lose {lost : ℕ} : (σ.lose lost).pipe.map (·.sent) = σ.pipe.map (·.sent) := by
  rw [Session.lose]
  split
  · next h => rw [h]
  · next h => rw [h]; rfl

/-- The lines that are not read are among those that the server has written. -/
theorem sent_step (h : σ.step a = some τ) {sent : Sent nearest}
    (hsent : sent ∈ τ.pipe.map (·.sent)) : sent ∈ σ.pipe.map (·.sent) ∨ a = .serve sent := by
  rcases a with _ | sent' | _ | ⟨e, lost⟩ | lost
  · simp only [Session.step] at h
    split_ifs at h
    obtain rfl := Option.some.inj h
    exact .inl hsent
  · simp only [Session.step] at h
    split_ifs at h
    obtain rfl := Option.some.inj h
    rw [List.map_append, List.mem_append] at hsent
    exact hsent.imp_right fun hsent => by rw [List.mem_singleton.1 hsent]
  · rcases hwaiting : σ.waiting with _ | id
    · exact absurd h (by simp [Session.step, hwaiting])
    · rcases hpipe : σ.pipe with _ | ⟨line, pipe⟩
      · exact absurd h (by simp [Session.step, hwaiting, hpipe])
      · simp only [Session.step, hwaiting, hpipe] at h
        obtain rfl := Option.some.inj h
        rw [pipe_hear] at hsent
        exact .inl (List.mem_cons_of_mem _ hsent)
  · rcases hwaiting : σ.waiting with _ | id
    · exact absurd h (by simp [Session.step, hwaiting])
    · simp only [Session.step, hwaiting] at h
      split_ifs at h
      obtain rfl := Option.some.inj h
      exact .inl (sent_lose (σ := σ) ▸ hsent)
  · simp only [Session.step] at h
    split_ifs at h
    obtain rfl := Option.some.inj h
    exact .inl (sent_lose (σ := σ) ▸ hsent)

/-- When the ids of the server's requests are no integers, only responses are returned. -/
theorem matched_of_ids {as : List (Action nearest)} (h : run Session.step .new as = some σ)
    (hids : ∀ sent, .serve sent ∈ as → sent.kind = .request →
      idOf (.object sent.fields) = none) : Matched σ := by
  have hrun := run_induction (P := fun as τ => (∀ sent, .serve sent ∈ as → sent.kind = .request →
      idOf (.object sent.fields) = none) →
    Matched τ ∧ ∀ sent ∈ τ.pipe.map (·.sent), .serve sent ∈ as) ?_ ?_ h
  · exact (hrun hids).1
  · exact fun _ => ⟨fun _ hr => absurd hr List.not_mem_nil, fun _ hs => absurd hs List.not_mem_nil⟩
  · intro as τ a τ' ih hstep hids
    obtain ⟨hmatched, hpipe⟩ := ih fun sent hsent => hids sent (List.mem_append_left _ hsent)
    refine ⟨(matched_step hstep).2 ⟨hmatched, fun hclash => ?_⟩, fun sent hsent => ?_⟩
    · rcases a with _ | _ | _ | _ | _
      · exact hclash
      · exact hclash
      · obtain ⟨id, line, -, hline, -, hkind, hid⟩ := hclash
        have hmem := List.mem_map_of_mem (f := fun line : Line nearest => line.sent)
          (List.mem_of_mem_head? hline)
        rw [hids _ (List.mem_append_left _ (hpipe _ hmem)) hkind] at hid
        exact absurd hid (by simp)
      · exact hclash
      · exact hclash
    · rcases sent_step hstep hsent with hsent | rfl
      · exact List.mem_append_left _ (hpipe sent hsent)
      · exact List.mem_append_right _ (List.mem_singleton_self _)

/-! ## A ping -/

/-- The numbers of these messages are integers. -/
def noFloats (_ : String) : Option String := none

def pingText : List Char := "\x7b\"id\":1,\"method\":\"ping\"\x7d".toList

theorem parse_ping : parse noFloats (trim isWhitespace pingText) =
    some (.object [("id", .number (.int 1)), ("method", .string "ping")]) := by
  have htrim : trim isWhitespace pingText = pingText := rfl
  rw [htrim]
  rfl

/-- The server asks whether the client is there, with an id of its own. -/
def ping : Sent noFloats := ⟨.request, pingText, _, parse_ping, rfl, rfl⟩

def pongText : List Char := "\x7b\"id\":1,\"result\":true\x7d".toList

theorem parse_pong : parse noFloats (trim isWhitespace pongText) =
    some (.object [("id", .number (.int 1)), ("result", .bool true)]) := by
  have htrim : trim isWhitespace pongText = pongText := rfl
  rw [htrim]
  rfl

/-- The response to the first request. -/
def pong : Sent noFloats := ⟨.response 1, pongText, _, parse_pong, by decide, rfl, by decide⟩

/-- The session after a call has read a line. -/
def heard (sent : Sent noFloats) : Session noFloats :=
  .hear ⟨2, some 1, [], [1], []⟩ 1 ⟨sent, sent.text, List.suffix_rfl⟩

theorem matched_iff_pong : Matched (heard pong) ↔
    Along Session.step (fun τ a => ¬ Clash τ a) .new [.call, .serve pong, .read] :=
  matched_iff rfl

/-- The ping of the server is taken for the response to the first request. -/
theorem ping_not_matched : run Session.step .new [.call, .serve ping, .read] = some (heard ping) ∧
    ¬ Matched (heard ping) := by
  refine ⟨rfl, fun h => ?_⟩
  exact ((matched_hear _).1 h).2 ⟨rfl, rfl, by decide⟩

end N3ur0n.McpClient
