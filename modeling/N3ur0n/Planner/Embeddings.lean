import N3ur0n.Manifests.BaseUrl
import N3ur0n.Planner.PlanJson

/-!
# Embeddings

A batch of texts is sent to an endpoint, which answers with one vector for each,
in any order: every vector comes with the index of its text, and is put at its
place. The answer is refused if their number is not that of the texts, if an
index is out of range, or if a place remains empty.

* `embed_pairs`: an answer that is accepted has every index once, and every text
  gets its vector.
-/

namespace N3ur0n

open BlobTicketPayload (stringOf)

inductive AdapterError
  | unknownCapability (name : String)
  | transport (message : String)
  | backend (message : String)
  | serde
  deriving DecidableEq

/-- A vector, with the index of its text. -/
structure EmbeddingDatum (F : Type) where
  embedding : List F
  index : ℕ

structure EmbeddingConfig where
  baseUrl : String
  model : String
  apiKey : Option String

structure EmbeddingClient where
  baseUrl : String
  model : String
  apiKey : Option String

def EmbeddingClient.new (config : EmbeddingConfig) : EmbeddingClient :=
  ⟨normalizeOpenaiBaseUrl config.baseUrl, config.model, config.apiKey⟩

/-- What is sent to the endpoint. -/
structure EmbeddingRequest where
  url : String
  bearer : Option String
  body : Value

/-- What it answers: a status, by its number and its text, and the bytes of the body,
    unless they cannot be received. -/
structure EmbeddingReply where
  status : ℕ
  statusText : String
  body : Except String Bytes

/-- What is not of the program: how numbers are rounded to single precision, and bytes
    are shown. -/
structure EmbeddingWire (F : Type) where
  nearest : String → Option String
  toSingle : Number → F
  utf8Lossy : Bytes → List Char

section

variable {F : Type} (W : EmbeddingWire F)

/-! ## The response -/

def singlesOf : Value → Option (List F)
  | .array xs => xs.mapM fun
    | .number n => some (W.toSingle n)
    | _ => none
  | _ => none

/-- An index of a machine word. -/
def usizeOf : Value → Option ℕ
  | .number (.int i) => if 0 ≤ i ∧ i < 2 ^ 64 then some i.toNat else none
  | _ => none

/-- The index is zero if it is missing. -/
def EmbeddingDatum.ofValue : Value → Option (EmbeddingDatum F)
  | .object fs => do
    let embedding ← required fs "embedding" (singlesOf W)
    let index ← defaulted fs "index" usizeOf 0
    return ⟨embedding, index⟩
  | .array [embedding] => (singlesOf W embedding).map fun xs => ⟨xs, 0⟩
  | .array [embedding, index] => do
    let embedding ← singlesOf W embedding
    let index ← usizeOf index
    return ⟨embedding, index⟩
  | _ => none

def datumsOf : Value → Option (List (EmbeddingDatum F))
  | .array xs => xs.mapM (EmbeddingDatum.ofValue W)
  | _ => none

/-- The data of an `EmbeddingResponse`. -/
def responseOf : Value → Option (List (EmbeddingDatum F))
  | .object fs => required fs "data" (datumsOf W)
  | .array [data] => datumsOf W data
  | _ => none

def parseResponse (body : Bytes) : Option (List (EmbeddingDatum F)) := do
  let text ← ofUtf8 body
  let v ← Json.readText (Json.numberOf W.nearest) Json.recursionLimit text
  responseOf W v

/-! ## The batch -/

/-- A vector is put at the place of its text. -/
def place (out : List (List F)) (d : EmbeddingDatum F) : Except AdapterError (List (List F)) :=
  if d.index < out.length then .ok (out.set d.index d.embedding)
  else .error (.backend s!"embeddings endpoint returned out-of-range index {d.index}")

/-- The vectors by their indices, for `n` texts. -/
def placeAll (n : ℕ) (data : List (EmbeddingDatum F)) : Except AdapterError (List (List F)) := do
  Except.reject (data.length ≠ n)
    (.backend s!"embeddings endpoint returned {data.length} vectors for {n} inputs")
  let out ← data.foldlM place (List.replicate n [])
  match out.findIdx? List.isEmpty with
  | some pos => throw (.backend s!"embeddings endpoint returned no vector for input {pos}")
  | none => return out

namespace EmbeddingClient

def request (client : EmbeddingClient) (texts : List String) : EmbeddingRequest where
  url := s!"{client.baseUrl}/v1/embeddings"
  bearer := client.apiKey
  body := .object [("input", .array (texts.map .string)), ("model", .string client.model)]

/-- The data that the endpoint answers with. -/
def answer (reply : EmbeddingReply) : Except AdapterError (List (EmbeddingDatum F)) := do
  let bytes ← reply.body.mapError .transport
  let shown := String.ofList ((W.utf8Lossy bytes).take 200)
  Except.reject (¬(200 ≤ reply.status ∧ reply.status < 300))
    (.backend s!"embeddings endpoint returned {reply.statusText}: {shown}")
  (parseResponse W bytes).elim (.error .serde) .ok

/-- `embed`, where `post` sends a request. No request is sent for no text. -/
def embed (client : EmbeddingClient) (post : EmbeddingRequest → Except String EmbeddingReply)
    (texts : List String) : Except AdapterError (List (List F)) :=
  if texts = [] then .ok [] else do
    let reply ← (post (client.request texts)).mapError .transport
    let data ← answer W reply
    placeAll texts.length data

end EmbeddingClient

end

/-! ## Places -/

variable {F : Type} {W : EmbeddingWire F} {data : List (EmbeddingDatum F)} {d : EmbeddingDatum F}
  {out out' : List (List F)} {n i : ℕ}

theorem place_eq_ok :
    place out d = .ok out' ↔ d.index < out.length ∧ out.set d.index d.embedding = out' := by
  rw [place]
  split_ifs with h
  · simp [h]
  · simp [h]

/-- Every place has a vector of its index, or what it had if there is none. -/
theorem foldlM_place (h : data.foldlM place out = .ok out') :
    out'.length = out.length ∧ (∀ d ∈ data, d.index < out.length) ∧
      ∀ i, (∃ d ∈ data, d.index = i ∧ out'[i]? = some d.embedding) ∨
        (∀ d ∈ data, d.index ≠ i) ∧ out'[i]? = out[i]? := by
  induction data generalizing out with
  | nil =>
    obtain rfl := Except.ok.inj h
    exact ⟨rfl, by simp, fun i => .inr ⟨by simp, rfl⟩⟩
  | cons d data ih =>
    rw [List.foldlM_cons] at h
    obtain ⟨out₁, hplace, hrest⟩ := Except.bind_eq_ok.1 h
    obtain ⟨hlt, rfl⟩ := place_eq_ok.1 hplace
    obtain ⟨hlen, hall, hslots⟩ := ih hrest
    rw [List.length_set] at hlen hall
    refine ⟨hlen, List.forall_mem_cons.2 ⟨hlt, hall⟩, fun i => ?_⟩
    rcases hslots i with ⟨d', hd', hi, hslot⟩ | ⟨hnone, hslot⟩
    · exact .inl ⟨d', List.mem_cons_of_mem d hd', hi, hslot⟩
    · by_cases hi : d.index = i
      · subst hi
        exact .inl ⟨d, List.mem_cons_self, rfl, by rw [hslot, List.getElem?_set_self hlt]⟩
      · rw [List.getElem?_set_ne hi] at hslot
        exact .inr ⟨List.forall_mem_cons.2 ⟨hi, hnone⟩, hslot⟩

theorem placeAll_eq_ok (h : placeAll n data = .ok out) :
    data.length = n ∧ data.foldlM place (List.replicate n []) = .ok out ∧ ∀ xs ∈ out, xs ≠ [] := by
  obtain ⟨hcount, h₁⟩ := Except.check_eq_ok.1 h
  obtain ⟨out', hplaces, h₂⟩ := Except.bind_eq_ok.1 h₁
  cases hempty : out'.findIdx? List.isEmpty with
  | some pos => simp [hempty, throw, throwThe, MonadExceptOf.throw] at h₂
  | none =>
    rw [hempty] at h₂
    obtain rfl := Except.ok.inj h₂
    refine ⟨not_not.1 (Except.reject_eq_ok.1 hcount), hplaces, fun xs hxs hnil => ?_⟩
    have := List.findIdx?_eq_none_iff.1 hempty xs hxs
    simp [hnil] at this

/-- The indices are those of the places, each of them once: there are as many of them,
    and no place is empty. -/
theorem placeAll_perm (h : placeAll n data = .ok out) :
    (data.map (·.index)).Perm (List.range n) ∧
      ∀ d ∈ data, out[d.index]? = some d.embedding ∧ d.embedding ≠ [] := by
  obtain ⟨hcount, hplaces, hfull⟩ := placeAll_eq_ok h
  obtain ⟨hlen, hrange, hslots⟩ := foldlM_place hplaces
  rw [List.length_replicate] at hlen hrange
  have hsub : List.range n ⊆ data.map (·.index) := by
    intro i hi
    have hi' : i < out.length := hlen ▸ List.mem_range.1 hi
    rcases hslots i with ⟨d, hd, hdi, -⟩ | ⟨-, hslot⟩
    · exact List.mem_map.2 ⟨d, hd, hdi⟩
    · rw [List.getElem?_replicate, if_pos (List.mem_range.1 hi)] at hslot
      exact absurd rfl (hfull [] (List.mem_of_getElem? hslot))
  have hperm : (data.map (·.index)).Perm (List.range n) := by
    have hsubperm := List.subperm_of_subset List.nodup_range hsub
    exact (hsubperm.perm_of_length_le (by simp [hcount])).symm
  refine ⟨hperm, fun d hd => ?_⟩
  -- No other datum has its index.
  have hnodup : (data.map (·.index)).Nodup := hperm.nodup_iff.2 List.nodup_range
  rcases hslots d.index with ⟨d', hd', hi, hslot⟩ | ⟨hnone, -⟩
  · obtain rfl := List.inj_on_of_nodup_map hnodup hd' hd hi
    exact ⟨hslot, hfull _ (List.mem_of_getElem? hslot)⟩
  · exact absurd rfl (hnone d hd)

/-- An answer is accepted only if it has every index once; every text then gets its
    vector, which is not empty. No answer is asked for no text. -/
theorem embed_pairs (W : EmbeddingWire F) (client : EmbeddingClient)
    (post : EmbeddingRequest → Except String EmbeddingReply) (texts : List String)
    (h : client.embed W post texts = .ok out) :
    out.length = texts.length ∧ (texts ≠ [] →
      ∃ reply data, post (client.request texts) = .ok reply ∧
        EmbeddingClient.answer W reply = .ok data ∧
        (data.map (·.index)).Perm (List.range texts.length) ∧
          ∀ d ∈ data, out[d.index]? = some d.embedding ∧ d.embedding ≠ []) := by
  rw [EmbeddingClient.embed] at h
  split_ifs at h with hnil
  · obtain rfl := Except.ok.inj h
    exact ⟨by rw [hnil, List.length_nil, List.length_nil], fun hne => absurd hnil hne⟩
  · obtain ⟨reply, hpost, h₁⟩ := Except.bind_eq_ok.1 h
    obtain ⟨data, hanswer, h₂⟩ := Except.bind_eq_ok.1 h₁
    obtain ⟨-, hplaces, -⟩ := placeAll_eq_ok h₂
    have hlen := (foldlM_place hplaces).1
    rw [List.length_replicate] at hlen
    exact ⟨hlen, fun _ => ⟨reply, data, Except.mapError_eq_ok.1 hpost, hanswer, placeAll_perm h₂⟩⟩

/-- Vectors of integers. -/
def intEmbeddings : EmbeddingWire ℤ where
  nearest _ := none
  toSingle
    | .int i => i
    | .float _ => 0
  utf8Lossy _ := []

/-- Two vectors, the second one first. -/
def swappedText : List Char :=
  "\x7b\"data\":[\x7b\"embedding\":[5],\"index\":1\x7d,\x7b\"embedding\":[3]\x7d]\x7d".toList

def swappedReply : EmbeddingReply := ⟨200, "200 OK", .ok (utf8 swappedText)⟩

theorem answer_swapped :
    EmbeddingClient.answer intEmbeddings swappedReply = .ok [⟨[5], 1⟩, ⟨[3], 0⟩] := by
  have hparse : parseResponse intEmbeddings (utf8 swappedText) = some [⟨[5], 1⟩, ⟨[3], 0⟩] := by
    rw [parseResponse, ofUtf8_utf8]
    rfl
  exact congrArg (fun o => Option.elim o (Except.error AdapterError.serde) Except.ok) hparse

theorem embed_pairs_swapped :
    ∃ reply data, swappedReply = reply ∧ EmbeddingClient.answer intEmbeddings reply = .ok data ∧
      (data.map (·.index)).Perm (List.range 2) ∧
        ∀ d ∈ data, ([[3], [5]] : List (List ℤ))[d.index]? = some d.embedding ∧
          d.embedding ≠ [] := by
  have hembed : EmbeddingClient.embed intEmbeddings ⟨"u", "m", none⟩ (fun _ => .ok swappedReply)
      ["a", "b"] = .ok [[3], [5]] := by
    change (EmbeddingClient.answer intEmbeddings swappedReply).bind (placeAll 2) = _
    rw [answer_swapped]
    rfl
  obtain ⟨reply, data, hpost, hanswer, hdata⟩ := (embed_pairs _ _ _ _ hembed).2 (by decide)
  exact ⟨reply, data, Except.ok.inj hpost, hanswer, hdata⟩

end N3ur0n
