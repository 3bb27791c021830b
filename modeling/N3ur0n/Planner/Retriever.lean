import N3ur0n.Lib.Cut
import N3ur0n.Lib.Memo
import N3ur0n.Planner.Embeddings

/-!
# The retriever

The tools are scored against a query, by the words they share and by the vectors of
their texts. The vector of a tool is kept, under a key made of the model, the peer, and
the name and the version of the capability, and only the missing ones are asked for, in
one batch with the query.

* `embed_eq`: a batch gives the vectors of its texts, when the service is a function of
  them;
* `semanticScores_eq`: every tool has the score of its own text, after any calls, when no
  two tools with the same key have different texts;
* `keysTell_of_noBar`: so do those whose peer ids and names have no bar in them;
* `clash_misranks`: otherwise, one of two such tools has the score of the other one.
-/

namespace N3ur0n.Retriever

open Cut Memo

/-- What the retriever reads of a tool: its id, and the texts it is found by. -/
structure Tool where
  peerId : String
  name : String
  version : String
  description : String
  tags : List String
  disambiguation : Option String
  outputSemantic : Option String
  /-- The user intents of the examples. -/
  examples : List String
  negativeExamples : List String
  deriving DecidableEq

def searchableText (t : Tool) : String :=
  t.name ++ " " ++ t.description ++ " " ++ String.join (t.tags.map (· ++ " ")) ++
    (t.disambiguation.elim "" (· ++ " ")) ++ (t.outputSemantic.elim "" (· ++ " ")) ++
    String.join (t.examples.map (· ++ " ")) ++ String.join (t.negativeExamples.map (· ++ " "))

def cacheKey (model : String) (t : Tool) : String :=
  s!"{model}|{t.peerId}|{t.name}|{t.version}"

/-- How vectors are compared, in single precision. -/
structure Cosine (F : Type) where
  cosineSimilarity : List F → List F → F
  zero : F

/-- How the words are scored, and both scores blended. -/
structure Blend (F : Type) where
  bm25Scores : List Tool → String → List F
  fuse : List F → List F → List F

/-- The vectors by their keys. -/
abbrev Cache (F : Type) := Table String (List F)

/-- Why there are no semantic scores: the batch failed, or the retriever panicked as there
    was no vector of the query. -/
inductive ScoreError
  | adapter (e : AdapterError)
  | noQuery
  deriving DecidableEq

section

variable {F : Type} (S : Cosine F) (model : String)
  (embed : List String → Except AdapterError (List (List F)))

/-- The texts of a batch: the query, then those of the missing tools. -/
def inputs (cache : Cache F) (tools : List Tool) (query : String) : List String :=
  query :: (missing (cacheKey model) cache tools).map searchableText

/-- The vectors of a batch are kept, and the tools are compared with the query. -/
def compare (cache : Cache F) (tools : List Tool) :
    List (List F) → Except ScoreError (List F) × Cache F
  | [] => (.error .noQuery, cache)
  | queryVec :: capVecs =>
    let cache' := fill (cacheKey model) cache ((missing (cacheKey model) cache tools).zip capVecs)
    (.ok (tools.map fun t => ((cache'.lookup (cacheKey model t)).map
      (S.cosineSimilarity queryVec)).getD S.zero), cache')

def semanticScores (cache : Cache F) (tools : List Tool) (query : String) :
    Except ScoreError (List F) × Cache F :=
  match embed (inputs model cache tools query) with
  | .error e => (.error (.adapter e), cache)
  | .ok vectors => compare S model cache tools vectors

/-- The scores of a retriever with embeddings, which are lexical without the vectors. -/
def score (B : Blend F) (cache : Cache F) (tools : List Tool) (query : String) :
    List F × Cache F :=
  let lexical := B.bm25Scores tools query
  match semanticScores S model embed cache tools query with
  | (.ok semantic, cache') => (B.fuse lexical semantic, cache')
  | (.error _, cache') => (lexical, cache')

/-- A call, and how the service answers then. -/
structure Call where
  tools : List Tool
  query : String
  post : EmbeddingRequest → Except String EmbeddingReply

variable (W : EmbeddingWire F) (client : EmbeddingClient)

def Call.semanticScores (c : Call) (cache : Cache F) : Except ScoreError (List F) × Cache F :=
  Retriever.semanticScores S client.model (client.embed W c.post) cache c.tools c.query

/-- The cache after some calls. -/
def cacheAfter (calls : List Call) : Cache F :=
  calls.foldl (fun cache c => (c.semanticScores S W client cache).2) ∅

/-- The service is a function `E` of the text. -/
def Serves (E : String → List F) (post : EmbeddingRequest → Except String EmbeddingReply) : Prop :=
  ∀ texts reply data, post (client.request texts) = .ok reply →
    EmbeddingClient.answer W reply = .ok data →
    ∀ d ∈ data, ∀ text, texts[d.index]? = some text → d.embedding = E text

end

/-- The texts of tools with the same key are the same. -/
def KeysTell (model : String) (tools : List Tool) : Prop :=
  ∀ t ∈ tools, ∀ u ∈ tools, cacheKey model t = cacheKey model u →
    searchableText t = searchableText u

instance (model : String) (tools : List Tool) : Decidable (KeysTell model tools) :=
  inferInstanceAs (Decidable (∀ t ∈ tools, ∀ u ∈ tools, cacheKey model t = cacheKey model u →
    searchableText t = searchableText u))

variable {F : Type} {S : Cosine F} {W : EmbeddingWire F} {client : EmbeddingClient}
  {model query : String} {embed : List String → Except AdapterError (List (List F))}
  {E : String → List F} {cache : Cache F} {tools seen : List Tool} {scores : List F}

/-- A batch gives the vectors of its texts. -/
theorem embed_eq {post : EmbeddingRequest → Except String EmbeddingReply}
    (h : Serves W client E post) {texts : List String} {out : List (List F)}
    (hout : client.embed W post texts = .ok out) : out = texts.map E := by
  obtain ⟨hlength, hpairs⟩ := embed_pairs W client post texts hout
  refine List.ext_getElem? fun i => ?_
  rw [List.getElem?_map]
  rcases lt_or_ge i texts.length with hi | hi
  · have hne : texts ≠ [] := by
      rintro rfl
      exact absurd hi (Nat.not_lt_zero i)
    obtain ⟨reply, data, hpost, hanswer, hperm, hdata⟩ := hpairs hne
    obtain ⟨d, hd, rfl⟩ := List.mem_map.1 (hperm.mem_iff.2 (List.mem_range.2 hi))
    have htext := List.getElem?_eq_getElem hi
    rw [(hdata d hd).1, htext, h texts reply data hpost hanswer d hd _ htext, Option.map_some]
  · rw [List.getElem?_eq_none hi, List.getElem?_eq_none (hlength ▸ hi), Option.map_none]

/-- A call that fails leaves the cache as it is. -/
theorem semanticScores_error {e : ScoreError}
    (h : (semanticScores S model embed cache tools query).1 = .error e) :
    (semanticScores S model embed cache tools query).2 = cache := by
  revert h
  rw [semanticScores]
  rcases embed (inputs model cache tools query) with _ | _ | ⟨v, vs⟩
  · exact fun _ => rfl
  · exact fun _ => rfl
  · exact fun h => absurd h (by simp [compare])

variable (model E cache tools) in
/-- The cache with the vectors of the missing tools. -/
def filled : Cache F :=
  fill (cacheKey model) cache ((missing (cacheKey model) cache tools).zip
    ((missing (cacheKey model) cache tools).map (E ∘ searchableText)))

/-- The vectors that a batch adds, and the scores it gives. -/
theorem semanticScores_of_embed
    (h : embed (inputs model cache tools query) = .ok ((inputs model cache tools query).map E)) :
    semanticScores S model embed cache tools query =
      (.ok (tools.map fun t => (((filled model E cache tools).lookup (cacheKey model t)).map
        (S.cosineSimilarity (E query))).getD S.zero), filled model E cache tools) := by
  rw [semanticScores, h, inputs, List.map_cons, List.map_map]
  rfl

variable (S model cache tools query) in
/-- A batch either fails or gives the vectors of the texts. -/
theorem semanticScores_cases
    (h : ∀ texts out, embed texts = .ok out → out = texts.map E) :
    ((∃ e, (semanticScores S model embed cache tools query).1 = .error (.adapter e)) ∧
      (semanticScores S model embed cache tools query).2 = cache) ∨
    semanticScores S model embed cache tools query =
      (.ok (tools.map fun t => (((filled model E cache tools).lookup (cacheKey model t)).map
        (S.cosineSimilarity (E query))).getD S.zero), filled model E cache tools) := by
  rcases hembed : embed (inputs model cache tools query) with e | out
  · have herror : (semanticScores S model embed cache tools query).1 = .error (.adapter e) := by
      rw [semanticScores, hembed]
    exact .inl ⟨⟨e, herror⟩, semanticScores_error herror⟩
  · obtain rfl := h _ _ hembed
    exact .inr (semanticScores_of_embed hembed)

/-- What a call adds to the cache is known of its tools. -/
theorem Recalls.semanticScores
    (h : Recalls (cacheKey model) (E ∘ searchableText) seen cache) (htools : tools ⊆ seen)
    (hembed : ∀ texts out, embed texts = .ok out → out = texts.map E) :
    Recalls (cacheKey model) (E ∘ searchableText) seen
      (semanticScores S model embed cache tools query).2 := by
  rcases semanticScores_cases S model query cache tools hembed with ⟨-, heq⟩ | heq
  · rw [heq]
    exact h
  · rw [heq]
    exact h.fill fun t ht => htools (List.mem_of_mem_filter ht)

/-- After any calls, what is in the cache is known of their tools. -/
theorem recalls_cacheAfter {calls : List Call} (hserves : ∀ c ∈ calls, Serves W client E c.post) :
    Recalls (cacheKey client.model) (E ∘ searchableText) (calls.flatMap (·.tools))
      (cacheAfter S W client calls) := by
  induction calls using List.reverseRecOn with
  | nil => exact .empty
  | append_singleton calls c ih =>
    rw [List.forall_mem_append, List.forall_mem_singleton] at hserves
    rw [cacheAfter, List.foldl_concat, ← cacheAfter, List.flatMap_append, List.flatMap_singleton]
    exact Recalls.semanticScores ((ih hserves.1).mono (List.subset_append_left _ _))
      (List.subset_append_right _ _) fun _ _ => embed_eq hserves.2

/-- Every tool has the score of its own text, after any calls. -/
theorem semanticScores_eq {calls : List Call} {c : Call}
    (hserves : ∀ c' ∈ calls ++ [c], Serves W client E c'.post)
    (hkeys : KeysTell client.model ((calls ++ [c]).flatMap (·.tools)))
    (h : (c.semanticScores S W client (cacheAfter S W client calls)).1 = .ok scores) :
    scores = c.tools.map fun t => S.cosineSimilarity (E c.query) (E (searchableText t)) := by
  rw [List.forall_mem_append, List.forall_mem_singleton] at hserves
  rw [List.flatMap_append, List.flatMap_singleton] at hkeys
  have hrecalls := (recalls_cacheAfter (S := S) hserves.1).mono
    (List.subset_append_left _ c.tools)
  rcases semanticScores_cases S client.model c.query (cacheAfter S W client calls) c.tools
    fun _ _ => embed_eq hserves.2 with ⟨⟨e, he⟩, -⟩ | heq
  · exact absurd (h.symm.trans he) (by simp)
  · rw [Call.semanticScores, heq] at h
    rw [← Except.ok.inj h]
    refine List.map_congr_left fun t ht => ?_
    have hmem := List.mem_append_right (calls.flatMap (·.tools)) ht
    rw [filled, lookup_fill hrecalls (List.subset_append_right _ _) ht fun u hu hkey =>
      congrArg E (hkeys u hu t hmem hkey)]
    rfl

/-- The scores blend those of the texts, or are lexical when the batch fails. -/
theorem score_eq (B : Blend F) (h : ∀ texts out, embed texts = .ok out → out = texts.map E)
    (hrecalls : Recalls (cacheKey model) (E ∘ searchableText) seen cache) (htools : tools ⊆ seen)
    (hkeys : KeysTell model seen) :
    (score S model embed B cache tools query).1 = B.bm25Scores tools query ∨
      (score S model embed B cache tools query).1 = B.fuse (B.bm25Scores tools query)
        (tools.map fun t => S.cosineSimilarity (E query) (E (searchableText t))) := by
  rcases semanticScores_cases S model query cache tools h with ⟨⟨e, he⟩, -⟩ | heq
  · refine .inl ?_
    revert he
    rw [score]
    rcases semanticScores S model embed cache tools query with ⟨_ | _, cache'⟩
    · exact fun _ => rfl
    · exact fun he => absurd he (by simp)
  · refine .inr ?_
    rw [score, heq]
    refine congrArg (B.fuse _) (List.map_congr_left fun t ht => ?_)
    rw [filled, lookup_fill hrecalls htools ht fun u hu hkey =>
      congrArg E (hkeys u hu t (htools ht) hkey)]
    rfl

theorem toList_cacheKey (t : Tool) : (cacheKey model t).toList =
    model.toList ++ '|' ::
      (t.peerId.toList ++ '|' :: (t.name.toList ++ '|' :: t.version.toList)) := by
  simp [cacheKey, toString]

/-- Keys tell the peer, the name and the version apart when only the version may have a
    bar. -/
theorem cacheKey_inj {t u : Tool} (ht : '|' ∉ t.peerId.toList ∧ '|' ∉ t.name.toList)
    (hu : '|' ∉ u.peerId.toList ∧ '|' ∉ u.name.toList)
    (h : cacheKey model t = cacheKey model u) :
    t.peerId = u.peerId ∧ t.name = u.name ∧ t.version = u.version := by
  have hlist := congrArg String.toList h
  rw [toList_cacheKey, toList_cacheKey, List.append_right_inj, List.cons_inj_right] at hlist
  obtain ⟨hpeer, hrest⟩ := append_cons_inj ht.1 hu.1 hlist
  obtain ⟨hname, hversion⟩ := append_cons_inj ht.2 hu.2 hrest
  exact ⟨String.toList_inj.1 hpeer, String.toList_inj.1 hname, String.toList_inj.1 hversion⟩

/-- The texts of capabilities that their peer, name and version determine. -/
theorem keysTell_of_noBar (hbar : ∀ t ∈ tools, '|' ∉ t.peerId.toList ∧ '|' ∉ t.name.toList)
    (hdetermine : ∀ t ∈ tools, ∀ u ∈ tools,
      t.peerId = u.peerId ∧ t.name = u.name ∧ t.version = u.version →
        searchableText t = searchableText u) : KeysTell model tools :=
  fun t ht u hu hkey => hdetermine t ht u hu (cacheKey_inj (hbar t ht) (hbar u hu) hkey)

/-- Two tools with the same key share the vector of the one that comes first. -/
theorem clash_misranks {t u : Tool} (h : cacheKey model t = cacheKey model u) :
    let embed := fun texts : List String => .ok (texts.map E)
    (semanticScores S model embed (semanticScores S model embed ∅ [t] query).2 [u] query).1 =
      .ok [S.cosineSimilarity (E query) (E (searchableText t))] := by
  intro embed
  have hfirst : filled model E ∅ [t] = Finmap.insert (cacheKey model t) (E (searchableText t)) ∅ :=
    rfl
  rw [semanticScores_of_embed rfl, semanticScores_of_embed rfl, hfirst]
  have hlookup : (Finmap.insert (cacheKey model t) (E (searchableText t))
      (∅ : Cache F)).lookup (cacheKey model u) = some (E (searchableText t)) := by
    rw [← h, Finmap.lookup_insert]
  have hmissing : missing (cacheKey model)
      (Finmap.insert (cacheKey model t) (E (searchableText t)) (∅ : Cache F)) [u] = [] :=
    List.filter_cons_of_neg (by rw [hlookup]; simp)
  rw [filled, hmissing]
  simp only [List.map_cons, List.map_nil, List.zip_nil_left, fill, List.foldl_nil, hlookup]
  rfl

/-- The product of vectors, which is the similarity of those of length one. -/
def dot : Cosine ℤ where
  cosineSimilarity xs ys := (xs.zipWith (· * ·) ys).sum
  zero := 0

def clockTool : Tool := ⟨"n3:p", "time|now", "1", "clock", [], none, none, [], []⟩

/-- Another capability of the peer, with the same key. -/
def diceTool : Tool := ⟨"n3:p", "time", "now|1", "dice", [], none, none, [], []⟩

/-- The vectors of the texts, where those of the clock and the query are alike. -/
def clockVectors (text : String) : List ℤ :=
  if text = searchableText diceTool then [0, 1] else [1, 0]

def clockClient : EmbeddingClient := ⟨"u", "m", none⟩

/-- The vectors of a query and two tools. -/
def clockText : List Char :=
  ("\x7b\"data\":[\x7b\"embedding\":[1,0]\x7d,\x7b\"embedding\":[1,0],\"index\":1\x7d," ++
    "\x7b\"embedding\":[0,1],\"index\":2\x7d]\x7d").toList

def clockReply : EmbeddingReply := ⟨200, "200 OK", .ok (utf8 clockText)⟩

/-- The service answers for some texts only. -/
def clockPost (texts : List String) (request : EmbeddingRequest) : Except String EmbeddingReply :=
  if request.body = (clockClient.request texts).body then .ok clockReply else .error "down"

theorem answer_clock : EmbeddingClient.answer intEmbeddings clockReply =
    .ok [⟨[1, 0], 0⟩, ⟨[1, 0], 1⟩, ⟨[0, 1], 2⟩] := by
  have hparse : parseResponse intEmbeddings (utf8 clockText) =
      some [⟨[1, 0], 0⟩, ⟨[1, 0], 1⟩, ⟨[0, 1], 2⟩] := by
    rw [parseResponse, ofUtf8_utf8]
    rfl
  rw [EmbeddingClient.answer]
  refine Except.bind_eq_ok.2 ⟨utf8 clockText, rfl, ?_⟩
  refine Except.check_eq_ok.2 ⟨Except.reject_eq_ok.2 (by decide), ?_⟩
  rw [hparse]
  rfl

theorem embed_clock {a b c : String} :
    clockClient.embed intEmbeddings (clockPost [a, b, c]) [a, b, c] =
      .ok [[1, 0], [1, 0], [0, 1]] := by
  have hpost : clockPost [a, b, c] (clockClient.request [a, b, c]) = .ok clockReply := if_pos rfl
  rw [EmbeddingClient.embed, if_neg (List.cons_ne_nil _ _)]
  exact Except.bind_eq_ok.2 ⟨clockReply, Except.mapError_eq_ok.2 hpost,
    Except.bind_eq_ok.2 ⟨_, answer_clock, rfl⟩⟩

theorem serves_clock {a b c : String} (ha : clockVectors a = [1, 0]) (hb : clockVectors b = [1, 0])
    (hc : clockVectors c = [0, 1]) :
    Serves intEmbeddings clockClient clockVectors (clockPost [a, b, c]) := by
  intro texts reply data hpost hanswer d hd text htext
  rw [clockPost] at hpost
  split_ifs at hpost with hbody
  obtain rfl := Except.ok.inj hpost
  obtain rfl := Except.ok.inj (answer_clock.symm.trans hanswer)
  have hmap : texts.map Value.string = [a, b, c].map Value.string := by
    simpa [EmbeddingClient.request] using hbody
  obtain rfl := List.map_injective_iff.2 (fun _ _ h => Value.string.inj h) hmap
  simp only [List.mem_cons, List.not_mem_nil, or_false] at hd
  rcases hd with rfl | rfl | rfl
  · rw [← Option.some_inj.1 htext]
    exact ha.symm
  · rw [← Option.some_inj.1 htext]
    exact hb.symm
  · rw [← Option.some_inj.1 htext]
    exact hc.symm

/-- A call with the texts of two tools that are not in the cache yet. -/
def clockCall (u : Tool) : Call where
  tools := [clockTool, u]
  query := "what time is it"
  post := clockPost ["what time is it", searchableText clockTool, searchableText u]

theorem serves_clockCall {u : Tool} (h : searchableText u = searchableText diceTool) :
    Serves intEmbeddings clockClient clockVectors (clockCall u).post :=
  serves_clock (by decide) (by decide) (by rw [clockVectors, if_pos h])

theorem semanticScores_clock {u : Tool} :
    (clockCall u).semanticScores dot intEmbeddings clockClient ∅ =
      compare dot "m" ∅ [clockTool, u] [[1, 0], [1, 0], [0, 1]] := by
  rw [Call.semanticScores, semanticScores]
  have hinputs : inputs clockClient.model (∅ : Cache ℤ) (clockCall u).tools (clockCall u).query =
      ["what time is it", searchableText clockTool, searchableText u] := rfl
  rw [hinputs, clockCall, embed_clock]
  rfl

/-- The same dice, of another peer. -/
def otherDice : Tool := { diceTool with peerId := "n3:q" }

theorem semanticScores_eq_apart :
    ([1, 0] : List ℤ) = [clockTool, otherDice].map fun t =>
      dot.cosineSimilarity (clockVectors "what time is it") (clockVectors (searchableText t)) :=
  @semanticScores_eq ℤ dot intEmbeddings clockClient clockVectors [1, 0] [] (clockCall otherDice)
    (List.forall_mem_singleton.2 (serves_clockCall rfl)) (by decide)
    (by rw [cacheAfter, List.foldl_nil, semanticScores_clock]; decide)

/-- The clock is ranked by the dice of its own peer. -/
theorem clash_ranks_clock :
    Serves intEmbeddings clockClient clockVectors (clockCall diceTool).post ∧
      ((clockCall diceTool).semanticScores dot intEmbeddings clockClient ∅).1 = .ok [0, 0] ∧
      [clockTool, diceTool].map (fun t => dot.cosineSimilarity
        (clockVectors "what time is it") (clockVectors (searchableText t))) = [1, 0] := by
  refine ⟨serves_clockCall rfl, ?_, by decide⟩
  rw [semanticScores_clock]
  decide

end N3ur0n.Retriever
