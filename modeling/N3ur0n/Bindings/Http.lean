import N3ur0n.Bindings.Template
import N3ur0n.Manifests.Reload

/-!
# HTTP bindings

A capability with an HTTP binding sends a request to its backend, with the headers of
the backend. The URL is rendered from a template: if it begins with `http://` or
`https://` it is an override, and it is appended to the base URL of the backend
otherwise. This is decided on the rendered text, which has arguments of the caller in it.

What a URL's scheme and authority are is left to the library which sends the request
(`origin`). A base URL which has them keeps them with a path appended.

* `HttpBinding.request`: the request built for the arguments of a call;
* `Completes`: the arguments complete the beginning of a template to `http://` or
  `https://`;
* `staysOn_iff_keepsBase`: when the request goes where the base URL goes;
* `staysOn_of_slash`: a template that begins with a slash keeps it there, whatever the
  arguments.
-/

namespace N3ur0n

open Cut Template

/-- The backend has its base URL without the slashes at the end. -/
structure HttpBinding where
  backend : HttpBaseConfig
  urlTemplate : String
  method : HttpMethod
  headers : Table String String
  bodyTemplate : Option Value
  timeoutMs : ℕ

/-- The headers are those of the backend and those of the binding. -/
structure HttpRequest where
  method : HttpMethod
  url : List Char
  timeoutMs : ℕ
  headers : Multiset (Σ _ : String, String)
  body : Option Value

/-- The URL is an override. -/
def IsAbsolute (url : List Char) : Prop := "http://".toList <+: url ∨ "https://".toList <+: url

instance (url : List Char) : Decidable (IsAbsolute url) :=
  inferInstanceAs (Decidable ("http://".toList <+: url ∨ "https://".toList <+: url))

namespace HttpBinding

def defaultTimeoutMs : ℕ := 30000

def new (spec : BindingSpec) (backend : HttpBaseConfig) : Except String HttpBinding :=
  match spec with
  | .http _ urlTemplate method headers bodyTemplate _ timeoutMs =>
    .ok ⟨backend, urlTemplate, method, headers, bodyTemplate, timeoutMs.getD defaultTimeoutMs⟩
  | _ => .error (invalidPayload "HttpBinding requires BindingSpec::Http")

variable (b : HttpBinding) (args : Value)

def renderUrl : Except Loop.Fault (Except TemplateError (List Char)) :=
  (render b.urlTemplate.toList args).map fun r => r.map valueToText

/-- The URL appended to the base URL. -/
def joined (rendered : List Char) : List Char :=
  b.backend.baseUrl.toList ++ if ['/'] <+: rendered then rendered else '/' :: rendered

def resolveUrl (rendered : List Char) : List Char :=
  if IsAbsolute rendered then rendered else b.joined rendered

def renderBody : Except Loop.Fault (Except TemplateError (Option Value)) :=
  match b.bodyTemplate with
  | none => .ok (.ok none)
  | some template => (renderValue args template).map fun r => r.map some

/-- The request of `invoke`, unless a template cannot be rendered. -/
def request : Except Loop.Fault (Except TemplateError HttpRequest) := do
  match ← b.renderUrl args with
  | .error e => pure (.error e)
  | .ok rendered => do
    match ← b.renderBody args with
    | .error e => pure (.error e)
    | .ok body => pure (.ok ⟨b.method, b.resolveUrl rendered, b.timeoutMs,
        b.backend.headers.entries + b.headers.entries, body⟩)

theorem request_eq_ok {req : HttpRequest} : b.request args = .ok (.ok req) ↔
    ∃ rendered body, b.renderUrl args = .ok (.ok rendered) ∧ b.renderBody args = .ok (.ok body) ∧
      req = ⟨b.method, b.resolveUrl rendered, b.timeoutMs,
        b.backend.headers.entries + b.headers.entries, body⟩ := by
  rw [request]
  rcases b.renderUrl args with e | e | rendered
  · simp [bind, Except.bind]
  · simp [bind, Except.bind, pure, Except.pure]
  · rcases b.renderBody args with e | e | body
    · simp [bind, Except.bind]
    · simp [bind, Except.bind, pure, Except.pure]
    · simp [bind, Except.bind, pure, Except.pure, eq_comm]

/-! ## What the template and the arguments make -/

/-- The pieces of the URL: the only placeholder, or the characters and placeholders of
    the template. -/
def urlPieces : List (Char ⊕ List Char) :=
  match Template.wholeTemplate (trim isWhitespace b.urlTemplate.toList) with
  | some path => [.inr path]
  | none => cut placeholder 0 b.urlTemplate.toList

/-- The pieces begin with a part of the text, up to a placeholder, and the values from
    there on complete it. -/
def Completes (args : Value) : List Char → List (Char ⊕ List Char) → Prop
  | c :: text, .inl c' :: pieces => c = c' ∧ Completes args text pieces
  | text, .inr path :: pieces => ∃ rest ∈ textOf args (.inr path :: pieces), text <+: rest
  | _, _ => False

/-- The arguments make an override of a URL whose template is none. -/
def Overrides : Prop :=
  Completes args "http://".toList b.urlPieces ∨ Completes args "https://".toList b.urlPieces

/-- The URL is the text of its pieces. -/
theorem renderUrl_toOption :
    (b.renderUrl args).map Except.toOption = .ok (textOf args b.urlPieces) := by
  have hrender := @render_toOption args b.urlTemplate.toList
  rw [renderUrl, urlPieces]
  rcases hr : render b.urlTemplate.toList args with e | r
  · rw [hr] at hrender
    cases hrender
  · rw [hr] at hrender
    have hr := Except.ok.inj hrender
    change Except.ok (r.map valueToText).toOption = _
    rw [Except.toOption_map, hr]
    cases Template.wholeTemplate (trim isWhitespace b.urlTemplate.toList) with
    | some path =>
      simp only [textOf_cons, pieceText]
      cases referenced args path with
      | none => rfl
      | some v => simp [textOf]
    | none =>
      cases textOf args (cut placeholder 0 b.urlTemplate.toList) with
      | none => rfl
      | some out => simp [valueToText]

theorem renderUrl_eq_ok {text : List Char} :
    b.renderUrl args = .ok (.ok text) ↔ textOf args b.urlPieces = some text := by
  have h := b.renderUrl_toOption args
  rcases hr : b.renderUrl args with e | e | t
  · rw [hr] at h
    cases h
  · rw [hr] at h
    rw [← Except.ok.inj h]
    exact iff_of_false (by simp) (by simp [Except.toOption])
  · rw [hr] at h
    rw [← Except.ok.inj h]
    simp [Except.toOption]

/-- A text is completed if and only if the pieces have it at the beginning, and are not
    its characters themselves. -/
theorem completes_iff {text : List Char} {pieces : List (Char ⊕ List Char)} {out : List Char}
    (hlit : ¬text.map .inl <+: pieces) (hout : textOf args pieces = some out) :
    Completes args text pieces ↔ text <+: out := by
  induction pieces generalizing text out with
  | nil =>
    obtain rfl : [] = out := Option.some.inj hout
    rcases text with - | ⟨c, text⟩
    · exact absurd List.nil_prefix hlit
    · simp [Completes]
  | cons x pieces ih =>
    rcases x with c' | path
    · rcases text with - | ⟨c, text⟩
      · exact absurd List.nil_prefix hlit
      · rw [textOf_cons] at hout
        obtain ⟨out', hout', rfl⟩ : ∃ out', textOf args pieces = some out' ∧ c' :: out' = out := by
          simpa [pieceText, Option.bind_eq_some_iff] using hout
        rw [Completes, List.cons_prefix_cons]
        refine and_congr_right ?_
        rintro rfl
        refine ih (fun h => hlit ?_) hout'
        rw [List.map_cons]
        exact List.cons_prefix_cons.2 ⟨rfl, h⟩
    · simp [Completes, hout]

theorem not_literal_urlPieces {text : List Char} (hne : text ≠ [])
    (h : ¬text <+: b.urlTemplate.toList) : ¬text.map .inl <+: b.urlPieces := by
  rw [urlPieces]
  split
  · rcases text with - | ⟨c, text⟩
    · exact absurd rfl hne
    · simp [List.cons_prefix_cons]
  · exact fun hlit => h (prefix_of_map_inl_prefix_cut hlit)

/-- A URL whose template is no override is one exactly if the arguments make it so. -/
theorem overrides_iff (htemplate : ¬IsAbsolute b.urlTemplate.toList) {text : List Char}
    (htext : textOf args b.urlPieces = some text) : b.Overrides args ↔ IsAbsolute text := by
  obtain ⟨hhttp, hhttps⟩ := not_or.1 htemplate
  exact or_congr (completes_iff args (b.not_literal_urlPieces (by simp) hhttp) htext)
    (completes_iff args (b.not_literal_urlPieces (by simp) hhttps) htext)

/-! ## Where the request goes -/

section Origin

variable {Origin : Type} (origin : List Char → Option Origin)

/-- A request built for the arguments goes to the scheme and the authority of the base
    URL, if it goes anywhere. -/
def StaysOn : Prop :=
  ∀ req, b.request args = .ok (.ok req) → ∀ o, origin req.url = some o →
    origin b.backend.baseUrl.toList = some o

/-- No argument completes the beginning of the template to `http://` or `https://`, or
    what it makes is for the scheme and the authority of the base URL; and what is
    appended to the base URL is appended to one that has some, or has none. -/
def KeepsBase : Prop :=
  ∀ text body, textOf args b.urlPieces = some text → b.renderBody args = .ok (.ok body) →
    (b.Overrides args → ∀ o, origin text = some o → origin b.backend.baseUrl.toList = some o) ∧
    (¬b.Overrides args → origin b.backend.baseUrl.toList = none → origin (b.joined text) = none)

variable {origin}

/-- What is appended begins with a slash. -/
theorem exists_joined (rendered : List Char) :
    ∃ rest, b.joined rendered = b.backend.baseUrl.toList ++ '/' :: rest := by
  rw [joined]
  split_ifs with h
  · obtain ⟨rest, rfl⟩ := h
    exact ⟨rest, rfl⟩
  · exact ⟨rendered, rfl⟩

/-- With a template that is no override, the requests stay on the backend if and only if
    no argument makes one of it, or one for the same authority, and the base URL has an
    authority to keep. -/
theorem staysOn_iff_keepsBase (htemplate : ¬IsAbsolute b.urlTemplate.toList)
    (hjoin : ∀ base rest o, origin base = some o →
      origin (base ++ '/' :: rest) = none ∨ origin (base ++ '/' :: rest) = some o) :
    b.StaysOn args origin ↔ b.KeepsBase args origin := by
  constructor
  · intro h text body htext hbody
    have hstay := h _ ((b.request_eq_ok args).2
      ⟨text, body, (b.renderUrl_eq_ok args).2 htext, hbody, rfl⟩)
    rw [b.overrides_iff args htemplate htext]
    simp only [resolveUrl] at hstay
    split_ifs at hstay with habs
    · exact ⟨fun _ => hstay, fun hno => absurd habs hno⟩
    · refine ⟨fun hyes => absurd hyes habs, fun _ hbase => ?_⟩
      rcases hj : origin (b.joined text) with - | o
      · rfl
      · exact absurd (hbase.symm.trans (hstay o hj)) (by simp)
  · intro h req hreq o ho
    obtain ⟨text, body, hurl, hbody, rfl⟩ := (b.request_eq_ok args).1 hreq
    have htext := (b.renderUrl_eq_ok args).1 hurl
    obtain ⟨hover, hkeep⟩ := h text body htext hbody
    rw [b.overrides_iff args htemplate htext] at hover hkeep
    simp only [resolveUrl] at ho
    split_ifs at ho with habs
    · exact hover habs o ho
    · have hkeep := hkeep habs
      rcases hbase : origin b.backend.baseUrl.toList with - | o'
      · exact absurd ((hkeep hbase).symm.trans ho) (by simp)
      · -- The authority of the base URL is kept, or the whole is no URL.
        obtain ⟨rest, hrest⟩ := b.exists_joined text
        rw [hrest] at ho
        rcases hjoin _ rest o' hbase with hnone | hsome
        · exact absurd (hnone.symm.trans ho) (by simp)
        · exact hsome.symm.trans ho

/-- With a template that begins with a slash, the requests stay on the backend, whatever
    the arguments. -/
theorem staysOn_of_slash
    (hjoin : ∀ base rest o, origin base = some o →
      origin (base ++ '/' :: rest) = none ∨ origin (base ++ '/' :: rest) = some o)
    (hslash : ['/'] <+: b.urlTemplate.toList) (hbase : origin b.backend.baseUrl.toList ≠ none) :
    b.StaysOn args origin := by
  have habsolute {url : List Char} (h : ['/'] <+: url) : ¬IsAbsolute url := by
    obtain ⟨t, rfl⟩ := h
    rintro (h | h)
    · exact absurd (List.cons_prefix_cons.1 h).1 (by decide)
    · exact absurd (List.cons_prefix_cons.1 h).1 (by decide)
  rw [b.staysOn_iff_keepsBase args (habsolute hslash) hjoin]
  intro text body htext hbody
  refine ⟨fun hover => ?_, fun _ hnone => absurd hnone hbase⟩
  -- The text begins with the slash as well.
  have hurl := (b.renderUrl_eq_ok args).2 htext
  obtain ⟨t, ht⟩ := hslash
  rw [renderUrl, ← ht] at hurl
  obtain ⟨r, hr, hmap⟩ := Except.map_eq_ok.1 hurl
  obtain ⟨v, rfl, rfl⟩ := Except.map_eq_ok.1 hmap
  obtain ⟨out, rfl⟩ := render_head (by decide) (by decide) hr
  refine absurd ((b.overrides_iff args (habsolute ⟨t, ht⟩) htext).1 hover) (habsolute ⟨out, ?_⟩)
  rw [valueToText, String.toList_ofList]
  rfl

end Origin

/-- The authority is what comes before the path, the query and the fragment. -/
def authorityAfter (scheme rest : List Char) : Option (List Char × List Char) :=
  let authority := rest.takeWhile fun c => c ∉ ['/', '?', '#']
  if authority = [] then none else some (scheme, authority)

/-- The scheme and the authority of the URLs that are written with both. -/
def authorityOf (url : List Char) : Option (List Char × List Char) :=
  if "http://".toList <+: url then authorityAfter "http".toList (url.drop 7)
  else if "https://".toList <+: url then authorityAfter "https".toList (url.drop 8)
  else none

theorem authorityAfter_append {scheme base rest : List Char} :
    authorityAfter scheme (base ++ '/' :: rest) = authorityAfter scheme base := by
  rw [authorityAfter, takeWhile_append_cons (by decide)]
  rfl

theorem authorityOf_append {base rest : List Char} {o : List Char × List Char}
    (h : authorityOf base = some o) : authorityOf (base ++ '/' :: rest) = some o := by
  rw [authorityOf] at h
  split_ifs at h with hhttp hhttps
  · obtain ⟨t, rfl⟩ := hhttp
    rw [authorityOf, List.append_assoc, if_pos (List.prefix_append _ _)]
    exact authorityAfter_append.trans h
  · obtain ⟨t, rfl⟩ := hhttps
    rw [authorityOf, List.append_assoc, if_neg, if_pos (List.prefix_append _ _)]
    · exact authorityAfter_append.trans h
    · simp [List.cons_prefix_cons]

/-- A binding of which the arguments give the path. -/
def relay : HttpBinding :=
  ⟨⟨"http://localhost:9000", ∅⟩, "{{args.url}}", .get, ∅, none, defaultTimeoutMs⟩

/-- The argument is a path. -/
theorem staysOn_iff_relay :
    relay.KeepsBase (.object [("url", .string "/forecast")]) authorityOf ∧
      relay.StaysOn (.object [("url", .string "/forecast")]) authorityOf := by
  have hkeeps : relay.KeepsBase (.object [("url", .string "/forecast")]) authorityOf := by
    intro text body htext _
    have hpath : "/forecast".toList = text := Option.some.inj htext
    subst hpath
    refine ⟨fun hover => ?_, fun _ hbase => absurd hbase (by decide)⟩
    exact absurd ((relay.overrides_iff _ (by decide) htext).1 hover) (by decide)
  exact ⟨hkeeps, (relay.staysOn_iff_keepsBase _ (by decide) fun _ _ _ h =>
    .inr (authorityOf_append h)).2 hkeeps⟩

/-- The argument is the URL of another host. -/
theorem relay_leaves :
    ¬IsAbsolute relay.urlTemplate.toList ∧
      ¬relay.StaysOn (.object [("url", .string "http://other/")]) authorityOf := by
  refine ⟨by decide, fun h => ?_⟩
  have hreq : relay.request (.object [("url", .string "http://other/")]) = .ok (.ok
      ⟨.get, "http://other/".toList, defaultTimeoutMs, 0, none⟩) := by
    rfl
  exact absurd (h _ hreq _ rfl) (by decide)

end HttpBinding

end N3ur0n
