import N3ur0n.Lib.Loop
import N3ur0n.Lib.Slices
import N3ur0n.Planner.Mention

/-!
# Where the mentions are

The code looks for mentions by byte offsets: from one `@` to the next, or to what
follows the last mention, with slices of slices in between. A slice that does not
start and end between two characters would panic.

* `mentionTurn`: one turn of the loop;
* `parseMentionSpans_wellFormed`: the loop ends without a panic, its spans lie
  between two characters and one after the other, each from an `@` where a word
  may start, and `stripMentions` loses nothing else.
-/

namespace N3ur0n

open Cut Slice

/-- A mention, and the bytes it covers. -/
structure MentionSpan where
  mention : Mention
  start : ℕ
  stop : ℕ

namespace Mention

/-- The value of a mention after its colon, with how many bytes it covers. -/
def valueAt (afterColon : List Char) : Option (Option (List Char × ℕ)) :=
  match afterColon with
  | c :: body =>
    if c = quotation then
      match find (fun d => decide (d = quotation)) body with
      | none => some none
      | some close => (takeBytes close body).map fun value => some (value, close + 2)
    else
      let stop := (find isWhitespace afterColon).getD (size afterColon)
      (takeBytes stop afterColon).map fun word =>
        let unquoted := word.rdropWhile fun c => c ∈ trailingPunctuation
        some (unquoted, size unquoted)
  | [] => some (some ([], 0))

/-- The mention whose `@` is before the text, with how many bytes it covers. -/
def readAt (rest : List Char) : Option (Option (Mention × ℕ)) :=
  match find (fun d => decide (d = ':')) rest with
  | none => some none
  | some colon => (takeBytes colon rest).bind fun type =>
    match MentionKind.ofPrefix type with
    | none => some none
    | some kind => (dropBytes (colon + 1) rest).bind fun afterColon =>
      (valueAt afterColon).map fun value => value.bind fun x =>
        if x.1 = [] then none else (ofValue kind x.1).map fun m => (m, colon + 1 + x.2)

/-- The character before the byte, a space at the start. -/
def charBefore (s : List Char) (i : ℕ) : Option Char :=
  if 0 < i then (takeBytes i s).map fun before => before.getLast?.getD ' ' else some ' '

/-- The mention whose `@` is at the byte, with the byte after it. -/
def mentionAt (s : List Char) (i : ℕ) : Option (Option (Mention × ℕ)) :=
  (charBefore s i).bind fun prev =>
    if isWhitespace prev then (dropBytes (i + 1) s).bind fun rest =>
      (readAt rest).map fun r => r.map fun x => (x.1, i + 1 + x.2)
    else some none

end Mention

/-- A turn of the loop of `parse_mentions`: the state is the index, and the
    mentions so far. -/
def mentionTurn (s : List Char) :
    ℕ × List MentionSpan → Option (Loop.Turn (ℕ × List MentionSpan) (List MentionSpan))
  | (i, out) => do
    match find (fun d => decide (d = '@')) (← dropBytes i s) with
    | none => return .done out
    | some rel =>
      match ← Mention.mentionAt s (i + rel) with
      | none => return .next (i + rel + 1, out)
      | some (m, stop) => return .next (stop, out ++ [⟨m, i + rel, stop⟩])

/-- The mentions of a text, with their spans. The loop takes no more turns than
    there are bytes. -/
def parseMentionSpans (s : List Char) : Except Loop.Fault (List MentionSpan) :=
  Loop.run (mentionTurn s) (size s + 1) (0, [])

/-- A step of the loop of `strip_mentions`: what is before the mention is kept. -/
def stripTurn (s : List Char) (acc : List Char × ℕ) (m : MentionSpan) :
    Except Loop.Fault (List Char × ℕ) :=
  match slice acc.2 m.start s with
  | none => .error .panic
  | some piece => .ok (acc.1 ++ piece, m.stop)

def stripMentions (s : List Char) : Except Loop.Fault (List Char) := do
  let spans ← parseMentionSpans s
  let (out, cursor) ← spans.foldlM (stripTurn s) ([], 0)
  match dropBytes cursor s with
  | none => .error .panic
  | some rest => return trim isWhitespace (out ++ rest)

/-! ## Reading a mention -/

namespace Mention

variable {s t u v w : List Char} {i : ℕ} {m : Mention} {n : ℕ}

theorem size_at : size ['@'] = 1 := rfl

/-- A word may start after the text, if it may before. -/
def opensAfter (opens : Bool) (u : List Char) : Bool := u.foldl (fun _ c => isWhitespace c) opens

theorem opensAfter_append (b : Bool) : opensAfter b (u ++ v) = opensAfter (opensAfter b u) v :=
  List.foldl_append

theorem isWhitespace_last : isWhitespace (u.getLast?.getD ' ') = opensAfter true u := by
  rcases List.eq_nil_or_concat u with rfl | ⟨u, c, rfl⟩
  · rfl
  · simp [opensAfter]

/-- The characters a value covers, by their bytes. -/
theorem valueAt_eq : valueAt t = some ((readValue t).map fun r => (r.1, size (t.take r.2))) := by
  rcases t with _ | ⟨c, body⟩
  · rfl
  · by_cases hc : c = quotation
    · subst hc
      rw [valueAt, readValue, if_pos rfl, if_pos rfl, find_eq_upTo]
      cases hup : upTo quotation body with
      | none => rfl
      | some value =>
        obtain ⟨rest, rfl, -⟩ := upTo_eq_some.1 hup
        have hsize : size ((quotation :: (value ++ quotation :: rest)).take (value.length + 2)) =
            size value + 2 := by
          have happ : quotation :: (value ++ quotation :: rest) =
              (quotation :: value ++ [quotation]) ++ rest := by simp
          have hlen : value.length + 2 = (quotation :: value ++ [quotation]).length := by simp
          have hquote : quotation.utf8Size = 1 := rfl
          rw [happ, hlen, List.take_left, size_append, size_cons, size_cons, size_nil, hquote]
          omega
        simp only [Option.map_some, takeBytes_append rfl, hsize]
    · rw [valueAt, readValue, if_neg hc, if_neg hc]
      simp only [takeBytes_find, Option.map_some]
      refine congrArg _ (congrArg _ (Prod.ext rfl ?_))
      exact congrArg size (List.prefix_iff_eq_take.1
        ((List.rdropWhile_prefix _ _).trans (List.takeWhile_prefix _)))

theorem le_of_readValue {r : List Char × ℕ} (h : readValue t = some r) : r.2 ≤ t.length := by
  rcases t with _ | ⟨c, body⟩
  · obtain rfl := Option.some.inj h
    exact Nat.le_refl _
  · rw [readValue] at h
    split_ifs at h with hc
    · obtain ⟨value, hup, rfl⟩ := Option.map_eq_some_iff.1 h
      obtain ⟨rest, rfl, -⟩ := upTo_eq_some.1 hup
      simp only [List.length_cons, List.length_append]
      omega
    · obtain rfl := Option.some.inj h
      exact ((List.rdropWhile_prefix _ _).trans (List.takeWhile_prefix _)).length_le

theorem read_eq_bind : read t = (upTo ':' t).bind fun type =>
    (MentionKind.ofPrefix type).bind fun kind =>
      (readValue (t.drop (type.length + 1))).bind fun x =>
        if x.1 = [] then none else (ofValue kind x.1).map fun m => (m, type.length + 1 + x.2) := rfl

theorem le_of_read {r : Mention × ℕ} (h : read t = some r) : r.2 ≤ t.length := by
  rw [read_eq_bind] at h
  obtain ⟨type, htype, h₁⟩ := Option.bind_eq_some_iff.1 h
  obtain ⟨kind, -, h₂⟩ := Option.bind_eq_some_iff.1 h₁
  obtain ⟨x, hvalue, h₃⟩ := Option.bind_eq_some_iff.1 h₂
  obtain ⟨rest, rfl, -⟩ := upTo_eq_some.1 htype
  obtain ⟨-, h₄⟩ := Option.ite_none_left_eq_some.1 h₃
  obtain ⟨m, -, rfl⟩ := Option.map_eq_some_iff.1 h₄
  have hle := le_of_readValue hvalue
  rw [List.length_drop] at hle
  rw [List.length_append, List.length_cons] at hle ⊢
  simp only
  omega

theorem size_take_after (type after : List Char) (n : ℕ) :
    size ((type ++ ':' :: after).take (type.length + 1 + n)) =
      size type + 1 + size (after.take n) := by
  have happ : type ++ ':' :: after = (type ++ [':']) ++ after := by rw [List.append_assoc]; rfl
  have hlen : type.length + 1 = (type ++ [':']).length := by simp
  rw [happ, hlen, List.take_length_add_append, size_append, size_append]
  rfl

theorem readAt_eq : readAt t = some ((read t).map fun r => (r.1, size (t.take r.2))) := by
  rw [readAt, read_eq_bind, find_eq_upTo]
  cases htype : upTo ':' t with
  | none => rfl
  | some type =>
    obtain ⟨after, rfl, -⟩ := upTo_eq_some.1 htype
    have hcolon : size (type ++ [':']) = size type + 1 := by rw [size_append]; rfl
    have happ : type ++ ':' :: after = (type ++ [':']) ++ after := by rw [List.append_assoc]; rfl
    have hafter : dropBytes (size type + 1) (type ++ ':' :: after) = some after := by
      rw [happ, dropBytes_append hcolon]
    have hdrop : (type ++ ':' :: after).drop (type.length + 1) = after := by
      rw [happ]
      exact List.drop_left' (by simp)
    simp only [Option.map_some, takeBytes_append rfl, Option.bind_some, hdrop]
    cases MentionKind.ofPrefix type with
    | none => rfl
    | some kind =>
      simp only [hafter, Option.bind_some, valueAt_eq, Option.map_some]
      cases readValue after with
      | none => rfl
      | some x =>
        simp only [Option.map_some, Option.bind_some]
        by_cases hx : x.1 = []
        · simp [hx]
        · simp only [hx, if_false, Option.map_map]
          cases ofValue kind x.1 with
          | none => rfl
          | some m => simp [size_take_after]

theorem charBefore_eq (hs : s = u ++ t) (hi : size u = i) :
    charBefore s i = some (u.getLast?.getD ' ') := by
  rw [charBefore]
  split_ifs with hpos
  · rw [hs, takeBytes_append hi, Option.map_some]
  · have hu : u = [] := by
      by_contra hne
      exact hpos (hi ▸ size_pos hne)
    rw [hu]
    rfl

/-- At an `@`, the code reads what is read. -/
theorem mentionAt_eq (hs : s = u ++ '@' :: t) (hi : size u = i) :
    mentionAt s i = some (if opensAfter true u then
      (read t).map fun r => (r.1, i + 1 + size (t.take r.2)) else none) := by
  have hrest : dropBytes (i + 1) s = some t := by
    have happ : s = (u ++ ['@']) ++ t := by rw [hs, List.append_assoc]; rfl
    rw [happ, dropBytes_append (by rw [size_append, hi, size_at])]
  rw [mentionAt, charBefore_eq hs hi, Option.bind_some, isWhitespace_last, hrest, Option.bind_some,
    readAt_eq]
  split_ifs with hopens
  · rw [Option.map_some, Option.map_map]
    rfl
  · rfl

/-! ## Tokens -/

/-- Every character of a text with whether a word may start there. -/
def flagged (opens : Bool) (s : List Char) : List (Char × Bool) :=
  s.zip (opens :: s.map isWhitespace)

variable {b : Bool} {c : Char} {k : ℕ}

theorem flagged_cons : flagged b (c :: s) = (c, b) :: flagged (isWhitespace c) s := rfl

theorem length_flagged : (flagged b s).length = s.length := by
  simp [flagged]

theorem map_fst_flagged : (flagged b s).map Prod.fst = s :=
  List.map_fst_zip (by simp)

theorem flagged_append : flagged b (u ++ v) = flagged b u ++ flagged (opensAfter b u) v := by
  induction u generalizing b with
  | nil => rfl
  | cons c u ih => rw [List.cons_append, flagged_cons, ih, flagged_cons, List.cons_append]; rfl

theorem drop_flagged : (flagged b s).drop n = flagged (opensAfter b (s.take n)) (s.drop n) := by
  induction s generalizing b n with
  | nil => simp [flagged]
  | cons c s ih =>
    rcases n with _ | n
    · rfl
    · rw [flagged_cons, List.drop_succ_cons, ih]
      rfl

theorem token_flagged : token (flagged b (c :: s)) = if c = '@' ∧ b then read s else none := by
  rw [flagged_cons, token, map_fst_flagged]

/-- Mentions, with how many characters they cover after their `@`. -/
abbrev tokens (k : ℕ) (s : List (Char × Bool)) : List (ℕ × Mention × ℕ) :=
  tokensAt (counted token) k 0 s

theorem token_eq_none {x : List (Char × Bool)} (hx : ∀ y ∈ x.head?, y.1 ≠ '@') :
    counted token x = none := by
  rcases x with _ | ⟨⟨c, o⟩, x⟩
  · rfl
  · have hc : c ≠ '@' := hx _ rfl
    simp [counted, token, hc]

/-- Up to the next `@`, there is no mention. -/
theorem tokens_skip (hv : '@' ∉ v) :
    tokens k (flagged b (v ++ t)) = tokens (k + v.length) (flagged (opensAfter b v) t) := by
  rw [flagged_append, tokens, tokensAt_skip, length_flagged]
  intro x hx hne
  refine token_eq_none fun y hy => ?_
  rw [List.head?_append_of_ne_nil _ hne] at hy
  have hmem : y ∈ flagged b v := hx.subset (List.mem_of_mem_head? hy)
  rintro hat
  have hfst : y.1 ∈ (flagged b v).map Prod.fst := List.mem_map_of_mem hmem
  rw [map_fst_flagged, hat] at hfst
  exact hv hfst

theorem tokens_nil (hv : '@' ∉ v) : tokens k (flagged b v) = [] := by
  have h : tokens k (flagged b (v ++ [])) = tokens (k + v.length) (flagged (opensAfter b v) []) :=
    tokens_skip hv
  rwa [List.append_nil] at h

/-- At an `@`, a mention is a token if it is read. -/
theorem tokens_at : tokens k (flagged b ('@' :: t)) =
    match if b then read t else none with
    | none => tokens (k + 1) (flagged false t)
    | some r => (k, r) :: tokens (k + 1 + r.2)
        (flagged (opensAfter false (t.take r.2)) (t.drop r.2)) := by
  have htoken : counted token (flagged b ('@' :: t)) =
      (if b then read t else none).map fun r => (r, r.2) := by
    rw [counted, token_flagged]
    simp
  have hspace : isWhitespace '@' = false := by decide
  rw [flagged_cons, tokens, tokensAt, ← flagged_cons, htoken, hspace]
  cases if b then read t else none with
  | none => rfl
  | some r =>
    simp only [Option.map_some]
    rw [tokensAt_eq_drop, drop_flagged]

/-- The mentions of a text, where its beginning `u` was read already. -/
def spansFrom (u t : List Char) : List MentionSpan :=
  (tokens u.length (flagged (opensAfter true u) t)).map fun x =>
    ⟨x.2.1, size ((u ++ t).take x.1), size ((u ++ t).take (x.1 + 1 + x.2.2))⟩

theorem spansFrom_nil (ht : '@' ∉ t) : spansFrom u t = [] := by
  rw [spansFrom, tokens_nil ht, List.map_nil]

theorem spansFrom_skip (hv : '@' ∉ v) : spansFrom u (v ++ t) = spansFrom (u ++ v) t := by
  rw [spansFrom, spansFrom, tokens_skip hv, ← opensAfter_append, List.length_append,
    List.append_assoc]

theorem spansFrom_at : spansFrom u ('@' :: t) =
    match if opensAfter true u then read t else none with
    | none => spansFrom (u ++ ['@']) t
    | some r => ⟨r.1, size u, size u + 1 + size (t.take r.2)⟩ ::
        spansFrom (u ++ '@' :: t.take r.2) (t.drop r.2) := by
  have hlast : opensAfter true (u ++ ['@']) = false := by
    rw [opensAfter_append]
    change isWhitespace '@' = false
    decide
  rw [spansFrom, tokens_at]
  cases hread : if opensAfter true u then read t else none with
  | none =>
    have happ : u ++ '@' :: t = (u ++ ['@']) ++ t := by rw [List.append_assoc]; rfl
    simp only [spansFrom, hlast, List.length_append, List.length_singleton, happ]
  | some r =>
    have hle : r.2 ≤ t.length := by
      rw [Option.ite_none_right_eq_some] at hread
      exact le_of_read hread.2
    have happ : u ++ '@' :: t = (u ++ '@' :: t.take r.2) ++ t.drop r.2 := by simp
    have hlen : u.length + 1 + r.2 = (u ++ '@' :: t.take r.2).length := by
      rw [List.length_append, List.length_cons, List.length_take_of_le hle]
      omega
    have hopens : opensAfter false (t.take r.2) = opensAfter true (u ++ '@' :: t.take r.2) := by
      have happ' : u ++ '@' :: t.take r.2 = (u ++ ['@']) ++ t.take r.2 := by simp
      rw [happ', opensAfter_append, hlast]
    have hstart : (u ++ '@' :: t).take u.length = u := List.take_left
    have hstop : (u ++ '@' :: t).take (u.length + 1 + r.2) = u ++ '@' :: t.take r.2 := by
      rw [happ, hlen, List.take_left]
    have hsize : size (u ++ '@' :: t.take r.2) = size u + 1 + size (t.take r.2) := by
      rw [size_append, size_cons, ← Nat.add_assoc]
      rfl
    rw [List.map_cons, hopens]
    simp only [hstart, hstop, hsize]
    rw [spansFrom, hlen, happ]

end Mention

open Mention

variable {s t u v w : List Char} {i : ℕ} {out : List MentionSpan}

/-! ## The loop -/

/-- The mentions so far, and those of the rest of the text. -/
def spansAfter (s : List Char) (st : ℕ × List MentionSpan) : List MentionSpan :=
  st.2 ++ spansFrom ((takeBytes st.1 s).getD []) ((dropBytes st.1 s).getD [])

theorem spansAfter_eq (hs : s = u ++ t) (hi : size u = i) :
    spansAfter s (i, out) = out ++ spansFrom u t := by
  rw [spansAfter, hs, takeBytes_append hi, dropBytes_append hi]
  rfl

/-- Every turn is between two characters, and goes on. -/
theorem mentionTurn_computes (s : List Char) :
    Loop.Computes (mentionTurn s) (fun st => Boundary st.1 s) (fun st => size s - st.1)
      (spansAfter s) := by
  rintro ⟨i, out⟩ ⟨u, t, hs, hi⟩
  simp only at hi
  have hrest : dropBytes i s = some t := by rw [hs, dropBytes_append hi]
  rw [spansAfter_eq hs hi]
  cases hup : upTo '@' t with
  | none =>
    left
    simp only [mentionTurn, hrest, find_eq_upTo, hup, Option.map_none, Option.bind_eq_bind,
      Option.bind_some, spansFrom_nil (upTo_eq_none.1 hup), List.append_nil]
    rfl
  | some v =>
    right
    obtain ⟨r, rfl, hv⟩ := upTo_eq_some.1 hup
    have hs' : s = (u ++ v) ++ '@' :: r := by rw [hs, List.append_assoc]
    have hi' : size (u ++ v) = i + size v := by rw [size_append, hi]
    have hsize : size s = i + size v + (1 + size r) := by
      rw [hs', size_append, hi', size_cons]
      rfl
    -- the turn looks at the first `@` that is left
    have hturn : mentionTurn s (i, out) =
        match if opensAfter true (u ++ v) then read r else none with
        | none => some (.next (i + size v + 1, out))
        | some x => some (.next (i + size v + 1 + size (r.take x.2),
            out ++ [⟨x.1, i + size v, i + size v + 1 + size (r.take x.2)⟩])) := by
      simp only [mentionTurn, hrest, find_eq_upTo, hup, Option.map_some, Option.bind_eq_bind,
        Option.bind_some, mentionAt_eq hs' hi']
      split_ifs with hopens
      · cases read r with
        | none => rfl
        | some x => rfl
      · rfl
    rw [spansFrom_skip hv, spansFrom_at, hturn]
    cases hread : if opensAfter true (u ++ v) then read r else none with
    | none =>
      have hs₁ : s = (u ++ v ++ ['@']) ++ r := by rw [hs', List.append_assoc (u ++ v)]; rfl
      have hi₁ : size (u ++ v ++ ['@']) = i + size v + 1 := by rw [size_append, hi', size_at]
      refine ⟨_, rfl, ⟨_, _, hs₁, hi₁⟩, ?_, spansAfter_eq hs₁ hi₁⟩
      simp only
      omega
    | some x =>
      have hs₁ : s = (u ++ v ++ '@' :: r.take x.2) ++ r.drop x.2 := by
        rw [hs', List.append_assoc (u ++ v), List.cons_append, List.take_append_drop]
      have hi₁ : size (u ++ v ++ '@' :: r.take x.2) = i + size v + 1 + size (r.take x.2) := by
        rw [size_append, hi', size_cons, ← Nat.add_assoc]
        rfl
      refine ⟨_, rfl, ⟨_, _, hs₁, hi₁⟩, ?_, ?_⟩
      · simp only
        omega
      · rw [spansAfter_eq hs₁ hi₁, hi', List.append_assoc]
        rfl

/-- The mentions of a text, with their spans. -/
def mentionSpans (s : List Char) : List MentionSpan := spansFrom [] s

theorem parseMentionSpans_eq (s : List Char) : parseMentionSpans s = .ok (mentionSpans s) := by
  have hstart : Boundary 0 s := ⟨[], s, rfl, rfl⟩
  have hspans : spansAfter s (0, []) = mentionSpans s := spansAfter_eq rfl rfl
  rw [parseMentionSpans, Loop.run_eq_ok (mentionTurn_computes s) hstart (by simp), hspans]

/-- The mentions are those of the text, cut into mentions and characters. -/
theorem map_mention_mentionSpans (text : String) :
    (mentionSpans text.toList).map MentionSpan.mention = parseMentions text := by
  rw [mentionSpans, spansFrom, List.map_map]
  exact tokensAt_counted

/-! ## Spans -/

/-- The spans of a text: between two characters, not empty, one after the other,
    and each at an `@` where a word may start. -/
structure SpansIn (s : List Char) (l : List MentionSpan) : Prop where
  boundary : ∀ x ∈ l, Boundary x.start s ∧ Boundary x.stop s
  range : ∀ x ∈ l, x.start < x.stop ∧ x.stop ≤ size s
  disjoint : l.Pairwise fun x y => x.stop ≤ y.start
  opens : ∀ x ∈ l, ∃ u t, s = u ++ '@' :: t ∧ size u = x.start ∧
    (u = [] ∨ ∃ c ∈ u.getLast?, isWhitespace c)

theorem mem_mentionSpans {x : MentionSpan} (h : x ∈ mentionSpans s) :
    ∃ k n, k < s.length ∧ token ((flagged true s).drop k) = some (x.mention, n) ∧
      x.start = size (s.take k) ∧ x.stop = size (s.take (k + 1 + n)) := by
  obtain ⟨⟨k, m, n⟩, hmem, rfl⟩ := List.mem_map.1 h
  obtain ⟨j, htoken⟩ := token_of_mem_tokensAt hmem
  obtain ⟨r, hr, heq⟩ := Option.map_eq_some_iff.1 htoken
  obtain ⟨rfl, -⟩ := Prod.mk.inj heq
  have hlt := (le_of_mem_tokensAt hmem).2
  rw [length_flagged] at hlt
  exact ⟨k, n, by simpa using hlt, hr, rfl, rfl⟩

theorem boundary_take (s : List Char) (k : ℕ) : Boundary (size (s.take k)) s :=
  ⟨s.take k, s.drop k, (List.take_append_drop k s).symm, rfl⟩

theorem mentionSpans_spansIn (s : List Char) : SpansIn s (mentionSpans s) where
  boundary x hx := by
    obtain ⟨k, n, -, -, hstart, hstop⟩ := mem_mentionSpans hx
    rw [hstart, hstop]
    exact ⟨boundary_take s _, boundary_take s _⟩
  range x hx := by
    obtain ⟨k, n, hk, -, hstart, hstop⟩ := mem_mentionSpans hx
    rw [hstart, hstop]
    exact ⟨size_take_lt hk (by omega), size_take_le_size⟩
  disjoint := by
    refine List.pairwise_map.2 (tokensAt_pairwise.imp fun h => size_take_le ?_)
    omega
  opens x hx := by
    obtain ⟨k, n, hk, htoken, hstart, -⟩ := mem_mentionSpans hx
    rw [drop_flagged, List.drop_eq_getElem_cons hk, token_flagged,
      Option.ite_none_right_eq_some] at htoken
    obtain ⟨⟨hat, hopens⟩, -⟩ := htoken
    refine ⟨s.take k, s.drop (k + 1), ?_, hstart.symm, ?_⟩
    · rw [← hat, ← List.drop_eq_getElem_cons hk, List.take_append_drop]
    · rw [← isWhitespace_last] at hopens
      cases hlast : (s.take k).getLast? with
      | none => exact .inl (List.getLast?_eq_none_iff.1 hlast)
      | some c =>
        rw [hlast] at hopens
        exact .inr ⟨c, rfl, hopens⟩

/-! ## Without the mentions -/

/-- The byte is in none of the spans. -/
def Uncovered (l : List MentionSpan) (i : ℕ) : Prop := ∀ x ∈ l, ¬(x.start ≤ i ∧ i < x.stop)

instance (l : List MentionSpan) (i : ℕ) : Decidable (Uncovered l i) :=
  inferInstanceAs (Decidable (∀ x ∈ l, ¬(x.start ≤ i ∧ i < x.stop)))

/-- The characters of a text outside of the spans, where the text starts at the
    byte `i`. -/
def uncovered (l : List MentionSpan) (i : ℕ) (t : List Char) : List Char :=
  ((charIndices i t).filter fun x => Uncovered l x.1).map Prod.snd

theorem uncovered_append {l : List MentionSpan} :
    uncovered l i (u ++ v) = uncovered l i u ++ uncovered l (i + size u) v := by
  rw [uncovered, charIndices_append, List.filter_append, List.map_append]
  rfl

theorem uncovered_of_forall {l : List MentionSpan}
    (h : ∀ j, i ≤ j → j < i + size t → Uncovered l j) : uncovered l i t = t := by
  have hfilter : (charIndices i t).filter (fun x => Uncovered l x.1) = charIndices i t :=
    List.filter_eq_self.2 fun x hx =>
      decide_eq_true (h x.1 (le_of_mem_charIndices hx).1 (le_of_mem_charIndices hx).2)
  rw [uncovered, hfilter, charIndices_map_snd]

theorem uncovered_of_forall_not {l : List MentionSpan}
    (h : ∀ j, i ≤ j → j < i + size t → ¬Uncovered l j) : uncovered l i t = [] := by
  have hfilter : (charIndices i t).filter (fun x => Uncovered l x.1) = [] :=
    List.filter_eq_nil_iff.2 fun x hx hout =>
      h x.1 (le_of_mem_charIndices hx).1 (le_of_mem_charIndices hx).2 (of_decide_eq_true hout)
  rw [uncovered, hfilter, List.map_nil]

theorem uncovered_congr {l l' : List MentionSpan}
    (h : ∀ j, i ≤ j → (Uncovered l j ↔ Uncovered l' j)) : uncovered l i t = uncovered l' i t := by
  refine congrArg (List.map Prod.snd) (List.filter_congr fun x hx => ?_)
  exact decide_eq_decide.2 (h x.1 (le_of_mem_charIndices hx).1)

/-- The loop keeps what is outside of the spans, from its cursor on. -/
theorem foldlM_stripTurn {l : List MentionSpan} (before : List Char)
    (hs : s = u ++ t) (hl : SpansIn s l) (hstart : ∀ x ∈ l, size u ≤ x.start) :
    ∃ kept v r, l.foldlM (stripTurn s) (before, size u) = .ok (before ++ kept, size v) ∧
      s = v ++ r ∧ kept ++ r = uncovered l (size u) t := by
  induction l generalizing u t before with
  | nil =>
    refine ⟨[], u, t, ?_, hs, ?_⟩
    · rw [List.append_nil]
      rfl
    · exact (uncovered_of_forall fun j _ _ x hx => absurd hx List.not_mem_nil).symm
  | cons m l ih =>
    obtain ⟨⟨a, b, hab, ha⟩, c, d, hcd, hc⟩ := hl.boundary m List.mem_cons_self
    obtain ⟨hlt, -⟩ := hl.range m List.mem_cons_self
    obtain ⟨hafter, hpair⟩ := List.pairwise_cons.1 hl.disjoint
    have hle := hstart m List.mem_cons_self
    -- The text is cut at the cursor, before the mention and after it.
    obtain ⟨p, rfl, rfl⟩ := exists_append_of_size_le (hs.symm.trans hab) (by omega)
    obtain ⟨q, rfl, rfl⟩ := exists_append_of_size_le (hab.symm.trans hcd) (by omega)
    have hl' : SpansIn s l :=
      { boundary := fun x hx => hl.boundary x (List.mem_cons_of_mem _ hx)
        range := fun x hx => hl.range x (List.mem_cons_of_mem _ hx)
        disjoint := hpair
        opens := fun x hx => hl.opens x (List.mem_cons_of_mem _ hx) }
    obtain ⟨kept, v, r, hfold, hv, hkept⟩ :=
      ih (before ++ p) hcd hl' fun x hx => hc ▸ hafter x hx
    have hslice : slice (size u) m.start s = some p := by
      rw [hs, slice_append rfl (by rw [← ha, size_append])]
    have hturn : stripTurn s (before, size u) m = .ok (before ++ p, size (u ++ p ++ q)) := by
      rw [stripTurn, hslice, hc]
    refine ⟨p ++ kept, v, r, ?_, hv, ?_⟩
    · rw [List.foldlM_cons, hturn, ← List.append_assoc]
      exact hfold
    · have hp : uncovered (m :: l) (size u) p = p := by
        refine uncovered_of_forall fun j _ hj x hx => ?_
        have hm : m.start ≤ x.start := by
          rcases List.mem_cons.1 hx with rfl | hx
          · exact Nat.le_refl _
          · have := hafter x hx
            omega
        rw [size_append] at ha
        omega
      have hq : uncovered (m :: l) (size u + size p) q = [] := by
        refine uncovered_of_forall_not fun j hj hj' hout => hout m List.mem_cons_self ?_
        rw [size_append] at ha
        rw [size_append, size_append] at hc
        omega
      have hd : uncovered (m :: l) (size (u ++ p ++ q)) d = uncovered l (size (u ++ p ++ q)) d := by
        refine uncovered_congr fun j hj => ?_
        rw [hc] at hj
        exact ⟨fun h x hx => h x (List.mem_cons_of_mem _ hx),
          fun h => List.forall_mem_cons.2 ⟨by omega, h⟩⟩
      rw [uncovered_append, uncovered_append, hp, hq, List.append_assoc, hkept, ← hd, size_append,
        size_append, List.nil_append]

theorem stripMentions_eq (s : List Char) :
    stripMentions s = .ok (trim isWhitespace (uncovered (mentionSpans s) 0 s)) := by
  obtain ⟨kept, v, r, hfold, hv, hkept⟩ := foldlM_stripTurn []
    (List.nil_append s).symm (mentionSpans_spansIn s) fun x _ => Nat.zero_le _
  have hrest : dropBytes (size v) s = some r := by rw [hv, dropBytes_append rfl]
  have hout : uncovered (mentionSpans s) 0 s = kept ++ r := hkept.symm
  have hfold' : (mentionSpans s).foldlM (stripTurn s) ([], 0) = .ok (kept, size v) := hfold
  rw [stripMentions, parseMentionSpans_eq]
  change (List.foldlM (stripTurn s) ([], 0) (mentionSpans s) >>= _) = _
  rw [hfold', hout]
  change (match dropBytes (size v) s with
    | none => Except.error Loop.Fault.panic
    | some rest => pure (trim isWhitespace (kept ++ rest))) = _
  rw [hrest]
  rfl

/-- On every text, the loop ends without a panic, its spans are as they should,
    its mentions are those of the text, and what is stripped are the spans. -/
theorem parseMentionSpans_wellFormed (s : List Char) :
    ∃ l, parseMentionSpans s = .ok l ∧ SpansIn s l ∧
      l.map MentionSpan.mention = parseMentions (String.ofList s) ∧
        stripMentions s = .ok (trim isWhitespace (uncovered l 0 s)) := by
  refine ⟨mentionSpans s, parseMentionSpans_eq s, mentionSpans_spansIn s, ?_, stripMentions_eq s⟩
  rw [← map_mention_mentionSpans, String.toList_ofList]

end N3ur0n
