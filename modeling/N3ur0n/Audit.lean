import Mathlib.Algebra.BigOperators.Group.List.Basic
import Mathlib.Algebra.GroupWithZero.Nat
import Mathlib.Data.List.Dedup
import N3ur0n.Lib.Grid

/-!
# The pulse of the audit log

The dashboard shows the calls of a window by intervals of equal widths. Their rows are
grouped by the database, and the intervals without any are added by `buckets`.

Both divide by the width, and round towards zero. A time below zero is so put into the
interval above it, which is outside of the window when that ends there.

* `buckets_eq`: which buckets are returned;
* `partitions_iff_fits`: every call of the window is counted in one bucket exactly when
  none is after the last bucket, and the buckets do not leave the range of `i64`.
-/

namespace N3ur0n.Audit

open Grid

inductive Direction
  | inb
  | out
  | loc
  deriving DecidableEq

/-- What the pulse reads of a row of the log. -/
structure Entry where
  timestamp : ℤ
  direction : Direction
  status : String
  deriving DecidableEq

structure Bucket where
  start : ℤ
  inbound : ℕ
  outbound : ℕ
  loc : ℕ
  errors : ℕ
  deriving DecidableEq

/-- The sums over some rows. -/
def tally (rows : List Entry) (start : ℤ) : Bucket where
  start := start
  inbound := rows.countP (·.direction = .inb)
  outbound := rows.countP (·.direction = .out)
  loc := rows.countP (·.direction = .loc)
  errors := rows.countP (·.status ≠ "ok")

/-- The rows of the window. -/
def window (log : List Entry) (since until_ : ℤ) : List Entry :=
  log.filter fun e => since ≤ e.timestamp ∧ e.timestamp < until_

/-- A time, rounded to the width towards zero. -/
def round (width t : ℤ) : ℤ := t.tdiv width * width

/-- The rows of the query: the window, grouped by the bucket. -/
def grouped (width : ℤ) (rows : List Entry) : List Bucket :=
  (rows.map fun e => round width e.timestamp).dedup.map fun start =>
    tally (group (fun e : Entry => round width e.timestamp) rows start) start

def i64Max : ℤ := 2 ^ 63 - 1

/-- The buckets from `start`: those found, and zeros for the others. There are none when
    the next start is not in `i64`, which panics or, where overflow is not checked, starts
    again below. -/
def dense (found : List Bucket) (until_ width : ℤ) (hwidth : 0 < width) (start : ℤ) :
    Option (List Bucket) :=
  if start < until_ then
    if i64Max < start + width then none
    else (dense found until_ width hwidth (start + width)).map
      (((found.find? (·.start = start)).getD (tally [] start)) :: ·)
  else some []
termination_by (until_ - start).toNat

def buckets (log : List Entry) (since until_ width : ℤ) : Option (List Bucket) :=
  if hwidth : 0 < width then
    dense (grouped width (window log since until_)) until_ width hwidth (round width since)
  else none

/-- The buckets share the rows of the window out. -/
structure Partitions (log : List Entry) (since until_ width : ℤ) (out : List Bucket) : Prop where
  /-- Without a gap, and a width apart. -/
  spaced : (out.map (·.start)).IsChain fun a b => b = a + width
  /-- Every row of the window is counted in one of them, and nothing else is. -/
  shared : ∃ parts : List (List Entry),
    List.Forall₂ (fun bucket part => bucket = tally part bucket.start) out parts ∧
      parts.flatten.Perm (window log since until_)
  inbound : (out.map (·.inbound)).sum = (window log since until_).countP (·.direction = .inb)
  outbound : (out.map (·.outbound)).sum = (window log since until_).countP (·.direction = .out)
  loc : (out.map (·.loc)).sum = (window log since until_).countP (·.direction = .loc)
  errors : (out.map (·.errors)).sum = (window log since until_).countP (·.status ≠ "ok")

/-- The last whole number of widths before the end. -/
def lastStart (until_ width : ℤ) : ℤ := (until_ - 1) / width * width

/-- No row of a window that ends by zero is after the last start, and the next start is
    in `i64`. -/
structure Fits (log : List Entry) (since until_ width : ℤ) : Prop where
  ends : lastStart until_ width + width ≤ i64Max
  before : 0 < until_ ∨
    ∀ e ∈ log, since ≤ e.timestamp → e.timestamp < until_ → e.timestamp ≤ lastStart until_ width

variable {log rows : List Entry} {since until_ width start t : ℤ} {hwidth : 0 < width}

theorem dvd_round : width ∣ round width t := dvd_mul_left _ _

theorem round_le (h : 0 ≤ t) : round width t ≤ t := by
  have := Int.tmod_nonneg width h
  rw [round, Int.tdiv_mul_self]
  omega

theorem le_round (h : t ≤ 0) : t ≤ round width t := by
  have hneg := Int.tmod_nonneg width (Int.neg_nonneg_of_nonpos h)
  rw [Int.neg_tmod] at hneg
  rw [round, Int.tdiv_mul_self]
  omega

theorem round_lt (h : 0 < width) : round width t < t + width := by
  have := Int.lt_tmod_of_pos t h
  rw [round, Int.tdiv_mul_self]
  omega

theorem round_mono (h : 0 < width) {u : ℤ} (hle : t ≤ u) : round width t ≤ round width u :=
  Int.mul_le_mul_of_nonneg_right (Int.tdiv_le_tdiv h hle) h.le

theorem round_nonpos (h : 0 < width) (ht : t ≤ 0) : round width t ≤ 0 :=
  (round_mono h ht).trans_eq (by rw [round, Int.zero_tdiv, zero_mul])

theorem lastStart_lt (h : 0 < width) : lastStart until_ width < until_ := by
  have := Int.ediv_mul_le (until_ - 1) h.ne'
  rw [lastStart]
  omega

/-- A multiple of the width is before the end when it is not after the last start. -/
theorem le_lastStart (h : 0 < width) (hdvd : width ∣ t) :
    t ≤ lastStart until_ width ↔ t < until_ := by
  refine ⟨fun hle => hle.trans_lt (lastStart_lt h), fun hlt => ?_⟩
  obtain ⟨q, rfl⟩ := hdvd
  rw [mul_comm] at hlt ⊢
  exact Int.mul_le_mul_of_nonneg_right ((Int.le_ediv_iff_mul_le h).2 (by omega)) h.le

/-- The bucket of a time of the window is one of the grid. -/
theorem round_lt_until (h : 0 < width) (ht : t < until_) :
    round width t < until_ ↔ 0 < until_ ∨ t ≤ lastStart until_ width := by
  rcases lt_or_ge 0 until_ with hpos | hneg
  · refine iff_of_true ?_ (.inl hpos)
    rcases le_total 0 t with h0 | h0
    · exact (round_le h0).trans_lt ht
    · exact (round_nonpos h h0).trans_lt hpos
  · rw [or_iff_right hneg.not_gt, ← le_lastStart h dvd_round]
    refine ⟨(le_round (ht.le.trans hneg)).trans, fun hle => ?_⟩
    -- Both are whole numbers of widths, less than a width apart.
    obtain ⟨q, hq⟩ : width ∣ round width t := dvd_round
    have hlt : round width t < lastStart until_ width + width :=
      (round_lt h).trans_le (Int.add_le_add_right hle width)
    rw [hq, lastStart, mul_comm, ← add_one_mul] at hlt
    rw [hq, lastStart, mul_comm]
    exact Int.mul_le_mul_of_nonneg_right
      (Int.lt_add_one_iff.1 (Int.lt_of_mul_lt_mul_right hlt h.le)) h.le

/-- The rows of a bucket. -/
def inBucket (width : ℤ) (rows : List Entry) (start : ℤ) : List Entry :=
  group (fun e => round width e.timestamp) rows start

/-- A start has the rows of its group, also when the query found none. -/
theorem found_grouped :
    ((grouped width rows).find? (·.start = start)).getD (tally [] start) =
      tally (inBucket width rows start) start := by
  rw [grouped, List.find?_map]
  by_cases hmem : start ∈ (rows.map fun e => round width e.timestamp).dedup
  · obtain ⟨start', hfind⟩ : ∃ start', (rows.map fun e => round width e.timestamp).dedup.find?
        (fun x => decide (x = start)) = some start' :=
      Option.isSome_iff_exists.1 (List.find?_isSome.2 ⟨start, hmem, decide_eq_true rfl⟩)
    obtain rfl : start' = start := by simpa using List.find?_some hfind
    exact congrArg (Option.getD · _) (congrArg (Option.map _) hfind)
  · have hnone : (rows.map fun e => round width e.timestamp).dedup.find?
        (fun x => decide (x = start)) = none :=
      List.find?_eq_none.2 fun x hx => by
        rw [decide_eq_true_iff]
        rintro rfl
        exact hmem hx
    rw [inBucket, group_eq_nil (mt List.mem_dedup.2 hmem)]
    exact congrArg (Option.getD · _) (congrArg (Option.map _) hnone)

/-- The loop goes through the grid. -/
theorem dense_eq (found : List Bucket) : dense found until_ width hwidth start =
    if ∀ x ∈ steps until_ width hwidth start, x + width ≤ i64Max then
      some ((steps until_ width hwidth start).map fun x =>
        (found.find? (·.start = x)).getD (tally [] x))
    else none := by
  induction start using steps.induct until_ width hwidth with
  | case1 start hlt ih =>
    rw [dense, if_pos hlt, ih, steps_of_lt hlt]
    simp only [List.forall_mem_cons, List.map_cons]
    by_cases hover : i64Max < start + width
    · rw [if_pos hover, if_neg fun h => h.1.not_gt hover]
    · rw [if_neg hover]
      by_cases hrest : ∀ x ∈ steps until_ width hwidth (start + width), x + width ≤ i64Max
      · rw [if_pos hrest, if_pos ⟨not_lt.1 hover, hrest⟩, Option.map_some]
      · rw [if_neg hrest, if_neg fun h => hrest h.2, Option.map_none]
  | case2 start hge => rw [dense, if_neg hge, steps_of_ge hge, List.map_nil,
    if_pos fun _ hx => absurd hx List.not_mem_nil]

/-- The starts stay in `i64`. -/
theorem steps_le_i64Max (hlt : since < until_) :
    (∀ x ∈ steps until_ width hwidth (round width since), x + width ≤ i64Max) ↔
      lastStart until_ width + width ≤ i64Max := by
  have hdvd : width ∣ lastStart until_ width := dvd_mul_left _ _
  by_cases hfirst : round width since < until_
  · constructor
    · refine fun h => h _ (mem_steps.2 ⟨?_, lastStart_lt hwidth, dvd_sub hdvd dvd_round⟩)
      exact (le_lastStart hwidth dvd_round).2 hfirst
    · intro h x hx
      obtain ⟨_, hx, hxdvd⟩ := mem_steps.1 hx
      have hxw : width ∣ x := (dvd_sub_left dvd_round).1 hxdvd
      exact (Int.add_le_add_right ((le_lastStart hwidth hxw).2 hx) width).trans h
  · -- There are none, as the window ends by zero.
    rw [steps_of_ge hfirst]
    refine iff_of_true nofun ?_
    have huntil : until_ ≤ 0 :=
      not_lt.1 fun hpos => hfirst ((round_lt_until hwidth hlt).2 (.inl hpos))
    obtain ⟨q, hq⟩ := hdvd
    have hneg : width * q < width * 0 := by
      rw [← hq, mul_zero]
      exact (lastStart_lt hwidth).trans_le huntil
    have hq0 : q < 0 := Int.lt_of_mul_lt_mul_left hneg hwidth.le
    have : width * (q + 1) ≤ 0 := Int.mul_nonpos_of_nonneg_of_nonpos hwidth.le hq0
    rw [hq, ← mul_add_one]
    exact this.trans (by decide)

/-- The buckets of a window. -/
theorem buckets_eq (hlt : since < until_) (hwidth : 0 < width) :
    buckets log since until_ width =
      if lastStart until_ width + width ≤ i64Max then
        some ((steps until_ width hwidth (round width since)).map fun start =>
          tally (inBucket width (window log since until_) start) start)
      else none := by
  simp only [buckets, dif_pos hwidth, dense_eq, steps_le_i64Max hlt, found_grouped]

/-- Every call goes in one of the three directions. -/
theorem countP_directions (rows : List Entry) :
    rows.countP (·.direction = .inb) + rows.countP (·.direction = .out) +
      rows.countP (·.direction = .loc) = rows.length := by
  induction rows with
  | nil => rfl
  | cons e rows ih =>
    simp only [List.countP_cons, List.length_cons, ← ih]
    rcases e with ⟨t, _ | _ | _, status⟩
    · simp; omega
    · simp; omega
    · simp; omega

/-- The sums over the buckets are those over the rows which have a bucket. -/
theorem sum_tally {starts : List ℤ} (h : starts.Nodup) {f : Bucket → ℕ} {p : Entry → Bool}
    (hf : ∀ part start, f (tally part start) = part.countP p) :
    ((starts.map fun start => tally (inBucket width rows start) start).map f).sum =
      (rows.filter (round width ·.timestamp ∈ starts)).countP p := by
  rw [← (flatten_group_perm h).countP_eq, List.countP_flatten, List.map_map, List.map_map]
  exact congrArg List.sum (List.map_congr_left fun start _ => hf _ start)

/-- The starts cover the rows of the window when it fits. -/
theorem mem_steps_iff (hwidth : 0 < width) {e : Entry} (he : e ∈ window log since until_) :
    round width e.timestamp ∈ steps until_ width hwidth (round width since) ↔
      0 < until_ ∨ e.timestamp ≤ lastStart until_ width := by
  obtain ⟨hsince, huntil⟩ := of_decide_eq_true (List.mem_filter.1 he).2
  rw [mem_steps, ← round_lt_until hwidth huntil]
  refine ⟨fun h => h.2.1, fun h => ⟨round_mono hwidth hsince, h, dvd_sub dvd_round dvd_round⟩⟩

theorem forall_mem_window {p : Entry → Prop} : (∀ e ∈ window log since until_, p e) ↔
    ∀ e ∈ log, since ≤ e.timestamp → e.timestamp < until_ → p e := by
  simp only [window, List.mem_filter, decide_eq_true_iff, and_imp]

/-- The buckets share the rows of the window out exactly when it fits. -/
theorem partitions_iff_fits (hlt : since < until_) (hwidth : 0 < width) :
    (∃ out, buckets log since until_ width = some out ∧
      Partitions log since until_ width out) ↔ Fits log since until_ width := by
  rw [buckets_eq hlt hwidth]
  set rows := window log since until_
  set starts := steps until_ width hwidth (round width since)
  have hnodup : starts.Nodup := nodup_steps
  constructor
  · rintro ⟨out, hout, hpart⟩
    split_ifs at hout with hends
    obtain rfl := Option.some_inj.1 hout
    refine ⟨hends, ?_⟩
    -- As many rows are counted as there are in the window.
    have hlength : (rows.filter (round width ·.timestamp ∈ starts)).length = rows.length := by
      rw [← countP_directions, ← countP_directions, ← hpart.inbound, ← hpart.outbound,
        ← hpart.loc, sum_tally hnodup fun _ _ => rfl, sum_tally hnodup fun _ _ => rfl,
        sum_tally hnodup fun _ _ => rfl]
    have hall := List.length_filter_eq_length_iff.1 hlength
    by_cases hpos : 0 < until_
    · exact .inl hpos
    · refine .inr (forall_mem_window.1 fun e he => ?_)
      exact ((mem_steps_iff hwidth he).1 (of_decide_eq_true (hall e he))).resolve_left hpos
  · intro h
    have hall : rows.filter (round width ·.timestamp ∈ starts) = rows := by
      refine List.filter_eq_self.2 fun e he => decide_eq_true ((mem_steps_iff hwidth he).2 ?_)
      exact h.before.imp_right fun hbefore => forall_mem_window.2 hbefore e he
    have hsum {f : Bucket → ℕ} {p : Entry → Bool}
        (hf : ∀ part start, f (tally part start) = part.countP p) :
        ((starts.map fun start => tally (inBucket width rows start) start).map f).sum =
          rows.countP p := by rw [sum_tally hnodup hf, hall]
    refine ⟨_, if_pos h.ends, ?_, ⟨starts.map (inBucket width rows), ?_, ?_⟩,
      hsum fun _ _ => rfl, hsum fun _ _ => rfl, hsum fun _ _ => rfl, hsum fun _ _ => rfl⟩
    · rw [List.map_map]
      exact (List.map_id starts).symm ▸ isChain_steps
    · rw [List.forall₂_map_left_iff, List.forall₂_map_right_iff, List.forall₂_same]
      exact fun _ _ => rfl
    · exact (flatten_group_perm hnodup).trans (.of_eq hall)

/-- Two calls, in the first of five buckets and in the fourth. -/
def quiet : List Entry := [⟨100, .inb, "ok"⟩, ⟨161, .out, "timeout"⟩]

/-- They fit, and are shared out. -/
theorem partitions_iff_fits_quiet : Fits quiet 100 200 20 ∧ ∃ out,
    buckets quiet 100 200 20 = some out ∧ out.length = 5 ∧ Partitions quiet 100 200 20 out := by
  have hfits : Fits quiet 100 200 20 := ⟨by decide, .inl (by decide)⟩
  obtain ⟨out, hout, hpartitions⟩ := (partitions_iff_fits (by decide) (by decide)).2 hfits
  have hlength : (buckets quiet 100 200 20).map List.length = some 5 := by decide +kernel
  rw [hout, Option.map_some] at hlength
  exact ⟨hfits, out, hout, Option.some.inj hlength, hpartitions⟩

/-- A call before the epoch is rounded out of its window. -/
theorem not_partitions_before_epoch :
    ¬ ∃ out, buckets [⟨-3, .inb, "ok"⟩] (-5) (-1) 10 = some out ∧
      Partitions [⟨-3, .inb, "ok"⟩] (-5) (-1) 10 out := by
  rintro ⟨out, hout, hpart⟩
  rw [buckets, dif_pos (by decide), dense, if_neg (by decide)] at hout
  obtain rfl := Option.some_inj.1 hout
  exact absurd hpart.inbound (by decide)

end N3ur0n.Audit
