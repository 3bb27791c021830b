import Mathlib.Data.Int.Log
import Mathlib.Data.Rat.Floor
import Mathlib.Order.WithBot
import N3ur0n.Planner.Plan

/-!
# The cascade of compilers

A cascade compiles with its primary compiler, and when the confidence of that
one in its plan is below a threshold, with the fallback: the plan of the higher
confidence is kept.

* `compile_eq_fallback`: the fallback is taken exactly below the threshold, and
  with more confidence;
* `prefers_valid`: where no broken plan inspires confidence, as documented, a
  cascade never prefers one;
* `compile_broken_iff`: but the tiers of the code do not look at the catalogue,
  and a broken plan is only passed over if it is too long, or if the threshold
  is above the tier of ordinary plans and the fallback is remote.
-/

namespace N3ur0n

/-! ## Confidence -/

/-- The nearest integer, the even one of two. -/
def roundEven (q : ℚ) : ℤ :=
  if q - ⌊q⌋ < 1 / 2 ∨ q - ⌊q⌋ = 1 / 2 ∧ ⌊q⌋ % 2 = 0 then ⌊q⌋ else ⌊q⌋ + 1

/-- The nearest number of nearestSingle precision, for a positive number which is not
    too small or too big: it has 24 significant bits. -/
def nearestSingle (q : ℚ) : ℚ :=
  let unit : ℚ := 2 ^ (Int.log 2 q - 23)
  roundEven (q / unit) * unit

/-- The confidence of a compiler, by the size of the plan alone. -/
def defaultConfidence (plan : Plan) (_ : Catalog) : ℚ :=
  if maxPlanSteps < plan.plan.length then nearestSingle (3 / 10)
  else if plan.plan.isEmpty then nearestSingle (5 / 10)
  else nearestSingle (9 / 10)

def planIsValid (schemas : SchemaCompiler) (plan : Plan) (catalog : Catalog) : Bool :=
  (validatePlan schemas plan catalog).toBool

/-- Remote compilers are trusted some more, for the plans which are valid. -/
def remoteConfidence (schemas : SchemaCompiler) (plan : Plan) (catalog : Catalog) : ℚ :=
  let base := defaultConfidence plan catalog
  if !plan.plan.isEmpty && planIsValid schemas plan catalog then
    min (nearestSingle (base + nearestSingle (1 / 10))) 1
  else base

/-- How a compiler scores its plans. -/
inductive Tiers
  | default
  | remote
  deriving DecidableEq

def Tiers.confidence (schemas : SchemaCompiler) : Tiers → Plan → Catalog → ℚ
  | .default => defaultConfidence
  | .remote => remoteConfidence schemas

/-! ## Compilers -/

variable {ε : Type}

structure PlanCompiler (ε : Type) where
  compile : String → Catalog → Except ε Plan
  confidence : Plan → Catalog → ℚ

/-- The threshold may be infinite. -/
structure CascadingCompiler (ε : Type) where
  primary : PlanCompiler ε
  fallback : Option (PlanCompiler ε)
  threshold : WithTop ℚ

namespace CascadingCompiler

def compile (c : CascadingCompiler ε) (msg : String) (catalog : Catalog) : Except ε Plan := do
  let primaryPlan ← c.primary.compile msg catalog
  let primaryConf := c.primary.confidence primaryPlan catalog
  if c.threshold ≤ primaryConf then return primaryPlan
  match c.fallback with
  | none => return primaryPlan
  | some fallback =>
    match fallback.compile msg catalog with
    | .ok plan =>
      if primaryConf < fallback.confidence plan catalog then return plan else return primaryPlan
    | .error _ => return primaryPlan

/-- A cascade is a compiler, as confident as its primary one. -/
def toPlanCompiler (c : CascadingCompiler ε) : PlanCompiler ε :=
  ⟨c.compile, c.primary.confidence⟩

variable {c : CascadingCompiler ε} {fb : PlanCompiler ε} {schemas : SchemaCompiler} {msg : String}
  {catalog : Catalog} {p f : Plan}

/-- The fallback is taken exactly below the threshold, and with more confidence. -/
theorem compile_eq_fallback (hp : c.primary.compile msg catalog = .ok p)
    (hfb : c.fallback = some fb) (hf : fb.compile msg catalog = .ok f) (hne : p ≠ f) :
    c.compile msg catalog = .ok f ↔ (c.primary.confidence p catalog : WithTop ℚ) < c.threshold ∧
      c.primary.confidence p catalog < fb.confidence f catalog := by
  have hcompile : c.compile msg catalog =
      if c.threshold ≤ (c.primary.confidence p catalog : WithTop ℚ) then .ok p
      else if c.primary.confidence p catalog < fb.confidence f catalog then .ok f else .ok p := by
    rw [compile, hp]
    simp only [hfb, hf]
    rfl
  rw [hcompile, ← not_le (a := c.threshold)]
  split_ifs with hthreshold hconf
  · simp [hthreshold, hne]
  · simp [hthreshold, hconf]
  · simp [hconf, hne]

/-- The primary plan has steps and is broken, the fallback gives a valid one. -/
structure Broken (schemas : SchemaCompiler) (c : CascadingCompiler ε) (msg : String)
    (catalog : Catalog) (fb : PlanCompiler ε) (p f : Plan) : Prop where
  primary : c.primary.compile msg catalog = .ok p
  nonempty : p.plan ≠ []
  rejected : planIsValid schemas p catalog = false
  fallback : c.fallback = some fb
  compiled : fb.compile msg catalog = .ok f
  valid : planIsValid schemas f catalog = true

theorem Broken.ne (h : Broken schemas c msg catalog fb p f) : p ≠ f := by
  rintro rfl
  exact Bool.false_ne_true (h.rejected.symm.trans h.valid)

/-- Where no broken plan inspires confidence, none is preferred. -/
theorem prefers_valid (h : Broken schemas c msg catalog fb p f) (hpos : 0 < c.threshold)
    (hzero : c.primary.confidence p catalog = 0) (hscore : 0 < fb.confidence f catalog) :
    c.compile msg catalog = .ok f := by
  refine (compile_eq_fallback h.primary h.fallback h.compiled h.ne).2 ?_
  rw [hzero]
  exact ⟨hpos, hscore⟩

/-! ## The tiers of the code -/

theorem tiers : nearestSingle (3 / 10) < nearestSingle (9 / 10) ∧
    min (nearestSingle (nearestSingle (9 / 10) + nearestSingle (1 / 10))) 1 = 1 ∧
      nearestSingle (9 / 10) < 1 := by
  decide +kernel

theorem confidence_rejected {k : Tiers} (hne : p.plan ≠ [])
    (h : planIsValid schemas p catalog = false) : k.confidence schemas p catalog =
      if maxPlanSteps < p.plan.length then nearestSingle (3 / 10) else nearestSingle (9 / 10) := by
  have hempty : p.plan.isEmpty = false := by simpa using hne
  have hdefault : defaultConfidence p catalog =
      if maxPlanSteps < p.plan.length then nearestSingle (3 / 10) else nearestSingle (9 / 10) := by
    rw [defaultConfidence, hempty]
    rfl
  rcases k with - | -
  · exact hdefault
  · rw [Tiers.confidence, remoteConfidence, h, Bool.and_false]
    exact hdefault

theorem confidence_valid {k : Tiers} (h : planIsValid schemas f catalog = true) :
    k.confidence schemas f catalog = if k = .remote then 1 else nearestSingle (9 / 10) := by
  have hok : validatePlan schemas f catalog = .ok () := by
    rw [planIsValid] at h
    cases hv : validatePlan schemas f catalog with
    | ok u => rfl
    | error e => rw [hv] at h; exact absurd h (by simp [Except.toBool])
  obtain ⟨hpos, hlen⟩ := (Plan.valid_of_validatePlan hok).size
  have hempty : f.plan.isEmpty = false := by
    rw [List.isEmpty_eq_false_iff]
    exact List.ne_nil_of_length_pos hpos
  have hdefault : defaultConfidence f catalog = nearestSingle (9 / 10) := by
    rw [defaultConfidence, if_neg (not_lt.2 hlen), hempty]
    rfl
  rcases k with - | -
  · exact hdefault
  · rw [Tiers.confidence, remoteConfidence, h, hempty, hdefault]
    exact tiers.2.1

/-- A broken plan is only passed over if it is too long, or if the threshold is
    above the tier of ordinary plans and the fallback is remote. -/
theorem compile_broken_iff {k k' : Tiers} (h : Broken schemas c msg catalog fb p f)
    (hk : c.primary.confidence = k.confidence schemas)
    (hk' : fb.confidence = k'.confidence schemas) :
    c.compile msg catalog = .ok f ↔
      maxPlanSteps < p.plan.length ∧ ((nearestSingle (3 / 10) : ℚ) : WithTop ℚ) < c.threshold ∨
        k' = .remote ∧ ((nearestSingle (9 / 10) : ℚ) : WithTop ℚ) < c.threshold := by
  obtain ⟨hlow, -, hhigh⟩ := tiers
  have hlow' : ((nearestSingle (3 / 10) : ℚ) : WithTop ℚ) < (nearestSingle (9 / 10) : ℚ) :=
    WithTop.coe_lt_coe.2 hlow
  rw [compile_eq_fallback h.primary h.fallback h.compiled h.ne, hk, hk',
    confidence_rejected h.nonempty h.rejected, confidence_valid h.valid]
  by_cases hlong : maxPlanSteps < p.plan.length
  · -- Every tier of a valid plan is above that of the long ones.
    have hconf : nearestSingle (3 / 10) < if k' = .remote then 1 else nearestSingle (9 / 10) := by
      split_ifs
      · exact hlow.trans hhigh
      · exact hlow
    simp only [hlong, if_true, hconf, and_true, true_and]
    exact ⟨.inl, fun h => h.elim id fun h => hlow'.trans h.2⟩
  · have hconf : (nearestSingle (9 / 10) < if k' = .remote then 1 else nearestSingle (9 / 10)) ↔
        k' = .remote := by
      split_ifs with hremote
      · simp [hremote, hhigh]
      · simp [hremote]
    simp only [hlong, if_false, hconf, false_and, false_or]
    exact and_comm

/-! ## A broken plan -/

/-- A catalogue of one capability, without constraints. -/
def oneEcho : Catalog := ⟨[⟨"n3:abc", none, ⟨"echo", .object [], .object []⟩⟩]⟩

/-- The plan that calls the capability `name`. -/
def calling (name : String) : Plan := ⟨[⟨"s1", "abc", name, .object [], []⟩]⟩

def anySchema : SchemaCompiler := fun _ => .ok fun _ => []

/-- A remote compiler which calls the capability there is. -/
def remoteEcho : PlanCompiler String :=
  ⟨fun _ _ => .ok (calling "echo"), remoteConfidence anySchema⟩

/-- The primary compiler calls a capability which does not exist. -/
def misspelt (threshold : WithTop ℚ) : CascadingCompiler String where
  primary := ⟨fun _ _ => .ok (calling "ecco"), defaultConfidence⟩
  fallback := some remoteEcho
  threshold := threshold

theorem broken_misspelt (threshold : WithTop ℚ) :
    Broken anySchema (misspelt threshold) "" oneEcho remoteEcho (calling "ecco")
      (calling "echo") where
  primary := rfl
  nonempty := List.cons_ne_nil _ _
  rejected := by decide
  fallback := rfl
  compiled := rfl
  valid := by decide

theorem compile_broken_iff_top : (misspelt ⊤).compile "" oneEcho = .ok (calling "echo") := by
  have hk : (misspelt ⊤).primary.confidence = Tiers.default.confidence anySchema := rfl
  have hk' : remoteEcho.confidence = Tiers.remote.confidence anySchema := rfl
  exact (compile_broken_iff (broken_misspelt ⊤) hk hk').2 (.inr ⟨rfl, WithTop.coe_lt_top _⟩)

/-- With a threshold of one half, the plan which calls nothing is kept. -/
theorem keeps_broken : ¬∀ (c : CascadingCompiler String) (k k' : Tiers) (fb : PlanCompiler String)
    (p f : Plan), 0 < c.threshold → c.primary.confidence = k.confidence anySchema →
      fb.confidence = k'.confidence anySchema → Broken anySchema c "" oneEcho fb p f →
        c.compile "" oneEcho = .ok f := by
  intro h
  have hpos : (0 : WithTop ℚ) < ((1 / 2 : ℚ) : WithTop ℚ) := WithTop.coe_lt_coe.2 (by norm_num)
  have hhigh : ((1 / 2 : ℚ) : WithTop ℚ) ≤ (nearestSingle (9 / 10) : ℚ) :=
    WithTop.coe_le_coe.2 (by decide +kernel)
  have hkept : (misspelt (1 / 2 : ℚ)).compile "" oneEcho = .ok (calling "ecco") := if_pos hhigh
  have hfallback := h (misspelt (1 / 2 : ℚ)) .default .remote remoteEcho (calling "ecco")
    (calling "echo") hpos rfl rfl (broken_misspelt _)
  rw [hkept, Except.ok.injEq] at hfallback
  exact absurd (congrArg (fun p => p.plan.map PlanStep.capability) hfallback) (by decide)

end CascadingCompiler

end N3ur0n
