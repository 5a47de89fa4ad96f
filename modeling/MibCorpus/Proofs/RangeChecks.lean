import MibCorpus.Typing.Lowering
import Mathlib.Tactic.Lemma

/-!
# Ranges that can hold

A range can hold if it does not end before it starts, where `MIN` lies below every number and `MAX`
above; a range of sizes must not have a number below zero at either end besides. The check asks for
the sign of the lower end alone. With ends in the right order that makes one difference: a range of
sizes from `MIN` to a number below zero passes, though it cannot hold.
-/

namespace MibCorpus

namespace RangeBound

/-- Bound `b` does not lie above bound `c`, where `MIN` lies below every number and `MAX` above. -/
def AtMost : RangeBound → RangeBound → Prop
  | min, _ | _, max => True
  | value v, value w => v ≤ w
  | _, _ => False

/-- Bounds are compared by where they lie. -/
lemma isLE_compare_iff (b c : RangeBound) : (compare b c).isLE = true ↔ b.AtMost c := by
  cases b with
  | min => cases c <;> simp [compare, RangeBound.compare, AtMost]
  | value v =>
    cases c with
    | value w => exact Int.isLE_compare
    | min | max => simp [compare, RangeBound.compare, AtMost]
  | max => cases c <;> simp [compare, RangeBound.compare, AtMost]

instance (b c : RangeBound) : Decidable (b.AtMost c) := decidable_of_iff _ (isLE_compare_iff b c)

/-- Below a number below zero there are only other such numbers and `MIN`. -/
lemma AtMost.eq_min {b c : RangeBound} (h : b.AtMost c) (negative : c.isNegative = true)
    (not_negative : b.isNegative = false) : b = min := by
  cases b with
  | min => rfl
  | value v =>
    cases c with
    | value w =>
      have le : v ≤ w := h
      simp only [isNegative, decide_eq_true_eq, decide_eq_false_iff_not] at negative not_negative
      omega
    | min | max => cases negative
  | max =>
    cases c with
    | value w => cases h
    | min | max => cases negative

end RangeBound

namespace ConstraintRange

variable {isSize : Bool} {r : ConstraintRange}

/-- The range does not end before it starts, and as a range of sizes it has no number below zero. -/
def CanHold (isSize : Bool) (r : ConstraintRange) : Prop :=
  r.lower.AtMost r.upper ∧
    (isSize = true → r.lower.isNegative = false ∧ r.upper.isNegative = false)

/-- The range is one of sizes from `MIN` to a number below zero. -/
def EndsBelowZero (isSize : Bool) (r : ConstraintRange) : Prop :=
  isSize = true ∧ r.lower = .min ∧ r.upper.isNegative = true

/-- The range passes the check. -/
def Passes (isSize : Bool) (r : ConstraintRange) : Prop :=
  r.CanHold isSize ∨ r.EndsBelowZero isSize

/-- No range that ends below zero can hold. -/
lemma EndsBelowZero.not_canHold (h : r.EndsBelowZero isSize) : ¬r.CanHold isSize := by
  rintro ⟨-, signs⟩
  obtain ⟨size, -, negative⟩ := h
  rw [(signs size).2] at negative
  cases negative

/-- A range is ordered exactly if its lower end is at most its upper end. -/
lemma isOrdered_iff : r.isOrdered = true ↔ r.lower.AtMost r.upper :=
  RangeBound.isLE_compare_iff r.lower r.upper

/-- Passing is having ends in order, the lower of which is no size below zero. -/
lemma passes_iff : r.Passes isSize ↔
    r.isOrdered = true ∧ (isSize = true → r.lower.isNegative = false) := by
  rw [isOrdered_iff]
  constructor
  · rintro (⟨ordered, signs⟩ | ⟨-, lower, -⟩)
    · exact ⟨ordered, fun size => (signs size).1⟩
    · rw [lower]
      exact ⟨trivial, fun _ => rfl⟩
  · rintro ⟨ordered, sign⟩
    by_cases negative : isSize = true ∧ r.upper.isNegative = true
    · obtain ⟨size, negative⟩ := negative
      exact .inr ⟨size, ordered.eq_min negative (sign size), negative⟩
    · refine .inl ⟨ordered, fun size => ⟨sign size, ?_⟩⟩
      simpa [size] using negative

instance (isSize : Bool) (r : ConstraintRange) : Decidable (r.Passes isSize) :=
  decidable_of_iff' _ passes_iff

/-- What is wrong with a range in the SYNTAX of `owner` that does not pass. -/
def complaint (owner : String) (isSize : Bool) (r : ConstraintRange) : Finding :=
  if isSize && r.lower.isNegative then .negativeSize (toString r) owner
  else .unorderedRange (toString r.lower) (toString r.upper) owner

/-- Either complaint is about a range that cannot hold. -/
lemma kind_complaint (owner : String) (isSize : Bool) (r : ConstraintRange) :
    (r.complaint owner isSize).kind = .rangeConstraintViolation := by
  unfold complaint
  split <;> rfl

/-- A complaint is made about the ranges that do not pass. -/
lemma rangeDefect?_eq (owner : String) (isSize : Bool) (r : ConstraintRange) :
    Lowering.rangeDefect? owner isSize r =
      if r.Passes isSize then none else some (r.complaint owner isSize) := by
  unfold Lowering.rangeDefect? complaint
  simp only [passes_iff]
  cases isSize <;> cases r.lower.isNegative <;> cases r.isOrdered <;> rfl

end ConstraintRange

/-- Whether the size is constrained. -/
def Constraint.isSize : Constraint → Bool
  | size _ => true
  | value _ => false

namespace WrittenConstraint

/-- The ranges that pass the check. -/
def passed (c : WrittenConstraint) : List ConstraintRange :=
  (Lowering.writtenRanges c).filter fun r => r.Passes c.isSize

/-- The ranges that do not pass the check. -/
def failed (c : WrittenConstraint) : List ConstraintRange :=
  (Lowering.writtenRanges c).filter fun r => ¬r.Passes c.isSize

/-- A constraint of the same kind with other ranges. -/
def withRanges (c : WrittenConstraint) (rs : List ConstraintRange) : Constraint :=
  if c.isSize then .size rs else .value rs

/-- A constraint with given ranges has these ranges. -/
@[simp]
lemma ranges_withRanges (c : WrittenConstraint) (rs : List ConstraintRange) :
    (c.withRanges rs).ranges = rs := by
  unfold withRanges
  split <;> rfl

/-- Giving a constraint other ranges does not turn a size into a value constraint. -/
@[simp]
lemma isSize_withRanges (c : WrittenConstraint) (rs : List ConstraintRange) :
    (c.withRanges rs).isSize = c.isSize := by
  unfold withRanges
  cases c.isSize <;> rfl

/-- What remains of a constraint after the check. -/
def kept? (c : WrittenConstraint) : Option Constraint :=
  if c.passed = [] then none else some (c.withRanges c.passed)

/-- Nothing is kept of a constraint exactly if none of its ranges passes. -/
lemma kept?_eq_none_iff (c : WrittenConstraint) : c.kept? = none ↔ c.passed = [] := by
  simp [kept?]

/-- What is kept of a constraint are the ranges that pass, if there are any. -/
lemma kept?_eq_some_iff {c : WrittenConstraint} {k : Constraint} :
    c.kept? = some k ↔ c.passed ≠ [] ∧ c.withRanges c.passed = k := by
  simp [kept?]

/-- All ranges that remain have passed. -/
lemma passes_of_mem_kept? {c : WrittenConstraint} {k : Constraint} (h : c.kept? = some k)
    {r : ConstraintRange} (hr : r ∈ k.ranges) : r.Passes k.isSize := by
  obtain ⟨-, rfl⟩ := kept?_eq_some_iff.1 h
  rw [ranges_withRanges] at hr
  rw [isSize_withRanges]
  simpa using (List.mem_filter.1 hr).2

/-- A range that passes is kept. -/
lemma exists_kept?_of_mem_passed {c : WrittenConstraint} {r : ConstraintRange}
    (hr : r ∈ c.passed) : ∃ k, c.kept? = some k ∧ r ∈ k.ranges := by
  refine ⟨_, kept?_eq_some_iff.2 ⟨List.ne_nil_of_mem hr, rfl⟩, ?_⟩
  rwa [ranges_withRanges]

/-- Every range passes or fails. -/
lemma mem_passed_or_mem_failed {c : WrittenConstraint} {r : ConstraintRange}
    (hr : r ∈ Lowering.writtenRanges c) : r ∈ c.passed ∨ r ∈ c.failed := by
  by_cases passes : r.Passes c.isSize
  · exact .inl (List.mem_filter.2 ⟨hr, by simpa using passes⟩)
  · exact .inr (List.mem_filter.2 ⟨hr, by simpa using passes⟩)

/-- Lowering keeps the ranges that pass. -/
lemma keptConstraint?_eq (owner : String) (c : WrittenConstraint) :
    Lowering.keptConstraint? owner c = c.kept? := by
  have same : (fun r => (Lowering.rangeDefect? owner c.isSize r).isNone) =
      fun r => decide (ConstraintRange.Passes c.isSize r) := by
    funext r
    rw [ConstraintRange.rangeDefect?_eq]
    by_cases passes : r.Passes c.isSize <;> simp [passes]
  have e : (Lowering.writtenRanges c).filter
      (fun r => (Lowering.rangeDefect? owner c.isSize r).isNone) = c.passed := by rw [same, passed]
  simp only [Lowering.keptConstraint?, e, kept?, withRanges]
  cases c.passed with
  | nil => rfl
  | cons r rs => cases c.isSize <;> rfl

/-- Lowering complains about each range that fails. -/
lemma filterMap_rangeDefect? (owner : String) (c : WrittenConstraint) :
    (Lowering.writtenRanges c).filterMap (Lowering.rangeDefect? owner c.isSize) =
      c.failed.map (·.complaint owner c.isSize) := by
  unfold failed
  induction Lowering.writtenRanges c with
  | nil => rfl
  | cons r rs ih =>
    rw [List.filterMap_cons, List.filter_cons, ConstraintRange.rangeDefect?_eq]
    by_cases passes : r.Passes c.isSize
    · simpa [passes] using ih
    · simpa [passes] using ih

end WrittenConstraint

end MibCorpus
