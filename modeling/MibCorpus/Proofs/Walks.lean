import MibCorpus.Proofs.Steps

/-!
# Walks that return

Following steps from a place either ends or comes to a place that was there before. Such a place is
on a cycle: from it the walk returns. The place where a walk starts is on the cycle only if it is
the first that comes again.
-/

namespace MibCorpus

section Walks

variable {α : Type} {step : α → Option α} {a b c : α}

/-- Steps lead from `a` to `b`. -/
def WalksTo (step : α → Option α) (a b : α) : Prop := ∃ n, stepsFrom step n a = some b

/-- One or more steps lead from `a` back to `a`. -/
def WalksBack (step : α → Option α) (a : α) : Prop := ∃ n, 0 < n ∧ stepsFrom step n a = some a

/-- One step more than `n` is a step from where `n` steps lead. -/
lemma stepsFrom_succ_of_some {n : Nat} (h : stepsFrom step n a = some b) :
    stepsFrom step (n + 1) a = step b := by
  rw [stepsFrom_add, h, Option.bind_some, stepsFrom]
  cases step b <;> rfl

/-- A walk of no step leads back to its start. -/
lemma WalksTo.refl (a : α) : WalksTo step a a := ⟨0, rfl⟩

/-- Two walks in a row are one walk. -/
lemma WalksTo.trans (h : WalksTo step a b) (h' : WalksTo step b c) : WalksTo step a c := by
  obtain ⟨m, hm⟩ := h
  obtain ⟨n, hn⟩ := h'
  exact ⟨m + n, by rw [stepsFrom_add, hm, Option.bind_some, hn]⟩

/-- A step before a walk makes a longer one. -/
lemma WalksTo.head (first : step a = some b) (rest : WalksTo step b c) : WalksTo step a c := by
  obtain ⟨n, hn⟩ := rest
  exact ⟨n + 1, by rw [stepsFrom, first, Option.bind_some, hn]⟩

/-- A walk is no step, or a first step and a walk. -/
@[elab_as_elim]
lemma WalksTo.head_induction {motive : (a : α) → WalksTo step a b → Prop}
    (refl : motive b (.refl b))
    (head : ∀ {a c} (first : step a = some c) (rest : WalksTo step c b),
      motive c rest → motive a (.head first rest))
    {a : α} (h : WalksTo step a b) : motive a h := by
  obtain ⟨n, hn⟩ := h
  induction n generalizing a with
  | zero =>
    obtain rfl := Option.some.inj hn
    exact refl
  | succ n ih =>
    obtain ⟨c, first, rest⟩ := Option.bind_eq_some_iff.1 hn
    exact head first ⟨n, rest⟩ (ih rest)

/-- A walk ends where it starts, or has a first step. -/
lemma WalksTo.cases (h : WalksTo step a b) : a = b ∨ ∃ c, step a = some c ∧ WalksTo step c b := by
  induction h using WalksTo.head_induction with
  | refl => exact .inl rfl
  | head first rest => exact .inr ⟨_, first, rest⟩

/-- A walk can be repeated where every one of its steps can. -/
lemma WalksTo.mono {step' : α → Option α} (sub : ∀ a b, step a = some b → step' a = some b)
    (h : WalksTo step a b) : WalksTo step' a b := by
  induction h using WalksTo.head_induction with
  | refl => exact .refl _
  | head first _ ih => exact .head (sub _ _ first) ih

/-- A walk goes nowhere from where no step leads on. -/
lemma WalksTo.eq_of_ends (h : WalksTo step a b) (ends : step a = none) : a = b := by
  induction h using WalksTo.head_induction with
  | refl => rfl
  | head first => cases ends.symm.trans first

/-- Of two places on one walk one is ahead of the other. -/
lemma WalksTo.total (h : WalksTo step a b) (h' : WalksTo step a c) :
    WalksTo step b c ∨ WalksTo step c b := by
  induction h using WalksTo.head_induction with
  | refl => exact .inl h'
  | @head a d first rest ih =>
    rcases h'.cases with rfl | ⟨e, first', rest'⟩
    · exact .inr (.head first rest)
    · obtain rfl := Option.some.inj (first.symm.trans first')
      exact ih rest'

/-- A walk that returns returns again and again. -/
lemma stepsFrom_mul {n : Nat} (h : stepsFrom step n a = some a) (k : Nat) :
    stepsFrom step (n * k) a = some a := by
  induction k with
  | zero => rfl
  | succ k ih => rw [Nat.mul_succ, stepsFrom_add, ih, Option.bind_some, h]

/-- A walk leads back to its start if it does so after a first step. -/
lemma walksBack_iff : WalksBack step a ↔ ∃ b, step a = some b ∧ WalksTo step b a := by
  constructor
  · rintro ⟨n, pos, back⟩
    obtain ⟨n, rfl⟩ := Nat.exists_eq_add_of_lt pos
    rw [Nat.zero_add] at back
    obtain ⟨b, first, rest⟩ := Option.bind_eq_some_iff.1 back
    exact ⟨b, first, n, rest⟩
  · rintro ⟨b, first, n, rest⟩
    exact ⟨n + 1, Nat.succ_pos n, by rw [stepsFrom, first, Option.bind_some, rest]⟩

/-- What is on a cycle is still ahead wherever the cycle leads. -/
lemma WalksBack.walksTo (back : WalksBack step a) (way : WalksTo step a b) : WalksTo step b a := by
  obtain ⟨n, pos, back⟩ := back
  obtain ⟨i, hi⟩ := way
  have le : i ≤ n * (i + 1) := (Nat.le_succ i).trans (Nat.le_mul_of_pos_left _ pos)
  obtain ⟨k, e⟩ := Nat.exists_eq_add_of_le le
  have around := stepsFrom_mul back (i + 1)
  rw [e, stepsFrom_add, hi, Option.bind_some] at around
  exact ⟨k, around⟩

/-- A walk that ends comes through no cycle. -/
theorem not_walksBack_of_ends (way : WalksTo step a b) (ends : step b = none)
    (from_a : WalksTo step a c) : ¬ WalksBack step c := by
  intro back
  obtain rfl : b = c := by
    rcases way.total from_a with ahead | behind
    · exact ahead.eq_of_ends ends
    · exact (back.walksTo behind).eq_of_ends ends
  obtain ⟨d, first, -⟩ := walksBack_iff.1 back
  cases ends.symm.trans first

/-- A walk that comes to a place again has come around a cycle. -/
lemma walksBack_of_again {j k : Nat} (lt : j < k) (there : stepsFrom step j a = some b)
    (again : stepsFrom step k a = some b) : WalksBack step b := by
  refine ⟨k - j, Nat.sub_pos_of_lt lt, ?_⟩
  rwa [← Nat.add_sub_cancel' lt.le, stepsFrom_add, there, Option.bind_some] at again

/-- Where some other place than the start is the first to come again, the start never does. -/
theorem not_walksBack_of_closes {j k : Nat} (pos : 0 < j) (le : j ≤ k)
    (again : stepsFrom step (k + 1) a = stepsFrom step j a)
    (away : ∀ i, 0 < i → i ≤ k + 1 → stepsFrom step i a ≠ some a) : ¬ WalksBack step a := by
  rintro ⟨n, pos', back⟩
  induction n using Nat.strongRecOn with
  | ind n ih =>
    have late : k + 1 < n := by
      by_contra h
      exact away n pos' (Nat.le_of_not_lt h) back
    -- Without the steps around the cycle the way back is shorter.
    refine ih (j + (n - (k + 1))) (by omega) (by omega) ?_
    rw [stepsFrom_add, ← again, ← stepsFrom_add, Nat.add_sub_cancel' late.le]
    exact back

end Walks

end MibCorpus
