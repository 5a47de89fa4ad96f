import MibCorpus.Draft.Sweep
import Mathlib.Data.List.Basic

/-!
# What sweeps keep

A loop of sweeps is one step over and over: decide all pending entries against one draft, then carry
the decisions out. What a step keeps holds in the end, and then no entry is left over that could be
decided. Two loops whose steps keep a relation between them end in related drafts.
-/

namespace MibCorpus.SweepRule

variable {α β : Type} (rule : SweepRule α β)

/-- The entries that one sweep decides, with the decisions. -/
def decided (d : Draft) (xs : List α) : List (α × β) :=
  xs.filterMap fun x => (rule.decide? d x).map (x, ·)

/-- The entries that one sweep leaves pending. -/
def undecided (d : Draft) (xs : List α) : List α :=
  xs.filter fun x => (rule.decide? d x).isNone

/-- The draft after one sweep. -/
def sweep (d : Draft) (xs : List α) : Draft := rule.applyAll d (rule.decided d xs)

/-- What is decided in a sweep was left, and has a decision. -/
lemma mem_decided {d : Draft} {xs : List α} {x : α × β} :
    x ∈ rule.decided d xs ↔ x.1 ∈ xs ∧ rule.decide? d x.1 = some x.2 := by
  obtain ⟨x, y⟩ := x
  simp [decided]

/-- What is undecided after a sweep was left, and has no decision. -/
lemma mem_undecided {d : Draft} {xs : List α} {x : α} :
    x ∈ rule.undecided d xs ↔ x ∈ xs ∧ rule.decide? d x = none := by
  simp [undecided]

/-- What does not remain has been decided. -/
lemma exists_decide? {d : Draft} {xs : List α} {x : α} (pending : x ∈ xs)
    (gone : x ∉ rule.undecided d xs) : ∃ y, rule.decide? d x = some y :=
  Option.ne_none_iff_exists'.1 fun none => gone (rule.mem_undecided.2 ⟨pending, none⟩)

/-- The entries decided are those of which the rule says something. -/
lemma map_fst_decided (d : Draft) (xs : List α) :
    (rule.decided d xs).map Prod.fst = xs.filter fun x => (rule.decide? d x).isSome := by
  induction xs with
  | nil => rfl
  | cons x xs ih =>
    unfold decided at ih ⊢
    cases h : rule.decide? d x <;> simp [h, ih]

/-- An entry is decided or not. -/
lemma perm_decided (d : Draft) (xs : List α) :
    ((rule.decided d xs).map Prod.fst ++ rule.undecided d xs).Perm xs := by
  rw [map_fst_decided, undecided]
  simpa using List.filter_append_perm (fun x => (rule.decide? d x).isSome) xs

/-- A sweep that leaves as many pending as before has decided nothing. -/
lemma undecided_eq_self {d : Draft} {xs : List α}
    (h : ¬(rule.undecided d xs).length < xs.length) :
    rule.undecided d xs = xs ∧ rule.sweep d xs = d := by
  have all : ∀ x ∈ xs, (rule.decide? d x).isNone = true := by
    have e := List.length_filter_le (fun x => (rule.decide? d x).isNone) xs
    unfold undecided at h
    exact List.length_filter_eq_length_iff.1 (by omega)
  refine ⟨List.filter_eq_self.2 all, ?_⟩
  have nothing : rule.decided d xs = [] := by
    refine List.filterMap_eq_nil_iff.2 fun x hx => ?_
    simp [Option.isNone_iff_eq_none.1 (all x hx)]
  rw [sweep, nothing]
  rfl

/-- How a loop ends: with a sweep that decides nothing, or after one more sweep with the rest. -/
lemma run_cases (pass : Nat) (xs : List α) (d : Draft) (r : Recorder) :
    ((rule.run pass xs d r).1 = xs ∧ (rule.run pass xs d r).2.1 = d ∧
      ¬(rule.undecided d xs).length < xs.length) ∨
    ((rule.undecided d xs).length < xs.length ∧ ∃ r',
      rule.run pass xs d r = rule.run (pass + 1) (rule.undecided d xs) (rule.sweep d xs) r') := by
  rw [run, split_eq]
  by_cases he : xs.isEmpty
  · obtain rfl := List.isEmpty_iff.1 he
    exact .inl ⟨rfl, rfl, by simp⟩
  · rw [if_neg he]
    by_cases hl : (rule.undecided d xs).length < xs.length
    · refine .inr ⟨hl, ?_⟩
      simp only [undecided] at hl
      simp only [if_pos hl]
      exact ⟨_, rfl⟩
    · refine .inl ?_
      obtain ⟨hu, hs⟩ := rule.undecided_eq_self hl
      refine ⟨?_, ?_, hl⟩
      all_goals
        simp only [undecided] at hl hu
        simp only [if_neg hl]
      · exact hu
      · exact hs

/-- Induction along the sweeps of a loop, where another sweep follows if fewer entries are left. -/
@[elab_as_elim]
theorem sweepInduction {P : List α → Draft → Prop} (nil : ∀ d, P [] d)
    (sweep : ∀ xs d, xs ≠ [] → ((rule.undecided d xs).length < xs.length →
      P (rule.undecided d xs) (rule.sweep d xs)) → P xs d) (xs : List α) (d : Draft) : P xs d := by
  induction hn : xs.length using Nat.strongRecOn generalizing xs d with
  | ind n ih =>
    by_cases he : xs = []
    · exact he ▸ nil d
    · exact sweep xs d he fun lt => ih _ (hn ▸ lt) _ _ rfl

/-- With nothing left a run changes nothing. -/
lemma run_nil (pass : Nat) (d : Draft) (r : Recorder) : rule.run pass [] d r = ([], d, r) := by
  rw [run]
  rfl

/-- What a sweep keeps, a loop of sweeps keeps. -/
theorem run_invariant {P : List α → Draft → Prop}
    (step : ∀ xs d, P xs d → P (rule.undecided d xs) (rule.sweep d xs))
    (pass : Nat) {xs : List α} {d : Draft} (r : Recorder) (h : P xs d) :
    P (rule.run pass xs d r).1 (rule.run pass xs d r).2.1 := by
  induction xs, d using rule.sweepInduction generalizing pass r with
  | nil d =>
    rw [run_nil]
    exact h
  | sweep xs d _ ih =>
    rcases rule.run_cases pass xs d r with ⟨hxs, hd, -⟩ | ⟨hlt, r', e⟩
    · rwa [hxs, hd]
    · rw [e]
      exact ih hlt (pass + 1) r' (step xs d h)

/-- Nothing that a loop leaves over could be decided in the end. -/
theorem decide?_of_mem_run (pass : Nat) (xs : List α) (d : Draft) (r : Recorder) {x : α}
    (hx : x ∈ (rule.run pass xs d r).1) : rule.decide? (rule.run pass xs d r).2.1 x = none := by
  induction xs, d using rule.sweepInduction generalizing pass r with
  | nil d =>
    rw [run_nil] at hx
    cases hx
  | sweep xs d _ ih =>
    rcases rule.run_cases pass xs d r with ⟨hxs, hd, hl⟩ | ⟨hlt, r', e⟩
    · rw [hd]
      rw [hxs, ← (rule.undecided_eq_self hl).1] at hx
      exact (rule.mem_undecided.1 hx).2
    · rw [e] at hx ⊢
      exact ih hlt (pass + 1) r' hx

/-- A relation between two loops that sweeps keep holds between their ends. One loop may take more
sweeps than the other: where a loop has ended, one more sweep changes nothing. -/
theorem run_simulation {R : List α → Draft → List α → Draft → Prop}
    (step : ∀ xs d xs' d', R xs d xs' d' →
      R (rule.undecided d xs) (rule.sweep d xs) (rule.undecided d' xs') (rule.sweep d' xs'))
    (pass pass' : Nat) {xs xs' : List α} {d d' : Draft} (r r' : Recorder) (h : R xs d xs' d') :
    R (rule.run pass xs d r).1 (rule.run pass xs d r).2.1
      (rule.run pass' xs' d' r').1 (rule.run pass' xs' d' r').2.1 := by
  -- Whichever loop goes on has fewer entries left, so the sum of both numbers decreases.
  induction hn : xs.length + xs'.length using Nat.strongRecOn
    generalizing pass pass' xs xs' d d' r r' with
  | ind n ih =>
    have swept := step _ _ _ _ h
    rcases rule.run_cases pass xs d r with ⟨hxs, hd, hl⟩ | ⟨hlt, s, e⟩ <;>
      rcases rule.run_cases pass' xs' d' r' with ⟨hxs', hd', hl'⟩ | ⟨hlt', s', e'⟩
    · rwa [hxs, hd, hxs', hd']
    · obtain ⟨hu, hs⟩ := rule.undecided_eq_self hl
      rw [hu, hs] at swept
      rw [e']
      exact ih _ (by omega) pass (pass' + 1) r s' swept rfl
    · obtain ⟨hu, hs⟩ := rule.undecided_eq_self hl'
      rw [hu, hs] at swept
      rw [e]
      exact ih _ (by omega) (pass + 1) pass' s r' swept rfl
    · rw [e, e']
      exact ih _ (by omega) (pass + 1) (pass' + 1) s s' swept rfl

end MibCorpus.SweepRule
