import MibCorpus.Proofs.Chronicle
import Mathlib.Order.Bounds.Basic

/-!
# Sweeps and depths

A sweep decides against the draft as it stood when the sweep began, so an entry that needs another
one is decided one sweep after it. The sweeps of a loop go through the depths of its entries one
after another, in whatever order the entries come, and the greatest depth tells how many there are.
-/

namespace MibCorpus

/-- It takes `k` steps from `x`, each to what is needed, to come to something grounded. -/
inductive Depth {α : Type} (grounded : α → Prop) (needs : α → α → Prop) : α → Nat → Prop where
  | zero {x : α} (here : grounded x) : Depth grounded needs x 0
  | succ {x y : α} {k : Nat} (step : needs x y) (rest : Depth grounded needs y k) :
    Depth grounded needs x (k + 1)

namespace Depth

variable {α : Type} {grounded : α → Prop} {needs : α → α → Prop} {x : α} {k l : Nat}

/-- Nothing has two depths. -/
lemma functional (single : ∀ x y z, needs x y → needs x z → y = z)
    (apart : ∀ x y, grounded x → ¬needs x y) (h : Depth grounded needs x k)
    (h' : Depth grounded needs x l) : k = l := by
  induction h generalizing l with
  | zero here =>
    cases h' with
    | zero => rfl
    | succ step => exact absurd step (apart _ _ here)
  | succ step _ ih =>
    cases h' with
    | zero here => exact absurd step (apart _ _ here)
    | succ step' rest' => rw [ih (single _ _ _ step step' ▸ rest')]

/-- If the depth is not below `k`, it is `k` if what is needed has a smaller one. -/
lemma iff_of_not_lt (deep : ∀ j < k, ¬Depth grounded needs x j) :
    Depth grounded needs x k ↔
      grounded x ∨ ∃ y, needs x y ∧ ∃ j < k, Depth grounded needs y j := by
  constructor
  · intro h
    cases h with
    | zero here => exact .inl here
    | succ step rest => exact .inr ⟨_, step, _, Nat.lt_succ_self _, rest⟩
  · rintro (here | ⟨y, step, j, lt, rest⟩)
    · rcases Nat.eq_zero_or_pos k with rfl | pos
      · exact .zero here
      · exact absurd (.zero here) (deep 0 pos)
    · rcases Nat.lt_or_ge (j + 1) k with lt' | ge
      · exact absurd (.succ step rest) (deep _ lt')
      · obtain rfl : j + 1 = k := by omega
        exact .succ step rest

end Depth

/-! ## Sweeps -/

/-- A sweep: the entries that are pending when it starts, those that it resolves, and those that
remain. -/
structure Sweep (α β : Type) where
  pending : List α
  resolved : List (α × β)
  remaining : List α

variable {α β : Type}

/-- What sweep number `pass` of a phase tells. -/
def Sweep.told (phase : Phase) (event : α → β → Event) (pass : Nat) (s : Sweep α β) : Transcript :=
  (.debug, .stage (.resolving pass)) :: (.debug, .sweepStart phase pass s.pending.length) ::
    (s.resolved.map (fun x => (.trace, event x.1 x.2)) ++
      [(.debug, .sweepEnd phase pass s.resolved.length s.remaining.length)])

/-- What the sweeps of a phase tell: they are numbered from 0 on. -/
def sweepsTold (phase : Phase) (event : α → β → Event) (ss : List (Sweep α β)) : Transcript :=
  ss.zipIdx.flatMap fun s => s.1.told phase event s.2

/-- What some sweeps leave over. -/
def leftOver (ss : List (Sweep α β)) : List α := (ss.getLast?.map (·.remaining)).getD []

/-- The sweeps `ss` work off the entries `xs` as far as that is possible. -/
structure WorksOff (xs : List α) (ss : List (Sweep α β)) : Prop where
  /-- There are no sweeps without entries. -/
  empty : ss = [] ↔ xs = []
  /-- The first sweep starts with all entries. -/
  first : ∀ s ∈ ss.head?, s.pending = xs
  /-- Every other sweep starts with what remained of the one before it. -/
  next : ss.IsChain fun s s' => s'.pending = s.remaining
  /-- An entry that is pending is resolved or remains, so the numbers of both add up. -/
  parts : ∀ s ∈ ss, (s.resolved.map Prod.fst ++ s.remaining).Perm s.pending
  /-- Every sweep but the last resolves something. -/
  busy : ∀ s ∈ ss.dropLast, s.resolved ≠ []
  /-- The last sweep resolves nothing if there are entries left over, and only then. -/
  last : ∀ s ∈ ss.getLast?, s.resolved = [] ↔ leftOver ss ≠ []

namespace WorksOff

variable {xs : List α} {ss : List (Sweep α β)} {k m : Nat}

/-- All sweeps but an idle one resolve something. -/
lemma resolves_iff (h : WorksOff xs ss) (k : Nat) :
    (∃ s ∈ ss[k]?, s.resolved ≠ []) ↔ k + (if leftOver ss = [] then 0 else 1) < ss.length := by
  rcases List.eq_nil_or_concat' ss with rfl | ⟨init, last, rfl⟩
  · simp
  have busy := h.busy
  have idle := h.last last (by simp)
  rw [List.dropLast_concat] at busy
  rw [List.length_append, List.length_singleton]
  rcases Nat.lt_trichotomy k init.length with lt | rfl | gt
  · have resolves := busy _ (List.getElem_mem lt)
    rw [List.getElem?_append_left lt, List.getElem?_eq_getElem lt]
    refine iff_of_true ⟨_, rfl, resolves⟩ ?_
    split <;> omega
  · rw [List.getElem?_concat_length]
    simp [idle]
  · rw [List.getElem?_eq_none (by simpa using gt)]
    refine iff_of_false (by simp) ?_
    omega

/-- Behind the last sweep that resolves something there is at most an idle one. -/
lemma length_eq (h : WorksOff xs ss)
    (greatest : IsGreatest {k : Nat | ∃ s ∈ ss[k]?, s.resolved ≠ []} m) :
    ss.length = (1 + m) + if leftOver ss = [] then 0 else 1 := by
  have here := (h.resolves_iff m).1 greatest.1
  have above : ¬m + 1 + _ < _ := fun lt =>
    Nat.not_succ_le_self m (greatest.2 ((h.resolves_iff (m + 1)).2 lt))
  omega

/-- If no sweep resolves anything, there is at most an idle one. -/
lemma length_eq_of_none (h : WorksOff xs ss) (none : ∀ k : Nat, ¬∃ s ∈ ss[k]?, s.resolved ≠ []) :
    ss.length = if leftOver ss = [] then 0 else 1 := by
  have nothing := mt (h.resolves_iff 0).2 (none 0)
  by_cases left : leftOver ss = []
  · rw [if_pos left] at nothing ⊢
    omega
  · have some : ss ≠ [] := by
      rintro rfl
      exact left rfl
    have pos := List.length_pos_of_ne_nil some
    rw [if_neg left] at nothing ⊢
    omega

end WorksOff

/-- The sweeps `ss` resolve one depth of the entries `xs` after another. -/
structure ByDepth (xs : List α) (depth : α → Nat → Prop) (ss : List (Sweep α β)) : Prop
    extends WorksOff xs ss where
  /-- An entry is resolved in the sweep that its depth tells. -/
  resolved : ∀ x k, (∃ s ∈ ss[k]?, ∃ y, (x, y) ∈ s.resolved) ↔ x ∈ xs ∧ depth x k
  /-- What has no depth is left over. -/
  unresolved : ∀ x, x ∈ leftOver ss ↔ x ∈ xs ∧ ∀ k, ¬depth x k
  /-- There is a sweep for each depth up to the greatest one and an idle one if it has to be. -/
  length : ∀ m, IsGreatest {k | ∃ x ∈ xs, depth x k} m →
    ss.length = (1 + m) + if leftOver ss = [] then 0 else 1
  length_of_none : (∀ x ∈ xs, ∀ k, ¬depth x k) → ss.length = if leftOver ss = [] then 0 else 1

/-- What is resolved is not left over. -/
lemma ByDepth.not_mem_leftOver {xs : List α} {depth : α → Nat → Prop} {ss : List (Sweep α β)}
    (h : ByDepth xs depth ss) {s : Sweep α β} (hs : s ∈ ss) {x : α × β} (hx : x ∈ s.resolved) :
    x.1 ∉ leftOver ss := by
  obtain ⟨k, hk⟩ := List.mem_iff_getElem?.1 hs
  have depth := ((h.resolved x.1 k).1 ⟨s, hk, x.2, hx⟩).2
  exact fun left => ((h.unresolved x.1).1 left).2 k depth

namespace SweepRule

variable (rule : SweepRule α β)

/-- The sweeps of a loop. -/
def sweeps (xs : List α) (d : Draft) : List (Sweep α β) :=
  (rule.starts xs d).map fun s => ⟨s.2, rule.decided s.1 s.2, rule.undecided s.1 s.2⟩

/-- With nothing left there is no sweep. -/
lemma sweeps_nil (d : Draft) : rule.sweeps [] d = [] := by
  rw [sweeps, starts_nil]
  rfl

/-- A sweep decides part of what is left, and another one follows if it decided something. -/
lemma sweeps_of_ne_nil {xs : List α} (h : xs ≠ []) (d : Draft) :
    rule.sweeps xs d = ⟨xs, rule.decided d xs, rule.undecided d xs⟩ ::
      if (rule.undecided d xs).length < xs.length then
        rule.sweeps (rule.undecided d xs) (rule.sweep d xs)
      else [] := by
  rw [sweeps, rule.starts_of_ne_nil h, List.map_cons]
  split <;> rfl

/-- Each sweep starts where the one before it ended. -/
lemma starts_isChain (xs : List α) (d : Draft) : (rule.starts xs d).IsChain fun s s' =>
    s' = (rule.sweep s.1 s.2, rule.undecided s.1 s.2) := by
  induction xs, d using rule.sweepInduction with
  | nil d =>
    rw [starts_nil]
    exact .nil
  | sweep xs d he ih =>
    rw [rule.starts_of_ne_nil he]
    split
    next lt =>
      refine List.isChain_cons.2 ⟨fun s hs => ?_, ih lt⟩
      by_cases done : rule.undecided d xs = []
      · rw [done, starts_nil] at hs
        cases hs
      · rw [rule.starts_of_ne_nil done] at hs
        cases hs
        rfl
    next => exact .singleton _

/-- What a loop tells are its sweeps, numbered from 0 on. -/
lemma told_eq_sweepsTold {xs : List α} {d : Draft} {event : α → β → Event}
    (same : ∀ s ∈ rule.starts xs d, ∀ x ∈ rule.decided s.1 s.2,
      rule.event s.1 x.1 x.2 = event x.1 x.2) :
    rule.told 0 xs d = sweepsTold rule.phase event (rule.sweeps xs d) := by
  rw [told, sweepsTold, sweeps, List.zipIdx_map, List.flatMap_map]
  refine List.flatMap_congr fun s hs => ?_
  have decisions := List.map_congr_left fun x hx =>
    congrArg (TraceLevel.trace, ·) (same s.1 (List.fst_mem_of_mem_zipIdx hs) x hx)
  rw [sweepTold, decisionsTold, decisions]
  rfl

/-- What is resolved has been decided against some draft. -/
lemma exists_decision_of_resolved {xs : List α} {d : Draft} {s : Sweep α β}
    (hs : s ∈ rule.sweeps xs d) {x : α × β} (hx : x ∈ s.resolved) :
    ∃ d', (d', x) ∈ rule.decisions xs d := by
  obtain ⟨t, ht, rfl⟩ := List.mem_map.1 hs
  exact ⟨t.1, rule.mem_decisions_of_mem_starts ht hx⟩

/-- A sweep decides something if fewer entries are pending after it. -/
lemma decided_ne_nil_iff (d : Draft) (xs : List α) :
    rule.decided d xs ≠ [] ↔ (rule.undecided d xs).length < xs.length := by
  have parts := (rule.perm_decided d xs).length_eq
  rw [List.length_append, List.length_map] at parts
  rw [← List.length_pos_iff]
  omega

/-- A loop leaves over what its last sweep does. -/
lemma leftOver_sweeps (pass : Nat) (xs : List α) (d : Draft) (r : Recorder) :
    leftOver (rule.sweeps xs d) = (rule.run pass xs d r).1 := by
  induction xs, d using rule.sweepInduction generalizing pass r with
  | nil d =>
    rw [sweeps_nil, run_nil]
    rfl
  | sweep xs d he ih =>
    rw [rule.sweeps_of_ne_nil he, rule.run_of_ne_nil he]
    split
    next lt =>
      by_cases done : rule.undecided d xs = []
      · rw [done, sweeps_nil, run_nil]
        rfl
      · rw [← ih lt (pass + 1), rule.sweeps_of_ne_nil done, leftOver, List.getLast?_cons_cons,
          leftOver]
    next => rfl

/-- The sweeps of a loop work off its entries. -/
theorem worksOff_sweeps (xs : List α) (d : Draft) : WorksOff xs (rule.sweeps xs d) := by
  induction xs, d using rule.sweepInduction with
  | nil d =>
    rw [sweeps_nil]
    exact ⟨by simp, nofun, .nil, nofun, nofun, nofun⟩
  | sweep xs d he ih =>
    have busy := rule.decided_ne_nil_iff d xs
    rw [rule.sweeps_of_ne_nil he]
    split
    next lt =>
      have rest := ih lt
      refine ⟨by simp [he], by simp, ?next, ?parts, ?busy, ?last⟩
      case next => exact List.isChain_cons.2 ⟨rest.first, rest.next⟩
      case parts => exact List.forall_mem_cons.2 ⟨rule.perm_decided d xs, rest.parts⟩
      case busy =>
        -- If no sweep follows, this one is the last and need not have been busy.
        intro s hs
        cases hss : rule.sweeps (rule.undecided d xs) (rule.sweep d xs) with
        | nil => simp [hss] at hs
        | cons =>
          rw [hss] at hs rest
          rcases List.mem_cons.1 hs with rfl | hs
          · exact busy.2 lt
          · exact rest.busy s hs
      case last =>
        cases hss : rule.sweeps (rule.undecided d xs) (rule.sweep d xs) with
        | nil => simp [leftOver, rest.empty.1 hss, busy.2 lt]
        | cons =>
          rw [hss] at rest
          simpa [leftOver] using rest.last
    next ge =>
      have idle : rule.decided d xs = [] := by
        by_contra ne
        exact ge (busy.1 ne)
      refine ⟨by simp [he], by simp, .singleton _, ?parts, nofun, ?last⟩
      case parts => exact List.forall_mem_singleton.2 (rule.perm_decided d xs)
      case last => simp [leftOver, idle, (rule.undecided_eq_self ge).1, he]

/-- What is not left over is resolved by a sweep. -/
lemma exists_resolved_of_not_left {xs : List α} {d : Draft} {x : α} (r : Recorder) (hx : x ∈ xs)
    (away : x ∉ (rule.run 0 xs d r).1) :
    ∃ k : Nat, ∃ s ∈ (rule.sweeps xs d)[k]?, ∃ y, (x, y) ∈ s.resolved := by
  have decided := (rule.perm_decisions 0 xs d r).mem_iff.2 hx
  rcases List.mem_append.1 decided with mem | left
  · obtain ⟨z, hz, rfl⟩ := List.mem_map.1 mem
    obtain ⟨s, hs, hz⟩ := List.mem_flatMap.1 hz
    obtain ⟨y, hy, rfl⟩ := List.mem_map.1 hz
    obtain ⟨k, hk⟩ := List.mem_iff_getElem?.1 hs
    refine ⟨k, ⟨s.2, rule.decided s.1 s.2, rule.undecided s.1 s.2⟩, ?_, y.2, hy⟩
    rw [sweeps, List.getElem?_map, hk]
    rfl
  · exact absurd left away

/-! ## Depths -/

/-- While `P` holds of what is pending and the draft, an entry of `xs` can be decided as soon as it
is grounded or what it needs is no longer pending. -/
structure Awaits (xs : List α) (grounded : α → Prop) (needs : α → α → Prop)
    (P : List α → Draft → Prop) : Prop where
  step : ∀ ys e, P ys e → P (rule.undecided e ys) (rule.sweep e ys)
  ready : ∀ ys e, P ys e → ∀ x ∈ ys,
    ((rule.decide? e x).isSome ↔ grounded x ∨ ∃ y, needs x y ∧ y ∉ ys)
  needed : ∀ x y, needs x y → y ∈ xs
  single : ∀ x y z, needs x y → needs x z → y = z
  apart : ∀ x y, grounded x → ¬needs x y

section Depths

variable {rule} {xs : List α} {grounded : α → Prop} {needs : α → α → Prop}
  {P : List α → Draft → Prop} {d : Draft} {x : α} {k : Nat}

/-- If the pending entries are those whose depth is not below `k`, those of depth `k` can be decided
next. -/
lemma Awaits.isSome_decide?_iff (h : rule.Awaits xs grounded needs P) {ys : List α} {e : Draft}
    (holds : P ys e) (pending : ∀ x, x ∈ ys ↔ x ∈ xs ∧ ∀ j < k, ¬Depth grounded needs x j)
    (hx : x ∈ ys) : (rule.decide? e x).isSome ↔ Depth grounded needs x k := by
  have gone : ∀ y, needs x y → (y ∉ ys ↔ ∃ j < k, Depth grounded needs y j) := by
    intro y hy
    simp [pending, h.needed x y hy]
  rw [h.ready ys e holds x hx, Depth.iff_of_not_lt ((pending x).1 hx).2]
  exact or_congr_right (exists_congr fun y => and_congr_right (gone y))

/-- Sweep `k` starts with the entries whose depth is not below `k`. -/
lemma Awaits.mem_pending_iff (h : rule.Awaits xs grounded needs P) (start : P xs d)
    {s : Draft × List α} (hs : s ∈ (rule.starts xs d)[k]?) :
    P s.2 s.1 ∧ ∀ x, x ∈ s.2 ↔ x ∈ xs ∧ ∀ j < k, ¬Depth grounded needs x j := by
  induction k generalizing s with
  | zero =>
    by_cases he : xs = []
    · rw [he, starts_nil] at hs
      cases hs
    · rw [rule.starts_of_ne_nil he] at hs
      cases hs
      exact ⟨start, by simp⟩
  | succ k ih =>
    obtain ⟨lt, rfl⟩ := List.getElem?_eq_some_iff.1 hs
    obtain ⟨holds, pending⟩ := ih (List.getElem?_eq_getElem (Nat.lt_of_succ_lt lt))
    rw [List.isChain_iff_getElem.1 (rule.starts_isChain xs d) k lt]
    refine ⟨h.step _ _ holds, fun x => ?_⟩
    rw [rule.mem_undecided, ← Option.not_isSome_iff_eq_none]
    constructor
    · rintro ⟨hx, undecided⟩
      rw [h.isSome_decide?_iff holds pending hx] at undecided
      obtain ⟨hx, deep⟩ := (pending x).1 hx
      refine ⟨hx, fun j lt => ?_⟩
      rcases Nat.lt_succ_iff_lt_or_eq.1 lt with lt | rfl
      · exact deep j lt
      · exact undecided
    · rintro ⟨hx, deep⟩
      have hx' := (pending x).2 ⟨hx, fun j lt => deep j (Nat.lt_succ_of_lt lt)⟩
      exact ⟨hx', fun decided =>
        deep k (Nat.lt_succ_self k) ((h.isSome_decide?_iff holds pending hx').1 decided)⟩

/-- What a sweep resolves has the number of the sweep as its depth. -/
lemma Awaits.depth_of_resolved (h : rule.Awaits xs grounded needs P) (start : P xs d)
    {s : Sweep α β} (hs : s ∈ (rule.sweeps xs d)[k]?) {y : β} (hy : (x, y) ∈ s.resolved) :
    x ∈ xs ∧ Depth grounded needs x k := by
  rw [sweeps, List.getElem?_map] at hs
  obtain ⟨t, ht, rfl⟩ := Option.map_eq_some_iff.1 hs
  obtain ⟨holds, pending⟩ := h.mem_pending_iff start ht
  obtain ⟨hx, decided⟩ := rule.mem_decided.1 hy
  refine ⟨((pending x).1 hx).1, (h.isSome_decide?_iff holds pending hx).1 ?_⟩
  rw [decided]
  rfl

/-- What a loop leaves over has no depth. -/
lemma Awaits.not_depth_of_left (h : rule.Awaits xs grounded needs P) (start : P xs d)
    (r : Recorder) (hx : x ∈ (rule.run 0 xs d r).1) : ¬Depth grounded needs x k := by
  have holds : P (rule.run 0 xs d r).1 (rule.run 0 xs d r).2.1 :=
    rule.run_invariant h.step 0 r start
  have blocked : ∀ x ∈ (rule.run 0 xs d r).1,
      ¬(grounded x ∨ ∃ y, needs x y ∧ y ∉ (rule.run 0 xs d r).1) := by
    intro x hx
    rw [← h.ready _ _ holds x hx, rule.decide?_of_mem_run 0 xs d r hx]
    exact Bool.false_ne_true
  intro depth
  induction depth with
  | zero here => exact blocked _ hx (.inl here)
  | @succ x y k step _ ih =>
    by_cases left : y ∈ (rule.run 0 xs d r).1
    · exact ih left
    · exact blocked x hx (.inr ⟨y, step, left⟩)

/-- An entry is resolved in the sweep that its depth tells. -/
lemma Awaits.resolved_iff (h : rule.Awaits xs grounded needs P) (start : P xs d) :
    (∃ s ∈ (rule.sweeps xs d)[k]?, ∃ y, (x, y) ∈ s.resolved) ↔
      x ∈ xs ∧ Depth grounded needs x k := by
  constructor
  · rintro ⟨s, hs, y, hy⟩
    exact h.depth_of_resolved start hs hy
  · rintro ⟨hx, depth⟩
    have away : x ∉ (rule.run 0 xs d (.new .error)).1 :=
      fun left => h.not_depth_of_left start _ left depth
    obtain ⟨l, s, hs, y, hy⟩ := rule.exists_resolved_of_not_left _ hx away
    obtain rfl := (h.depth_of_resolved start hs hy).2.functional h.single h.apart depth
    exact ⟨s, hs, y, hy⟩

/-- What has no depth is left over. -/
lemma Awaits.mem_leftOver_iff (h : rule.Awaits xs grounded needs P) (start : P xs d) :
    x ∈ leftOver (rule.sweeps xs d) ↔ x ∈ xs ∧ ∀ k, ¬Depth grounded needs x k := by
  rw [rule.leftOver_sweeps 0 xs d (.new .error)]
  constructor
  · intro left
    exact ⟨(rule.perm_decisions 0 xs d _).subset (List.mem_append_right _ left),
      fun k => h.not_depth_of_left start _ left⟩
  · rintro ⟨hx, none⟩
    by_contra away
    obtain ⟨k, s, hs, y, hy⟩ := rule.exists_resolved_of_not_left _ hx away
    exact none k (h.depth_of_resolved start hs hy).2

/-- The sweeps of a loop resolve one depth after another. -/
theorem Awaits.byDepth (h : rule.Awaits xs grounded needs P) (start : P xs d) :
    ByDepth xs (Depth grounded needs) (rule.sweeps xs d) := by
  have works := rule.worksOff_sweeps xs d
  -- The depths that there are are the numbers of the sweeps that resolve something.
  have depths : ∀ k, (∃ s ∈ (rule.sweeps xs d)[k]?, s.resolved ≠ []) ↔
      ∃ x ∈ xs, Depth grounded needs x k := by
    intro k
    constructor
    · rintro ⟨s, hs, ne⟩
      obtain ⟨⟨x, y⟩, hy⟩ := List.exists_mem_of_ne_nil _ ne
      exact ⟨x, (h.resolved_iff start).1 ⟨s, hs, y, hy⟩⟩
    · rintro ⟨x, resolved⟩
      obtain ⟨s, hs, y, hy⟩ := (h.resolved_iff start).2 resolved
      exact ⟨s, hs, List.ne_nil_of_mem hy⟩
  refine ⟨works, fun _ _ => h.resolved_iff start, fun _ => h.mem_leftOver_iff start,
    fun m greatest => ?_, fun none => ?_⟩
  · simp only [← depths] at greatest
    exact works.length_eq greatest
  · refine works.length_eq_of_none fun k resolves => ?_
    obtain ⟨x, hx, depth⟩ := (depths k).1 resolves
    exact none x hx k depth

end Depths

end SweepRule

end MibCorpus
