import MibCorpus.Proofs.Binding
import MibCorpus.Proofs.OidResolution
import MibCorpus.Proofs.TypeStates
import Mathlib.Data.List.Chain

/-!
# Writes

What is decided in a model are the states and the OIDs of its assignments, the targets of its
references, and its problems. A run decides by single writes. Each of them finds what it writes
undecided or takes a state forward, so what was decided before stays decided the same way, and a
stretch of a run is known from its writes.
-/

namespace MibCorpus

/-! ## Going forward -/

namespace ResolutionState

/-- Whether an entry in state `s` may be in state `s'` later: it is pending before or keeps its
state, or it is resolved before and degraded after. -/
def LeadsTo (s s' : ResolutionState) : Prop :=
  s' = s ∨ s = .pending ∨ s = .resolved ∧ s' = .degraded

instance (s s' : ResolutionState) : Decidable (s.LeadsTo s') :=
  inferInstanceAs (Decidable (_ ∨ _ ∨ _ ∧ _))

/-- A state leads to itself. -/
lemma LeadsTo.refl (s : ResolutionState) : s.LeadsTo s := .inl rfl

/-- Anything may come of a pending entry. -/
lemma LeadsTo.of_pending {s : ResolutionState} (h : s = .pending) (s' : ResolutionState) :
    s.LeadsTo s' :=
  .inr (.inl h)

/-- States lead on to others. -/
lemma LeadsTo.trans {s s' s'' : ResolutionState} (h : s.LeadsTo s') (h' : s'.LeadsTo s'') :
    s.LeadsTo s'' := by
  revert h h'
  cases s <;> cases s' <;> cases s'' <;> decide

/-- Degrading takes a state forward. -/
lemma leadsTo_degradeBy (s d : ResolutionState) : s.LeadsTo (s.degradeBy d) := by
  cases s <;> cases d <;> decide

example : ¬LeadsTo .degraded .resolved ∧ ¬LeadsTo .unresolved .pending := by decide

end ResolutionState

/-- An assignment in the state that `s` gives it. -/
def Assignment.inState (a : Assignment) (s : Assignment → ResolutionState) : Assignment :=
  { a with state := s a }

/-- The node that a reference is bound to. -/
def TypeShape.target? : TypeShape → Option TypeId
  | .reference _ _ target _ => target
  | _ => none

namespace Mib

/-- What is decided in model `mib` is decided the same way in `mib'`, where more may be decided. -/
structure AdvancesTo (mib mib' : Mib) : Prop where
  /-- An assignment stays, its state goes forward, and an OID that it has stays. -/
  assignment : ∀ i a, mib.assignment? i = some a → ∃ a', mib'.assignment? i = some a' ∧
    a.state.LeadsTo a'.state ∧ ∀ o, a.oid = some o → a'.oid = some o
  /-- A reference that is bound stays as it is, with its target. -/
  target : ∀ t n, mib.type? t = some n → n.shape.target?.isSome →
    ∃ n', mib'.type? t = some n' ∧ n'.shape = n.shape
  /-- The problems grow at the end. -/
  problems : mib.problems.toList <+: mib'.problems.toList

/-- The states and OIDs of the assignments. -/
def decisions (mib : Mib) : Array (ResolutionState × Option Oid) :=
  mib.assignments.map fun a => (a.state, a.oid)

/-- The shapes of the type nodes. -/
def shapes (mib : Mib) : List TypeShape := (mib.types.map (·.shape)).toList

/-- Model `mib'` differs from `mib` in nothing that is decided. It may have more type nodes. -/
structure Undisturbed (mib mib' : Mib) : Prop where
  decided : mib'.decisions = mib.decisions
  shaped : mib.shapes <+: mib'.shapes
  reported : mib'.problems = mib.problems

variable {mib mib' mib'' : Mib}

/-- A model advances to itself. -/
lemma AdvancesTo.refl (mib : Mib) : mib.AdvancesTo mib :=
  ⟨fun _ a ha => ⟨a, ha, .refl _, fun _ => id⟩, fun _ n hn _ => ⟨n, hn, rfl⟩,
    List.prefix_refl _⟩

/-- A model advances to what a later one advances to. -/
lemma AdvancesTo.trans (h : mib.AdvancesTo mib') (h' : mib'.AdvancesTo mib'') :
    mib.AdvancesTo mib'' where
  assignment i a ha := by
    obtain ⟨a', ha', forward, kept⟩ := h.assignment i a ha
    obtain ⟨a'', ha'', forward', kept'⟩ := h'.assignment i a' ha'
    exact ⟨a'', ha'', forward.trans forward', fun o ho => kept' o (kept o ho)⟩
  target t n hn bound := by
    obtain ⟨n', hn', same⟩ := h.target t n hn bound
    obtain ⟨n'', hn'', same'⟩ := h'.target t n' hn' (same ▸ bound)
    exact ⟨n'', hn'', same'.trans same⟩
  problems := h.problems.trans h'.problems

instance : Trans AdvancesTo AdvancesTo AdvancesTo := ⟨AdvancesTo.trans⟩

/-- A model with the same assignments, types and problems is undisturbed. -/
lemma Undisturbed.of_eq (assignments : mib'.assignments = mib.assignments)
    (types : mib'.types = mib.types) (problems : mib'.problems = mib.problems) :
    mib.Undisturbed mib' := by
  have same : mib'.shapes = mib.shapes := congrArg (fun ts => (ts.map (·.shape)).toList) types
  exact ⟨congrArg (Array.map _) assignments, same ▸ List.prefix_refl _, problems⟩

/-- What is undisturbed twice is undisturbed. -/
lemma Undisturbed.trans (h : mib.Undisturbed mib') (h' : mib'.Undisturbed mib'') :
    mib.Undisturbed mib'' :=
  ⟨h'.decided.trans h.decided, h.shaped.trans h'.shaped, h'.reported.trans h.reported⟩

/-- A new type node leaves those before it alone. -/
lemma undisturbed_addType (mib : Mib) (m : ModuleId) (shape : TypeShape) :
    mib.Undisturbed (mib.addType m shape).2 :=
  ⟨rfl, by simp [shapes, addType, modifyModule], rfl⟩

/-- A type node may change in all but its shape. -/
lemma undisturbed_modifyType (mib : Mib) (t : TypeId) {f : TypeNode → TypeNode}
    (kept : ∀ n, (f n).shape = n.shape) : mib.Undisturbed (mib.modifyType t f) := by
  have same : (mib.modifyType t f).shapes = mib.shapes :=
    congrArg Array.toList (map_modify_of_keeps _ _ kept)
  exact ⟨rfl, same ▸ List.prefix_refl _, rfl⟩

/-- An assignment may change in all but its state and its OID. -/
lemma undisturbed_modifyAssignment (mib : Mib) (i : AssignmentId) {f : Assignment → Assignment}
    (kept : ∀ a, ((f a).state, (f a).oid) = (a.state, a.oid)) :
    mib.Undisturbed (mib.modifyAssignment i f) :=
  ⟨map_modify_of_keeps _ _ kept, List.prefix_refl _, rfl⟩

/-- The decision about an assignment is its state and its OID. -/
lemma getElem?_decisions (mib : Mib) (i : AssignmentId) :
    mib.decisions[i.index]? = (mib.assignment? i).map fun a => (a.state, a.oid) :=
  Array.getElem?_map ..

/-- The shape of a type is that of its node. -/
lemma getElem?_shapes (mib : Mib) (t : TypeId) :
    mib.shapes[t.index]? = (mib.type? t).map (·.shape) := by
  rw [shapes, Array.getElem?_toList, Array.getElem?_map]
  rfl

/-- Where nothing is disturbed, nothing goes back. -/
lemma Undisturbed.advancesTo (h : mib.Undisturbed mib') : mib.AdvancesTo mib' where
  assignment i a ha := by
    have same := getElem?_decisions mib' i
    rw [h.decided, getElem?_decisions, ha] at same
    obtain ⟨a', ha', e⟩ := Option.map_eq_some_iff.1 same.symm
    rw [Prod.mk.injEq] at e
    exact ⟨a', ha', e.1 ▸ .refl _, fun o ho => e.2.trans ho⟩
  target t n hn _ := by
    have old := getElem?_shapes mib t
    rw [hn, Option.map_some] at old
    obtain ⟨lt, old⟩ := List.getElem?_eq_some_iff.1 old
    have new := List.prefix_iff_getElem?.1 h.shaped t.index lt
    rw [old, getElem?_shapes] at new
    exact Option.map_eq_some_iff.1 new
  problems := h.reported ▸ List.prefix_refl _

/-- An assignment may change if its state goes forward and an OID that it has stays. -/
lemma advancesTo_modifyAssignment {i : AssignmentId} {f : Assignment → Assignment}
    (forward : ∀ a, mib.assignment? i = some a →
      a.state.LeadsTo (f a).state ∧ ∀ o, a.oid = some o → (f a).oid = some o) :
    mib.AdvancesTo (mib.modifyAssignment i f) := by
  refine { AdvancesTo.refl mib with assignment := fun j a ha => ?_ }
  rw [assignment?_modifyAssignment]
  split
  next same =>
    subst same
    exact ⟨f a, by rw [ha, Option.map_some], forward a ha⟩
  next => exact ⟨a, ha, .refl _, fun _ => id⟩

/-- A type node may change if it is not bound to a target. -/
lemma advancesTo_modifyType {t : TypeId} {f : TypeNode → TypeNode}
    (waiting : ∀ n, mib.type? t = some n → n.shape.target? = none) :
    mib.AdvancesTo (mib.modifyType t f) := by
  refine { AdvancesTo.refl mib with target := fun u n hn bound => ?_ }
  rw [type?_modifyType]
  split
  next same =>
    subst same
    rw [waiting n hn] at bound
    cases bound
  next => exact ⟨n, hn, rfl⟩

/-- A new assignment leaves those before it alone. -/
lemma advancesTo_addAssignment (m : ModuleId) (x : Definition) :
    mib.AdvancesTo (mib.addAssignment m x).2 := by
  refine { AdvancesTo.refl mib with assignment := fun i a ha => ⟨a, ?_, .refl _, fun _ => id⟩ }
  obtain ⟨lt, e⟩ := Array.getElem?_eq_some_iff.1 ha
  exact (Array.getElem?_push_lt lt).trans (congrArg some e)

/-- A problem more is an advance. -/
lemma advancesTo_record (p : Problem) : mib.AdvancesTo (mib.record p) := by
  refine { AdvancesTo.refl mib with problems := ?_ }
  rw [record, Problems.toList_record]
  exact List.prefix_append ..

end Mib

namespace Draft

/-! ## Single writes -/

/-- The draft with a new assignment for a definition. -/
def withAssignment (d : Draft) (m : ModuleId) (o : Origin) (x : Definition) : Draft :=
  { d with mib := (d.mib.addAssignment m x).2, origins := d.origins.push o }

/-- Decides the state of an assignment from what it is. -/
def restate (s : Assignment → ResolutionState) (d : Draft) (i : AssignmentId) : Draft :=
  { d with mib := d.mib.modifyAssignment i (·.inState s) }

/-- Assignment `i`, if it is there, is pending and has no OID. -/
def Undecided (d : Draft) (i : AssignmentId) : Prop :=
  ∀ a, d.mib.assignment? i = some a → a.state = .pending ∧ a.oid = none

/-- Node `t`, if it is there, is not bound to a target. -/
def Waiting (d : Draft) (t : TypeId) : Prop :=
  ∀ n, d.mib.type? t = some n → n.shape.target? = none

/-- Assignment `i`, if it is there, goes forward to the state that `s` gives it. -/
def Forward (s : Assignment → ResolutionState) (d : Draft) (i : AssignmentId) : Prop :=
  ∀ a, d.mib.assignment? i = some a → a.state.LeadsTo (s a)

/-- A single write. It decides nothing, or one thing that was open. -/
inductive Write (d : Draft) : Draft → Prop
  /-- Nothing that is decided changes. -/
  | aside {d' : Draft} (kept : d.mib.Undisturbed d'.mib) : d.Write d'
  | enter (m : ModuleId) (o : Origin) (x : Definition) : d.Write (d.withAssignment m o x)
  | record (p : Problem) : d.Write (d.record p)
  /-- A state goes forward. -/
  | restate (s : Assignment → ResolutionState) (i : AssignmentId) (forward : d.Forward s i) :
    d.Write (d.restate s i)
  /-- An OID is set for the first time. -/
  | assign (e : OidEntry) (o : Oid) (undecided : d.Undecided e.assignment) :
    d.Write (d.assignOid e o)
  /-- A reference is bound for the first time. -/
  | bind (r : PendingReference) (target : TypeTarget) (waiting : d.Waiting r.node) :
    d.Write (d.bindReference r target)

variable {d d' : Draft}

/-- A single write undoes nothing. -/
theorem Write.advancesTo (w : d.Write d') : d.mib.AdvancesTo d'.mib := by
  cases w with
  | aside kept => exact kept.advancesTo
  | enter m o x => exact Mib.advancesTo_addAssignment m x
  | record p => exact Mib.advancesTo_record p
  | restate s i forward =>
    exact Mib.advancesTo_modifyAssignment fun a ha => ⟨forward a ha, fun _ => id⟩
  | assign e o undecided =>
    refine Mib.advancesTo_modifyAssignment fun a ha => ?_
    obtain ⟨pending, none⟩ := undecided a ha
    refine ⟨.of_pending pending _, fun o ho => ?_⟩
    cases none.symm.trans ho
  | bind r target waiting => exact Mib.advancesTo_modifyType waiting

/-! ## Courses -/

/-- Draft `d` becomes another by writes that lead through some points, the last of which is the
other. -/
inductive Course : Draft → List Draft → Draft → Prop
  | nil (d : Draft) : Course d [] d
  | cons {d e d' : Draft} {es : List Draft} (w : d.Write e) (c : Course e es d') :
    Course d (e :: es) d'

namespace Course

variable {d'' : Draft} {es es' : List Draft}

/-- One write is a course with one point. -/
lemma single (w : d.Write d') : Course d [d'] d' := .cons w (.nil d')

/-- A single write that decides nothing. -/
lemma aside (kept : d.mib.Undisturbed d'.mib) : Course d [d'] d' := .single (.aside kept)

/-- Courses can be put one behind another. -/
lemma append (c : Course d es d') (c' : Course d' es' d'') : Course d (es ++ es') d'' := by
  induction c with
  | nil => exact c'
  | cons w _ ih => exact .cons w (ih c')

/-- One more write at the end. -/
lemma concat (c : Course d es d') (w : d'.Write d'') : Course d (es ++ [d'']) d'' :=
  c.append (.single w)

/-- The points of a course are joined by single writes. -/
lemma isChain (c : Course d es d') : (d :: es).IsChain Write := by
  induction c with
  | nil => exact .singleton _
  | cons w _ ih => exact ih.cons_cons w

/-- A course ends at its last point. -/
lemma getLast? (c : Course d es d') : (d :: es).getLast? = some d' := by
  induction c with
  | nil => rfl
  | cons w _ ih => rw [List.getLast?_cons_cons, ih]

/-- The last draft is a point of the course, or the course has none and it is the first. -/
lemma mem_last (c : Course d es d') : d' ∈ d :: es :=
  List.mem_of_getLast? c.getLast?

/-- A course in two parts passes the end of the first and all points of the second. -/
lemma subset_append (c : Course d es d') {xs : List Draft} (sub : xs ⊆ d' :: es') :
    d' :: xs ⊆ d :: (es ++ es') := by
  have end_mem : d' ∈ d :: (es ++ es') := List.mem_append_left es' c.mem_last
  refine List.cons_subset.2 ⟨end_mem, fun x hx => ?_⟩
  rcases List.mem_cons.1 (sub hx) with rfl | hx
  · exact end_mem
  · exact List.mem_cons_of_mem d (List.mem_append_right es hx)

/-- Between any two points of a course nothing is undone. -/
theorem pairwise (c : Course d es d') : ((d :: es).map Draft.mib).Pairwise Mib.AdvancesTo := by
  have steps : ((d :: es).map Draft.mib).IsChain Mib.AdvancesTo :=
    (List.isChain_map Draft.mib).2 (c.isChain.imp fun _ _ w => w.advancesTo)
  exact steps.pairwise

end Course

/-! ## Loops -/

section Loops

variable {σ α κ : Type}

/-- The points of a loop, if a round from `s` for `x` leads through `points s x`. -/
def trail (points : σ → α → List Draft) (f : σ → α → σ) : List α → σ → List Draft
  | [], _ => []
  | x :: xs, s => points s x ++ trail points f xs (f s x)

/-- A loop is a course if each of its rounds is one. -/
lemma course_trail (draft : σ → Draft) {points : σ → α → List Draft} {f : σ → α → σ}
    (xs : List α) (s : σ) (round : ∀ t x, Course (draft t) (points t x) (draft (f t x))) :
    Course (draft s) (trail points f xs s) (draft (xs.foldl f s)) := by
  induction xs generalizing s with
  | nil => exact .nil _
  | cons x xs ih => exact (round s x).append (ih (f s x))

/-- What rounds do to the keys that they are about. Some keys are open, and a round is a course if
its key is open. The other keys stay open. -/
structure Settling (isOpen : Draft → κ → Prop) (key : α → κ) (points : Draft → α → List Draft)
    (f : Draft → α → Draft) : Prop where
  course : ∀ {d x}, isOpen d (key x) → Course d (points d x) (f d x)
  others : ∀ {d x k}, key x ≠ k → isOpen d k → isOpen (f d x) k

variable {isOpen : Draft → κ → Prop} {key : α → κ} {points : Draft → α → List Draft}
  {f : Draft → α → Draft}

/-- A loop over open keys is a course if no key comes twice. -/
lemma Settling.foldl (h : Settling isOpen key points f) {xs : List α} (nodup : (xs.map key).Nodup)
    {d : Draft} (opens : ∀ x ∈ xs, isOpen d (key x)) :
    Course d (trail points f xs d) (xs.foldl f d) ∧
      ∀ k ∉ xs.map key, isOpen d k → isOpen (xs.foldl f d) k := by
  induction xs generalizing d with
  | nil => exact ⟨.nil d, fun _ _ => id⟩
  | cons x xs ih =>
    simp only [List.map_cons, List.nodup_cons] at nodup
    -- The keys that come later are other ones, so they are still open after the first round.
    have later : ∀ y ∈ xs, isOpen (f d x) (key y) := by
      intro y hy
      refine h.others (fun e => nodup.1 ?_) (opens y (List.mem_cons_of_mem x hy))
      exact e ▸ List.mem_map_of_mem hy
    obtain ⟨tail, rest⟩ := ih nodup.2 later
    refine ⟨(h.course (opens x (List.mem_cons_self ..))).append tail, fun k hk hd => ?_⟩
    rw [List.map_cons, List.mem_cons, not_or] at hk
    exact rest k hk.2 (h.others (Ne.symm hk.1) hd)

/-- A loop over what was judged of open keys is a course if no key comes twice. -/
lemma Settling.foldl_judged {β : Type} {points : Draft → α × β → List Draft}
    {f : Draft → α × β → Draft} (h : Settling isOpen (fun x : α × β => key x.1) points f)
    (g : α → β) {xs : List α} (nodup : (xs.map key).Nodup) {d : Draft}
    (opens : ∀ x ∈ xs, isOpen d (key x)) :
    Course d (trail points f (xs.map fun x => (x, g x)) d)
      ((xs.map fun x => (x, g x)).foldl f d) := by
  have distinct : ((xs.map fun x => (x, g x)).map fun x => key x.1).Nodup := by
    rw [List.map_map]
    exact nodup
  refine (h.foldl distinct fun x hx => ?_).1
  obtain ⟨y, hy, rfl⟩ := List.mem_map.1 hx
  exact opens y hy

end Loops

end Draft

namespace SweepRule

variable {α β κ : Type} (rule : SweepRule α β)

/-- The points of a loop of sweeps: every decision that is carried out. -/
def points (pending : List α) (d : Draft) : List Draft :=
  if (rule.undecided d pending).length < pending.length then
    Draft.trail (fun d x => [rule.apply d x.1 x.2]) (fun d x => rule.apply d x.1 x.2)
        (rule.decided d pending) d ++
      points (rule.undecided d pending) (rule.sweep d pending)
  else []
  termination_by pending.length

/-- A loop of sweeps is a course if the decisions are about open keys, none of which comes twice.
What is left over is still open. -/
lemma course_run {isOpen : Draft → κ → Prop} {key : α → κ}
    (h : Draft.Settling isOpen (fun x : α × β => key x.1) (fun d x => [rule.apply d x.1 x.2])
      fun d x => rule.apply d x.1 x.2) (pass : Nat) {xs : List α} {d : Draft} (r : Recorder)
    (nodup : (xs.map key).Nodup) (opens : ∀ x ∈ xs, isOpen d (key x)) :
    Draft.Course d (rule.points xs d) (rule.run pass xs d r).2.1 ∧
      (rule.run pass xs d r).1.Sublist xs ∧
      ∀ x ∈ (rule.run pass xs d r).1, isOpen (rule.run pass xs d r).2.1 (key x) := by
  induction xs, d using rule.sweepInduction generalizing pass r with
  | nil d =>
    rw [run_nil, points]
    exact ⟨.nil d, .refl [], opens⟩
  | sweep xs d _ ih =>
    rw [points]
    rcases rule.run_cases pass xs d r with ⟨hxs, hd, hl⟩ | ⟨hlt, r', e⟩
    · rw [if_neg hl, hxs, hd]
      exact ⟨.nil d, .refl xs, opens⟩
    · have keys : (rule.decided d xs).map (fun x => key x.1) =
          (xs.filter fun x => (rule.decide? d x).isSome).map key := by
        rw [← rule.map_fst_decided, List.map_map]
        rfl
      have distinct : ((rule.decided d xs).map fun x => key x.1).Nodup := by
        rw [keys]
        exact nodup.sublist (List.filter_sublist.map key)
      obtain ⟨swept, others⟩ := h.foldl distinct fun x hx => opens x.1 (rule.mem_decided.1 hx).1
      have sub : (rule.undecided d xs).Sublist xs := List.filter_sublist
      -- What stays pending has other keys than what is decided.
      have still : ∀ x ∈ rule.undecided d xs, isOpen (rule.sweep d xs) (key x) := by
        intro x hx
        refine others (key x) (fun hk => ?_) (opens x (sub.subset hx))
        rw [keys] at hk
        obtain ⟨y, hy, same⟩ := List.mem_map.1 hk
        obtain ⟨hy, some⟩ := List.mem_filter.1 hy
        rw [List.inj_on_of_nodup_map nodup hy (sub.subset hx) same,
          (rule.mem_undecided.1 hx).2] at some
        cases some
      obtain ⟨rest, left, ends⟩ :=
        ih hlt (pass + 1) r' (nodup.sublist (sub.map key)) still
      rw [if_pos hlt, e]
      exact ⟨swept.append rest, left.trans sub, ends⟩

end SweepRule

end MibCorpus
