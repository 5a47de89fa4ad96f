import MibCorpus.Typing.States
import Mathlib.Logic.Function.Iterate
import Mathlib.Logic.Relation
import Mathlib.Tactic.Lemma

/-!
# What states spread to

The rounds end in states that say how a node stands to the unbound references: it is one, it depends
on one at some distance, or it depends on none. A round can only degrade what is resolved, so there
are no more rounds than nodes, also where the dependencies form cycles.
-/

namespace MibCorpus

/-- Whether what is built from an entry in this state is degraded. -/
def ResolutionState.isBroken : ResolutionState → Bool
  | degraded | unresolved | excluded => true
  | pending | resolved => false

namespace TypeStates

/-- Node `t` is built from node `u`. -/
def BuiltFrom (types : Array TypeNode) (t u : TypeId) : Prop :=
  ∃ n : TypeNode, types[t.index]? = some n ∧ u ∈ n.shape.dependencies

/-- Node `t` is a reference without a target. -/
def Unbound (types : Array TypeNode) (t : TypeId) : Prop :=
  ∃ n : TypeNode, types[t.index]? = some n ∧ n.shape.isUnbound

/-- Node `t` is a reference without a target or is built from one at some distance. -/
def ReachesUnbound (types : Array TypeNode) (t : TypeId) : Prop :=
  ∃ u, Relation.ReflTransGen (BuiltFrom types) t u ∧ Unbound types u

open Classical in
/-- The state of a node that follows from the unbound references. -/
noncomputable def stateOf (types : Array TypeNode) (t : TypeId) : ResolutionState :=
  if Unbound types t then .unresolved
  else if ReachesUnbound types t then .degraded
  else .resolved

/-- The nodes of both arrays have the same shapes. -/
def SameShapes (types types' : Array TypeNode) : Prop :=
  ∀ i : Nat, (types'[i]?).map (·.shape) = (types[i]?).map (·.shape)

namespace SameShapes

variable {types types' : Array TypeNode}

/-- Having the same shapes is symmetric. -/
lemma symm (h : SameShapes types types') : SameShapes types' types := fun i => (h i).symm

/-- Arrays of the same shapes have nodes at the same indices, of equal shape. -/
lemma exists_node (h : SameShapes types types') {i : Nat} {n : TypeNode} (hn : types[i]? = some n) :
    ∃ m, types'[i]? = some m ∧ m.shape = n.shape := by
  have e := h i
  rw [hn, Option.map_some] at e
  exact Option.map_eq_some_iff.1 e

/-- What a type is built from depends on the shapes only. -/
lemma builtFrom (h : SameShapes types types') {t u : TypeId} (ht : BuiltFrom types t u) :
    BuiltFrom types' t u := by
  obtain ⟨n, hn, hu⟩ := ht
  obtain ⟨m, hm, e⟩ := h.exists_node hn
  exact ⟨m, hm, by rw [e]; exact hu⟩

/-- Whether a type is an unbound reference depends on the shapes only. -/
lemma unbound (h : SameShapes types types') {t : TypeId} (ht : Unbound types t) :
    Unbound types' t := by
  obtain ⟨n, hn, hu⟩ := ht
  obtain ⟨m, hm, e⟩ := h.exists_node hn
  exact ⟨m, hm, by rw [e]; exact hu⟩

/-- Whether a type reaches an unbound reference depends on the shapes only. -/
lemma reachesUnbound (h : SameShapes types types') {t : TypeId} (ht : ReachesUnbound types t) :
    ReachesUnbound types' t := by
  obtain ⟨u, path, hu⟩ := ht
  exact ⟨u, path.lift id fun _ _ step => h.builtFrom step, h.unbound hu⟩

/-- The same states follow for nodes of the same shapes. -/
lemma stateOf_eq (h : SameShapes types types') (t : TypeId) :
    stateOf types' t = stateOf types t := by
  have unbound : Unbound types' t = Unbound types t := propext ⟨h.symm.unbound, h.unbound⟩
  have reaches : ReachesUnbound types' t = ReachesUnbound types t :=
    propext ⟨h.symm.reachesUnbound, h.reachesUnbound⟩
  rw [stateOf, stateOf, unbound, reaches]

end SameShapes

/-! ## One round -/

/-- Degrading by several states degrades what is resolved if one of them is broken. -/
lemma foldl_degradeBy (s : ResolutionState) (ns : List TypeNode) :
    ns.foldl (fun s n => s.degradeBy n.state) s =
      if s = .resolved ∧ ns.any (·.state.isBroken) then .degraded else s := by
  induction ns generalizing s with
  | nil => simp
  | cons n ns ih =>
    rw [List.foldl_cons, ih, List.any_cons]
    cases s <;> cases n.state <;> simp [ResolutionState.degradeBy, ResolutionState.isBroken]

/-- A resolved node is degraded exactly if a node it depends on is broken; every other keeps its -/
lemma degradedState_eq (types : Array TypeNode) (n : TypeNode) :
    n.degradedState types =
      if n.state = .resolved ∧
        (n.shape.dependencies.filterMap (types[·.index]?)).any (·.state.isBroken)
      then .degraded else n.state :=
  foldl_degradeBy _ _

/-- The nodes with the states that they have alone, which the first round starts from. -/
def ownStates (types : Array TypeNode) : Array TypeNode :=
  types.map fun n => { n with state := n.ownState }

/-- States given to nodes, which agree with the unbound references so far: what is degraded reaches
one. -/
structure Sound (types states : Array TypeNode) : Prop where
  size : states.size = types.size
  rest : ∀ (i : Nat) (n : TypeNode), states[i]? = some n → ∃ m,
    types[i]? = some m ∧ n = { m with state := n.state }
  unbound : ∀ (i : Nat) (n : TypeNode), states[i]? = some n →
    (n.shape.isUnbound ↔ n.state = .unresolved)
  bound : ∀ (i : Nat) (n : TypeNode), states[i]? = some n → n.shape.isUnbound = false →
    n.state = .resolved ∨ n.state = .degraded ∧ ReachesUnbound types ⟨i⟩

section

variable {types states : Array TypeNode}

/-- The states of the nodes looked at alone. -/
lemma sound_ownStates (types : Array TypeNode) : Sound types (ownStates types) where
  size := by simp [ownStates]
  rest i n h := by
    obtain ⟨m, hm, rfl⟩ := Option.map_eq_some_iff.1 (Array.getElem?_map .. ▸ h)
    exact ⟨m, hm, rfl⟩
  unbound i n h := by
    obtain ⟨m, hm, rfl⟩ := Option.map_eq_some_iff.1 (Array.getElem?_map .. ▸ h)
    simp only [TypeNode.ownState]
    split <;> simp_all
  bound i n h hb := by
    obtain ⟨m, hm, rfl⟩ := Option.map_eq_some_iff.1 (Array.getElem?_map .. ▸ h)
    simp only at hb
    exact .inl (by simp [TypeNode.ownState, hb])

/-- What is broken reaches an unbound reference. -/
lemma Sound.reachesUnbound (h : Sound types states) {t : TypeId} {n : TypeNode}
    (ht : states[t.index]? = some n) (broken : n.state.isBroken) : ReachesUnbound types t := by
  obtain ⟨m, hm, e⟩ := h.rest _ _ ht
  cases hu : n.shape.isUnbound with
  | true => exact ⟨t, .refl, m, hm, by rw [e] at hu; exact hu⟩
  | false =>
    rcases h.bound _ _ ht hu with hs | ⟨-, hr⟩
    · simp [hs, ResolutionState.isBroken] at broken
    · exact hr

/-- A round keeps the states sound. -/
lemma Sound.round (h : Sound types states) : Sound types (round states) where
  size := by simp [TypeStates.round, h.size]
  rest i n hn := by
    obtain ⟨m, hm, rfl⟩ := Option.map_eq_some_iff.1 (Array.getElem?_map .. ▸ hn)
    obtain ⟨o, ho, e⟩ := h.rest i m hm
    refine ⟨o, ho, ?_⟩
    rw [e]
  unbound i n hn := by
    obtain ⟨m, hm, rfl⟩ := Option.map_eq_some_iff.1 (Array.getElem?_map .. ▸ hn)
    have hu := h.unbound i m hm
    simp only [hu, degradedState_eq]
    split
    next hd => simp [hd.1]
    next => rfl
  bound i n hn hb := by
    obtain ⟨m, hm, rfl⟩ := Option.map_eq_some_iff.1 (Array.getElem?_map .. ▸ hn)
    simp only [degradedState_eq]
    split
    next hd =>
      refine .inr ⟨rfl, ?_⟩
      obtain ⟨u, hu, broken⟩ := List.any_eq_true.1 hd.2
      obtain ⟨v, hv, hu⟩ := List.mem_filterMap.1 hu
      obtain ⟨w, path, hw⟩ := h.reachesUnbound hu broken
      obtain ⟨o, ho, e⟩ := h.rest i m hm
      refine ⟨w, .head ⟨o, ho, ?_⟩ path, hw⟩
      rw [e] at hv
      exact hv
    next => exact h.bound i m hm hb

/-- The number of resolved nodes. -/
def resolvedCount (states : Array TypeNode) : Nat :=
  (states.toList.filter (·.state == .resolved)).length

/-- A round that changes a state resolves fewer nodes. -/
lemma resolvedCount_round_lt (h : isStable states = false) :
    resolvedCount (round states) < resolvedCount states := by
  let stays : TypeNode → Bool := fun n => n.degradedState states == .resolved
  have was : ∀ n, stays n = true → (n.state == .resolved) = true := by
    intro n hn
    simp only [stays, degradedState_eq, beq_iff_eq] at hn ⊢
    split at hn
    · cases hn
    · exact hn
  -- What is resolved after a round was resolved before, so a change makes the number smaller.
  have e : ((round states).toList.filter (·.state == .resolved)).length =
      ((states.toList.filter (·.state == .resolved)).filter stays).length := by
    rw [List.filter_filter, TypeStates.round, Array.toList_map, List.filter_map, List.length_map]
    congr 1
    refine List.filter_congr fun n _ => ?_
    have same : ((·.state == .resolved) ∘ fun n : TypeNode =>
        { n with state := n.degradedState states }) n = stays n := rfl
    rw [same]
    cases hs : stays n with
    | true => simp [was n hs]
    | false => rfl
  rw [resolvedCount, resolvedCount, e, List.length_filter_lt_length_iff_exists]
  obtain ⟨i, hi, changed⟩ : ∃ i, ∃ h : i < states.size,
      states[i].degradedState states ≠ states[i].state := by
    simpa [isStable] using h
  have hn : states[i] ∈ states.toList := Array.getElem_mem_toList hi
  generalize states[i] = n at changed hn
  rw [degradedState_eq] at changed
  split at changed
  next hd =>
    refine ⟨n, List.mem_filter.2 ⟨hn, by simp [hd.1]⟩, ?_⟩
    simp only [stays, degradedState_eq, if_pos hd]
    decide
  next => exact absurd rfl changed

/-- There are at most as many resolved nodes as nodes. -/
lemma resolvedCount_le (states : Array TypeNode) : resolvedCount states ≤ states.size := by
  rw [resolvedCount, ← Array.length_toList]
  exact List.length_filter_le ..

/-- There is a first round that changes nothing. There are no more rounds before it than resolved
nodes, and it is where a loop ends that is allowed more rounds than that. -/
lemma exists_stable_round (states : Array TypeNode) : ∃ k ≤ resolvedCount states,
    (∀ j < k, isStable (round^[j] states) = false) ∧ isStable (round^[k] states) = true ∧
      ∀ n, k < n → spread n states = round^[k] states := by
  induction hc : resolvedCount states using Nat.strongRecOn generalizing states with
  | _ c ih =>
    cases stable : isStable states with
    | true =>
      refine ⟨0, Nat.zero_le _, nofun, stable, fun n allowed => ?_⟩
      obtain ⟨n, rfl⟩ := Nat.exists_eq_add_of_lt allowed
      exact if_pos stable
    | false =>
      have fewer := resolvedCount_round_lt stable
      obtain ⟨k, hk, changing, last, rounds⟩ := ih _ (hc ▸ fewer) (round states) rfl
      refine ⟨k + 1, by omega, fun j hj => ?_, last, fun n allowed => ?_⟩
      · cases j with
        | zero => exact stable
        | succ j => exact changing j (Nat.lt_of_succ_lt_succ hj)
      · obtain ⟨n, rfl⟩ := Nat.exists_eq_add_of_lt allowed
        rw [spread, if_neg (by simp [stable])]
        exact rounds _ (by omega)

/-- Soundness survives any number of rounds. -/
lemma Sound.iterate (h : Sound types states) (k : Nat) :
    Sound types (TypeStates.round^[k] states) := by
  induction k with
  | zero => exact h
  | succ k ih =>
    rw [Function.iterate_succ_apply']
    exact ih.round

/-- Sound states have a node for each type, of equal shape. -/
lemma Sound.exists_state (h : Sound types states) {i : Nat} {m : TypeNode}
    (hm : types[i]? = some m) : ∃ n : TypeNode, states[i]? = some n ∧ n.shape = m.shape := by
  have lt : i < states.size := by
    rw [h.size]
    exact (Array.getElem?_eq_some_iff.1 hm).1
  obtain ⟨o, ho, e⟩ := h.rest i states[i] (Array.getElem?_eq_getElem lt)
  cases hm.symm.trans ho
  exact ⟨states[i], Array.getElem?_eq_getElem lt, by rw [e]⟩

/-- In stable states what is built from something broken is broken. -/
lemma Sound.isBroken_of_builtFrom (h : Sound types states) (stable : isStable states = true)
    {t u : TypeId} (step : BuiltFrom types t u) {w : TypeNode}
    (hw : states[u.index]? = some w) (broken : w.state.isBroken) :
    ∃ n : TypeNode, states[t.index]? = some n ∧ n.state.isBroken := by
  obtain ⟨m, hm, hu⟩ := step
  obtain ⟨n, hn, shape⟩ := h.exists_state hm
  refine ⟨n, hn, ?_⟩
  have same : n.degradedState states = n.state := by
    have all := Array.all_eq_true_iff_forall_mem.1 stable n (Array.mem_of_getElem? hn)
    simpa using all
  cases hs : n.state with
  | resolved =>
    -- One more round would degrade the node.
    rw [degradedState_eq, hs, if_pos] at same
    · cases same
    · refine ⟨rfl, List.any_eq_true.2 ⟨w, List.mem_filterMap.2 ⟨u, ?_, hw⟩, broken⟩⟩
      rw [shape]
      exact hu
  | pending =>
    cases hb : n.shape.isUnbound with
    | true => simp [(h.unbound _ _ hn).1 hb] at hs
    | false =>
      rcases h.bound _ _ hn hb with hr | ⟨hr, -⟩ <;> rw [hr] at hs <;> cases hs
  | degraded | unresolved | excluded => rfl

/-- In stable states everything that reaches an unbound reference is broken. -/
lemma Sound.isBroken (h : Sound types states) (stable : isStable states = true) {t : TypeId}
    (reaches : ReachesUnbound types t) :
    ∃ n : TypeNode, states[t.index]? = some n ∧ n.state.isBroken := by
  obtain ⟨u, path, m, hm, unbound⟩ := reaches
  -- Brokenness comes back along the path from its end.
  induction path using Relation.ReflTransGen.head_induction_on with
  | refl =>
    obtain ⟨n, hn, shape⟩ := h.exists_state hm
    refine ⟨n, hn, ?_⟩
    rw [(h.unbound _ _ hn).1 (by rw [shape]; exact unbound)]
    rfl
  | head step _ ih =>
    obtain ⟨w, hw, broken⟩ := ih
    exact h.isBroken_of_builtFrom stable step hw broken

/-- Sound and stable states are those that follow from the unbound references. -/
lemma Sound.state_eq (h : Sound types states) (stable : isStable states = true) {i : Nat}
    {n : TypeNode} (hn : states[i]? = some n) : n.state = stateOf types ⟨i⟩ := by
  obtain ⟨m, hm, e⟩ := h.rest i n hn
  have shape : n.shape = m.shape := by rw [e]
  unfold stateOf
  split
  next hu =>
    obtain ⟨o, ho, unbound⟩ := hu
    cases hm.symm.trans ho
    exact (h.unbound i n hn).1 (shape ▸ unbound)
  next hu =>
    have hb : n.shape.isUnbound = false := by
      rw [shape, ← Bool.not_eq_true]
      exact fun unbound => hu ⟨m, hm, unbound⟩
    split
    next hr =>
      obtain ⟨o, ho, broken⟩ := h.isBroken stable hr
      cases hn.symm.trans ho
      rcases h.bound i n hn hb with hs | ⟨hs, -⟩
      · simp [hs, ResolutionState.isBroken] at broken
      · exact hs
    next hr =>
      rcases h.bound i n hn hb with hs | ⟨-, hr'⟩
      · exact hs
      · exact absurd hr' hr

end

/-- As many rounds are allowed as are needed to reach one that changes nothing. -/
lemma exists_rounds (types : Array TypeNode) : ∃ k ≤ types.size,
    (∀ j < k, isStable (round^[j] (ownStates types)) = false) ∧
      isStable (settle types) = true ∧ settle types = round^[k] (ownStates types) ∧
      ∀ n, types.size < n → spread n (ownStates types) = settle types := by
  obtain ⟨k, hk, changing, last, rounds⟩ := exists_stable_round (ownStates types)
  have le : k ≤ types.size := by simpa [ownStates] using Nat.le_trans hk (resolvedCount_le _)
  have settled : settle types = round^[k] (ownStates types) := rounds _ (Nat.lt_succ_of_le le)
  refine ⟨k, le, changing, settled ▸ last, settled, fun n more => ?_⟩
  rw [settled, rounds n (Nat.lt_of_le_of_lt le more)]

/-- In the end every node has the state that follows from the unbound references. -/
theorem getElem?_settle (types : Array TypeNode) (i : Nat) :
    (settle types)[i]? = types[i]?.map fun n => { n with state := stateOf types ⟨i⟩ } := by
  obtain ⟨k, -, -, stable, rounds, -⟩ := exists_rounds types
  have sound : Sound types (settle types) := rounds ▸ (sound_ownStates types).iterate k
  have size : (settle types).size = types.size := sound.size
  rcases Nat.lt_or_ge i types.size with hi | hi
  · obtain ⟨n, hn⟩ : ∃ n, (settle types)[i]? = some n :=
      ⟨_, Array.getElem?_eq_getElem (size ▸ hi)⟩
    obtain ⟨m, hm, e⟩ := sound.rest i n hn
    rw [hn, hm, Option.map_some, ← sound.state_eq stable hn, ← e]
  · rw [Array.getElem?_eq_none (size ▸ hi), Array.getElem?_eq_none hi]
    rfl

/-! ## What the states say -/

/-- Node `t` is built, in one step or more, from a reference without a target. -/
def DependsOnUnbound (types : Array TypeNode) (t : TypeId) : Prop :=
  ∃ u, Relation.TransGen (BuiltFrom types) t u ∧ Unbound types u

/-- A bound type reaches an unbound reference exactly if it depends on one. -/
lemma reachesUnbound_iff_of_bound {types : Array TypeNode} {t : TypeId}
    (bound : ¬ Unbound types t) : ReachesUnbound types t ↔ DependsOnUnbound types t := by
  constructor
  · rintro ⟨u, path, hu⟩
    rcases Relation.reflTransGen_iff_eq_or_transGen.1 path with rfl | path
    · exact absurd hu bound
    · exact ⟨u, path, hu⟩
  · exact fun ⟨u, path, hu⟩ => ⟨u, path.to_reflTransGen, hu⟩

/-- A type is an unbound reference exactly if its node's shape is. -/
lemma unbound_iff {types : Array TypeNode} {t : TypeId} {n : TypeNode}
    (hn : types[t.index]? = some n) : Unbound types t ↔ n.shape.isUnbound = true := by
  constructor
  · rintro ⟨m, hm, unbound⟩
    cases hn.symm.trans hm
    exact unbound
  · exact fun unbound => ⟨n, hn, unbound⟩

/-- The three states that a node can end in. -/
lemma stateOf_eq_iff {types : Array TypeNode} {t : TypeId} {n : TypeNode}
    (hn : types[t.index]? = some n) :
    (stateOf types t = .unresolved ↔ n.shape.isUnbound = true) ∧
    (stateOf types t = .degraded ↔ n.shape.isUnbound = false ∧ DependsOnUnbound types t) ∧
    (stateOf types t = .resolved ↔ n.shape.isUnbound = false ∧ ¬ DependsOnUnbound types t) := by
  unfold stateOf
  by_cases unbound : Unbound types t
  · simp [unbound, (unbound_iff hn).1 unbound]
  · have bound : n.shape.isUnbound = false := by
      rw [← Bool.not_eq_true, ← unbound_iff hn]
      exact unbound
    rw [if_neg unbound, reachesUnbound_iff_of_bound unbound, bound]
    by_cases depends : DependsOnUnbound types t <;> simp [depends]

/-- How the states of `settled` follow from the nodes of `types`, which may depend on each other in
cycles, and how the rounds that lead there come to their end. -/
structure Settles (types settled : Array TypeNode) : Prop where
  size : settled.size = types.size
  /-- A node changes in nothing but its state. An unbound reference is unresolved. Any other node is
  degraded if it is built from one, at whatever distance, and resolved if it is not. -/
  state : ∀ (t : TypeId) (n : TypeNode), types[t.index]? = some n → ∃ s,
    settled[t.index]? = some { n with state := s } ∧
    (s = .unresolved ↔ n.shape.isUnbound = true) ∧
    (s = .degraded ↔ n.shape.isUnbound = false ∧ DependsOnUnbound types t) ∧
    (s = .resolved ↔ n.shape.isUnbound = false ∧ ¬ DependsOnUnbound types t)
  /-- Of the rounds allowed, one more than there are nodes, the last one to be run is the first that
  finds nothing to change. -/
  rounds : ∃ k < types.size + 1,
    (∀ j < k, isStable (round^[j] (ownStates types)) = false) ∧
      isStable settled = true ∧ settled = round^[k] (ownStates types)
  /-- More rounds would not lead any further. -/
  enough : ∀ n, types.size < n → spread n (ownStates types) = settled

end TypeStates

/-- The states that the types of any draft end in follow from the unbound references among them, and
the rounds end because one of them changes nothing. -/
theorem Draft.settles_settleTypes (d : Draft) :
    TypeStates.Settles d.mib.types d.settleTypes.mib.types := by
  obtain ⟨k, le, changing, last, rounds, enough⟩ := TypeStates.exists_rounds d.mib.types
  refine ⟨?_, fun t n hn => ?_, ⟨k, Nat.lt_succ_of_le le, changing, last, rounds⟩, enough⟩
  · exact (rounds ▸ (TypeStates.sound_ownStates d.mib.types).iterate k).size
  · have settled := TypeStates.getElem?_settle d.mib.types t.index
    rw [hn, Option.map_some] at settled
    exact ⟨_, settled, TypeStates.stateOf_eq_iff hn⟩

end MibCorpus
