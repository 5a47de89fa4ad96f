import MibCorpus.Proofs.MirrorBlocks
import MibCorpus.Proofs.Steps
import MibCorpus.Proofs.TypeStates
import Mathlib.Logic.Equiv.Basic

/-!
# What embedded type nodes refine

Nodes that are built from each other alone can be followed among any others: their refinement chains
end alike, and the same unbound references decide about their states.
-/

namespace MibCorpus

/-- There is a type node `t`. -/
def Mib.HasType (mib : Mib) (t : TypeId) : Prop := ∃ n, mib.type? t = some n

/-- Renaming takes the type nodes of the first model to nodes of the second, and they are built from
each other alone. -/
structure Mib.NodesEmbed (τ : Equiv.Perm TypeId) (mib mib' : Mib) : Prop where
  exists_type? : ∀ {t n}, mib.type? t = some n →
    ∃ n', mib'.type? (τ t) = some n' ∧ n'.view = n.view.rename τ
  closed : ∀ {t n u}, mib.type? t = some n → u ∈ n.shape.dependencies → mib.HasType u

namespace Mib.NodesEmbed

variable {τ : Equiv.Perm TypeId} {mib mib' : Mib}

/-! ## Refinement chains -/

/-- Steps of refinement lead to the same node. -/
lemma stepsFrom (h : NodesEmbed τ mib mib') (k : Nat) {t : TypeId} (ht : mib.HasType t) :
    stepsFrom mib'.refined? k (τ t) = (stepsFrom mib.refined? k t).map τ ∧
      ∀ u, stepsFrom mib.refined? k t = some u → mib.HasType u := by
  refine stepsFrom_map (fun t ht => ?_) (fun t u _ hu => ?_) k ht
  · obtain ⟨n, hn⟩ := ht
    obtain ⟨n', hn', view⟩ := h.exists_type? hn
    rw [refined?, refined?, hn, hn']
    exact congrArg NodeView.parent? view
  · obtain ⟨n, hn, parent⟩ := Option.bind_eq_some_iff.1 hu
    exact h.closed hn (TypeShape.mem_dependencies_of_parent? parent)

/-- Refinement chains end in the same unbound reference, if they end in one. -/
lemma find?_typeChain (h : NodesEmbed τ mib mib') {t : TypeId} (ht : mib.HasType t) :
    ((mib'.typeChain (τ t)).find? (·.shape.isUnbound)).map TypeNode.view =
      ((mib.typeChain t).find? (·.shape.isUnbound)).map fun n => n.view.rename τ := by
  -- Steps of refinement match on both sides, so an unbound end on either is one on the other.
  cases hf : (mib.typeChain t).find? (·.shape.isUnbound) with
  | some n =>
    obtain ⟨unbound, k, hk⟩ := find?_typeChain_eq_some_iff.1 hf
    obtain ⟨u, hu, hn⟩ := Option.bind_eq_some_iff.1 hk
    obtain ⟨n', hn', view⟩ := h.exists_type? hn
    have there : (mib'.typeChain (τ t)).find? (·.shape.isUnbound) = some n' := by
      refine find?_typeChain_eq_some_iff.2 ⟨?_, k, ?_⟩
      · rw [show n'.shape.isUnbound = _ from congrArg NodeView.isUnbound view]
        exact unbound
      · rw [(h.stepsFrom k ht).1, hu]
        exact hn'
    rw [there, Option.map_some, Option.map_some, view]
  | none =>
    rw [Option.map_none, Option.map_eq_none_iff]
    cases hf' : (mib'.typeChain (τ t)).find? (·.shape.isUnbound) with
    | none => rfl
    | some n' =>
      obtain ⟨unbound, k, hk⟩ := find?_typeChain_eq_some_iff.1 hf'
      obtain ⟨same, stays⟩ := h.stepsFrom k ht
      rw [same] at hk
      obtain ⟨u', hu', hn'⟩ := Option.bind_eq_some_iff.1 hk
      obtain ⟨u, hu, rfl⟩ := Option.map_eq_some_iff.1 hu'
      obtain ⟨n, hn⟩ := stays u hu
      obtain ⟨m, hm, view⟩ := h.exists_type? hn
      obtain rfl := Option.some.inj (hn'.symm.trans hm)
      have here : (mib.typeChain t).find? (·.shape.isUnbound) = some n := by
        refine find?_typeChain_eq_some_iff.2 ⟨?_, k, by rw [hu]; exact hn⟩
        rw [← show n'.shape.isUnbound = n.shape.isUnbound from congrArg NodeView.isUnbound view]
        exact unbound
      cases hf.symm.trans here

/-! ## States -/

open TypeStates

/-- A type is an unbound reference in both models or in neither. -/
lemma unbound_iff (h : NodesEmbed τ mib mib') {t : TypeId} (ht : mib.HasType t) :
    Unbound mib'.types (τ t) ↔ Unbound mib.types t := by
  obtain ⟨n, hn⟩ := ht
  obtain ⟨n', hn', view⟩ := h.exists_type? hn
  have same : n'.shape.isUnbound = n.shape.isUnbound := congrArg NodeView.isUnbound view
  constructor
  · rintro ⟨m, hm, unbound⟩
    obtain rfl := Option.some.inj (hn'.symm.trans hm)
    exact ⟨n, hn, same ▸ unbound⟩
  · rintro ⟨m, hm, unbound⟩
    obtain rfl := Option.some.inj (hn.symm.trans hm)
    exact ⟨n', hn', same ▸ unbound⟩

/-- A type is built from the same types in both models. -/
lemma builtFrom_iff (h : NodesEmbed τ mib mib') {t : TypeId} (ht : mib.HasType t) {u' : TypeId} :
    BuiltFrom mib'.types (τ t) u' ↔ ∃ u, u' = τ u ∧ mib.HasType u ∧ BuiltFrom mib.types t u := by
  obtain ⟨n, hn⟩ := ht
  obtain ⟨n', hn', view⟩ := h.exists_type? hn
  have same : n'.shape.dependencies = n.shape.dependencies.map τ :=
    congrArg NodeView.dependencies view
  constructor
  · rintro ⟨m, hm, mem⟩
    obtain rfl := Option.some.inj (hn'.symm.trans hm)
    rw [same] at mem
    obtain ⟨u, hu, rfl⟩ := List.mem_map.1 mem
    exact ⟨u, rfl, h.closed hn hu, n, hn, hu⟩
  · rintro ⟨u, rfl, -, m, hm, mem⟩
    obtain rfl := Option.some.inj (hn.symm.trans hm)
    exact ⟨n', hn', same ▸ List.mem_map_of_mem mem⟩

/-- A type reaches an unbound reference in both models or in neither. -/
lemma reachesUnbound_iff (h : NodesEmbed τ mib mib') {t : TypeId} (ht : mib.HasType t) :
    ReachesUnbound mib'.types (τ t) ↔ ReachesUnbound mib.types t := by
  constructor
  · rintro ⟨u', path, unbound⟩
    -- The way never leaves the nodes of the first model.
    obtain ⟨u, hu, rfl, back⟩ :
        ∃ u, mib.HasType u ∧ u' = τ u ∧ Relation.ReflTransGen (BuiltFrom mib.types) t u := by
      clear unbound
      induction path with
      | refl => exact ⟨t, ht, rfl, .refl⟩
      | tail _ step ih =>
        obtain ⟨u, hu, rfl, path⟩ := ih
        obtain ⟨v, rfl, hv, step⟩ := (h.builtFrom_iff hu).1 step
        exact ⟨v, hv, rfl, path.tail step⟩
    exact ⟨u, back, (h.unbound_iff hu).1 unbound⟩
  · rintro ⟨u, path, unbound⟩
    obtain ⟨hu, there⟩ :
        mib.HasType u ∧ Relation.ReflTransGen (BuiltFrom mib'.types) (τ t) (τ u) := by
      clear unbound
      induction path with
      | refl => exact ⟨ht, .refl⟩
      | tail _ step ih =>
        obtain ⟨n, hn, mem⟩ := step
        have hv := h.closed hn mem
        exact ⟨hv, ih.2.tail ((h.builtFrom_iff ih.1).2 ⟨_, rfl, hv, n, hn, mem⟩)⟩
    exact ⟨τ u, there, (h.unbound_iff hu).2 unbound⟩

/-- A node gets one state in both models. -/
lemma stateOf (h : NodesEmbed τ mib mib') {t : TypeId} (ht : mib.HasType t) :
    stateOf mib'.types (τ t) = stateOf mib.types t := by
  unfold TypeStates.stateOf
  rw [propext (h.unbound_iff ht), propext (h.reachesUnbound_iff ht)]

end Mib.NodesEmbed

end MibCorpus
