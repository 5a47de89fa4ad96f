import MibCorpus.Proofs.PrefixTree
import MibCorpus.Proofs.References

/-!
# Claimants

The claimants of a node are the assignments that claim its OID, in the order of their registration
or against it. The first of them defines the node; every other is shadowed and stands behind one
conflict.
-/

namespace MibCorpus

/-- Whether one assignment comes before another where both claim an OID. -/
def CanonicalChoice.Precedes : CanonicalChoice → AssignmentId → AssignmentId → Prop
  | .firstRegistered, i, j => i.index < j.index
  | .lastRegistered, i, j => j.index < i.index

/-- What each shadowed claimant of a node lost to and how bad that is: between equal names it is
worth a warning. -/
def Mib.conflictsAt (mib : Mib) (n : OidNode) :
    List (Option AssignmentId × Option AssignmentId × Severity) :=
  n.shadowed.map fun i =>
    (some i, n.definition,
      if n.definition.map mib.nameOf = some (mib.nameOf i) then .warning else .error)

/-- The claimants of the nodes of a model are what claims their OIDs. -/
structure Mib.ClaimantsListed (choice : CanonicalChoice) (mib : Mib) : Prop where
  /-- What claims an OID is a claimant of its node and of no other. -/
  listed : ∀ i o, mib.Claims i o → ∃ n, mib.nodeAt? o = some n ∧ i ∈ n.claimants ∧
    ∀ j m, mib.node? j = some m → i ∈ m.claimants → m = n
  /-- The claimants of a node are what claims its OID. -/
  claimants : ∀ j n, mib.node? j = some n → ∀ i, i ∈ n.claimants ↔ mib.Claims i (mib.oidOf n)
  /-- They come in the chosen order. -/
  ordered : ∀ j n, mib.node? j = some n → n.claimants.Pairwise choice.Precedes
  /-- Neither a type nor anything that was left out or stayed unresolved is a claimant. -/
  settled : ∀ j n i a, mib.node? j = some n → i ∈ n.claimants → mib.assignment? i = some a →
    ¬a.kind.isType ∧ a.state ≠ .unresolved ∧ a.state ≠ .excluded
  /-- An OID stands for the first claimant of its node. -/
  first : ∀ o, mib.lookupOid? o =
    (mib.nodeAt? o).bind fun n => n.claimants.head?.bind mib.assignment?
  /-- The conflicts are the shadowed claimants of the nodes, one by one. -/
  conflicts : (mib.problems.ofKind .multipleValueConflict).map
      (fun p => (p.subject, p.other, p.severity)) = mib.nodes.toList.flatMap mib.conflictsAt

/-- An assignment claims at most one OID. -/
lemma Mib.Claims.unique {mib : Mib} {i : AssignmentId} {o p : Oid} (h : mib.Claims i o)
    (h' : mib.Claims i p) : o = p := by
  obtain ⟨a, ha, -, ho⟩ := h
  obtain ⟨b, hb, -, hp⟩ := h'
  obtain rfl : a = b := Option.some.inj (ha.symm.trans hb)
  exact Option.some.inj (ho.symm.trans hp)

namespace Draft

variable {d : Draft}

/-! ## Claims and nodes -/

/-- The claims answer each OID with its claimants. -/
lemma claimantsIn_claims (d : Draft) (o : Oid) :
    TreeBuilder.claimantsIn d.claims o = d.claimantsOf o := by
  rw [TreeBuilder.claimantsIn, claims, (Claim.lookup_collect d.claimants).2]
  split
  next none => exact none.symm
  next => rfl

/-- The claimants of a node are those of its OID. -/
lemma claimants_among (d : Draft) (os : List Oid) (o : Oid) :
    (OidNode.among os (TreeBuilder.claimantsIn d.claims) o).claimants = d.claimantsOf o := by
  rw [OidNode.among, OidNode.listed, OidNode.claimants, claimantsIn_claims]
  cases d.claimantsOf o <;> rfl

/-- The claimed OIDs in order are those of the nodes that have claimants. -/
lemma map_fst_claims (proper : d.claimantsOf .root = []) :
    d.claims.map Prod.fst = (Claim.prefixes d.claims).filter fun o => d.claimantsOf o ≠ [] := by
  have sorted : Claim.Sorted d.claims := (Claim.lookup_collect d.claimants).1
  have all := sorted.arePrefixes
  refine Oid.eq_of_mem_iff (List.pairwise_map.2 sorted) (all.sorted.filter _) fun o => ?_
  rw [List.mem_filter, all.mem, decide_eq_true_iff, List.mem_map]
  constructor
  · rintro ⟨⟨p, as⟩, hc, rfl⟩
    obtain ⟨rfl, ne⟩ := mem_claims.1 hc
    refine ⟨⟨fun root : p = .root => ne (root ▸ proper), _, hc, .refl _⟩, ne⟩
  · rintro ⟨-, ne⟩
    exact ⟨(o, d.claimantsOf o), mem_claims.2 ⟨rfl, ne⟩, rfl⟩

/-- What is said about the claims is said about the nodes if nothing is said of unclaimed ones. -/
lemma flatMap_claims {β : Type} (proper : d.claimantsOf .root = []) (f : Oid → List β)
    (unclaimed : ∀ o, d.claimantsOf o = [] → f o = []) :
    d.claims.flatMap (fun c => f c.1) = (Claim.prefixes d.claims).flatMap f := by
  rw [← flatMap_filter_eq (p := fun o => d.claimantsOf o ≠ []), ← map_fst_claims proper,
    List.flatMap_map]
  intro o _ ho
  exact unclaimed o (by simpa using ho)

/-- The claimants of an OID are listed in the order that the policy asks for. -/
lemma DefinitionsRegistered.ordered_claimantsOf (h : d.DefinitionsRegistered) (o : Oid) :
    (d.claimantsOf o).Pairwise d.policy.canonical.Precedes := by
  have registered : (d.mib.assignments.toList.map (·.id)).Pairwise
      fun i j => i.index < j.index := by
    refine List.pairwise_iff_getElem.2 fun i j hi hj lt => ?_
    rw [List.length_map, Array.length_toList] at hi hj
    obtain ⟨-, -, first, -⟩ := h.owner (i := ⟨i⟩) (Array.getElem?_eq_getElem hi)
    obtain ⟨-, -, second, -⟩ := h.owner (i := ⟨j⟩) (Array.getElem?_eq_getElem hj)
    simpa [first, second] using lt
  have some := registered.sublist
    ((List.filter_sublist (p := fun a : Assignment => a.claim? = some o)).map (·.id))
  rw [← claimantsOf_registered] at some
  unfold Draft.claimantsOf claimants
  cases d.policy.canonical with
  | firstRegistered => exact some
  | lastRegistered =>
    have reversed := List.pairwise_reverse.2 some
    rwa [Claim.claimantsOf, ← List.map_reverse, ← List.filter_reverse] at reversed

/-- A conflict names the claimant that lost and the one it lost to. -/
lemma claimProblems_eq (d : Draft) (o : Oid) :
    (d.claimProblems (o, d.claimantsOf o)).map (fun p => (p.subject, p.other, p.severity)) =
      (d.claimantsOf o).tail.map fun i => (some i, (d.claimantsOf o).head?,
        if (d.claimantsOf o).head?.map d.mib.nameOf = some (d.mib.nameOf i) then .warning
        else .error) := by
  cases d.claimantsOf o with
  | nil => rfl
  | cons kept others =>
    simp only [claimProblems, List.map_map, List.tail_cons, List.head?_cons, Option.map_some,
      Option.some.injEq]
    rfl

/-- What is said about the claims is said about the nodes of the tree that is built from them. -/
lemma flatMap_claims_finalize {β : Type} (bare : d.mib.canopy = ⟨#[], [], .empty⟩)
    (proper : d.claimantsOf .root = []) (f : Oid → List AssignmentId → List β)
    (unclaimed : ∀ o, f o [] = []) : d.claims.flatMap (fun c => f c.1 c.2) =
      d.finalize.mib.nodes.toList.flatMap fun n => f (d.finalize.mib.oidOf n) n.claimants := by
  have tree := hasSortedTree_finalize bare
  have listed : d.claims.flatMap (fun c => f c.1 c.2) =
      d.claims.flatMap fun c => f c.1 (d.claimantsOf c.1) := by
    refine List.flatMap_congr fun c hc => ?_
    rw [← (mem_claims.1 hc).1]
  rw [listed, flatMap_claims proper fun o => f o (d.claimantsOf o), tree.toList_nodes,
    List.flatMap_map]
  · refine List.flatMap_congr fun o ho => ?_
    rw [tree.oidOf_among ho, claimants_among]
  · intro o none
    rw [none, unclaimed]

/-- What finalizing reports are the shadowed claimants of the nodes. -/
lemma DefinitionsRegistered.conflicts_finalize (h : d.DefinitionsRegistered)
    (bare : d.mib.canopy = ⟨#[], [], .empty⟩) (proper : d.claimantsOf .root = []) :
    (d.claims.flatMap d.claimProblems).map (fun p => (p.subject, p.other, p.severity)) =
      d.finalize.mib.nodes.toList.flatMap d.finalize.mib.conflictsAt := by
  have names : d.finalize.mib.nameOf = d.mib.nameOf :=
    funext (h.nameOf_of_continues (finalizes_finalize d).continues)
  have tree := hasSortedTree_finalize bare
  rw [List.map_flatMap, flatMap_claims_finalize bare proper
    (fun o as => (d.claimProblems (o, as)).map fun p => (p.subject, p.other, p.severity))
    fun _ => rfl, tree.toList_nodes, List.flatMap_map, List.flatMap_map]
  refine List.flatMap_congr fun o ho => ?_
  rw [tree.oidOf_among ho, claimants_among, claimProblems_eq, Mib.conflictsAt, OidNode.among,
    OidNode.listed, claimantsIn_claims, names]

/-! ## Runs -/

/-- What extends an OID below the root is not the root. -/
lemma extend_ne_root {p : Oid} (ne : p ≠ .root) (arcs : List Arc) : p.extend arcs ≠ .root := by
  intro root
  have empty := List.append_eq_nil_iff.1 (congrArg Oid.arcs root)
  exact ne (congrArg Oid.mk empty.1)

/-- No OID that is derived is empty. -/
lemma OidDerivable.ne_root {i : AssignmentId} {o : Oid} (h : d.OidDerivable i o) : o ≠ .root := by
  have single : ∀ n : Arc, (⟨[n]⟩ : Oid) ≠ .root := by
    intro n e
    cases congrArg Oid.arcs e
  induction h with
  | arc => exact extend_ne_root (single _) _
  | named _ _ _ _ ih => exact extend_ne_root ih _
  | root => exact extend_ne_root (single _) _

section Stages

variable {linked final : Draft} {types oids : Recorder}

/-- What claims an OID was derived one. -/
lemma Stages.of_claims (s : Stages linked types oids final) {i : AssignmentId} {o : Oid}
    (h : final.mib.Claims i o) : ∃ a, final.mib.assignment? i = some a ∧ a.kind.hasOid ∧
      (linked.resolveTypes types).1.OidDerivable i o := by
  obtain ⟨a, ha, -, ho⟩ := h
  obtain ⟨b, hb, outcome⟩ := s.outcome ha
  have bare := (s.untyped.oidsPending types).bare i b hb
  refine ⟨a, ha, ?_⟩
  cases outcome with
  | untouched =>
    rw [oid_degradeByType, bare] at ho
    cases ho
  | broken =>
    rw [bare] at ho
    cases ho
  | assigned hasOid _ o' derivable =>
    have kind := congrArg Assignment.kind (heading_degradeByType (linked.resolveTypes types).1.mib
      { b with oid := some o', state := .resolved })
    rw [oid_degradeByType] at ho
    cases ho
    exact ⟨by rwa [show (degradeByType _ _).kind = b.kind from kind], derivable⟩

/-- Nothing claims the empty OID. -/
lemma Stages.claimantsOf_root (s : Stages linked types oids final) :
    ((linked.resolveTypes types).1.resolveOids oids).1.claimantsOf .root = [] := by
  refine List.eq_nil_iff_forall_not_mem.2 fun i hi => ?_
  have claims : final.mib.Claims i .root := by
    unfold Mib.Claims Mib.assignment?
    rw [s.finalizes.assignments]
    exact s.definitions.mem_claimantsOf.1 hi
  obtain ⟨-, -, -, derivable⟩ := s.of_claims claims
  exact derivable.ne_root rfl

/-- Conflicts are reported by the last phase alone. -/
lemma Stages.ofKind_multipleValueConflict (s : Stages linked types oids final) :
    final.mib.problems.ofKind .multipleValueConflict =
      ((linked.resolveTypes types).1.resolveOids oids).1.claims.flatMap
        ((linked.resolveTypes types).1.resolveOids oids).1.claimProblems := by
  rw [Problems.ofKind, s.filter_of_finalizing fun p conflict => by rw [beq_iff_eq.1 conflict]; rfl]
  refine List.filter_eq_self.2 fun p hp => ?_
  obtain ⟨⟨o, as⟩, -, hp⟩ := List.mem_flatMap.1 hp
  cases as with
  | nil => cases hp
  | cons kept others =>
    obtain ⟨a, -, rfl⟩ := List.mem_map.1 hp
    rfl

/-- After the last phase the claimants are listed at the nodes. -/
lemma Stages.claimantsListed (s : Stages linked types oids final)
    (bare : ((linked.resolveTypes types).1.resolveOids oids).1.mib.canopy = ⟨#[], [], .empty⟩)
    (finalized : final = ((linked.resolveTypes types).1.resolveOids oids).1.finalize) :
    final.mib.ClaimantsListed linked.policy.canonical := by
  have definitions := s.definitions
  have policy : ((linked.resolveTypes types).1.resolveOids oids).1.policy = linked.policy :=
    (policy_of_registry s.finalizes.continues.registry).symm.trans
      (policy_of_registry s.continues.registry)
  have tree := finalized ▸ hasSortedTree_finalize bare
  have claims :=
    finalized ▸ claims_finalize (d := ((linked.resolveTypes types).1.resolveOids oids).1)
  have conflicts := s.ofKind_multipleValueConflict
  have proper := s.claimantsOf_root
  rw [← policy]
  -- How the draft before finalization came about does not matter from here on.
  generalize ((linked.resolveTypes types).1.resolveOids oids).1 = d at *
  have mem : ∀ {i o}, i ∈ d.claimantsOf o ↔ final.mib.Claims i o := by
    intro i o
    rw [definitions.mem_claimantsOf, claims]
  have among := d.claimants_among (Claim.prefixes d.claims)
  constructor
  case listed =>
    intro i o h
    have claimed := mem.2 h
    have ne : o ≠ .root := by
      rintro rfl
      rw [proper] at claimed
      cases claimed
    have sorted : Claim.Sorted d.claims := (Claim.lookup_collect d.claimants).1
    have node := (sorted.arePrefixes.mem o).2
      ⟨ne, _, mem_claims.2 ⟨rfl, List.ne_nil_of_mem claimed⟩, .refl o⟩
    refine ⟨_, tree.nodeAt?_of_mem node, (among o).symm ▸ claimed, fun j m hm hi => ?_⟩
    obtain ⟨p, -, -, rfl⟩ := tree.exists_of_node? hm
    rw [among, mem] at hi
    rw [h.unique hi]
  case claimants =>
    intro j n hn i
    obtain ⟨o, ho, -, rfl⟩ := tree.exists_of_node? hn
    rw [among, tree.oidOf_among (List.mem_of_getElem? ho), mem]
  case ordered =>
    intro j n hn
    obtain ⟨o, -, -, rfl⟩ := tree.exists_of_node? hn
    rw [among]
    exact definitions.ordered_claimantsOf o
  case settled =>
    intro j n i a hn hi ha
    obtain ⟨o, -, -, rfl⟩ := tree.exists_of_node? hn
    rw [among, mem] at hi
    obtain ⟨b, hb, hasOid, -⟩ := s.of_claims hi
    obtain ⟨c, hc, state, -⟩ := hi
    obtain rfl : b = a := Option.some.inj (hb.symm.trans ha)
    obtain rfl : c = b := Option.some.inj (hc.symm.trans ha)
    refine ⟨by simpa [AssignmentKind.hasOid] using hasOid, ?_, ?_⟩ <;>
      rcases state with e | e <;> rw [e] <;> decide
  case first =>
    intro o
    refine Option.bind_congr fun n hn => ?_
    obtain ⟨-, rfl⟩ := tree.eq_among hn
    rw [among, OidNode.among, OidNode.listed, claimantsIn_claims]
  case conflicts =>
    rw [conflicts, definitions.conflicts_finalize bare proper, finalized]

end Stages

end Draft

/-- After every run the claimants of a node are the assignments that claim its OID, in the order
that the policy asks for, and every one but the first stands behind one conflict. -/
theorem Pipeline.claimantsListed_runParsed (p : Pipeline) (files : List ParsedFile) :
    modelOf (p.runParsed files).1 = some (p.resolve files).1.mib ∧
      (p.resolve files).1.mib.ClaimantsListed p.policy.canonical := by
  obtain ⟨linked, types, oids, s, policy, bare, final⟩ := Draft.exists_finalized p files
  exact ⟨modelOf_runParsed p files, policy ▸ s.claimantsListed bare final⟩

end MibCorpus
