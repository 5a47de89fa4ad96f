import MibCorpus.OidTree.Build
import MibCorpus.Proofs.Registration

/-!
# What finalizing does

The last phase reports the claimants of an OID that lose to the first one and builds the tree. The
assignments and the type nodes stay as they are.
-/

namespace MibCorpus

/-- The part of a model that building the tree leaves alone. -/
structure Foliage where
  strings : Strings
  files : Array FileEntry
  modules : Array ModuleEntry
  assignments : Array Assignment
  types : Array TypeNode
  problems : Problems

/-- The part of a model that building the tree leaves alone. -/
def Mib.foliage (mib : Mib) : Foliage :=
  ⟨mib.strings, mib.files, mib.modules, mib.assignments, mib.types, mib.problems⟩

namespace TreeBuilder

/-- Adding a node touches the tree alone. -/
lemma foliage_ensure (b : TreeBuilder) (oid : Oid) (arc : Arc) (parent : Option NodeId) :
    (b.ensure oid arc parent).2.mib.foliage = b.mib.foliage := by
  unfold ensure Mib.addNode
  cases b.nodes.find? (parent, arc) with
  | some n => rfl
  | none => cases parent <;> rfl

/-- Going down touches the tree alone. -/
lemma foliage_descend (b : TreeBuilder) (path : Oid) (parent : Option NodeId) (arcs : List Arc) :
    (b.descend path parent arcs).2.mib.foliage = b.mib.foliage := by
  induction arcs generalizing b path parent with
  | nil => rfl
  | cons arc arcs ih =>
    rw [descend]
    exact (ih _ _ _).trans (foliage_ensure b _ arc parent)

/-- Adding a claim touches the tree alone. -/
lemma foliage_addClaim (b : TreeBuilder) (claim : Claim) :
    (b.addClaim claim).mib.foliage = b.mib.foliage := by
  have down := foliage_descend b .root none claim.1.arcs
  unfold addClaim
  split
  next h => rw [h] at down; exact down
  next h => rw [h] at down; exact down

/-- Building the tree touches the tree alone. -/
lemma foliage_build (mib : Mib) (claims : List Claim) :
    (build mib claims).foliage = mib.foliage := by
  have each : ∀ (cs : List Claim) (b : TreeBuilder),
      (cs.foldl addClaim b).mib.foliage = b.mib.foliage := by
    intro cs
    induction cs with
    | nil => exact fun _ => rfl
    | cons c cs ih => exact fun b => (ih _).trans (foliage_addClaim b c)
  exact each claims _

end TreeBuilder

namespace Draft

/-- The problem of a claimant that loses to another. -/
def conflictProblem (d : Draft) (oid : Oid) (kept refused : AssignmentId) : Problem :=
  let finding :=
    Finding.contestedOid oid.dotted (d.mib.qualifiedName kept) (d.mib.qualifiedName refused)
  { finding.toProblem (d.locationOf refused) with
    severity := d.conflictSeverity kept refused
    subject := some refused
    other := some kept }

/-- The problems of a claim: all claimants but the first lose. -/
def claimProblems (d : Draft) (claim : Claim) : List Problem :=
  match claim.2 with
  | [] => []
  | kept :: others => others.map (d.conflictProblem claim.1 kept)

/-- The conflicts of a claim are recorded. -/
lemma reportClaim_eq (d : Draft) (claim : Claim) :
    d.reportClaim claim = d.recordAll (d.claimProblems claim) := by
  obtain ⟨oid, as⟩ := claim
  cases as with
  | nil => rfl
  | cons kept others =>
    have each : ∀ (d : Draft) (a : AssignmentId),
        d.reportConflict oid kept a = d.recordAll [d.conflictProblem oid kept a] := fun _ _ => rfl
    have same : ∀ (d : Draft) (ps : List Problem),
        (fun a => [(d.recordAll ps).conflictProblem oid kept a]) =
          fun a => [d.conflictProblem oid kept a] := by
      intro d ps
      rw [recordAll_eq]
      rfl
    refine (foldl_eq_recordAll each same d others).trans ?_
    simp only [claimProblems, List.map_eq_flatMap]

/-- The conflicts of all claims are recorded in order. -/
lemma foldl_reportClaim (d : Draft) (cs : List Claim) :
    cs.foldl reportClaim d = d.recordAll (cs.flatMap d.claimProblems) := by
  have same : ∀ (d : Draft) (ps : List Problem),
      (d.recordAll ps).claimProblems = d.claimProblems := by
    intro d ps
    rw [recordAll_eq]
    rfl
  exact foldl_eq_recordAll reportClaim_eq same d cs

/-- What finalizing does to a draft. -/
structure Finalizes (d d' : Draft) : Prop where
  continues : Continues d d'
  scope : d'.scope = d.scope
  strings : d'.mib.strings = d.mib.strings
  modules : d'.mib.modules = d.mib.modules
  assignments : d'.mib.assignments = d.mib.assignments
  types : d'.mib.types = d.mib.types
  problems : d'.mib.problems.toList = d.mib.problems.toList ++ d.claims.flatMap d.claimProblems

/-- Finalizing reports the conflicts and leaves assignments and type nodes alone. -/
theorem finalizes_finalize (d : Draft) : Finalizes d d.finalize := by
  have reported : d.finalize = { d.recordAll (d.claims.flatMap d.claimProblems) with
      mib := TreeBuilder.build (d.recordAll (d.claims.flatMap d.claimProblems)).mib d.claims } := by
    rw [finalize, foldl_reportClaim]
  have built := TreeBuilder.foliage_build (d.recordAll (d.claims.flatMap d.claimProblems)).mib
    d.claims
  rw [reported]
  generalize TreeBuilder.build _ d.claims = mib at built ⊢
  simp only [recordAll_eq, Mib.foliage, Foliage.mk.injEq] at built
  obtain ⟨strings, files, modules, assignments, types, problems⟩ := built
  refine ⟨⟨?_, ?_⟩, scope_recordAll _ _, strings, modules, assignments, types, ?_⟩
  · simp only [registry, recordAll_eq, files, modules, assignments]
  · rw [strings]
    exact .refl _
  · simp [problems, Problems.toList]

/-- Everything that finalizing reports is a conflict. -/
lemma Finalizes.reports {d d' : Draft} (h : Finalizes d d') : Reports .finalizing d d' := by
  refine ⟨_, h.problems, fun p hp => ?_⟩
  obtain ⟨⟨oid, as⟩, -, hp⟩ := List.mem_flatMap.1 hp
  cases as with
  | nil => simp [claimProblems] at hp
  | cons kept others =>
    obtain ⟨a, -, rfl⟩ := List.mem_map.1 hp
    rfl

end Draft

end MibCorpus
