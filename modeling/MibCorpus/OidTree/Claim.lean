import MibCorpus.Draft.Basic

/-!
# Claims

An assignment that is resolved, in full or degraded, claims its OID. The claims are listed in the
order of the OIDs; of several claimants the policy says which comes first. That one keeps the OID,
and every other is reported.
-/

namespace MibCorpus

/-- An OID with its claimants, the one that keeps it first. -/
abbrev Claim := Oid × List AssignmentId

namespace Claim

/-- The claims with one more claimant of an OID behind those it has. -/
def add (oid : Oid) (a : AssignmentId) : List Claim → List Claim
  | [] => [(oid, [a])]
  | (o, as) :: claims =>
    match compare oid o with
    | .lt => (oid, [a]) :: (o, as) :: claims
    | .eq => (o, as ++ [a]) :: claims
    | .gt => (o, as) :: add oid a claims

/-- The claims that claimants make in order. -/
def collect (claimants : List (AssignmentId × Oid)) : List Claim :=
  claimants.foldl (fun claims x => add x.2 x.1 claims) []

end Claim

/-- The OID that an assignment claims. -/
def Assignment.claim? (a : Assignment) : Option Oid :=
  match a.state with
  | .resolved | .degraded => a.oid
  | .pending | .unresolved | .excluded => none

namespace Draft

/-- The claimants in the order in which they come first. -/
def claimants (d : Draft) : List (AssignmentId × Oid) :=
  let registered := d.mib.assignments.toList.filterMap fun a => a.claim?.map (a.id, ·)
  match d.policy.canonical with
  | .firstRegistered => registered
  | .lastRegistered => registered.reverse

/-- The claims in the order of their OIDs. -/
def claims (d : Draft) : List Claim := Claim.collect d.claimants

/-- A claimant that loses to one of its own name, such as the same node in two copies of a base
module, is only worth a warning. -/
def conflictSeverity (d : Draft) (kept refused : AssignmentId) : Severity :=
  if d.mib.nameOf kept = d.mib.nameOf refused then .warning else .error

/-- Reports a claimant that loses to another. -/
def reportConflict (d : Draft) (oid : Oid) (kept refused : AssignmentId) : Draft :=
  let finding :=
    Finding.contestedOid oid.dotted (d.mib.qualifiedName kept) (d.mib.qualifiedName refused)
  d.record { finding.toProblem (d.locationOf refused) with
    severity := d.conflictSeverity kept refused
    subject := some refused
    other := some kept }

/-- Reports the claimants of an OID that lose to the first. -/
def reportClaim (d : Draft) (claim : Claim) : Draft :=
  match claim.2 with
  | [] => d
  | kept :: others => others.foldl (·.reportConflict claim.1 kept ·) d

end Draft

end MibCorpus
