import MibCorpus.Draft.Sweep
import MibCorpus.OidValue.Entry
import MibCorpus.Source.BaseModule

/-!
# Resolving OID values

A value becomes an OID once its anchor has one: a topmost arc at once, a name when the assignment it
stands for has its OID. What the sweeps leave over is a member of a cycle, hangs off a cycle, or
hangs off a name that stands for nothing with an OID.
-/

namespace MibCorpus

/-- What an anchor stands for at some point. -/
inductive OidBase where
  /-- Something with this OID. -/
  | ready (oid : Oid)
  /-- An assignment that has no OID yet. -/
  | waiting (a : AssignmentId)
  /-- Nothing that will have an OID. -/
  | missing
  deriving DecidableEq

namespace Draft

/-- What a name that was found stands for. -/
def baseOfAssignment (d : Draft) (i : AssignmentId) : OidBase :=
  match d.mib.assignment? i with
  | none => .missing
  | some a =>
    match a.oid with
    | some oid => .ready oid
    | none => if a.kind.hasOid && a.state == .pending then .waiting i else .missing

/-- What an anchor stands for, seen from a module. A name that nothing visible has may still be an
intrinsic root, unless it comes with the name of a module. -/
def baseOf (d : Draft) (m : ModuleId) : Anchor → OidBase
  | .arc a => .ready ⟨[a]⟩
  | .name qualifier name =>
    match d.scope.resolveFrom m qualifier name with
    | .found i => d.baseOfAssignment i
    | .ambiguous _ => .missing
    | .notFound =>
      match qualifier, intrinsicRoot? name with
      | none, some a => .ready ⟨[a]⟩
      | _, _ => .missing

/-- The OID of an entry, once its anchor has one. -/
def readyOid? (d : Draft) (e : OidEntry) : Option Oid :=
  match d.baseOf e.module e.value.anchor with
  | .ready oid => some (oid.extend e.value.arcs)
  | .waiting _ | .missing => none

/-- Gives an entry its OID. -/
def assignOid (d : Draft) (e : OidEntry) (oid : Oid) : Draft :=
  { d with mib := d.mib.modifyAssignment e.assignment fun a =>
      { a with oid := some oid, state := .resolved } }

/-- How OID values are settled. -/
def oidRule : SweepRule OidEntry Oid where
  phase := .oids
  decide? := readyOid?
  apply := assignOid
  event d e oid := .oidResolved (d.mib.nameOf e.assignment) oid

/-! ## What is left over -/

/-- Why an entry got no OID. -/
inductive OidFailure where
  /-- It is a member of a cycle. -/
  | cycle
  /-- It hangs off a cycle that `member` belongs to. -/
  | behindCycle (member : AssignmentId)
  /-- It hangs off `last`, whose anchor stands for nothing with an OID. -/
  | missing (last : AssignmentId)
  deriving DecidableEq

/-- Follows the anchors from `current` on, at most `n` times, to see why `start` got no OID. -/
def traceFailure (d : Draft) (remaining : List OidEntry) (start : AssignmentId) :
    Nat → List AssignmentId → OidEntry → OidFailure
  | 0, _, current => .behindCycle current.assignment
  | n + 1, visited, current =>
    let visited := current.assignment :: visited
    match d.baseOf current.module current.value.anchor with
    | .ready _ | .missing => .missing current.assignment
    | .waiting parent =>
      if parent = start then .cycle
      else if parent ∈ visited then .behindCycle parent
      else
        match remaining.find? (·.assignment = parent) with
        | none => .missing parent
        | some next => d.traceFailure remaining start n visited next

/-- Why an entry that the sweeps left over got no OID. -/
def failureOf (d : Draft) (remaining : List OidEntry) (e : OidEntry) : OidFailure :=
  d.traceFailure remaining e.assignment (remaining.length + 1) [] e

/-- What to report about an entry without an OID. -/
def failureFinding (d : Draft) (e : OidEntry) : OidFailure → Finding
  | .cycle => .circularOid (d.mib.nameOf e.assignment) e.value.anchor.text
  | .behindCycle member => .oidBehindCycle (d.mib.nameOf e.assignment) (d.mib.nameOf member)
  | .missing last =>
    if last = e.assignment then
      .missingOidParent (d.mib.nameOf e.assignment) e.value.anchor.text
    else .oidBehindMissing (d.mib.nameOf e.assignment) (d.mib.nameOf last)

/-- The state of an entry without an OID: members of a cycle are left out. -/
def OidFailure.state : OidFailure → ResolutionState
  | cycle => .excluded
  | behindCycle _ | missing _ => .unresolved

/-- Reports the entries that the sweeps left over, all judged before the first is reported. -/
def settleLeftOids (remaining : List OidEntry) (d : Draft) : Draft :=
  (remaining.map fun e => (e, d.failureOf remaining e)).foldl
    (fun d x => (d.reportAbout (d.failureFinding x.1 x.2) x.1.assignment).setState
      x.1.assignment x.2.state) d

/-! ## The phase -/

/-- An assignment with an OID is degraded by the state of its type. -/
def degradeByType (mib : Mib) (a : Assignment) : Assignment :=
  match a.type.bind mib.type? with
  | some t => if a.state = .resolved then { a with state := a.state.degradeBy t.state } else a
  | none => a

/-- Degrades the resolved assignments by the states of their types. -/
def settleObjects (d : Draft) : Draft :=
  { d with mib := { d.mib with assignments := d.mib.assignments.map (degradeByType d.mib) } }

/-- Resolves the OID values of all definitions. -/
def resolveOids (d : Draft) (r : Recorder) : Draft × Recorder :=
  let (remaining, d, r) := oidRule.run 0 d.oidEntries d.reportOidDefects r
  ((settleLeftOids remaining d).settleObjects, r)

end Draft

end MibCorpus
