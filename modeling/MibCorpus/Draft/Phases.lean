import MibCorpus.Draft.Linking
import MibCorpus.Draft.Registration
import MibCorpus.OidTree.Build
import MibCorpus.OidValue.Resolution
import MibCorpus.Typing.Phase

/-!
# Phases

A draft becomes a model by five phases: registration, linking, typing, OID values and the tree. A
run takes them in this order, but each is defined on every draft, so they may also be called in any
order and more than once.
-/

namespace MibCorpus

/-- A call of one phase. -/
inductive PhaseCall where
  | register (files : List ParsedFile)
  | link
  | resolveTypes
  | resolveOids
  | finalize

namespace PhaseCall

/-- The phase that is called. -/
def phase : PhaseCall → Phase
  | register _ => .registration
  | link => .linking
  | resolveTypes => .types
  | resolveOids => .oids
  | finalize => .finalizing

/-- Calls a phase on a draft. Linking and the building of the tree emit no events. -/
def apply : PhaseCall → Draft → Recorder → Draft × Recorder
  | register files, d, r => d.register files r
  | link, d, r => (d.link, r)
  | resolveTypes, d, r => d.resolveTypes r
  | resolveOids, d, r => d.resolveOids r
  | finalize, d, r => (d.finalize, r)

/-- Calls a phase as part of a run: its events and the problems that it recorded stand between the
events of its start and its end. -/
def run (c : PhaseCall) (d : Draft) (r : Recorder) : Draft × Recorder :=
  let (next, r) := c.apply d (r.emit .info (.phaseStart c.phase))
  let r := r.emitProblems (next.mib.problems.since d.mib.problems.length)
  (next, r.emit .info (.phaseEnd c.phase))

end PhaseCall

end MibCorpus
