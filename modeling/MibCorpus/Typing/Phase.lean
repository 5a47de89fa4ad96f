import MibCorpus.Typing.Binding
import MibCorpus.Typing.States

/-!
# The typing phase

Lowering, the sweeps over the references, what they leave over, and the states that follow.
-/

namespace MibCorpus.Draft

/-- Resolves the types of all definitions. -/
def resolveTypes (d : Draft) (r : Recorder) : Draft × Recorder :=
  let l := Lowering.lowerAll d
  let (pending, d, r) := referenceRule.run 0 l.references l.draft r
  let (d, r) := settleLeftReferences pending d r
  (d.settleTypes.settleTypeAssignments, r)

end MibCorpus.Draft
