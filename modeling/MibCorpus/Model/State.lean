/-!
# Resolution states

How far an assignment or a type node has come. A pending entry moves to one of the other states, and
from there a resolved one can only become degraded.
-/

namespace MibCorpus

/-- How far an entry has come. -/
inductive ResolutionState where
  /-- Not decided yet. -/
  | pending
  /-- Resolved in full. -/
  | resolved
  /-- Resolved, but something it is built from is broken. -/
  | degraded
  /-- Cannot be resolved. -/
  | unresolved
  /-- Left out: a member of a cycle or a refused duplicate. -/
  | excluded
  deriving DecidableEq, Inhabited

namespace ResolutionState

/-- The word for the state. -/
def word : ResolutionState → String
  | pending => "pending"
  | resolved => "resolved"
  | degraded => "partial"
  | unresolved => "unresolved"
  | excluded => "excluded"

instance : ToString ResolutionState := ⟨word⟩

/-- Whether the state is decided. -/
def isSettled (s : ResolutionState) : Bool := s != pending

/-- The state of an entry in state `s` built from one in state `dependency`: what is resolved is
degraded by anything broken. -/
def degradeBy (s dependency : ResolutionState) : ResolutionState :=
  match s, dependency with
  | resolved, degraded | resolved, unresolved | resolved, excluded => degraded
  | s, _ => s

/-- Degrading twice by the same state changes nothing more. -/
theorem degradeBy_degradeBy (s d : ResolutionState) :
    (s.degradeBy d).degradeBy d = s.degradeBy d := by
  cases s <;> cases d <;> rfl

end ResolutionState

end MibCorpus
