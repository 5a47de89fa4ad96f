import MibCorpus.Problem.Kind

/-!
# Policies

What a run leaves to its caller: when it counts as failed, how bad a repeated import is, which of
several claimants gets an OID, and whether missing base modules are generated.
-/

namespace MibCorpus

/-- How bad it is to import a symbol twice from one module. -/
inductive DuplicateImports where
  | error
  | warn
  deriving DecidableEq

/-- The severity of the problem. -/
def DuplicateImports.severity : DuplicateImports → Severity
  | error => .error
  | warn => .warning

/-- Which claimant of an OID becomes its definition. -/
inductive CanonicalChoice where
  | firstRegistered
  | lastRegistered
  deriving DecidableEq

/-- The policies of a run. -/
structure Policy where
  threshold : Severity
  duplicateImports : DuplicateImports
  canonical : CanonicalChoice
  baseModules : Bool
  deriving DecidableEq

namespace Policy

/-- The usual policies: only a fatal problem fails a run, a repeated import is an error, the first
claimant wins, and missing base modules are generated. -/
def usual : Policy := ⟨.fatal, .error, .firstRegistered, true⟩

/-- Whether a run with this worst severity counts as failed. -/
def failsAt (p : Policy) (worst : Option Severity) : Bool := worst.any (·.atLeast p.threshold)

end Policy

end MibCorpus
