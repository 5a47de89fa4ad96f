/-!
# Severities and kinds of problems
-/

namespace MibCorpus

/-- How bad a problem is, from least to most. -/
inductive Severity where
  | info
  | warning
  | error
  | fatal
  deriving DecidableEq, Ord, Inhabited

namespace Severity

/-- All severities, the least first. -/
def all : List Severity := [info, warning, error, fatal]

/-- The word for the severity. -/
def word : Severity → String
  | info => "info"
  | warning => "warning"
  | error => "error"
  | fatal => "fatal"

instance : ToString Severity := ⟨word⟩

/-- The place of the severity among all. -/
def rank : Severity → Nat
  | info => 0
  | warning => 1
  | error => 2
  | fatal => 3

/-- Whether `s` is at least as bad as `t`. -/
def atLeast (s t : Severity) : Bool := t.rank ≤ s.rank

/-- The worse of two severities. -/
def worse (s t : Severity) : Severity := if s.atLeast t then s else t

end Severity

/-- The kinds of problems, in the order of the phases that report them. -/
inductive ProblemKind where
  | parseFailure
  | duplicateModule
  | duplicateDefinition
  | missingImportSource
  | unresolvedImport
  | duplicateImport
  | ambiguousImport
  | unresolvedType
  | circularTypeReference
  | rangeConstraintViolation
  | unresolvedOidParent
  | invalidOidComponent
  | circularOidReference
  | multipleValueConflict
  deriving DecidableEq

namespace ProblemKind

/-- The severity of a problem of the kind, unless it is given another. -/
def defaultSeverity : ProblemKind → Severity
  | parseFailure | circularOidReference => .fatal
  | _ => .error

/-- What a problem of the kind says, unless it is given another text. -/
def defaultMessage : ProblemKind → String
  | parseFailure => "file could not be parsed"
  | duplicateModule => "module is defined more than once"
  | duplicateDefinition => "name is already defined in this module"
  | missingImportSource => "imported module not found"
  | unresolvedImport => "imported symbol is not defined in its source module"
  | duplicateImport => "symbol is imported more than once"
  | ambiguousImport => "symbol is imported from more than one module"
  | unresolvedType => "type reference cannot be resolved"
  | circularTypeReference => "type refers to itself"
  | rangeConstraintViolation => "lower bound exceeds upper bound"
  | unresolvedOidParent => "OID parent cannot be resolved"
  | invalidOidComponent => "OID component must be a number"
  | circularOidReference => "OID definition refers to itself"
  | multipleValueConflict => "more than one definition for the same OID"

/-- The code of the kind in a rendered problem. -/
def code : ProblemKind → String
  | parseFailure => "parse-failure"
  | duplicateModule => "duplicate-module"
  | duplicateDefinition => "duplicate-definition"
  | missingImportSource => "missing-import-source"
  | unresolvedImport => "unresolved-import"
  | duplicateImport => "duplicate-import"
  | ambiguousImport => "ambiguous-import"
  | unresolvedType => "unresolved-type"
  | circularTypeReference => "circular-type-reference"
  | rangeConstraintViolation => "range-constraint-violation"
  | unresolvedOidParent => "unresolved-oid-parent"
  | invalidOidComponent => "invalid-oid-component"
  | circularOidReference => "circular-oid-reference"
  | multipleValueConflict => "multiple-value-conflict"

end ProblemKind

end MibCorpus
