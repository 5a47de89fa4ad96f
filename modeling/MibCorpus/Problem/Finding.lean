import MibCorpus.Problem.Basic

/-!
# Findings

What the phases find wrong, as causes with the names involved. A finding fixes the kind of the
problem and the words of its message.
-/

namespace MibCorpus

/-- Something that a phase found wrong. -/
inductive Finding where
  /-- A file could not be parsed. -/
  | parseFailure (path reason : String)
  /-- A second module of the same name; the first came from file `first?`. -/
  | duplicateModule (name : String) (first? : Option String)
  /-- A second definition of the same name in a module. -/
  | duplicateDefinition (name module : String)
  /-- A module that is imported from is not there. -/
  | missingSource (source : String)
  /-- An imported symbol is not there. -/
  | unresolvedImport (symbol source : String)
  /-- A symbol is imported twice from one module. -/
  | duplicateImport (symbol source : String)
  /-- A symbol is imported from two modules. -/
  | ambiguousImport (symbol first second : String)
  /-- A type reference names nothing. -/
  | undefinedType (referrer type : String)
  /-- A type reference names a symbol imported from several modules. -/
  | ambiguousType (referrer type : String) (sources : Nat)
  /-- A type reference names a value. -/
  | valueAsType (referrer type : String)
  /-- A type reference leads back to the definition that it stands in. -/
  | circularType (referrer type : String)
  /-- A size is below zero. -/
  | negativeSize (range owner : String)
  /-- A range ends before it starts. -/
  | unorderedRange (lower upper owner : String)
  /-- An OID value has no components. -/
  | emptyOid (name : String)
  /-- An OID value has a name without an arc behind its first component. -/
  | nameInsideOid (name component : String)
  /-- An OID value leads back to itself. -/
  | circularOid (name parent : String)
  /-- An OID value hangs off a cycle of others. -/
  | oidBehindCycle (name member : String)
  /-- The parent of an OID value is no OID value. -/
  | missingOidParent (name parent : String)
  /-- An OID value hangs off another whose parent is no OID value. -/
  | oidBehindMissing (name last : String)
  /-- Two definitions have one OID, and the first is kept. -/
  | contestedOid (oid kept refused : String)
  deriving DecidableEq

namespace Finding

/-- The kind of problem that the finding is. -/
def kind : Finding → ProblemKind
  | parseFailure .. => .parseFailure
  | duplicateModule .. => .duplicateModule
  | duplicateDefinition .. => .duplicateDefinition
  | missingSource .. => .missingImportSource
  | unresolvedImport .. => .unresolvedImport
  | duplicateImport .. => .duplicateImport
  | ambiguousImport .. => .ambiguousImport
  | undefinedType .. | ambiguousType .. | valueAsType .. => .unresolvedType
  | circularType .. => .circularTypeReference
  | negativeSize .. | unorderedRange .. => .rangeConstraintViolation
  | emptyOid .. | nameInsideOid .. => .invalidOidComponent
  | circularOid .. => .circularOidReference
  | oidBehindCycle .. | missingOidParent .. | oidBehindMissing .. => .unresolvedOidParent
  | contestedOid .. => .multipleValueConflict

/-- What the finding says. -/
def message : Finding → String
  | parseFailure path reason => s!"{path}: {reason}"
  | duplicateModule name first? =>
    let first := first?.getD "<synthetic>"
    s!"module {name} is already defined in {first}; this copy is ignored"
  | duplicateDefinition name module => s!"{name} is already defined in {module}"
  | missingSource source => s!"module {source} is not available"
  | unresolvedImport symbol source => s!"{symbol} is not defined in {source}"
  | duplicateImport symbol source => s!"{symbol} is imported from {source} more than once"
  | ambiguousImport symbol first second =>
    s!"{symbol} is imported from both {first} and {second}"
  | undefinedType referrer type => s!"{referrer} refers to undefined type {type}"
  | ambiguousType referrer type sources =>
    s!"{referrer} refers to type {type}, which is imported from {sources} modules"
  | valueAsType referrer type => s!"{referrer} uses {type} as a type, but it is a value"
  | circularType referrer type => s!"{referrer} is defined in terms of itself through {type}"
  | negativeSize range owner => s!"SIZE {range} of {owner} is negative"
  | unorderedRange lower upper owner =>
    s!"range {lower}..{upper} of {owner} has its lower bound above its upper bound"
  | emptyOid name => s!"OID value of {name} is empty"
  | nameInsideOid name component =>
    s!"OID value of {name} uses {component} after its first component"
  | circularOid name parent =>
    s!"OID value of {name} is defined in terms of itself through {parent}"
  | oidBehindCycle name member =>
    s!"OID value of {name} depends on {member}, which is part of a cycle"
  | missingOidParent name parent => s!"OID parent {parent} of {name} cannot be resolved"
  | oidBehindMissing name last =>
    s!"OID value of {name} depends on {last}, whose parent cannot be resolved"
  | contestedOid oid kept refused =>
    s!"{oid} is defined by both {kept} and {refused}; keeping {kept}"

/-- The finding as a problem of its kind's severity, about no assignment. -/
def toProblem (f : Finding) (location : Location) : Problem :=
  { Problem.ofKind f.kind location with message := f.message }

end Finding

end MibCorpus
