/-!
# Type syntax

The SYNTAX clauses of a module as written: references are names, bounds are the numbers of the text,
and nothing is checked yet.
-/

namespace MibCorpus

/-- One end of a written range. -/
inductive WrittenBound where
  /-- A number of at most 64 bits with a sign. -/
  | signed (value : Int)
  /-- A number of at most 64 bits without a sign. -/
  | unsigned (value : Nat)
  /-- The word `MIN`. -/
  | min
  /-- The word `MAX`. -/
  | max
  deriving DecidableEq

/-- A written range; without an upper end it is a single value. -/
structure WrittenRange where
  lower : WrittenBound
  upper? : Option WrittenBound
  deriving DecidableEq

/-- A written constraint: alternatives for the size of a value or for the value itself. -/
inductive WrittenConstraint where
  | size (ranges : List WrittenRange)
  | value (ranges : List WrittenRange)
  deriving DecidableEq

namespace WrittenConstraint

/-- The alternatives, whatever they constrain. -/
def ranges : WrittenConstraint → List WrittenRange
  | size rs | value rs => rs

/-- Whether the size is constrained. -/
def isSize : WrittenConstraint → Bool
  | size _ => true
  | value _ => false

end WrittenConstraint

/-- A type as written in a SYNTAX clause. -/
inductive TypeSyntax where
  /-- A type named by itself. -/
  | named (name : String)
  /-- A type named together with the module that defines it. -/
  | qualified (module name : String)
  | integer
  | octetString
  | objectIdentifier
  /-- `INTEGER` with named values. -/
  | enumeration (items : List (String × Int))
  /-- `BITS` with named positions. -/
  | bits (items : List (String × Nat))
  /-- A type with a constraint behind it. -/
  | constrained (base : TypeSyntax) (constraint : WrittenConstraint)
  /-- `SEQUENCE` with named fields. -/
  | sequence (fields : List (String × TypeSyntax))
  /-- `SEQUENCE OF` an element type. -/
  | sequenceOf (element : TypeSyntax)
  /-- `CHOICE` between named alternatives. -/
  | choice (alternatives : List (String × TypeSyntax))
  deriving Inhabited

end MibCorpus
