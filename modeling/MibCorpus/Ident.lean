/-!
# Identifiers

The model keeps every kind of entry in an arena of its own and refers to entries by their position.
An `Ident a` is a position in arena `a`, so identifiers of different arenas cannot be mixed up. They
are written with the arena's letter and counted from one: the first module is `m1`.
-/

namespace MibCorpus

/-- The arenas of the model. -/
inductive Arena where
  | strings
  | files
  | modules
  | assignments
  | types
  | nodes
  deriving DecidableEq

namespace Arena

/-- All arenas, in the order in which the model lists them. -/
def all : List Arena := [strings, files, modules, assignments, types, nodes]

/-- The letter in front of an identifier of the arena. -/
def letter : Arena → String
  | strings => "s"
  | files => "f"
  | modules => "m"
  | assignments => "a"
  | types => "t"
  | nodes => "n"

/-- What the arena holds, in the plural. -/
def contents : Arena → String
  | strings => "strings"
  | files => "files"
  | modules => "modules"
  | assignments => "assignments"
  | types => "types"
  | nodes => "nodes"

end Arena

/-- A position in arena `a`, counted from zero. -/
structure Ident (a : Arena) where
  index : Nat
  deriving DecidableEq, Ord

/-- A string of the model. -/
abbrev StrId := Ident .strings

/-- A source file of the model. -/
abbrev FileId := Ident .files

/-- A module of the model. -/
abbrev ModuleId := Ident .modules

/-- An assignment of the model; positions follow the order of registration. -/
abbrev AssignmentId := Ident .assignments

/-- A type node of the model. -/
abbrev TypeId := Ident .types

/-- A node of the OID tree. -/
abbrev NodeId := Ident .nodes

namespace Ident

variable {a : Arena}

/-- The largest number that an identifier can be written with. -/
def maxNumber : Nat := 0xFFFFFFFF

/-- The number that the identifier is written with: its position counted from one. -/
def number (i : Ident a) : Nat := i.index + 1

/-- The identifier written with the number `n`, if there is one. -/
def ofNumber? (n : Nat) : Option (Ident a) :=
  if 1 ≤ n ∧ n ≤ maxNumber then some ⟨n - 1⟩ else none

/-- The identifier of position `index`, unless its number would be too large. -/
def ofIndex? (index : Nat) : Option (Ident a) :=
  ofNumber? (index + 1)

/-- The arena's letter and the number. -/
protected def toString (i : Ident a) : String :=
  a.letter ++ toString i.number

instance : ToString (Ident a) := ⟨Ident.toString⟩

end Ident

end MibCorpus
