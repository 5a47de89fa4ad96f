import MibCorpus.Ident
import MibCorpus.Model.State
import MibCorpus.Source.Definition

/-!
# Type nodes

A SYNTAX clause becomes a small graph of type nodes. Named types are reference nodes, which point at
the node of the named definition once it is known.
-/

namespace MibCorpus

/-- The types that all others are built from. -/
inductive BuiltinType where
  | integer
  | octetString
  | objectIdentifier
  | bits
  deriving DecidableEq

/-- The type as it is written. -/
def BuiltinType.spelling : BuiltinType → String
  | integer => "INTEGER"
  | octetString => "OCTET STRING"
  | objectIdentifier => "OBJECT IDENTIFIER"
  | bits => "BITS"

/-- One end of a range. -/
inductive RangeBound where
  | min
  | value (value : Int)
  | max
  deriving DecidableEq

namespace RangeBound

/-- The least bound lies below every number and the greatest above. -/
protected def compare : RangeBound → RangeBound → Ordering
  | min, min => .eq
  | min, _ => .lt
  | value _, min => .gt
  | value v, value w => compare v w
  | value _, max => .lt
  | max, max => .eq
  | max, _ => .gt

instance : Ord RangeBound := ⟨RangeBound.compare⟩

/-- Whether the bound is a number below zero. -/
def isNegative : RangeBound → Bool
  | value v => v < 0
  | min | max => false

/-- The number, or the word for the bound. -/
protected def toString : RangeBound → String
  | min => "MIN"
  | value v => toString v
  | max => "MAX"

instance : ToString RangeBound := ⟨RangeBound.toString⟩

/-- The bound that a written bound stands for. -/
def ofWritten : WrittenBound → RangeBound
  | .signed v => value v
  | .unsigned v => value v
  | .min => min
  | .max => max

end RangeBound

/-- A range that includes both of its ends. -/
structure ConstraintRange where
  lower : RangeBound
  upper : RangeBound
  deriving DecidableEq

namespace ConstraintRange

/-- Whether the range does not end before it starts. -/
def isOrdered (r : ConstraintRange) : Bool := (compare r.lower r.upper).isLE

/-- Both ends with two dots between them, or the one end if they are equal. -/
protected def toString (r : ConstraintRange) : String :=
  if r.lower = r.upper then toString r.lower
  else toString r.lower ++ ".." ++ toString r.upper

instance : ToString ConstraintRange := ⟨ConstraintRange.toString⟩

/-- The range that a written range stands for; a single value is both of its ends. -/
def ofWritten (r : WrittenRange) : ConstraintRange :=
  let lower := RangeBound.ofWritten r.lower
  ⟨lower, (r.upper?.map RangeBound.ofWritten).getD lower⟩

end ConstraintRange

/-- A constraint on a type: alternatives for the size of a value or for the value itself. -/
inductive Constraint where
  | size (ranges : List ConstraintRange)
  | value (ranges : List ConstraintRange)
  deriving DecidableEq

/-- The alternatives, whatever they constrain. -/
def Constraint.ranges : Constraint → List ConstraintRange
  | size rs | value rs => rs

/-- A named number. -/
structure NamedValue where
  name : StrId
  value : Int
  deriving DecidableEq

/-- A field of a sequence or an alternative of a choice. -/
structure Field where
  name : StrId
  type : TypeId
  deriving DecidableEq

/-- The shape of a type node. -/
inductive TypeShape where
  | builtin (type : BuiltinType)
  /-- A name, with the node that it refers to and the foreign module it was found in once known. -/
  | reference (symbol : StrId) (qualifier : Option StrId) (target : Option TypeId)
      (importedFrom : Option ModuleId)
  /-- Named numbers over the builtin node `base`. -/
  | enumeration (base : TypeId) (items : List NamedValue)
  | sequence (fields : List Field)
  | sequenceOf (element : TypeId)
  | choice (alternatives : List Field)
  /-- A textual convention around its SYNTAX. -/
  | textualConvention (base : TypeId) (hint : Option StrId) (status : Status)
  deriving DecidableEq

namespace TypeShape

/-- Whether the node is a reference that still lacks its target. -/
def isUnbound : TypeShape → Bool
  | reference _ _ none _ => true
  | _ => false

/-- The node that this one refines: the target of a reference, or what it wraps. -/
def parent? : TypeShape → Option TypeId
  | reference _ _ target _ => target
  | textualConvention base _ _ | enumeration base _ => some base
  | builtin _ | sequence _ | sequenceOf _ | choice _ => none

/-- The nodes that this one is built from. -/
def dependencies : TypeShape → List TypeId
  | builtin _ => []
  | reference _ _ target _ => target.toList
  | enumeration base _ | textualConvention base _ _ => [base]
  | sequenceOf element => [element]
  | sequence fields | choice fields => fields.map (·.type)

/-- A node depends on what it refines. -/
theorem mem_dependencies_of_parent? {s : TypeShape} {t : TypeId} (h : s.parent? = some t) :
    t ∈ s.dependencies := by
  cases s <;> simp_all [parent?, dependencies]

end TypeShape

/-- A type node. Only the topmost node of a type definition has a name. -/
structure TypeNode where
  id : TypeId
  name : Option StrId
  module : ModuleId
  shape : TypeShape
  constraint : Option Constraint
  state : ResolutionState
  deriving DecidableEq

end MibCorpus
