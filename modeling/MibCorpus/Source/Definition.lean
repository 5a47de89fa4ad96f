import MibCorpus.Oid.Basic
import MibCorpus.Source.TypeSyntax
import MibCorpus.Span

/-!
# Definitions

The definitions of a module as written. Both generations of the notation are already unified: a trap
is a notification and a mandatory object is a current one.
-/

namespace MibCorpus

/-- The STATUS clause. -/
inductive Status where
  | current
  | deprecated
  | obsolete
  deriving DecidableEq, Inhabited

/-- All words of the STATUS clause. -/
def Status.all : List Status := [current, deprecated, obsolete]

/-- The word of the STATUS clause. -/
def Status.word : Status → String
  | current => "current"
  | deprecated => "deprecated"
  | obsolete => "obsolete"

/-- The MAX-ACCESS clause of an object. -/
inductive Access where
  | readOnly
  | readWrite
  | readCreate
  | notAccessible
  | accessibleForNotify
  | writeOnly
  deriving DecidableEq, Inhabited

/-- All words of the MAX-ACCESS clause. -/
def Access.all : List Access :=
  [readOnly, readWrite, readCreate, notAccessible, accessibleForNotify, writeOnly]

/-- The word of the MAX-ACCESS clause. -/
def Access.word : Access → String
  | readOnly => "read-only"
  | readWrite => "read-write"
  | readCreate => "read-create"
  | notAccessible => "not-accessible"
  | accessibleForNotify => "accessible-for-notify"
  | writeOnly => "write-only"

/-- One component of a written OID value. -/
inductive OidComponent where
  /-- A name alone. -/
  | name (name : String)
  /-- An arc alone. -/
  | arc (arc : Arc)
  /-- A name with its arc, such as `org(3)`. -/
  | namedArc (name : String) (arc : Arc)
  /-- A name with the module that defines it. -/
  | qualified (module name : String)
  deriving DecidableEq

namespace OidComponent

/-- The arc that the component spells out. -/
def arc? : OidComponent → Option Arc
  | arc n | namedArc _ n => some n
  | name _ | qualified _ _ => none

/-- The name that the component spells out. -/
def name? : OidComponent → Option String
  | name s | namedArc s _ | qualified _ s => some s
  | arc _ => none

end OidComponent

/-- What a definition declares. -/
inductive AssignmentKind where
  | type
  | textualConvention
  | value
  | objectType
  | objectIdentity
  | moduleIdentity
  | notification
  deriving DecidableEq, Inhabited

namespace AssignmentKind

/-- Whether the definition names a type. -/
def isType : AssignmentKind → Bool
  | type | textualConvention => true
  | value | objectType | objectIdentity | moduleIdentity | notification => false

/-- Whether the definition has an OID: all do that name no type. -/
def hasOid (k : AssignmentKind) : Bool := !k.isType

end AssignmentKind

/-- The clauses of a definition. -/
inductive Clauses where
  /-- A plain type assignment. -/
  | type (body : TypeSyntax) (hint? : Option String) (status : Status)
  /-- A TEXTUAL-CONVENTION. -/
  | textualConvention (body : TypeSyntax) (hint? : Option String) (status : Status)
  /-- A value of type OBJECT IDENTIFIER. -/
  | value (oid : List OidComponent)
  /-- An OBJECT-TYPE. -/
  | objectType (body : TypeSyntax) (access : Access) (status : Status) (oid : List OidComponent)
  /-- An OBJECT-IDENTITY. -/
  | objectIdentity (status : Status) (oid : List OidComponent)
  /-- A MODULE-IDENTITY. -/
  | moduleIdentity (oid : List OidComponent)
  /-- A NOTIFICATION-TYPE or a TRAP-TYPE. -/
  | notification (status : Status) (oid : List OidComponent)

/-- A definition of a module: its name, its clauses and where it stands. -/
structure Definition where
  name : String
  clauses : Clauses
  span : Span

namespace Definition

/-- What the definition declares. -/
def kind (d : Definition) : AssignmentKind :=
  match d.clauses with
  | .type .. => .type
  | .textualConvention .. => .textualConvention
  | .value .. => .value
  | .objectType .. => .objectType
  | .objectIdentity .. => .objectIdentity
  | .moduleIdentity .. => .moduleIdentity
  | .notification .. => .notification

/-- The written OID value. -/
def oid? (d : Definition) : Option (List OidComponent) :=
  match d.clauses with
  | .type .. | .textualConvention .. => none
  | .value oid | .objectType _ _ _ oid | .objectIdentity _ oid | .moduleIdentity oid
  | .notification _ oid => some oid

/-- The STATUS clause; a definition without one is current. -/
def status (d : Definition) : Status :=
  match d.clauses with
  | .type _ _ s | .textualConvention _ _ s | .objectType _ _ s _ | .objectIdentity s _
  | .notification s _ => s
  | .value .. | .moduleIdentity .. => .current

/-- The MAX-ACCESS clause, which only objects have. -/
def access? (d : Definition) : Option Access :=
  match d.clauses with
  | .objectType _ access _ _ => some access
  | _ => none

/-- The SYNTAX clause. -/
def body? (d : Definition) : Option TypeSyntax :=
  match d.clauses with
  | .type body .. | .textualConvention body .. | .objectType body .. => some body
  | _ => none

/-- The DISPLAY-HINT clause. -/
def hint? (d : Definition) : Option String :=
  match d.clauses with
  | .type _ hint? _ | .textualConvention _ hint? _ => hint?
  | _ => none

/-- A definition has an OID value exactly when its kind says so. -/
theorem isSome_oid? (d : Definition) : d.oid?.isSome = d.kind.hasOid := by
  rcases d with ⟨_, c, _⟩
  cases c <;> rfl

end Definition

end MibCorpus
