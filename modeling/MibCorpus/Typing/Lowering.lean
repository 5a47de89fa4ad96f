import MibCorpus.Draft.Basic

/-!
# Lowering

A SYNTAX clause is lowered into type nodes, children before parents. Named types become reference
nodes without a target, each of which is noted as pending; a constraint is put on the node that it
stands behind, less the ranges that cannot hold.
-/

namespace MibCorpus

/-- A reference node that waits for its target: where it is written, in the SYNTAX of which
assignment, and the name it goes by. -/
structure PendingReference where
  node : TypeId
  module : ModuleId
  referrer : AssignmentId
  symbol : String
  qualifier : Option String
  deriving DecidableEq

/-- The name as written. -/
def PendingReference.text (r : PendingReference) : String :=
  match r.qualifier with
  | some module => module ++ "." ++ r.symbol
  | none => r.symbol

/-- The assignment whose SYNTAX is lowered, and its module. -/
structure TypeOwner where
  module : ModuleId
  assignment : AssignmentId

/-- Lowering in progress: the draft and the references noted so far. -/
structure Lowering where
  draft : Draft
  references : List PendingReference

namespace Lowering

/-- Interns a string. -/
def intern (l : Lowering) (s : String) : StrId × Lowering :=
  let (i, mib) := l.draft.mib.intern s
  (i, { l with draft := { l.draft with mib } })

/-- Adds a type node. -/
def addNode (l : Lowering) (o : TypeOwner) (shape : TypeShape) : TypeId × Lowering :=
  let (t, mib) := l.draft.mib.addType o.module shape
  (t, { l with draft := { l.draft with mib } })

/-- Changes a type node. -/
def modifyNode (l : Lowering) (t : TypeId) (f : TypeNode → TypeNode) : Lowering :=
  { l with draft := { l.draft with mib := l.draft.mib.modifyType t f } }

/-- Adds a reference node and notes it as pending. -/
def addReference (l : Lowering) (o : TypeOwner) (qualifier : Option String) (symbol : String) :
    TypeId × Lowering :=
  let (s, mib) := l.draft.mib.intern symbol
  let (q, mib) := mib.intern? qualifier
  let (t, mib) := mib.addType o.module (.reference s q none none)
  let reference := ⟨t, o.module, o.assignment, symbol, qualifier⟩
  (t, ⟨{ l.draft with mib }, l.references ++ [reference]⟩)

/-- Interns the labels of named numbers. -/
def nameValues (l : Lowering) : List (String × Int) → List NamedValue × Lowering
  | [] => ([], l)
  | (label, v) :: items =>
    let (name, l) := l.intern label
    let (values, l) := l.nameValues items
    (⟨name, v⟩ :: values, l)

/-! ## Constraints -/

/-- Why a range in the SYNTAX of `owner` cannot hold: a size below zero, or ends in the wrong
order. -/
def rangeDefect? (owner : String) (isSize : Bool) (r : ConstraintRange) : Option Finding :=
  if isSize && r.lower.isNegative then some (.negativeSize (toString r) owner)
  else if r.isOrdered then none
  else some (.unorderedRange (toString r.lower) (toString r.upper) owner)

/-- The ranges of a written constraint. -/
def writtenRanges (c : WrittenConstraint) : List ConstraintRange :=
  c.ranges.map ConstraintRange.ofWritten

/-- The constraint with the ranges that can hold, if there are any. -/
def keptConstraint? (owner : String) (c : WrittenConstraint) : Option Constraint :=
  let kept := (writtenRanges c).filter fun r => (rangeDefect? owner c.isSize r).isNone
  if kept.isEmpty then none
  else if c.isSize then some (.size kept)
  else some (.value kept)

/-- Puts a constraint on a node in place of what was there, and reports the ranges that cannot
hold. -/
def constrain (l : Lowering) (o : TypeOwner) (t : TypeId) (c : WrittenConstraint) : Lowering :=
  let owner := l.draft.mib.nameOf o.assignment
  let defects := (writtenRanges c).filterMap (rangeDefect? owner c.isSize)
  let l := { l with draft := defects.foldl (·.reportAbout · o.assignment) l.draft }
  l.modifyNode t fun n => { n with constraint := keptConstraint? owner c }

/-! ## Syntax -/

mutual

/-- Lowers a SYNTAX and gives its topmost node. -/
def lower (o : TypeOwner) : TypeSyntax → Lowering → TypeId × Lowering
  | .named name, l => l.addReference o none name
  | .qualified module name, l => l.addReference o (some module) name
  | .integer, l => l.addNode o (.builtin .integer)
  | .octetString, l => l.addNode o (.builtin .octetString)
  | .objectIdentifier, l => l.addNode o (.builtin .objectIdentifier)
  | .enumeration items, l =>
    let (base, l) := l.addNode o (.builtin .integer)
    let (values, l) := l.nameValues items
    l.addNode o (.enumeration base values)
  | .bits items, l =>
    let (base, l) := l.addNode o (.builtin .bits)
    let (values, l) := l.nameValues (items.map fun i => (i.1, (i.2 : Int)))
    l.addNode o (.enumeration base values)
  | .constrained base c, l =>
    let (t, l) := lower o base l
    (t, l.constrain o t c)
  | .sequence fields, l =>
    let (fields, l) := lowerFields o fields l
    l.addNode o (.sequence fields)
  | .sequenceOf element, l =>
    let (t, l) := lower o element l
    l.addNode o (.sequenceOf t)
  | .choice alternatives, l =>
    let (fields, l) := lowerFields o alternatives l
    l.addNode o (.choice fields)

/-- Lowers named fields in order. -/
def lowerFields (o : TypeOwner) : List (String × TypeSyntax) → Lowering → List Field × Lowering
  | [], l => ([], l)
  | (label, body) :: rest, l =>
    let (t, l) := lower o body l
    let (name, l) := l.intern label
    let (fields, l) := lowerFields o rest l
    (⟨name, t⟩ :: fields, l)

end

/-! ## Definitions -/

/-- Puts a textual convention around a node. -/
def wrapConvention (l : Lowering) (o : TypeOwner) (base : TypeId) (hint? : Option String)
    (status : Status) : TypeId × Lowering :=
  let (hint, mib) := l.draft.mib.intern? hint?
  let l := { l with draft := { l.draft with mib } }
  l.addNode o (.textualConvention base hint status)

/-- Names a node after the assignment. -/
def nameAfter (l : Lowering) (a : AssignmentId) (t : TypeId) : Lowering :=
  let name := (l.draft.mib.assignment? a).map (·.name)
  l.modifyNode t fun n => { n with name }

/-- Makes a node the type of the assignment. -/
def assignType (l : Lowering) (a : AssignmentId) (t : TypeId) : Lowering :=
  let mib := l.draft.mib.modifyAssignment a fun entry => { entry with type := some t }
  { l with draft := { l.draft with mib } }

/-- Lowers the SYNTAX of a definition, if it has one. Only types are named. -/
def lowerDefinition (l : Lowering) (o : TypeOwner) (definition : Definition) : Lowering :=
  match definition.clauses with
  | .type body _ _ =>
    let (t, l) := lower o body l
    (l.nameAfter o.assignment t).assignType o.assignment t
  | .textualConvention body hint? status =>
    let (base, l) := lower o body l
    let (t, l) := l.wrapConvention o base hint? status
    (l.nameAfter o.assignment t).assignType o.assignment t
  | .objectType body _ _ _ =>
    let (t, l) := lower o body l
    l.assignType o.assignment t
  | .value .. | .objectIdentity .. | .moduleIdentity .. | .notification .. => l

/-- Lowers the SYNTAX of every definition that has not been left out. -/
def lowerAll (d : Draft) : Lowering :=
  (d.definitions.filter fun x => d.isIncluded x.1).foldl
    (fun l x => l.lowerDefinition ⟨x.2.1, x.1⟩ x.2.2) ⟨d, []⟩

end Lowering

end MibCorpus
