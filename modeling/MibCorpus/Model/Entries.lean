import MibCorpus.Model.TypeNode
import MibCorpus.Oid.Basic
import MibCorpus.Span

/-!
# Entries of the model

The records in the arenas of the model, apart from strings and type nodes. Each carries its own
identifier.
-/

namespace MibCorpus

/-- A source file. -/
structure FileEntry where
  id : FileId
  path : StrId
  deriving DecidableEq

/-- A linked import: the symbol, the module it comes from as written, and that module if it
exists. -/
structure ImportEntry where
  symbol : StrId
  sourceName : StrId
  source : Option ModuleId
  span : Span
  deriving DecidableEq

/-- A registered module. Its assignments lack the refused duplicates, its imports those of
macros. -/
structure ModuleEntry where
  id : ModuleId
  name : StrId
  file : Option FileId
  imports : List ImportEntry
  assignments : List AssignmentId
  types : List TypeId
  synthetic : Bool
  span : Span
  deriving DecidableEq

/-- The imports of `symbol`. -/
def ModuleEntry.importsOf (m : ModuleEntry) (symbol : StrId) : List ImportEntry :=
  m.imports.filter (·.symbol = symbol)

/-- A named definition of a module. Its type is the one it defines or the SYNTAX of an object. -/
structure Assignment where
  id : AssignmentId
  module : ModuleId
  name : StrId
  kind : AssignmentKind
  span : Span
  type : Option TypeId
  oid : Option Oid
  state : ResolutionState
  status : Status
  access : Option Access
  deriving DecidableEq

/-- A node of the OID tree. Nodes that nothing names have no definition; the claimants that lost to
the definition are shadowed. -/
structure OidNode where
  id : NodeId
  arc : Arc
  parent : Option NodeId
  children : List NodeId
  definition : Option AssignmentId
  shadowed : List AssignmentId
  deriving DecidableEq

namespace OidNode

/-- A node that nothing names yet. -/
def unnamed (id : NodeId) (arc : Arc) (parent : Option NodeId) : OidNode :=
  ⟨id, arc, parent, [], none, []⟩

/-- Whether an assignment claims the node. -/
def hasDefinition (n : OidNode) : Bool := n.definition.isSome

/-- Whether several assignments claim the node. -/
def isContested (n : OidNode) : Bool := !n.shadowed.isEmpty

/-- Whether nothing lies below the node. -/
def isLeaf (n : OidNode) : Bool := n.children.isEmpty

/-- The definition, then what it shadows. -/
def claimants (n : OidNode) : List AssignmentId := n.definition.toList ++ n.shadowed

end OidNode

end MibCorpus
