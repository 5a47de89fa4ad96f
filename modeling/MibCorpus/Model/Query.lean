import MibCorpus.Model.Mib
import MibCorpus.Oid.Dotted

/-!
# Queries

Questions to a model: what a name or an OID stands for, how a type is refined, and what lies below a
node. An unknown identifier has no entry and an empty name.
-/

namespace MibCorpus.Mib

/-! ## Names -/

/-- The string with identifier `i`. -/
def str (mib : Mib) (i : StrId) : String := mib.strings.get i

/-- The identifier of a string that the model holds. -/
def findStr? (mib : Mib) (s : String) : Option StrId := mib.strings.find? s

/-- The module called `name`. -/
def moduleNamed? (mib : Mib) (name : String) : Option ModuleEntry :=
  (mib.findStr? name).bind fun s => (mib.moduleIndex.find? s).bind mib.module?

/-- The name of a module. -/
def moduleName (mib : Mib) (i : ModuleId) : String :=
  match mib.module? i with
  | some m => mib.str m.name
  | none => ""

/-- The name of an assignment. -/
def nameOf (mib : Mib) (i : AssignmentId) : String :=
  match mib.assignment? i with
  | some a => mib.str a.name
  | none => ""

/-- The name of an assignment behind that of its module. -/
def qualifiedName (mib : Mib) (i : AssignmentId) : String :=
  let module := match mib.assignment? i with
    | some a => mib.moduleName a.module
    | none => ""
  module ++ "::" ++ mib.nameOf i

/-- The definition of `name` in a module itself. -/
def lookupIn? (mib : Mib) (module : ModuleId) (name : String) : Option Assignment :=
  (mib.findStr? name).bind fun s => (mib.symbolIndex.find? (module, s)).bind mib.assignment?

/-- The definition of `name` in the module called `module` itself. -/
def lookup? (mib : Mib) (module name : String) : Option Assignment :=
  (mib.moduleNamed? module).bind fun m => mib.lookupIn? m.id name

/-! ## Types -/

/-- At most `n` nodes of the refinement chain from `current` on. -/
def chainFrom (mib : Mib) : Nat → Option TypeId → List TypeNode
  | 0, _ => []
  | _, none => []
  | n + 1, some i =>
    match mib.type? i with
    | none => []
    | some t => t :: mib.chainFrom n t.shape.parent?

/-- The nodes that `i` refines, itself first. The chain is cut where it has one node more than the
model, so it ends also where references form a cycle. -/
def typeChain (mib : Mib) (i : TypeId) : List TypeNode :=
  mib.chainFrom (mib.types.size + 1) (some i)

/-- The hint of a textual convention. -/
def hintOf? (mib : Mib) (t : TypeNode) : Option String :=
  match t.shape with
  | .textualConvention _ (some hint) _ => some (mib.str hint)
  | _ => none

/-- The first hint on the refinement chain. -/
def displayHint? (mib : Mib) (i : TypeId) : Option String :=
  (mib.typeChain i).findSome? mib.hintOf?

/-! ## Tree -/

/-- The node at an OID. -/
def nodeAt? (mib : Mib) (oid : Oid) : Option OidNode :=
  (mib.oidIndex.find? oid).bind mib.node?

/-- The assignment that an OID stands for. -/
def lookupOid? (mib : Mib) (oid : Oid) : Option Assignment :=
  (mib.nodeAt? oid).bind fun n => n.definition.bind mib.assignment?

/-- The assignment that an OID in dotted notation stands for. -/
def lookupDotted? (mib : Mib) (s : String) : Option Assignment :=
  (Oid.ofDotted s).toOption.bind mib.lookupOid?

/-- The root nodes. -/
def rootNodes (mib : Mib) : List OidNode := mib.roots.filterMap mib.node?

/-- The nodes right below a node. -/
def children (mib : Mib) (n : OidNode) : List OidNode := n.children.filterMap mib.node?

/-- The arcs from at most `steps` nodes above `parent` down to it, in front of `below`. -/
def arcsAbove (mib : Mib) : Nat → Option NodeId → List Arc → List Arc
  | 0, _, below => below
  | _, none, below => below
  | steps + 1, some i, below =>
    match mib.node? i with
    | none => below
    | some n => mib.arcsAbove steps n.parent (n.arc :: below)

/-- The OID of a node, read off the nodes above it. -/
def oidOf (mib : Mib) (n : OidNode) : Oid :=
  ⟨mib.arcsAbove mib.nodes.size n.parent [n.arc]⟩

/-- Visits identifiers in order until a visit ends the walk. -/
def visitAll {σ : Type} (visit : NodeId → σ → Bool × σ) : List NodeId → σ → Bool × σ
  | [], s => (true, s)
  | i :: is, s =>
    match visit i s with
    | (true, s) => visitAll visit is s
    | (false, s) => (false, s)

/-- Visits the nodes of `depth` levels from node `start` down, each before what lies below it. -/
def walkLevels {σ : Type} (mib : Mib) (visitor : OidNode → σ → Bool × σ) :
    Nat → NodeId → σ → Bool × σ
  | 0, _, s => (true, s)
  | depth + 1, start, s =>
    match mib.node? start with
    | none => (true, s)
    | some n =>
      match visitor n s with
      | (true, s) => visitAll (mib.walkLevels visitor depth) n.children s
      | (false, s) => (false, s)

/-- Visits a node and what lies below it, depth first, until the visitor answers false. The answer
is whether the walk came to its end. -/
def walk {σ : Type} (mib : Mib) (start : NodeId) (visitor : OidNode → σ → Bool × σ) (s : σ) :
    Bool × σ :=
  mib.walkLevels visitor mib.nodes.size start s

end MibCorpus.Mib
