import MibCorpus.Draft.Basic

/-!
# States of types

An unbound reference is unresolved, and what is built on it, at whatever distance, is degraded. The
states spread along the dependencies in rounds until a round changes nothing; type nodes may depend
on each other in a cycle.
-/

namespace MibCorpus

/-- The state of a node looked at alone. -/
def TypeNode.ownState (t : TypeNode) : ResolutionState :=
  if t.shape.isUnbound then .unresolved else .resolved

/-- The state of a node degraded by those of the nodes that it depends on. -/
def TypeNode.degradedState (types : Array TypeNode) (t : TypeNode) : ResolutionState :=
  (t.shape.dependencies.filterMap (types[·.index]?)).foldl (fun s u => s.degradeBy u.state) t.state

namespace TypeStates

/-- Whether no node is degraded by those it depends on. -/
def isStable (types : Array TypeNode) : Bool :=
  types.all fun t => t.degradedState types = t.state

/-- All nodes degraded at once by those they depend on. -/
def round (types : Array TypeNode) : Array TypeNode :=
  types.map fun t => { t with state := t.degradedState types }

/-- At most `n` rounds, until the states are stable. -/
def spread : Nat → Array TypeNode → Array TypeNode
  | 0, types => types
  | n + 1, types => if isStable types then types else spread n (round types)

/-- The nodes with the states that follow from the unbound references among them. -/
def settle (types : Array TypeNode) : Array TypeNode :=
  spread (types.size + 1) (types.map fun t => { t with state := t.ownState })

end TypeStates

namespace Draft

/-- Decides the states of all type nodes. -/
def settleTypes (d : Draft) : Draft :=
  { d with mib := { d.mib with types := TypeStates.settle d.mib.types } }

/-- The state of the type of an assignment; without a type it is unresolved. -/
def typeState (mib : Mib) (a : Assignment) : ResolutionState :=
  match a.type.bind mib.type? with
  | some t => t.state
  | none => .unresolved

/-- Gives each pending type assignment the state of its type. -/
def settleTypeAssignments (d : Draft) : Draft :=
  { d with mib := { d.mib with assignments := d.mib.assignments.map fun a =>
      if a.kind.isType && a.state == .pending then { a with state := typeState d.mib a } else a } }

end Draft

end MibCorpus
