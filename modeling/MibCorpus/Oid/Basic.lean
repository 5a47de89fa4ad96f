/-!
# Object identifiers

An object identifier is a path in the registration tree, given by the arcs from the root down. The
order of identifiers is lexicographic by arc, so it lists a node before what lies below it.
-/

namespace MibCorpus

/-- An arc: a number of 32 bits. -/
abbrev Arc := UInt32

/-- An absolute object identifier. -/
structure Oid where
  arcs : List Arc
  deriving DecidableEq, Inhabited

namespace Oid

/-- The lexicographic order by arc. -/
protected def compare (o p : Oid) : Ordering :=
  List.compareLex compare o.arcs p.arcs

instance : Ord Oid := ⟨Oid.compare⟩

/-- The identifier without arcs. -/
def root : Oid := ⟨[]⟩

/-- The identifier of the node above; roots of one arc have none. -/
def parent? (o : Oid) : Option Oid :=
  if o.arcs.length ≤ 1 then none else some ⟨o.arcs.dropLast⟩

/-- The identifier of the node below `o` by arc `a`. -/
def child (o : Oid) (a : Arc) : Oid := ⟨o.arcs ++ [a]⟩

/-- The identifier of the node below `o` by a path of arcs. -/
def extend (o : Oid) (as : List Arc) : Oid := ⟨o.arcs ++ as⟩

/-- The arc from the node above. -/
def lastArc? (o : Oid) : Option Arc := o.arcs.getLast?

/-- Whether `p` lies at or below `o`. -/
def isPrefixOf (o p : Oid) : Bool := o.arcs.isPrefixOf p.arcs

/-- The number of arcs. -/
def length (o : Oid) : Nat := o.arcs.length

/-- Whether there are no arcs. -/
def isEmpty (o : Oid) : Bool := o.arcs.isEmpty

/-- The arcs of a child are those of its parent and its own. -/
@[simp]
theorem arcs_child (o : Oid) (a : Arc) : (o.child a).arcs = o.arcs ++ [a] := rfl

/-- The arcs of an extended OID are those it had and the new ones. -/
@[simp]
theorem arcs_extend (o : Oid) (as : List Arc) : (o.extend as).arcs = o.arcs ++ as := rfl

/-- Going down by one arc is going down by a path of one arc. -/
theorem extend_singleton (o : Oid) (a : Arc) : o.extend [a] = o.child a := rfl

/-- The node above a child is the node itself, unless that has no arcs. -/
theorem parent?_child (o : Oid) (a : Arc) :
    (o.child a).parent? = if o.isEmpty then none else some o := by
  rcases o with ⟨_ | ⟨b, bs⟩⟩
  · rfl
  · have h : (b :: bs ++ [a]).dropLast = b :: bs := List.dropLast_concat
    simpa [child, parent?, isEmpty] using h

end Oid

end MibCorpus
