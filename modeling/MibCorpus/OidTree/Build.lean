import MibCorpus.OidTree.Claim

/-!
# Building the OID tree

The tree has a node for every prefix of every claimed OID. Since the claims come in the order of
their OIDs, the children of a node are added in the order of their arcs and the nodes of the whole
tree in the order of their OIDs.
-/

namespace MibCorpus

/-- A tree in progress: the model, and the nodes added so far by the node above and the arc from
it. -/
structure TreeBuilder where
  mib : Mib
  nodes : Table (Option NodeId × Arc) NodeId

namespace TreeBuilder

/-- The node at `oid`, whose last arc is `arc`; it is added below `parent` if it is not there. -/
def ensure (b : TreeBuilder) (oid : Oid) (arc : Arc) (parent : Option NodeId) :
    NodeId × TreeBuilder :=
  match b.nodes.find? (parent, arc) with
  | some n => (n, b)
  | none =>
    let (n, mib) := b.mib.addNode oid arc parent
    (n, ⟨mib, b.nodes.insert (parent, arc) n⟩)

/-- The node reached from `parent`, which is at `path`, by some arcs. Nodes on the way are added. -/
def descend (b : TreeBuilder) (path : Oid) (parent : Option NodeId) :
    List Arc → Option NodeId × TreeBuilder
  | [] => (parent, b)
  | arc :: arcs =>
    let path := path.child arc
    let (n, b) := b.ensure path arc parent
    b.descend path (some n) arcs

/-- Adds a claim: the first claimant is the definition of its node and shadows the others. -/
def addClaim (b : TreeBuilder) (claim : Claim) : TreeBuilder :=
  match b.descend .root none claim.1.arcs with
  | (none, b) => b
  | (some n, b) =>
    { b with mib := b.mib.modifyNode n fun node =>
        { node with definition := claim.2.head?, shadowed := claim.2.tail } }

/-- The model with the tree of some claims. -/
def build (mib : Mib) (claims : List Claim) : Mib :=
  (claims.foldl addClaim ⟨mib, .empty⟩).mib

end TreeBuilder

namespace Draft

/-- Reports the conflicts between claims, and builds the tree. -/
def finalize (d : Draft) : Draft :=
  let claims := d.claims
  let d := claims.foldl reportClaim d
  { d with mib := TreeBuilder.build d.mib claims }

end Draft

end MibCorpus
