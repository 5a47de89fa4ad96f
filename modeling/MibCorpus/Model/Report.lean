import MibCorpus.Model.Query

/-!
# Reports

A model as lines of text: the OID tree with what each node stands for, and what became of each
assignment.
-/

namespace MibCorpus.Mib

/-- A node: its OID, its definition or a dash, and what it shadows. -/
def treeLine (mib : Mib) (n : OidNode) : String :=
  let definition := match n.definition with
    | some a => mib.qualifiedName a
    | none => "-"
  let shadows := n.shadowed.map fun a => " (shadows " ++ mib.qualifiedName a ++ ")"
  (mib.oidOf n).dotted ++ " " ++ definition ++ String.join shadows

/-- The nodes of the tree, each before what lies below it. -/
def treeLines (mib : Mib) : List String :=
  mib.rootNodes.flatMap fun root =>
    (mib.walk root.id (fun n lines => (true, lines.push (mib.treeLine n))) #[]).2.toList

/-- An assignment: its name, its OID or a dash, and its state. -/
def summaryLine (mib : Mib) (a : Assignment) : String :=
  let oid := match a.oid with
    | some o => o.dotted
    | none => "-"
  mib.qualifiedName a.id ++ " " ++ oid ++ " " ++ a.state.word

end MibCorpus.Mib
