import MibCorpus.Model.Query

/-!
# Taking a model apart

A model can be stored without its indices. They are built again from the contents: the first module
of a name and the first definition of a name in a module are found, and the last node of an OID.
-/

namespace MibCorpus

namespace MibParts

/-- The modules by name. -/
def indexModules (p : MibParts) : Table StrId ModuleId :=
  p.modules.foldl (fun t m => t.insertNew m.name m.id) .empty

/-- The definitions of a module by name, added to an index. -/
def indexDefinitions (p : MibParts) (t : Table (ModuleId × StrId) AssignmentId) (m : ModuleEntry) :
    Table (ModuleId × StrId) AssignmentId :=
  m.assignments.foldl (fun t i =>
    match p.assignments[i.index]? with
    | some a => t.insertNew (m.id, a.name) i
    | none => t) t

/-- The definitions by module and name. -/
def indexSymbols (p : MibParts) : Table (ModuleId × StrId) AssignmentId :=
  p.modules.foldl p.indexDefinitions .empty

/-- The nodes by OID. -/
def indexOids (p : MibParts) : Table Oid NodeId :=
  let mib : Mib := ⟨p, .empty, .empty, .empty⟩
  p.nodes.foldl (fun t n => t.insert (mib.oidOf n) n.id) .empty

/-- The model with these contents. -/
def toMib (p : MibParts) : Mib := ⟨p, p.indexModules, p.indexSymbols, p.indexOids⟩

/-- Taking a model apart gives back the contents that it was built from. -/
theorem toMibParts_toMib (p : MibParts) : p.toMib.toMibParts = p := rfl

end MibParts

end MibCorpus
