import MibCorpus.Model.Entries
import MibCorpus.Model.Strings
import MibCorpus.Problem.Basic
import MibCorpus.Source.File
import MibCorpus.Table

/-!
# The model

A resolved corpus: its files, modules, assignments, type nodes and OID tree, each in an arena, with
the list of problems. Three indices are kept current while the model grows: modules by name,
assignments by module and name, and nodes by OID.
-/

namespace MibCorpus

/-- The contents of a model without its indices. -/
structure MibParts where
  strings : Strings
  files : Array FileEntry
  modules : Array ModuleEntry
  assignments : Array Assignment
  types : Array TypeNode
  nodes : Array OidNode
  roots : List NodeId
  problems : Problems
  deriving DecidableEq

/-- A model: its contents and the indices into them. -/
structure Mib extends MibParts where
  moduleIndex : Table StrId ModuleId
  symbolIndex : Table (ModuleId × StrId) AssignmentId
  oidIndex : Table Oid NodeId
  deriving DecidableEq

/-- Contents without entries. -/
def MibParts.empty : MibParts := ⟨.empty, #[], #[], #[], #[], #[], [], .empty⟩

namespace Mib

/-- A model without entries. -/
def empty : Mib := ⟨.empty, .empty, .empty, .empty⟩

/-! ## Access by identifier -/

/-- The file with identifier `i`. -/
def file? (mib : Mib) (i : FileId) : Option FileEntry := mib.files[i.index]?

/-- The module with identifier `i`. -/
def module? (mib : Mib) (i : ModuleId) : Option ModuleEntry := mib.modules[i.index]?

/-- The assignment with identifier `i`. -/
def assignment? (mib : Mib) (i : AssignmentId) : Option Assignment := mib.assignments[i.index]?

/-- The type node with identifier `i`. -/
def type? (mib : Mib) (i : TypeId) : Option TypeNode := mib.types[i.index]?

/-- The OID node with identifier `i`. -/
def node? (mib : Mib) (i : NodeId) : Option OidNode := mib.nodes[i.index]?

/-! ## Growth -/

/-- Interns a string. -/
def intern (mib : Mib) (s : String) : StrId × Mib :=
  let (i, strings) := mib.strings.intern s
  (i, { mib with strings })

/-- Interns a string that may be missing. -/
def intern? (mib : Mib) : Option String → Option StrId × Mib
  | none => (none, mib)
  | some s =>
    let (i, mib) := mib.intern s
    (some i, mib)

/-- Adds a file. -/
def addFile (mib : Mib) (path : String) : FileId × Mib :=
  let (path, mib) := mib.intern path
  let id := ⟨mib.files.size⟩
  (id, { mib with files := mib.files.push ⟨id, path⟩ })

/-- Adds a module without contents. The first module of a name is the one found by it. -/
def addModule (mib : Mib) (name : StrId) (file : Option FileId) (span : Span) : ModuleId × Mib :=
  let id := ⟨mib.modules.size⟩
  let entry : ModuleEntry := ⟨id, name, file, [], [], [], file.isNone, span⟩
  (id, { mib with
    modules := mib.modules.push entry
    moduleIndex := mib.moduleIndex.insertNew name id })

/-- Adds a pending assignment for a definition. It is not visible in its module yet. -/
def addAssignment (mib : Mib) (module : ModuleId) (d : Definition) : AssignmentId × Mib :=
  let (name, mib) := mib.intern d.name
  let id := ⟨mib.assignments.size⟩
  let entry : Assignment :=
    ⟨id, module, name, d.kind, d.span, none, none, .pending, d.status, d.access?⟩
  (id, { mib with assignments := mib.assignments.push entry })

/-- Changes a module. -/
def modifyModule (mib : Mib) (i : ModuleId) (f : ModuleEntry → ModuleEntry) : Mib :=
  { mib with modules := mib.modules.modify i.index f }

/-- Changes an assignment. -/
def modifyAssignment (mib : Mib) (i : AssignmentId) (f : Assignment → Assignment) : Mib :=
  { mib with assignments := mib.assignments.modify i.index f }

/-- Changes a type node. -/
def modifyType (mib : Mib) (i : TypeId) (f : TypeNode → TypeNode) : Mib :=
  { mib with types := mib.types.modify i.index f }

/-- Changes an OID node. -/
def modifyNode (mib : Mib) (i : NodeId) (f : OidNode → OidNode) : Mib :=
  { mib with nodes := mib.nodes.modify i.index f }

/-- Decides the state of an assignment. -/
def setState (mib : Mib) (i : AssignmentId) (s : ResolutionState) : Mib :=
  mib.modifyAssignment i fun a => { a with state := s }

/-- Makes an assignment visible in its module. The first definition of a name is the one found. -/
def addDefinition (mib : Mib) (i : AssignmentId) : Mib :=
  match mib.assignment? i with
  | none => mib
  | some a =>
    let mib := mib.modifyModule a.module fun m => { m with assignments := m.assignments ++ [i] }
    { mib with symbolIndex := mib.symbolIndex.insertNew (a.module, a.name) i }

/-- Adds an import to a module. -/
def addImport (mib : Mib) (module : ModuleId) (entry : ImportEntry) : Mib :=
  mib.modifyModule module fun m => { m with imports := m.imports ++ [entry] }

/-- Adds an undecided type node to a module. -/
def addType (mib : Mib) (module : ModuleId) (shape : TypeShape) : TypeId × Mib :=
  let id := ⟨mib.types.size⟩
  let mib := { mib with types := mib.types.push ⟨id, none, module, shape, none, .pending⟩ }
  (id, mib.modifyModule module fun m => { m with types := m.types ++ [id] })

/-- Adds an OID node below `parent`, or as a root, and indexes it under `oid`. -/
def addNode (mib : Mib) (oid : Oid) (arc : Arc) (parent : Option NodeId) : NodeId × Mib :=
  let id := ⟨mib.nodes.size⟩
  let mib := { mib with
    nodes := mib.nodes.push (.unnamed id arc parent)
    oidIndex := mib.oidIndex.insert oid id }
  match parent with
  | none => (id, { mib with roots := mib.roots ++ [id] })
  | some p => (id, mib.modifyNode p fun n => { n with children := n.children ++ [id] })

/-- Records a problem. -/
def record (mib : Mib) (p : Problem) : Mib :=
  { mib with problems := mib.problems.record p }

end Mib

end MibCorpus
