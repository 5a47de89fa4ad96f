import MibCorpus.Model.Query
import MibCorpus.Policy
import MibCorpus.Problem.Finding
import MibCorpus.Scope

/-!
# Drafts

A draft is a model under construction together with what the phases need besides: the visible names,
the modules as written, and where the definition behind each assignment is written.
-/

namespace MibCorpus

/-- A registered module as written. Generated modules have no file. -/
structure RegisteredModule where
  id : ModuleId
  file : Option FileId
  source : Module

/-- Where a definition is written: the position of its module among those registered, and its own
position among the definitions of the module. -/
structure Origin where
  module : Nat
  definition : Nat
  deriving DecidableEq

/-- A model under construction. The definition behind assignment `i` is written at entry `i` of
`origins`. A module is listed in `modules` when its definitions have been registered. -/
structure Draft where
  mib : Mib
  scope : Scope
  modules : Array RegisteredModule
  origins : Array Origin
  policy : Policy

namespace Draft

/-- A draft without modules. -/
def new (policy : Policy) : Draft := ⟨.empty, .empty, #[], #[], policy⟩

/-- The definition that is written at a place, with the module that it stands in. -/
def written? (d : Draft) (o : Origin) : Option (ModuleId × Definition) :=
  d.modules[o.module]?.bind fun m => m.source.definitions[o.definition]?.map (m.id, ·)

/-- The definition behind an assignment, with the module that it stands in. -/
def owner? (d : Draft) (a : AssignmentId) : Option (ModuleId × Definition) :=
  d.origins[a.index]?.bind d.written?

/-- The definition behind an assignment. -/
def definition? (d : Draft) (a : AssignmentId) : Option Definition := (d.owner? a).map (·.2)

/-- The assignments in order of registration, with their modules and definitions. -/
def definitions (d : Draft) : List (AssignmentId × ModuleId × Definition) :=
  d.origins.toList.zipIdx.filterMap fun o => (d.written? o.1).map (⟨o.2⟩, ·)

/-- The file that a module was read from. -/
def fileOf (d : Draft) (m : ModuleId) : Option FileId := (d.mib.module? m).bind (·.file)

/-- Where an assignment stands. -/
def locationOf (d : Draft) (a : AssignmentId) : Location :=
  match d.mib.assignment? a with
  | some entry => .inModule (d.fileOf entry.module) entry.module entry.span
  | none => .unknown

/-- Whether an assignment is there and has not been left out. -/
def isIncluded (d : Draft) (a : AssignmentId) : Bool :=
  (d.mib.assignment? a).any (·.state != .excluded)

/-- Records a problem. -/
def record (d : Draft) (p : Problem) : Draft := { d with mib := d.mib.record p }

/-- Records a finding about no assignment. -/
def report (d : Draft) (f : Finding) (location : Location) : Draft :=
  d.record (f.toProblem location)

/-- Records a finding about an assignment, at the place of the assignment. -/
def reportAbout (d : Draft) (f : Finding) (subject : AssignmentId) : Draft :=
  d.record { f.toProblem (d.locationOf subject) with subject := some subject }

/-- Decides the state of an assignment. -/
def setState (d : Draft) (a : AssignmentId) (s : ResolutionState) : Draft :=
  { d with mib := d.mib.setState a s }

end Draft

end MibCorpus
