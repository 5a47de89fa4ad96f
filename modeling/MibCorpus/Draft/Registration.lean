import MibCorpus.Draft.Basic
import MibCorpus.Source.BaseModule
import MibCorpus.Trace.Event

/-!
# Registration

Files are registered in order, the modules of a file by name, and the definitions of a module as
they are declared; each module is registered in full before the next. The first module of a name
counts, and so does the first definition of a name in a module. Base modules that are imported from
but were not supplied are generated at the end.
-/

namespace MibCorpus.Draft

/-! ## Definitions -/

/-- Registers a definition of module `m`, which is written at `origin`. A second definition of a
name is left out. -/
def registerDefinition (d : Draft) (m : RegisteredModule) (origin : Origin)
    (definition : Definition) : Draft :=
  let (a, mib) := d.mib.addAssignment m.id definition
  let d := { d with mib, origins := d.origins.push origin }
  match d.scope.define m.id definition.name a with
  | .ok scope => { d with scope, mib := d.mib.addDefinition a }
  | .error duplicate =>
    let d := d.setState a .excluded
    let finding := Finding.duplicateDefinition definition.name m.source.name
    d.record { finding.toProblem (.inModule m.file m.id definition.span) with
      subject := some duplicate.rejected
      other := some duplicate.existing }

/-- Registers the definitions of module `m`, which is to be listed at `position`. -/
def registerDefinitions (d : Draft) (m : RegisteredModule) (position : Nat) : Draft :=
  m.source.definitions.zipIdx.foldl (fun d x => d.registerDefinition m ⟨position, x.2⟩ x.1) d

/-! ## Modules -/

/-- The path of the file that a module was read from. -/
def pathOf? (d : Draft) (m : ModuleId) : Option String :=
  ((d.fileOf m).bind d.mib.file?).map fun f => d.mib.str f.path

/-- Reports a module whose name is taken by module `existing`. -/
def refuseModule (d : Draft) (existing : ModuleId) (file : Option FileId) (source : Module) :
    Draft :=
  d.report (.duplicateModule source.name (d.pathOf? existing)) ⟨file, none, source.span⟩

/-- Registers a module whose name is free. -/
def acceptModule (d : Draft) (name : StrId) (file : Option FileId) (source : Module) :
    ModuleId × Draft :=
  let (m, mib) := d.mib.addModule name file source.span
  let scope := { d.scope with modules := d.scope.modules.insert source.name m }
  let registered : RegisteredModule := ⟨m, file, source⟩
  let d := { d with mib, scope }.registerDefinitions registered d.modules.size
  (m, { d with modules := d.modules.push registered })

/-- Registers a module. A second module of a name is refused. -/
def registerModule (file : Option FileId) (dr : Draft × Recorder) (source : Module) :
    Draft × Recorder :=
  let (d, r) := dr
  let (name, mib) := d.mib.intern source.name
  let d := { d with mib }
  match d.scope.module? source.name with
  | some existing => (d.refuseModule existing file source, r)
  | none =>
    let (m, d) := d.acceptModule name file source
    (d, r.emit .debug (.moduleRegistered source.name m file.isNone))

/-! ## Files -/

/-- Modules in the order of their names; those of one name keep their order. -/
def byName (modules : List Module) : List Module := modules.mergeSort fun m n => m.name ≤ n.name

/-- Registers the modules of a file, or reports why there are none. -/
def registerFile (dr : Draft × Recorder) (file : ParsedFile) : Draft × Recorder :=
  let (d, r) := dr
  let (f, mib) := d.mib.addFile file.path
  let d := { d with mib }
  match file.result with
  | .ok modules => (byName modules).foldl (registerModule (some f)) (d, r)
  | .error failure =>
    (d.report (.parseFailure file.path failure.message) (.inFile f failure.span), r)

/-! ## Base modules -/

/-- Whether a registered module imports from the module called `name`. -/
def importsFrom (d : Draft) (name : String) : Bool :=
  d.modules.any fun m => m.source.imports.any (·.source == name)

/-- Whether a base module is imported from and not registered. -/
def lacks (d : Draft) (b : BaseModule) : Bool :=
  d.importsFrom b.name && (d.scope.module? b.name).isNone

/-- The base modules among `candidates` that are lacking. -/
def lacking (d : Draft) (candidates : List BaseModule) : List BaseModule :=
  candidates.filter d.lacks

/-- The base modules among `candidates` that are not lacking. -/
def notLacking (d : Draft) (candidates : List BaseModule) : List BaseModule :=
  candidates.filter (!d.lacks ·)

/-- Generates those base modules among `candidates` that are lacking, until none is: a generated
module may import from another one. -/
def generateLacking (candidates : List BaseModule) (dr : Draft × Recorder) : Draft × Recorder :=
  let others := dr.1.notLacking candidates
  if others.length < candidates.length then
    generateLacking others
      ((dr.1.lacking candidates).foldl (fun dr b => registerModule none dr b.source) dr)
  else dr
  termination_by candidates.length

/-! ## The phase -/

/-- Registers files, then the base modules that they lack. -/
def register (d : Draft) (files : List ParsedFile) (r : Recorder) : Draft × Recorder :=
  let dr := files.foldl registerFile (d, r)
  if d.policy.baseModules then generateLacking BaseModule.all dr else dr

end MibCorpus.Draft
