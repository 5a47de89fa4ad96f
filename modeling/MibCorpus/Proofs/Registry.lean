import MibCorpus.Draft.Basic
import MibCorpus.Proofs.Interning
import MibCorpus.Trace.Event

/-!
# What registration fixes

Registration decides which modules and assignments there are, what they are called and where they
stand. No later phase touches any of this: it only fills in imports, types, OIDs and states, adds
strings and records problems. The fixed part of a draft is its registry, and a phase keeps
everything that follows from registration because it keeps the registry.
-/

namespace MibCorpus

/-- What steps leave alone, a run of steps leaves alone. -/
lemma foldl_keeps {α β γ : Type} (key : β → γ) {step : β → α → β}
    (keeps : ∀ b a, key (step b a) = key b) (as : List α) (b : β) :
    key (as.foldl step b) = key b := by
  induction as generalizing b with
  | nil => rfl
  | cons a as ih => exact (ih _).trans (keeps b a)

/-- Changing an entry leaves alone what the change does not touch. -/
lemma map_modify_of_keeps {α β : Type} (as : Array α) (i : Nat) {f : α → α} {g : α → β}
    (keeps : ∀ a, g (f a) = g a) : (as.modify i f).map g = as.map g := by
  apply Array.ext (by simp)
  intro j h1 h2
  simp only [Array.getElem_map, Array.getElem_modify]
  split
  · exact keeps _
  · rfl

/-- An assignment after one has been changed. -/
lemma Mib.assignment?_modifyAssignment (mib : Mib) (a i : AssignmentId)
    (f : Assignment → Assignment) : (mib.modifyAssignment a f).assignment? i =
      if a = i then (mib.assignment? i).map f else mib.assignment? i := by
  obtain ⟨a⟩ := a
  obtain ⟨i⟩ := i
  simp [assignment?, modifyAssignment, Array.getElem?_modify]

/-- A type node after one has been changed. -/
lemma Mib.type?_modifyType (mib : Mib) (t u : TypeId) (f : TypeNode → TypeNode) :
    (mib.modifyType t f).type? u = if t = u then (mib.type? u).map f else mib.type? u := by
  obtain ⟨t⟩ := t
  obtain ⟨u⟩ := u
  simp [type?, modifyType, Array.getElem?_modify]

/-- The part of a module that registration fixes. -/
def ModuleEntry.heading (m : ModuleEntry) : ModuleEntry := { m with imports := [], types := [] }

/-- The part of an assignment that registration fixes. -/
def Assignment.heading (a : Assignment) : Assignment :=
  { a with type := none, oid := none, state := .pending }

/-- The part of a draft that registration fixes. -/
structure Registry where
  policy : Policy
  sources : Array RegisteredModule
  origins : Array Origin
  names : Table String ModuleId
  definitions : Table (ModuleId × String) AssignmentId
  files : Array FileEntry
  modules : Array ModuleEntry
  assignments : Array Assignment

/-- The phase that reports problems of a kind. -/
def ProblemKind.phase : ProblemKind → Phase
  | parseFailure | duplicateModule | duplicateDefinition => .registration
  | missingImportSource | unresolvedImport | duplicateImport | ambiguousImport => .linking
  | unresolvedType | circularTypeReference | rangeConstraintViolation => .types
  | unresolvedOidParent | invalidOidComponent | circularOidReference => .oids
  | multipleValueConflict => .finalizing

namespace Draft

/-- The registry of a draft. -/
def registry (d : Draft) : Registry where
  policy := d.policy
  sources := d.modules
  origins := d.origins
  names := d.scope.modules
  definitions := d.scope.definitions
  files := d.mib.files
  modules := d.mib.modules.map ModuleEntry.heading
  assignments := d.mib.assignments.map Assignment.heading

/-- The problem of a finding about an assignment, at the place of the assignment. -/
def problemAbout (d : Draft) (f : Finding) (subject : AssignmentId) : Problem :=
  { f.toProblem (d.locationOf subject) with subject := some subject }

/-- Draft `d'` has the problems of `d` and behind them some of one phase. -/
def Reports (phase : Phase) (d d' : Draft) : Prop :=
  ∃ new, d'.mib.problems.toList = d.mib.problems.toList ++ new ∧ ∀ p ∈ new, p.kind.phase = phase

/-- Nothing is reported where the problems stay. -/
lemma Reports.of_eq {phase : Phase} {d d' : Draft} (h : d'.mib.problems = d.mib.problems) :
    Reports phase d d' :=
  ⟨[], by simp [h], by simp⟩

/-- Reporting in two steps. -/
lemma Reports.trans {phase : Phase} {d d' d'' : Draft}
    (h : Reports phase d d') (h' : Reports phase d' d'') : Reports phase d d'' := by
  obtain ⟨new, e, k⟩ := h
  obtain ⟨new', e', k'⟩ := h'
  refine ⟨new ++ new', by rw [e', e, List.append_assoc], ?_⟩
  intro p hp
  rcases List.mem_append.1 hp with hp | hp
  · exact k p hp
  · exact k' p hp

/-- A problem may be reported in the phase that its kind belongs to. -/
lemma Reports.record {phase : Phase} {d : Draft} {p : Problem} (h : p.kind.phase = phase) :
    Reports phase d (d.record p) :=
  ⟨[p], by simp [Draft.record, Mib.record], by simpa using h⟩

/-- Draft `d'` comes from `d` without touching the registry or taking a string away. -/
structure Continues (d d' : Draft) : Prop where
  registry : d'.registry = d.registry
  strings : d.mib.strings.Extends d'.mib.strings

/-- A draft continues itself. -/
lemma Continues.refl (d : Draft) : Continues d d := ⟨rfl, .refl _⟩

/-- Continuations can be continued. -/
lemma Continues.trans {d d' d'' : Draft} (h : Continues d d') (h' : Continues d' d'') :
    Continues d d'' :=
  ⟨h'.registry.trans h.registry, h.strings.trans h'.strings⟩

/-! ## What the registry decides -/

section Registry

variable {d d' : Draft}

/-- The policy is a part of the registry. -/
lemma policy_of_registry (h : d'.registry = d.registry) : d'.policy = d.policy :=
  congrArg Registry.policy h

/-- The modules are a part of it. -/
lemma modules_of_registry (h : d'.registry = d.registry) : d'.modules = d.modules :=
  congrArg Registry.sources h

/-- The places of the definitions are a part of it. -/
lemma origins_of_registry (h : d'.registry = d.registry) : d'.origins = d.origins :=
  congrArg Registry.origins h

/-- What is written where is a matter of the modules listed. -/
lemma written?_of_modules (h : d'.modules = d.modules) : d'.written? = d.written? := by
  funext o
  rw [written?, written?, h]

/-- Drafts of one registry have the same definitions behind their assignments. -/
lemma owner?_of_registry (h : d'.registry = d.registry) : d'.owner? = d.owner? := by
  funext a
  rw [owner?, owner?, origins_of_registry h, written?_of_modules (modules_of_registry h)]

/-- So the definitions can be read off it. -/
lemma definitions_of_registry (h : d'.registry = d.registry) : d'.definitions = d.definitions := by
  rw [definitions, definitions, origins_of_registry h, written?_of_modules (modules_of_registry h)]

/-- Modules are found by name in the registry. -/
lemma module?_of_registry (h : d'.registry = d.registry) (name : String) :
    d'.scope.module? name = d.scope.module? name :=
  congrArg (fun r => r.names.find? name) h

/-- Definitions are found by name in the registry. -/
lemma lookup?_of_registry (h : d'.registry = d.registry) (m : ModuleId) (name : String) :
    d'.scope.lookup? m name = d.scope.lookup? m name :=
  congrArg (fun r => r.definitions.find? (m, name)) h

/-- The heading of an assignment is in the registry. -/
lemma heading_of_registry (h : d'.registry = d.registry) (a : AssignmentId) :
    (d'.mib.assignment? a).map Assignment.heading =
      (d.mib.assignment? a).map Assignment.heading := by
  have e := congrArg (fun r => r.assignments[a.index]?) h
  simpa [registry, Mib.assignment?] using e

/-- So is the number of assignments. -/
lemma size_of_registry (h : d'.registry = d.registry) :
    d'.mib.assignments.size = d.mib.assignments.size := by
  have e := congrArg (fun r => r.assignments.size) h
  simpa [registry] using e

/-- The heading of a module is in the registry. -/
lemma moduleHeading_of_registry (h : d'.registry = d.registry) (m : ModuleId) :
    (d'.mib.module? m).map ModuleEntry.heading = (d.mib.module? m).map ModuleEntry.heading := by
  have e := congrArg (fun r => r.modules[m.index]?) h
  simpa [registry, Mib.module?] using e

/-- So is all that depends on the heading of an assignment alone. -/
lemma assignment?_map_of_registry {α : Type} (f : Assignment → α) (h : d'.registry = d.registry)
    (hf : ∀ a, f a.heading = f a) (a : AssignmentId) :
    (d'.mib.assignment? a).map f = (d.mib.assignment? a).map f := by
  have e := congrArg (Option.map f) (heading_of_registry h a)
  simpa [Option.map_map, Function.comp_def, hf] using e

/-- The file of a module can be read off the registry. -/
lemma fileOf_of_registry (h : d'.registry = d.registry) (m : ModuleId) :
    d'.fileOf m = d.fileOf m := by
  have e := congrArg (fun o => o.bind ModuleEntry.file) (moduleHeading_of_registry h m)
  simpa [fileOf, Option.bind_map, Function.comp_def, ModuleEntry.heading] using e

/-- Drafts of one registry have an assignment in the same place. -/
lemma locationOf_of_registry (h : d'.registry = d.registry) (a : AssignmentId) :
    d'.locationOf a = d.locationOf a := by
  have e := assignment?_map_of_registry (fun x => (x.module, x.span)) h (fun _ => rfl) a
  unfold locationOf
  cases h1 : d.mib.assignment? a <;> cases h2 : d'.mib.assignment? a <;>
    simp only [h1, h2, Option.map_none, Option.map_some, reduceCtorEq, Option.some.injEq,
      Prod.mk.injEq] at e
  · rfl
  · simp only [e.1, e.2, fileOf_of_registry h]

/-- Where and by which name something is reported can be read off the registry. -/
lemma problemAbout_of_registry (h : d'.registry = d.registry) (f : Finding) (a : AssignmentId) :
    d'.problemAbout f a = d.problemAbout f a := by
  rw [problemAbout, problemAbout, locationOf_of_registry h]

end Registry

/-! ## What keeps the registry -/

section Keeps

variable (d : Draft)

/-- Reporting something about an assignment is recording a problem. -/
lemma reportAbout_eq_record (f : Finding) (a : AssignmentId) :
    d.reportAbout f a = d.record (d.problemAbout f a) := rfl

/-- Reporting something leaves the registry alone. -/
@[simp]
lemma registry_reportAbout (f : Finding) (a : AssignmentId) :
    (d.reportAbout f a).registry = d.registry := rfl

/-- A change to an assignment that spares its heading keeps the registry. -/
lemma registry_modifyAssignment (a : AssignmentId) (f : Assignment → Assignment)
    (hf : ∀ x, (f x).heading = x.heading) :
    ({ d with mib := d.mib.modifyAssignment a f } : Draft).registry = d.registry := by
  simp [registry, Mib.modifyAssignment, map_modify_of_keeps _ _ hf]

/-- Setting a state leaves the registry alone. -/
@[simp]
lemma registry_setState (a : AssignmentId) (s : ResolutionState) :
    (d.setState a s).registry = d.registry :=
  registry_modifyAssignment d a _ fun _ => rfl

/-- A change to a module that spares its heading keeps the headings of all. -/
lemma heading_modifyModule (mib : Mib) (m : ModuleId) (f : ModuleEntry → ModuleEntry)
    (hf : ∀ x, (f x).heading = x.heading) :
    (mib.modifyModule m f).modules.map ModuleEntry.heading
      = mib.modules.map ModuleEntry.heading :=
  map_modify_of_keeps _ _ hf

end Keeps

/-! ## Recording many problems -/

/-- The draft after a list of problems. -/
def recordAll (d : Draft) (ps : List Problem) : Draft := ps.foldl record d

/-- Recorded problems stand behind the others, and nothing else changes. -/
lemma recordAll_eq (d : Draft) (ps : List Problem) :
    d.recordAll ps = { d with mib := { d.mib with problems := ⟨d.mib.problems.items ++ ps⟩ } } := by
  induction ps generalizing d with
  | nil => simp [recordAll]
  | cons p ps ih =>
    have step : d.recordAll (p :: ps) = (d.record p).recordAll ps := rfl
    rw [step, ih]
    simp [record, Mib.record, Problems.record]

/-- Problems are recorded one list behind another. -/
lemma recordAll_recordAll (d : Draft) (ps qs : List Problem) :
    (d.recordAll ps).recordAll qs = d.recordAll (ps ++ qs) := by
  simp only [recordAll, List.foldl_append]

/-- Recording problems leaves the scope alone. -/
lemma scope_recordAll (d : Draft) (ps : List Problem) : (d.recordAll ps).scope = d.scope := by
  rw [recordAll_eq]

/-- Recorded problems come last. -/
lemma problems_recordAll (d : Draft) (ps : List Problem) :
    (d.recordAll ps).mib.problems.toList = d.mib.problems.toList ++ ps := by
  simp [recordAll_eq, Problems.toList]

/-- Actions that only record problems, and do not look at those recorded before, come to recording
all of them. -/
lemma foldl_eq_recordAll {α : Type} {f : Draft → α → Draft} {g : Draft → α → List Problem}
    (hf : ∀ d x, f d x = d.recordAll (g d x)) (hg : ∀ d ps, g (d.recordAll ps) = g d)
    (d : Draft) (xs : List α) : xs.foldl f d = d.recordAll (xs.flatMap (g d)) := by
  induction xs generalizing d with
  | nil => rfl
  | cons x xs ih => rw [List.foldl_cons, ih, hf, hg, recordAll_recordAll, List.flatMap_cons]

end Draft

end MibCorpus
