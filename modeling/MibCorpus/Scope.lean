import MibCorpus.Ident
import MibCorpus.Table

/-!
# Scopes

Every module is a name space of its own. A name is visible in a module if the module defines it or
imports it, and an import is followed through modules that merely pass the name on. A look-up ends
in one definition, in several modules that the name could come from, or in nothing.
-/

namespace MibCorpus

/-- What a look-up ends in. -/
inductive Lookup where
  | found (a : AssignmentId)
  | notFound
  /-- The name is imported from each of several modules. -/
  | ambiguous (sources : List ModuleId)
  deriving DecidableEq

/-- The definition that was found. -/
def Lookup.found? : Lookup → Option AssignmentId
  | found a => some a
  | notFound | ambiguous _ => none

/-- A definition that is refused because the module already has one of its name. -/
structure DuplicateDefinition where
  existing : AssignmentId
  rejected : AssignmentId
  deriving DecidableEq

/-- What the refusal says. -/
def DuplicateDefinition.message (d : DuplicateDefinition) : String :=
  toString d.rejected ++ " duplicates " ++ toString d.existing

/-- The visible names: modules, the definitions of each module, and for each name that a module
imports the modules it is imported from, where `none` stands for a module that does not exist. -/
structure Scope where
  modules : Table String ModuleId
  definitions : Table (ModuleId × String) AssignmentId
  imports : Table (ModuleId × String) (List (Option ModuleId))

namespace Scope

/-- Nothing is visible. -/
def empty : Scope := ⟨.empty, .empty, .empty⟩

/-- The module called `name`. -/
def module? (t : Scope) (name : String) : Option ModuleId := t.modules.find? name

/-- Registers a module under a name, unless there is one. -/
def registerModule (t : Scope) (name : String) (m : ModuleId) : Except ModuleId Scope :=
  match t.module? name with
  | some existing => .error existing
  | none => .ok { t with modules := t.modules.insert name m }

/-- The definition of a name in a module itself. -/
def lookup? (t : Scope) (m : ModuleId) (name : String) : Option AssignmentId :=
  t.definitions.find? (m, name)

/-- Defines a name in a module, unless it is defined there: the first definition stays. -/
def define (t : Scope) (m : ModuleId) (name : String) (a : AssignmentId) :
    Except DuplicateDefinition Scope :=
  match t.lookup? m name with
  | some existing => .error ⟨existing, a⟩
  | none => .ok { t with definitions := t.definitions.insert (m, name) a }

/-- The sources that a name of a module is imported from, those that do not exist included. -/
def bindings (t : Scope) (m : ModuleId) (name : String) : Option (List (Option ModuleId)) :=
  t.imports.find? (m, name)

/-- Imports a name into a module from one more source. The same source counts once. -/
def bindImport (t : Scope) (m : ModuleId) (name : String) (source : Option ModuleId) : Scope :=
  let sources := (t.bindings m name).getD []
  let sources := if source ∈ sources then sources else sources ++ [source]
  { t with imports := t.imports.insert (m, name) sources }

/-- Whether a module imports a name. -/
def isImported (t : Scope) (m : ModuleId) (name : String) : Bool := (t.bindings m name).isSome

/-- The sources in a list that exist and agree with the hint. -/
def realSources (sources : List (Option ModuleId)) (hint : Option ModuleId) : List ModuleId :=
  (sources.filterMap id).filter fun s => hint.all (· == s)

/-- The modules with imports that are not in `visited`, one for each imported name. -/
def unvisited (t : Scope) (visited : List ModuleId) : List (ModuleId × String) :=
  (t.imports.entries.map (·.1)).filter fun k => k.1 ∉ visited

/-- Visiting a module with imports leaves fewer unvisited. -/
theorem length_unvisited_cons_lt {t : Scope} {visited : List ModuleId} {m : ModuleId}
    {name : String} {sources : List (Option ModuleId)} (hm : m ∉ visited)
    (h : t.bindings m name = some sources) :
    (t.unvisited (m :: visited)).length < (t.unvisited visited).length := by
  have key : (m, name) ∈ t.imports.entries.map (·.1) :=
    List.mem_map.2 ⟨_, Table.mem_entries_of_find? h, rfl⟩
  have step : t.unvisited (m :: visited) = (t.unvisited visited).filter (·.1 ≠ m) := by
    simp [unvisited, List.filter_filter, not_or]
  rw [step, List.length_filter_lt_length_iff_exists]
  exact ⟨(m, name), List.mem_filter.2 ⟨key, by simpa using hm⟩, by simp⟩

/-- Follows the imports of a name from `m` on, where `visited` modules have passed it on to `m`. A
module is passed once, and the hint narrows the sources of the first module only. -/
def follow (t : Scope) (name : String) (visited : List ModuleId) (m : ModuleId)
    (hint : Option ModuleId) : Lookup :=
  if _hm : m ∈ visited then .notFound
  else
    match _hb : t.bindings m name with
    | none => .notFound
    | some sources =>
      match realSources sources hint with
      | [] => .notFound
      | [source] =>
        match t.lookup? source name with
        | some a => .found a
        | none => t.follow name (m :: visited) source none
      | several => .ambiguous several
  termination_by (t.unvisited visited).length
  decreasing_by exact length_unvisited_cons_lt _hm _hb

/-- Looks a name up among the imports of a module, with a hint only among those from that source. -/
def lookupImported (t : Scope) (m : ModuleId) (name : String) (hint : Option ModuleId) : Lookup :=
  t.follow name [] m hint

/-- Looks up a name as seen from a module: its own definition, then what it imports. -/
def resolve (t : Scope) (m : ModuleId) (name : String) : Lookup :=
  match t.lookup? m name with
  | some a => .found a
  | none => t.lookupImported m name none

/-- Looks up a name as seen from the module called `module`. -/
def resolveQualified (t : Scope) (module name : String) : Lookup :=
  match t.module? module with
  | some m => t.resolve m name
  | none => .notFound

/-- Looks up a name with or without the name of a module in front, as seen from `m`. -/
def resolveFrom (t : Scope) (m : ModuleId) (qualifier : Option String) (name : String) : Lookup :=
  match qualifier with
  | some module => t.resolveQualified module name
  | none => t.resolve m name

end Scope

end MibCorpus
