import MibCorpus.Source.Definition

/-!
# Modules

A module as written: its name, what it imports and what it defines.
-/

namespace MibCorpus

/-- The names of the macros of the notation. They are imported like symbols but have no value. -/
def macroNames : List String :=
  ["MODULE-IDENTITY", "OBJECT-IDENTITY", "OBJECT-TYPE", "NOTIFICATION-TYPE", "TEXTUAL-CONVENTION",
    "OBJECT-GROUP", "NOTIFICATION-GROUP", "MODULE-COMPLIANCE", "AGENT-CAPABILITIES", "TRAP-TYPE"]

/-- Whether `name` is the name of a macro. -/
def isMacroName (name : String) : Bool := macroNames.contains name

/-- One imported symbol. -/
structure Import where
  source : String
  symbol : String
  span : Span
  deriving DecidableEq

/-- Whether the import is of a macro. -/
def Import.isMacro (i : Import) : Bool := isMacroName i.symbol

/-- A module as written. -/
structure Module where
  name : String
  imports : List Import
  definitions : List Definition
  span : Span

namespace Module

/-- The names of the definitions in order of declaration. -/
def definitionNames (m : Module) : List String := m.definitions.map (·.name)

/-- The distinct members of `names` in order of first occurrence, less those in `seen`. -/
def firstOccurrences (seen : List String) : List String → List String
  | [] => []
  | n :: ns =>
    if n ∈ seen then firstOccurrences seen ns else n :: firstOccurrences (n :: seen) ns

/-- The modules that are imported from, each once, in order of first mention. -/
def importSources (m : Module) : List String :=
  firstOccurrences [] (m.imports.map (·.source))

end Module

end MibCorpus
