import MibCorpus.Source.Module

/-!
# Files

The boundary to whatever reads the text of modules: a file goes in, and its modules or the reason
why there are none come out.
-/

namespace MibCorpus

/-- A source file with its text. -/
structure SourceText where
  path : String
  text : String
  deriving DecidableEq

/-- Why a file could not be read as modules. -/
structure ParseFailure where
  message : String
  span : Span
  deriving DecidableEq

namespace ParseFailure

/-- The reason with the place it is about. -/
protected def toString (f : ParseFailure) : String :=
  f.message ++ " at " ++ toString f.span

instance : ToString ParseFailure := ⟨ParseFailure.toString⟩

end ParseFailure

/-- Reads the text of a file as modules. -/
abbrev FileParser := SourceText → Except ParseFailure (List Module)

/-- A file after parsing. -/
structure ParsedFile where
  path : String
  result : Except ParseFailure (List Module)

namespace ParsedFile

/-- Parses a file. -/
def parse (parser : FileParser) (source : SourceText) : ParsedFile :=
  ⟨source.path, parser source⟩

/-- The number of modules in the file, if it could be parsed. -/
def moduleCount? (f : ParsedFile) : Option Nat :=
  match f.result with
  | .ok modules => some modules.length
  | .error _ => none

/-- Why the file could not be parsed. -/
def failure? (f : ParsedFile) : Option ParseFailure :=
  match f.result with
  | .ok _ => none
  | .error failure => some failure

end ParsedFile

end MibCorpus
