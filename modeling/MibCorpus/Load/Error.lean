import MibCorpus.Files.Pattern
import MibCorpus.Files.System
import MibCorpus.Pipeline
import MibCorpus.Text.Quoted

/-!
# Errors of loading
-/

namespace MibCorpus

/-- Why a corpus was not loaded. -/
inductive LoadError where
  /-- A file or directory could not be read. -/
  | unreadable (path : Path) (cause : FileError)
  | invalidPattern (pattern : String) (defect : PatternDefect)
  /-- The load was cancelled. -/
  | cancelled
  /-- The corpus was read but its resolution failed. -/
  | resolution (e : RunError)

/-- What the error says. -/
def LoadError.message : LoadError → String
  | unreadable path cause => path.text ++ ": " ++ cause.message
  | invalidPattern pattern defect =>
    "invalid pattern " ++ Quoted.quote pattern ++ ": " ++ defect.reason
  | cancelled => "load cancelled"
  | resolution e => e.message

end MibCorpus
