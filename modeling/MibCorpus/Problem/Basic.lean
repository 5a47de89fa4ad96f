import MibCorpus.Ident
import MibCorpus.Problem.Kind
import MibCorpus.Span

/-!
# Problems

Resolution never stops at a problem. Every phase adds the problems that it finds to the end of one
list, which belongs to the model.
-/

namespace MibCorpus

/-- Where a problem was found. -/
structure Location where
  file : Option FileId
  module : Option ModuleId
  span : Span
  deriving DecidableEq

namespace Location

/-- The place of what belongs to nothing. -/
def unknown : Location := ⟨none, none, .synthetic⟩

/-- A place in a file. -/
def inFile (file : FileId) (span : Span) : Location := ⟨some file, none, span⟩

/-- A place in a module, which may lack a file. -/
def inModule (file : Option FileId) (module : ModuleId) (span : Span) : Location :=
  ⟨file, some module, span⟩

end Location

/-- A recorded problem. Its subject is the assignment that it is about, and `other` the assignment
that the subject is in conflict with. -/
structure Problem where
  kind : ProblemKind
  severity : Severity
  message : String
  location : Location
  subject : Option AssignmentId
  other : Option AssignmentId
  deriving DecidableEq

namespace Problem

/-- A problem with the severity and the text of its kind. -/
def ofKind (kind : ProblemKind) (location : Location) : Problem :=
  ⟨kind, kind.defaultSeverity, kind.defaultMessage, location, none, none⟩

/-- Whether the problem is worse than a warning. -/
def isError (p : Problem) : Bool := p.severity.atLeast .error

/-- Whether `a` is the subject or the other side. -/
def concerns (p : Problem) (a : AssignmentId) : Bool :=
  p.subject == some a || p.other == some a

/-- Severity, code and message. -/
protected def toString (p : Problem) : String :=
  p.severity.word ++ "[" ++ p.kind.code ++ "]: " ++ p.message

instance : ToString Problem := ⟨Problem.toString⟩

end Problem

/-- The problems found so far, in the order in which they were found. -/
structure Problems where
  items : Array Problem
  deriving DecidableEq

namespace Problems

/-- No problems. -/
def empty : Problems := ⟨#[]⟩

/-- The problems as a list. -/
def toList (ps : Problems) : List Problem := ps.items.toList

/-- Adds a problem at the end. -/
def record (ps : Problems) (p : Problem) : Problems := ⟨ps.items.push p⟩

/-- The number of problems. -/
def length (ps : Problems) : Nat := ps.items.size

/-- Whether there are none. -/
def isEmpty (ps : Problems) : Bool := ps.items.isEmpty

/-- The worst severity in a list of problems. -/
def worstIn : List Problem → Option Severity
  | [] => none
  | p :: ps =>
    match worstIn ps with
    | none => some p.severity
    | some s => some (s.worse p.severity)

/-- The worst severity. -/
def worst? (ps : Problems) : Option Severity := worstIn ps.toList

/-- The number of problems of severity `s`. -/
def count (ps : Problems) (s : Severity) : Nat := ps.toList.countP (·.severity == s)

/-- The number of problems worse than a warning. -/
def errorCount (ps : Problems) : Nat := ps.toList.countP (·.isError)

/-- The number of warnings. -/
def warningCount (ps : Problems) : Nat := ps.count .warning

/-- Whether a problem is worse than a warning. -/
def hasErrors (ps : Problems) : Bool := ps.toList.any (·.isError)

/-- The problems of kind `k`. -/
def ofKind (ps : Problems) (k : ProblemKind) : List Problem := ps.toList.filter (·.kind == k)

/-- The problems with `a` as subject or other side. -/
def about (ps : Problems) (a : AssignmentId) : List Problem := ps.toList.filter (·.concerns a)

/-- The problems behind the first `n`. -/
def since (ps : Problems) (n : Nat) : List Problem := ps.toList.drop n

/-- The empty list holds no problem. -/
@[simp]
theorem toList_empty : empty.toList = [] := rfl

/-- Recording a problem appends it. -/
@[simp]
theorem toList_record (ps : Problems) (p : Problem) :
    (ps.record p).toList = ps.toList ++ [p] := by
  simp [record, toList]

/-- The length counts the problems. -/
@[simp]
theorem length_toList (ps : Problems) : ps.toList.length = ps.length := by
  simp [toList, length]

end Problems

end MibCorpus
