import MibCorpus.Trace.Event

/-!
# Logs

A log is a list of messages, each with a level and a target. A filter says up to which level
messages are kept, or that none are. The events of a run can be logged as well.
-/

namespace MibCorpus

/-- Which messages a log keeps. -/
inductive LogFilter where
  | off
  /-- The messages up to a level. -/
  | upTo (level : TraceLevel)
  deriving DecidableEq

namespace LogFilter

/-- Whether messages of a level are kept. -/
def keeps (f : LogFilter) (level : TraceLevel) : Bool :=
  match f with
  | off => false
  | upTo l => level.within l

/-- The level of a recorder whose events are logged. A closed log still has errors emitted, which it
then drops. -/
def recorderLevel : LogFilter → TraceLevel
  | off => .error
  | upTo l => l

end LogFilter

/-- A message of a log. -/
structure LogRecord where
  level : TraceLevel
  target : String
  message : String
  deriving DecidableEq

/-- What an event says in a log. -/
def Event.logMessage : Event → String
  | stage s => s!"state: {s}"
  | phaseStart phase => s!"{phase}: start"
  | phaseEnd phase => s!"{phase}: done"
  | fileParsed path (some n) => s!"parsed {path}: {n} modules"
  | fileParsed path none => s!"parsed {path}: failed"
  | moduleRegistered name _ synthetic =>
    "registered " ++ name ++ if synthetic then " (synthetic)" else ""
  | sweepStart phase pass pending => s!"{phase}: pass {pass}, {pending} pending"
  | sweepEnd phase pass resolved remaining =>
    s!"{phase}: pass {pass} resolved {resolved}, {remaining} remaining"
  | typeResolved module symbol =>
    "type " ++ symbol ++ " bound in ModuleId(" ++ toString module.number ++ ")"
  | oidResolved name oid => s!"{name} = {oid}"
  | problem p => toString p

/-- A log with its filter. -/
structure Log where
  filter : LogFilter
  records : List LogRecord
  deriving DecidableEq

namespace Log

/-- The target of messages that are not told otherwise. -/
def usualTarget : String := "smilink"

/-- A log without messages. -/
def new (filter : LogFilter) : Log := ⟨filter, []⟩

/-- The log with one more message, unless the filter drops it. -/
def write (log : Log) (level : TraceLevel) (target message : String) : Log :=
  if log.filter.keeps level then
    { log with records := log.records ++ [⟨level, target, message⟩] }
  else log

/-- The log with the events of a run. -/
def writeEvents (log : Log) (target : String) (events : List (TraceLevel × Event)) : Log :=
  events.foldl (fun log e => log.write e.1 target e.2.logMessage) log

end Log

end MibCorpus
