import MibCorpus.Oid.Dotted
import MibCorpus.Problem.Basic

/-!
# Trace events

A run can be followed by the events that it emits. Every event has a level, and a recorder keeps the
events up to the level that it was made with.
-/

namespace MibCorpus

/-- How much detail an event is part of, from least to most. -/
inductive TraceLevel where
  | error
  | warn
  | info
  | debug
  | trace
  deriving DecidableEq, Ord, Inhabited

namespace TraceLevel

/-- The place of the level among all. -/
def rank : TraceLevel → Nat
  | error => 0
  | warn => 1
  | info => 2
  | debug => 3
  | trace => 4

/-- Whether an event of level `l` is part of what is recorded at level `m`. -/
def within (l m : TraceLevel) : Bool := l.rank ≤ m.rank

/-- The level of the event for a problem of a severity. -/
def ofSeverity : Severity → TraceLevel
  | .fatal | .error => error
  | .warning => warn
  | .info => info

/-- The level of a recorder that is not told otherwise. -/
def usual : TraceLevel := info

end TraceLevel

/-- The phases of a run. -/
inductive Phase where
  | parsing
  | registration
  | linking
  | types
  | oids
  | finalizing
  deriving DecidableEq

namespace Phase

/-- All phases in order. -/
def all : List Phase := [parsing, registration, linking, types, oids, finalizing]

/-- The name of the phase. -/
def name : Phase → String
  | parsing => "parsing"
  | registration => "registration"
  | linking => "linking"
  | types => "types"
  | oids => "oids"
  | finalizing => "finalizing"

instance : ToString Phase := ⟨name⟩

end Phase

/-- Where a run is. -/
inductive Stage where
  | idle
  | parsing
  | symbolRegistration
  /-- In sweep `pass` of a phase. -/
  | resolving (pass : Nat)
  | finalizing
  | done
  | failed
  deriving DecidableEq, Inhabited

namespace Stage

/-- The stage in words. -/
protected def toString : Stage → String
  | idle => "Idle"
  | parsing => "Parsing"
  | symbolRegistration => "SymbolRegistration"
  | resolving pass => "Resolving \x7b pass: " ++ toString pass ++ " \x7d"
  | finalizing => "Finalizing"
  | done => "Done"
  | failed => "Failed"

instance : ToString Stage := ⟨Stage.toString⟩

end Stage

/-- Something that happens in a run. -/
inductive Event where
  /-- The run moved to a stage. -/
  | stage (stage : Stage)
  | phaseStart (phase : Phase)
  | phaseEnd (phase : Phase)
  /-- A file was parsed, with the number of its modules unless that failed. -/
  | fileParsed (path : String) (modules : Option Nat)
  | moduleRegistered (name : String) (module : ModuleId) (synthetic : Bool)
  /-- A sweep starts with so many entries pending. -/
  | sweepStart (phase : Phase) (pass pending : Nat)
  /-- A sweep ends with so many entries resolved and remaining. -/
  | sweepEnd (phase : Phase) (pass resolved remaining : Nat)
  /-- A type reference in a module was bound. -/
  | typeResolved (module : ModuleId) (symbol : String)
  /-- An assignment got its OID. -/
  | oidResolved (name : String) (oid : Oid)
  | problem (problem : Problem)
  deriving DecidableEq

/-- The events of a run up to a level, in order. -/
structure Recorder where
  level : TraceLevel
  events : Array (TraceLevel × Event)
  deriving DecidableEq

namespace Recorder

/-- A recorder without events. -/
def new (level : TraceLevel) : Recorder := ⟨level, #[]⟩

/-- The recorder with one more event, unless its level is too detailed. -/
def emit (r : Recorder) (level : TraceLevel) (e : Event) : Recorder :=
  if level.within r.level then { r with events := r.events.push (level, e) } else r

/-- The recorder with more events of one level. -/
def emitAll (r : Recorder) (level : TraceLevel) (es : List Event) : Recorder :=
  es.foldl (·.emit level ·) r

/-- The recorder at the start of a sweep. -/
def sweepStart (r : Recorder) (phase : Phase) (pass pending : Nat) : Recorder :=
  (r.emit .debug (.stage (.resolving pass))).emit .debug (.sweepStart phase pass pending)

/-- The recorder at the end of a sweep. -/
def sweepEnd (r : Recorder) (phase : Phase) (pass resolved remaining : Nat) : Recorder :=
  r.emit .debug (.sweepEnd phase pass resolved remaining)

/-- The recorder with an event for each problem, at the level of its severity. -/
def emitProblems (r : Recorder) (ps : List Problem) : Recorder :=
  ps.foldl (fun r p => r.emit (.ofSeverity p.severity) (.problem p)) r

/-- Telling an event keeps the level. -/
@[simp]
theorem level_emit (r : Recorder) (level : TraceLevel) (e : Event) :
    (r.emit level e).level = r.level := by
  unfold emit
  split <;> rfl

end Recorder

end MibCorpus
