import MibCorpus.Draft.Phases

/-!
# Pipelines

A pipeline resolves corpora by a policy and records what happens. Problems never stop a run: every
phase is carried out, and only the worst problem decides in the end whether the run counts as
failed. The model is handed over in either case.
-/

namespace MibCorpus

/-- Why a run has no plain model to give. -/
inductive RunError where
  /-- The worst problem reached the threshold. The model is complete all the same. -/
  | failed (mib : Mib) (worst : Severity)
  /-- An arena ran out of identifiers. -/
  | outOfIdentifiers (arena : Arena)

namespace RunError

/-- What the error says. -/
def message : RunError → String
  | failed mib worst =>
    let count := mib.problems.length
    s!"resolution failed: worst problem is {worst} ({count} problems recorded)"
  | outOfIdentifiers arena => "model capacity exceeded: too many " ++ arena.contents

/-- The model, if the run came far enough to have one. -/
def mib? : RunError → Option Mib
  | failed mib _ => some mib
  | outOfIdentifiers _ => none

end RunError

/-- A pipeline: its policy, its recorder, and the stage that its last run reached. -/
structure Pipeline where
  policy : Policy
  recorder : Recorder
  stage : Stage

namespace Pipeline

/-- A pipeline that has not run. -/
def new (policy : Policy) (level : TraceLevel) : Pipeline := ⟨policy, .new level, .idle⟩

/-- Moves to a stage. -/
def enter (p : Pipeline) (stage : Stage) : Pipeline :=
  { p with stage, recorder := p.recorder.emit .info (.stage stage) }

/-- Carries out a phase. -/
def phase (dp : Draft × Pipeline) (c : PhaseCall) : Draft × Pipeline :=
  let (d, r) := c.run dp.1 dp.2.recorder
  (d, { dp.2 with recorder := r })

/-- Carries out all phases on the files of a corpus. -/
def resolve (p : Pipeline) (files : List ParsedFile) : Draft × Pipeline :=
  let (d, p) := phase (.new p.policy, p.enter .symbolRegistration) (.register files)
  let dp := [PhaseCall.link, .resolveTypes, .resolveOids].foldl phase (d, p.enter (.resolving 0))
  phase (dp.1, dp.2.enter .finalizing) .finalize

/-- Whether a model counts as failed, and by which severity. -/
def verdict (policy : Policy) (mib : Mib) : Except RunError Mib :=
  match mib.problems.worst? with
  | some worst => if policy.failsAt (some worst) then .error (.failed mib worst) else .ok mib
  | none => .ok mib

/-- Resolves files that are already parsed. -/
def runParsed (p : Pipeline) (files : List ParsedFile) : Except RunError Mib × Pipeline :=
  let (d, p) := p.resolve files
  match verdict p.policy d.mib with
  | .ok mib => (.ok mib, p.enter .done)
  | .error e => (.error e, p.enter .failed)

/-- The event of parsing a file. -/
def parsedEvent (f : ParsedFile) : Event := .fileParsed f.path f.moduleCount?

/-- Parses files one after another, then resolves them. -/
def run (p : Pipeline) (parser : FileParser) (sources : List SourceText) :
    Except RunError Mib × Pipeline :=
  let p := p.enter .parsing
  let files := sources.map (.parse parser)
  let r := p.recorder.emit .info (.phaseStart .parsing)
  let r := r.emitAll .debug (files.map parsedEvent)
  let r := r.emit .info (.phaseEnd .parsing)
  { p with recorder := r }.runParsed files

end Pipeline

end MibCorpus
