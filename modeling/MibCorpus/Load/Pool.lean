import MibCorpus.Source.File
import MibCorpus.Trace.Log

/-!
# Worker pools

Files are parsed by workers that share the position of the next file to take and a flag by which the
work can be cancelled. Each worker goes through the same atomic actions again and again; an
interleaving says whose action comes next, and when the flag is set. The parsed files are put in the
order of their positions in the end, so the interleaving does not show in them.
-/

namespace MibCorpus

/-- What a worker does next. -/
inductive WorkerAction where
  /-- Look whether the work is cancelled. -/
  | look
  /-- Take the next position. -/
  | take
  /-- Parse the file at a position. -/
  | parse (position : Nat)
  /-- Put down the parsed file of a position. -/
  | put (position : Nat) (file : ParsedFile)
  /-- Nothing more. -/
  | rest

/-- A worker: what it does next, and what it has put down. -/
structure Worker where
  next : WorkerAction
  output : List (Nat × ParsedFile)

/-- A worker before its first action. -/
def Worker.new : Worker := ⟨.look, []⟩

/-- What happens next in a pool. -/
inductive PoolAction where
  /-- Somebody sets the flag. -/
  | cancel
  /-- A worker does what it does next. -/
  | work (worker : Nat)
  deriving DecidableEq

/-- A pool: the flag, the next position to take, the workers, and the log. -/
structure Pool where
  cancelled : Bool
  position : Nat
  workers : List Worker
  log : Log

namespace Pool

/-- A pool of `count` workers before their first actions. -/
def new (cancelled : Bool) (count : Nat) (log : Log) : Pool :=
  ⟨cancelled, 0, List.replicate count .new, log⟩

/-- The message about a file that could not be parsed. -/
def failureMessage? (f : ParsedFile) : Option String :=
  f.failure?.map fun failure => f.path ++ ": " ++ toString failure

/-- The log after a file was parsed. -/
def logParsed (log : Log) (f : ParsedFile) : Log :=
  match failureMessage? f with
  | some message => log.write .debug Log.usualTarget message
  | none => log

/-- The pool after worker `i`, which is `w`, did what it does next. -/
def workerStep (parser : FileParser) (sources : List SourceText) (p : Pool) (i : Nat) (w : Worker) :
    Pool :=
  let become (w : Worker) : Pool := { p with workers := p.workers.set i w }
  match w.next with
  | .look => become { w with next := if p.cancelled then .rest else .take }
  | .take =>
    let next := if p.position < sources.length then .parse p.position else .rest
    { become { w with next } with position := p.position + 1 }
  | .parse position =>
    match sources[position]? with
    | none => become { w with next := .rest }
    | some source =>
      let file := ParsedFile.parse parser source
      { become { w with next := .put position file } with log := logParsed p.log file }
  | .put position file => become ⟨.look, w.output ++ [(position, file)]⟩
  | .rest => p

/-- The pool after one action. -/
def step (parser : FileParser) (sources : List SourceText) (p : Pool) : PoolAction → Pool
  | .cancel => { p with cancelled := true }
  | .work i =>
    match p.workers[i]? with
    | some w => workerStep parser sources p i w
    | none => p

/-- The pool after an interleaving. -/
def run (parser : FileParser) (sources : List SourceText) (p : Pool) (actions : List PoolAction) :
    Pool :=
  actions.foldl (step parser sources) p

/-- Each worker in turn, until it has nothing more to do: every file takes four actions, the last
look and take two, and a file in progress at most three. -/
def finishing (workers files : Nat) : List PoolAction :=
  (List.range workers).flatMap fun i => List.replicate (4 * files + 5) (.work i)

/-- The pool when all workers have nothing more to do, after an interleaving. -/
def finish (parser : FileParser) (sources : List SourceText) (p : Pool)
    (actions : List PoolAction) : Pool :=
  (p.run parser sources actions).run parser sources
    (finishing p.workers.length sources.length)

/-- The parsed files in the order of their positions. -/
def files (p : Pool) : List ParsedFile :=
  ((p.workers.flatMap (·.output)).mergeSort fun x y => x.1 ≤ y.1).map (·.2)

/-- The interleaving of a single worker in which the flag is set as the file at a position is about
to be parsed. -/
def cancelAt (position : Nat) : List PoolAction :=
  List.replicate (4 * position + 2) (.work 0) ++ [.cancel]

end Pool

end MibCorpus
