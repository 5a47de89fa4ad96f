import MibCorpus.Load.FileSet
import MibCorpus.Load.Pool
import MibCorpus.Text.Utf8

/-!
# Loaders

A loader reads the files of a file set, parses them and resolves them as one corpus. A file that
cannot be read counts as one that could not be parsed and keeps its place. The load can be
cancelled: this is looked for before each file is read, by every worker, and after the parsing.
-/

namespace MibCorpus

/-- What happens around a load: before which file, if any, the cancellation is requested while files
are read, how the workers take turns, and whether it is requested right after the parsing. -/
structure Circumstances where
  cancelBeforeRead : Option Nat
  interleaving : List SourceText → List PoolAction
  cancelAfterParse : Bool

/-- The load is not cancelled, and the workers take turns one after another. -/
def Circumstances.undisturbed : Circumstances := ⟨none, fun _ => [], false⟩

/-- A loader: what reads the text of files, on how many threads, and under which circumstances. -/
structure Loader where
  parser : FileParser
  threads : Nat
  circumstances : Circumstances

/-- A load in progress: whether its cancellation was requested, and its log. -/
structure LoadState where
  cancelled : Bool
  log : Log

namespace LoadState

/-- The state with a request for cancellation, if `request` holds. -/
def cancelIf (s : LoadState) (request : Bool) : LoadState :=
  { s with cancelled := s.cancelled || request }

/-- The state with one more message. -/
def write (s : LoadState) (level : TraceLevel) (message : String) : LoadState :=
  { s with log := s.log.write level Log.usualTarget message }

end LoadState

/-- A file of a file set after reading. -/
inductive LoadInput where
  | source (source : SourceText)
  /-- The file could not be read. -/
  | unreadable (file : ParsedFile)

namespace LoadInput

/-- The text, if the file could be read. -/
def source? : LoadInput → Option SourceText
  | source s => some s
  | unreadable _ => none

end LoadInput

namespace Loader

/-! ## Reading -/

/-- Reads a file. -/
def readFile (fs : FileSystem) (path : Path) (s : LoadState) : LoadInput × LoadState :=
  match fs.readFile path with
  | .ok bytes => (.source ⟨path.text, Utf8.decode bytes⟩, s)
  | .error cause =>
    let message := (LoadError.unreadable path cause).message
    (.unreadable ⟨path.text, .error ⟨"cannot read file: " ++ message, .synthetic⟩⟩,
      s.write .warn message)

/-- Reads files, the first of which has position `position`. -/
def readFiles (l : Loader) (fs : FileSystem) (position : Nat) :
    List Path → LoadState → Except LoadError (List LoadInput) × LoadState
  | [], s => (.ok [], s)
  | path :: paths, s =>
    let s := s.cancelIf (l.circumstances.cancelBeforeRead = some position)
    if s.cancelled then (.error .cancelled, s)
    else
      let (input, s) := readFile fs path s
      let (inputs, s) := l.readFiles fs (position + 1) paths s
      (inputs.map (input :: ·), s)

/-- Reads the files of a file set. -/
def read (l : Loader) (fs : FileSystem) (files : FileSet) (s : LoadState) :
    Except LoadError (List LoadInput) × LoadState :=
  let s := (files.warnings fs).foldl (·.write .warn ·) s
  match files.resolve fs with
  | .error e => (.error e, s)
  | .ok paths =>
    match l.readFiles fs 0 paths s with
    | (.error e, s) => (.error e, s)
    | (.ok inputs, s) =>
      let count := inputs.length
      (.ok inputs, s.write .debug s!"read {count} files")

/-! ## Parsing -/

/-- The number of workers for some files: no more than files, but at least one. -/
def workerCount (l : Loader) (files : Nat) : Nat := max 1 (min l.threads files)

/-- Parses files. -/
def parse (l : Loader) (sources : List SourceText) (s : LoadState) :
    Except LoadError (List ParsedFile) × LoadState :=
  if s.cancelled then (.error .cancelled, s)
  else
    let workers := l.workerCount sources.length
    let pool := (Pool.new s.cancelled workers s.log).finish l.parser sources
      (l.circumstances.interleaving sources)
    let s : LoadState := ⟨pool.cancelled, pool.log⟩
    if s.cancelled then (.error .cancelled, s)
    else
      let files := pool.files
      let count := files.length
      let failed := files.countP (·.failure?.isSome)
      (.ok files, s.write .debug s!"parsed {count} files on {workers} threads ({failed} failed)")

/-! ## Loading -/

/-- The parsed files in the places of the inputs that they come from. -/
def merge : List LoadInput → List ParsedFile → List ParsedFile
  | [], _ => []
  | .unreadable f :: inputs, parsed => f :: merge inputs parsed
  | .source _ :: inputs, f :: parsed => f :: merge inputs parsed
  | .source _ :: inputs, [] => merge inputs []

/-- Reads and parses the files of a file set. -/
def prepare (l : Loader) (fs : FileSystem) (files : FileSet) (s : LoadState) :
    Except LoadError (List ParsedFile) × LoadState :=
  match l.read fs files s with
  | (.error e, s) => (.error e, s)
  | (.ok inputs, s) =>
    match l.parse (inputs.filterMap (·.source?)) s with
    | (.error e, s) => (.error e, s)
    | (.ok parsed, s) =>
      let s := s.cancelIf l.circumstances.cancelAfterParse
      if s.cancelled then (.error .cancelled, s) else (.ok (merge inputs parsed), s)

/-- Reads, parses and resolves the files of a file set. The events of the run are logged. -/
def load (l : Loader) (fs : FileSystem) (files : FileSet) (p : Pipeline) (s : LoadState) :
    Except LoadError Mib × Pipeline × LoadState :=
  match l.prepare fs files s with
  | (.error e, s) => (.error e, p, s)
  | (.ok parsed, s) =>
    let (result, next) := p.runParsed parsed
    let events := next.recorder.events.toList.drop p.recorder.events.size
    let s := { s with log := s.log.writeEvents Log.usualTarget events }
    match result with
    | .error e => (.error (.resolution e), next, s)
    | .ok mib =>
      let modules := mib.modules.size
      let nodes := mib.nodes.size
      let problems := mib.problems.length
      (.ok mib, next,
        s.write .info s!"resolved {modules} modules, {nodes} OID nodes, {problems} problems")

end Loader

end MibCorpus
