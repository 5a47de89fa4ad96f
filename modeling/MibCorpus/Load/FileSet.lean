import MibCorpus.Load.Error

/-!
# File sets

The files of a corpus are named one by one or found by scanning directories. The named files come
first, in the order given; each scan adds what it finds in the order of the paths. A file that is
reached again stays where it was, so the order of files does not depend on how a directory is
listed.
-/

namespace MibCorpus

/-- A directory to look for files in: whether to look below it too, which file names to take, where
no pattern at all takes every name, and which of those to leave out. -/
structure DirectoryScan where
  root : Path
  recursive : Bool
  includes : List String
  excludes : List String

namespace DirectoryScan

/-- The first pattern that cannot be used. -/
def defect? (s : DirectoryScan) : Option LoadError :=
  (s.includes ++ s.excludes).findSome? fun p =>
    (Pattern.defect? p).map (.invalidPattern p)

/-- Whether a file name is taken. -/
def accepts (s : DirectoryScan) (name : String) : Bool :=
  (s.includes.isEmpty || s.includes.any (Pattern.fits · name)) &&
    !s.excludes.any (Pattern.fits · name)

/-- What the scan comes to in the entries of the directory at `path`: the paths of files to take,
and why a directory is skipped. Links lead to files but not into directories. -/
def visit (s : DirectoryScan) (fs : FileSystem) (path : Path) :
    List (RawText × FileNode) → List (Except LoadError Path)
  | [] => []
  | (name, .directory entries _) :: rest =>
    (if s.recursive then
      match fs.readDirectory (path.join name) with
      | .ok _ => s.visit fs (path.join name) entries
      | .error cause => [.error (.unreadable (path.join name) cause)]
    else []) ++ s.visit fs path rest
  | (name, .file _) :: rest | (name, .special _) :: rest | (name, .link _) :: rest =>
    (if fs.isFile (path.join name) && s.accepts name.text then [.ok (path.join name)] else []) ++
      s.visit fs path rest

/-- The paths of the files found in the entries of the directory at `path`. -/
def found (s : DirectoryScan) (fs : FileSystem) (path : Path)
    (entries : List (RawText × FileNode)) : List Path :=
  (s.visit fs path entries).filterMap Except.toOption

/-- The files that the scan finds, in the order of their paths. -/
def collect (s : DirectoryScan) (fs : FileSystem) : Except LoadError (List Path) :=
  match s.defect? with
  | some e => .error e
  | none =>
    match fs.readDirectory s.root with
    | .ok entries => .ok (Path.sort (s.found fs s.root entries))
    | .error cause => .error (.unreadable s.root cause)

/-- What the scan says of the directories that it skips. -/
def warnings (s : DirectoryScan) (fs : FileSystem) : List String :=
  match s.defect?, fs.readDirectory s.root with
  | none, .ok entries => (s.visit fs s.root entries).filterMap fun
    | .ok _ => none
    | .error e => some ("skipping " ++ e.message)
  | _, _ => []

end DirectoryScan

/-- Files named one by one, and scans. -/
structure FileSet where
  files : List Path
  scans : List DirectoryScan

namespace FileSet

/-- What a list of scans finds, one after another. -/
def collectAll (fs : FileSystem) : List DirectoryScan → Except LoadError (List Path)
  | [] => .ok []
  | s :: scans => do
    let paths ← s.collect fs
    return paths ++ (← collectAll fs scans)

/-- The paths of the files. -/
def resolve (s : FileSet) (fs : FileSystem) : Except LoadError (List Path) := do
  return Path.distinct (s.files ++ (← collectAll fs s.scans))

/-- What the scans say, as far as they are made. -/
def warnings (s : FileSet) (fs : FileSystem) : List String :=
  (s.scans.takeWhile fun scan => (scan.collect fs).isOk).flatMap (·.warnings fs)

end FileSet

end MibCorpus
