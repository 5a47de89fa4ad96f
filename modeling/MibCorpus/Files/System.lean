import MibCorpus.Files.Directory

/-!
# File systems

A program sees a tree of files from its working directory. Relative paths start there, and absolute
ones at the root of the tree.
-/

namespace MibCorpus

/-- A tree of files, and the place in it that relative paths start at. -/
structure FileSystem where
  root : FileNode
  workingDirectory : Place

namespace FileSystem

/-- Where a path starts. -/
def startOf (fs : FileSystem) (p : Path) : Place := fs.workingDirectory.startOf p

/-- The place that a path leads to. The empty path leads nowhere. -/
def locate (fs : FileSystem) (p : Path) : Except FileError Place :=
  if p.bytes.contains 0 then .error .zeroByte
  else if p.bytes.isEmpty then .error .notFound
  else if p.bytes.length > FileNode.maxPathBytes then .error .nameTooLong
  else fs.root.follow FileNode.maxLinks (fs.startOf p) p.segments

/-- What a path leads to. -/
def resolve (fs : FileSystem) (p : Path) : Except FileError FileNode := do
  match fs.root.at? (← fs.locate p) with
  | some n => .ok n
  | none => .error .notFound

/-- The bytes of the file at a path. -/
def readFile (fs : FileSystem) (p : Path) : Except FileError (List UInt8) := do
  match ← fs.resolve p with
  | .file content | .special content => content
  | .directory _ refusals => .error (refusals.listing.getD .isADirectory)
  | .link _ => .error .notFound

/-- The entries of the directory at a path. -/
def readDirectory (fs : FileSystem) (p : Path) :
    Except FileError (List (RawText × FileNode)) := do
  match ← fs.resolve p with
  | .directory entries refusals =>
    match refusals.listing with
    | some e => .error e
    | none => .ok entries
  | .file _ | .special _ | .link _ => .error .notADirectory

-- Where a definition that asks this is unfolded, the search for the path is not.
/-- Whether a path leads to a regular file. It need not be one that can be read. -/
@[irreducible]
def isFile (fs : FileSystem) (p : Path) : Bool :=
  match fs.resolve p with
  | .ok (.file _) => true
  | .ok _ | .error _ => false

/-! ## Growth -/

/-- A working directory that is all there is: the only entry of the root. -/
def around (work : FileNode) : FileSystem :=
  ⟨.directory [("work", work)], Place.root.child "work"⟩

instance : Coe FileNode FileSystem := ⟨around⟩

/-- What the working directory holds. -/
def work (fs : FileSystem) : FileNode := (fs.root.at? fs.workingDirectory).getD default

/-- The file system with a directory at a path. -/
def addDirectory (fs : FileSystem) (p : Path) : FileSystem :=
  { fs with root := (fs.root.makeDirectories (fs.startOf p) p.segments).1 }

/-- The file system with `new` at a path. -/
def add (fs : FileSystem) (p : Path) (new : FileNode) : FileSystem :=
  let (root, place) := fs.root.makeDirectories (fs.startOf p) p.segments.dropLast
  let name := p.segments.getLast?.getD .empty
  let goal :=
    match new with
    | .link _ => place.child name
    | _ => root.landing FileNode.maxLinks place name
  { fs with root := .putAt new root goal }

end FileSystem

namespace FileNode

/-- The working directory with a directory at a path. -/
def addDirectory (work : FileNode) (p : Path) : FileNode :=
  ((work : FileSystem).addDirectory p).work

/-- The working directory with a file at a path. -/
def addFile (work : FileNode) (p : Path) (content : List UInt8) : FileNode :=
  ((work : FileSystem).add p (file (.ok content))).work

/-- The working directory with a link at a path. -/
def addLink (work : FileNode) (p target : Path) : FileNode :=
  ((work : FileSystem).add p (link target)).work

end FileNode

end MibCorpus
