import MibCorpus.Files.Path

/-!
# Directory trees

The files of a system form a tree of directories, symbolic links, files and whatever else a
directory may have entries for. A link has the text of a path, which starts in the directory that
the link is in, or at the root of the tree if the path is absolute. The system may refuse to list a
directory, to go through it, or to read a file.
-/

namespace MibCorpus

/-- Why a file or directory cannot be read. -/
inductive FileError where
  | notFound
  | permissionDenied
  | notADirectory
  | isADirectory
  | nameTooLong
  | tooManyLinks
  /-- The path has a byte of value zero, which ends a path for the system. -/
  | zeroByte
  /-- Anything else that the system says. -/
  | other (message : String)
  deriving DecidableEq

/-- What the error says. -/
def FileError.message : FileError → String
  | notFound => "No such file or directory (os error 2)"
  | permissionDenied => "Permission denied (os error 13)"
  | notADirectory => "Not a directory (os error 20)"
  | isADirectory => "Is a directory (os error 21)"
  | nameTooLong => "File name too long (os error 36)"
  | tooManyLinks => "Too many levels of symbolic links (os error 40)"
  | zeroByte => "file name contained an unexpected NUL byte"
  | other message => message

/-- A place in a tree: the names that lead to it from the root. -/
structure Place where
  names : List RawText
  deriving DecidableEq

namespace Place

/-- The root of the tree. -/
def root : Place := ⟨[]⟩

/-- The place of a name in the directory at a place. -/
def child (place : Place) (name : RawText) : Place := ⟨place.names ++ [name]⟩

/-- The place of the directory above. The root is above itself. -/
def parent (place : Place) : Place := ⟨place.names.dropLast⟩

/-- Where a path starts that is written in the directory at a place: there, or at the root. -/
def startOf (place : Place) (p : Path) : Place := if p.isAbsolute then root else place

end Place

/-- What the system refuses to do with a directory, and why: to list its entries, and to look up
what is in it. -/
structure Refusals where
  listing : Option FileError := none
  search : Option FileError := none
  deriving DecidableEq, Inhabited

/-- Nothing is refused. -/
def Refusals.none : Refusals := {}

/-- Something that a directory has an entry for. -/
inductive FileNode where
  /-- A regular file, with what reading it gives. -/
  | file (content : Except FileError (List UInt8))
  /-- A device, a pipe or a socket, with what reading it gives. -/
  | special (content : Except FileError (List UInt8))
  | directory (entries : List (RawText × FileNode)) (refusals : Refusals := .none)
  | link (target : Path)

instance : Inhabited FileNode := ⟨.directory []⟩

namespace FileNode

/-- The entry called `name`, if this is a directory with one. -/
def child? (n : FileNode) (name : RawText) : Option FileNode :=
  match n with
  | directory entries _ => entries.lookup name
  | file _ | special _ | link _ => none

/-- What is found by going down from `n` by names, without following links. -/
def below? (n : FileNode) : List RawText → Option FileNode
  | [] => some n
  | name :: names => (n.child? name).bind (·.below? names)

/-- What a place holds. -/
def at? (root : FileNode) (place : Place) : Option FileNode := root.below? place.names

/-! ## Following paths -/

/-- The number of links that may be followed for one path. -/
def maxLinks : Nat := 40

/-- The number of bytes that a name may have. -/
def maxNameBytes : Nat := 255

/-- The number of bytes that a path may have. -/
def maxPathBytes : Nat := 4095

/-- Follows the texts between the slashes of a path from the directory at `place`, at most `links`
links on the way. What comes before a slash must be a directory, and one that can be gone through if
a name comes behind the slash. The answer is the place at which the path ends, free of links. -/
def follow (root : FileNode) (links : Nat) (place : Place) :
    List RawText → Except FileError Place
  | [] => .ok place
  | segment :: segments =>
    match root.at? place with
    | none => .error .notFound
    | some (file _) | some (special _) | some (link _) => .error .notADirectory
    | some (directory entries refusals) =>
      if segment = .empty then root.follow links place segments
      else
        match refusals.search with
        | some e => .error e
        | none =>
          if segment = .dot then root.follow links place segments
          else if segment = .dots then root.follow links place.parent segments
          else if segment.bytes.length > maxNameBytes then .error .nameTooLong
          else
            match entries.lookup segment with
            | none => .error .notFound
            | some (link target) =>
              match links with
              | 0 => .error .tooManyLinks
              | links + 1 =>
                root.follow links (place.startOf target) (target.segments ++ segments)
            | some _ => root.follow links (place.child segment) segments
  termination_by segments => (links, segments.length)

/-! ## Growth -/

/-- The entries with the one called `name` replaced, or added at the end. -/
def setEntry (name : RawText) (new : FileNode) :
    List (RawText × FileNode) → List (RawText × FileNode)
  | [] => [(name, new)]
  | (s, n) :: entries =>
    if s = name then (s, new) :: entries else (s, n) :: setEntry name new entries

/-- The tree with `new` at the place that the names lead to. Files and links on the way stay. -/
def put (new : FileNode) : List RawText → FileNode → FileNode
  | [], _ => new
  | name :: names, directory entries refusals =>
    let old := (entries.lookup name).getD (directory [])
    directory (setEntry name (put new names old) entries) refusals
  | _ :: _, n => n

/-- The tree with `new` at a place. -/
def putAt (new : FileNode) (root : FileNode) (place : Place) : FileNode :=
  put new place.names root

/-- Where a text between slashes leads from a place; if nothing is there, the place of that name. -/
def placeOf (root : FileNode) (place : Place) (segment : RawText) : Place :=
  match root.follow maxLinks place [segment] with
  | .ok place => place
  | .error _ => place.child segment

/-- The tree with the directories that are missing on the way from a place, and where that leads. -/
def makeDirectories (root : FileNode) (place : Place) : List RawText → FileNode × Place
  | [] => (root, place)
  | segment :: segments =>
    let place := root.placeOf place segment
    let root := if (root.at? place).isSome then root else putAt (directory []) root place
    root.makeDirectories place segments

/-- Where a file comes to be that is written under a name in the directory at a place. A link of
that name is followed, at most `links` times, and what it leads to need not be there. -/
def landing (root : FileNode) : Nat → Place → RawText → Place
  | 0, place, name => place.child name
  | links + 1, place, name =>
    match (root.at? place).bind (·.child? name) with
    | some (link target) =>
      match root.follow links (place.startOf target) target.segments.dropLast with
      | .ok place => root.landing links place (target.segments.getLast?.getD .empty)
      | .error _ => place.child name
    | _ => place.child name

end FileNode

end MibCorpus
