import MibCorpus.Text.Utf8

/-!
# Paths

The system names files by bytes, which need not be those of characters. A path keeps the bytes that
it was given, but paths are compared by their parts: repeated slashes, a slash at the end, and dots
that are not at the start make no difference.
-/

namespace MibCorpus

/-- The name of a file, or a path, as the system has it. -/
structure RawText where
  bytes : List UInt8
  deriving DecidableEq, Inhabited

namespace RawText

/-- Texts are compared byte by byte. -/
instance : Ord RawText := ⟨compareOn bytes⟩

/-- A text as the system writes it. -/
def ofString (s : String) : RawText := ⟨s.toList.flatMap String.utf8EncodeChar⟩

instance : Coe String RawText := ⟨ofString⟩

/-- What is shown of it: bytes that belong to no character are replaced. -/
def text (t : RawText) : String := Utf8.decode t.bytes

/-- The byte that separates names in a path. -/
def slash : UInt8 := 47

/-- No bytes at all. -/
def empty : RawText := ⟨[]⟩

/-- The name by which a directory refers to itself. -/
def dot : RawText := ⟨[46]⟩

/-- The name by which a directory refers to the one above. -/
def dots : RawText := ⟨[46, 46]⟩

end RawText

/-- A part of a path. -/
inductive PathPart where
  /-- The slash in front of an absolute path. -/
  | root
  /-- A dot at the start of a relative path. -/
  | here
  /-- Two dots. -/
  | up
  | name (name : RawText)
  deriving DecidableEq

namespace PathPart

/-- Parts other than names come first. -/
protected def compare : PathPart → PathPart → Ordering
  | root, root | here, here | up, up => .eq
  | name s, name t => compare s t
  | root, _ => .lt
  | _, root => .gt
  | here, _ => .lt
  | _, here => .gt
  | up, _ => .lt
  | _, up => .gt

instance : Ord PathPart := ⟨PathPart.compare⟩

end PathPart

/-- A path as given. -/
structure Path where
  ofRaw ::
  raw : RawText
  deriving DecidableEq

namespace Path

/-- The path that a text stands for. -/
def mk (s : String) : Path := ofRaw s

/-- The bytes of the path. -/
def bytes (p : Path) : List UInt8 := p.raw.bytes

/-- What is shown of the path. -/
def text (p : Path) : String := p.raw.text

/-- The texts between the slashes. -/
def segments (p : Path) : List RawText := (p.bytes.splitOn RawText.slash).map RawText.mk

/-- Whether the path starts at the root of the system. -/
def isAbsolute (p : Path) : Bool := p.bytes.head? == some RawText.slash

/-- The part that a text between slashes stands for, unless it makes no difference. -/
def partOf? (segment : RawText) : Option PathPart :=
  if segment = .empty ∨ segment = .dot then none
  else if segment = .dots then some .up
  else some (.name segment)

/-- The part that says how a path starts, read off the texts between its slashes. -/
def leading : List RawText → List PathPart
  | first :: rest =>
    if first = .empty ∧ rest ≠ [] then [.root] else if first = .dot then [.here] else []
  | [] => []

/-- The parts of a path. -/
def parts (p : Path) : List PathPart := leading p.segments ++ p.segments.filterMap partOf?

/-- The order of paths by their parts. -/
protected def compare (p q : Path) : Ordering := List.compareLex compare p.parts q.parts

instance : Ord Path := ⟨Path.compare⟩

/-- Whether two paths have the same parts. -/
def same (p q : Path) : Bool := p.parts = q.parts

/-- The path of an entry in the directory at `p`. -/
def join (p : Path) (name : RawText) : Path :=
  if p.bytes = [] ∨ p.bytes.getLast? = some RawText.slash then ⟨⟨p.bytes ++ name.bytes⟩⟩
  else ⟨⟨p.bytes ++ RawText.slash :: name.bytes⟩⟩

/-- The paths of a list that are not the same as an earlier one or one in `seen`. -/
def distinctFrom (seen : List Path) : List Path → List Path
  | [] => []
  | p :: ps =>
    if seen.any p.same then distinctFrom seen ps else p :: distinctFrom (p :: seen) ps

/-- The paths of a list, each at its first position only. -/
def distinct (ps : List Path) : List Path := distinctFrom [] ps

/-- The paths of a list in their order. -/
def sort (ps : List Path) : List Path := ps.mergeSort fun p q => (compare p q).isLE

end Path

end MibCorpus
