import MibCorpus.Draft.Basic

/-!
# OID values

An OID value is an anchor followed by arcs. The anchor is a topmost arc or the name of something
that has an OID; every later component must spell out its arc.
-/

namespace MibCorpus

/-- What an OID value starts from. -/
inductive Anchor where
  /-- A topmost arc. -/
  | arc (arc : Arc)
  /-- A name, which may come with the name of a module. -/
  | name (qualifier : Option String) (name : String)
  deriving DecidableEq

/-- The anchor as written. -/
def Anchor.text : Anchor → String
  | arc a => a.text
  | name (some module) n => module ++ "." ++ n
  | name none n => n

/-- An OID value: an anchor and the arcs behind it. -/
structure OidValue where
  anchor : Anchor
  arcs : List Arc
  deriving DecidableEq

/-- What is wrong with a written OID value. -/
inductive OidDefect where
  | empty
  /-- A component behind the first has a name and no arc. -/
  | nameBehindAnchor (name : String)
  deriving DecidableEq

namespace OidValue

/-- What the first component of a value starts from. A name with an arc counts as that arc. -/
def anchorOf : OidComponent → Anchor
  | .arc a | .namedArc _ a => .arc a
  | .name n => .name none n
  | .qualified module n => .name (some module) n

/-- The arcs of the components behind the first. -/
def arcsOf : List OidComponent → Except OidDefect (List Arc)
  | [] => .ok []
  | c :: cs =>
    match c.arc? with
    | some a => (arcsOf cs).map (a :: ·)
    | none => .error (.nameBehindAnchor (c.name?.getD ""))

/-- Reads a written OID value. -/
def ofComponents : List OidComponent → Except OidDefect OidValue
  | [] => .error .empty
  | c :: cs => (arcsOf cs).map fun arcs => ⟨anchorOf c, arcs⟩

end OidValue

/-- What to report about a defect in the OID value of `name`. -/
def OidDefect.finding (name : String) : OidDefect → Finding
  | empty => .emptyOid name
  | nameBehindAnchor component => .nameInsideOid name component

/-- An OID value that waits to become an OID: whose it is, and from where its names are seen. -/
structure OidEntry where
  assignment : AssignmentId
  module : ModuleId
  value : OidValue
  deriving DecidableEq

namespace Draft

/-- The written OID values of all definitions that have not been left out. -/
def writtenOids (d : Draft) : List (AssignmentId × ModuleId × String × List OidComponent) :=
  (d.definitions.filter fun x => d.isIncluded x.1).filterMap fun x =>
    x.2.2.oid?.map fun oid => (x.1, x.2.1, x.2.2.name, oid)

/-- The values without a defect. -/
def oidEntries (d : Draft) : List OidEntry :=
  d.writtenOids.filterMap fun x =>
    match OidValue.ofComponents x.2.2.2 with
    | .ok value => some ⟨x.1, x.2.1, value⟩
    | .error _ => none

/-- The values with a defect, and what to report about each. -/
def oidDefects (d : Draft) : List (AssignmentId × Finding) :=
  d.writtenOids.filterMap fun x =>
    match OidValue.ofComponents x.2.2.2 with
    | .ok _ => none
    | .error defect => some (x.1, defect.finding x.2.2.1)

/-- Reports the values with a defect. -/
def reportOidDefects (d : Draft) : Draft :=
  d.oidDefects.foldl (fun d x => (d.reportAbout x.2 x.1).setState x.1 .unresolved) d

end Draft

end MibCorpus
