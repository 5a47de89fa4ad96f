import MibCorpus.Draft.Sweep
import MibCorpus.Typing.Lowering

/-!
# Binding type references

A reference is bound to the topmost node of the type that it names once the refinement chain of that
node has no unbound reference. What the sweeps leave over is either bound all the same, because only
something further down is broken, or reported.
-/

namespace MibCorpus.Draft

/-- What a reference is bound to: a node and the module that its definition stands in. -/
structure TypeTarget where
  node : TypeId
  module : ModuleId
  deriving DecidableEq

/-- What the name of a reference stands for. -/
def lookupReference (d : Draft) (r : PendingReference) : Lookup :=
  d.scope.resolveFrom r.module r.qualifier r.symbol

/-- The type that an assignment defines. -/
def definedType? (a : Assignment) : Option TypeTarget :=
  if a.kind.isType then a.type.map (⟨·, a.module⟩) else none

/-- The type that a reference names. -/
def targetOf? (d : Draft) (r : PendingReference) : Option TypeTarget :=
  ((d.lookupReference r).found?.bind d.mib.assignment?).bind definedType?

/-- Whether no reference on the refinement chain of a node is unbound. -/
def isChainBound (d : Draft) (t : TypeId) : Bool :=
  (d.mib.typeChain t).all (!·.shape.isUnbound)

/-- The type that a reference names, if it is ready to be bound to. -/
def readyTarget? (d : Draft) (r : PendingReference) : Option TypeTarget :=
  (d.targetOf? r).filter fun t => d.isChainBound t.node

/-- Binds a reference. The module of the target is kept if it is another one. -/
def bindReference (d : Draft) (r : PendingReference) (target : TypeTarget) : Draft :=
  let importedFrom := if target.module = r.module then none else some target.module
  { d with mib := d.mib.modifyType r.node fun n =>
      match n.shape with
      | .reference symbol qualifier _ _ =>
        { n with shape := .reference symbol qualifier (some target.node) importedFrom }
      | _ => n }

/-- The event of binding a reference. -/
def bindingEvent (r : PendingReference) : Event := .typeResolved r.module r.symbol

/-- How references are settled. -/
def referenceRule : SweepRule PendingReference TypeTarget where
  phase := .types
  decide? := readyTarget?
  apply := bindReference
  event _ r _ := bindingEvent r

/-! ## What is left over -/

/-- The assignment that the type of `a` waits for: the one named by the first unbound reference on
its refinement chain. -/
def waitsFor? (d : Draft) (pending : List PendingReference) (a : AssignmentId) :
    Option AssignmentId := do
  let entry ← d.mib.assignment? a
  let chain := d.mib.typeChain (← entry.type)
  let blocking ← chain.find? (·.shape.isUnbound)
  let r ← pending.find? (·.node = blocking.id)
  (d.lookupReference r).found?

/-- Whether `n` steps of waiting lead from `current` to `target`, or fewer. -/
def leadsTo (d : Draft) (pending : List PendingReference) (target : AssignmentId) :
    Nat → AssignmentId → Bool
  | 0, current => current = target
  | n + 1, current =>
    current = target ||
      match d.waitsFor? pending current with
      | some next => d.leadsTo pending target n next
      | none => false

/-- What becomes of a reference that the sweeps left over: it is bound to a type that waits for
something broken itself, or there is something to report. -/
def judgeReference (d : Draft) (pending : List PendingReference) (r : PendingReference) :
    Except Finding TypeTarget :=
  let referrer := d.mib.nameOf r.referrer
  match d.lookupReference r with
  | .notFound => .error (.undefinedType referrer r.text)
  | .ambiguous sources => .error (.ambiguousType referrer r.text sources.length)
  | .found a =>
    match d.targetOf? r with
    | none => .error (.valueAsType referrer r.text)
    | some target =>
      if d.leadsTo pending r.referrer d.mib.assignments.size a then
        .error (.circularType referrer r.text)
      else .ok target

/-- Carries out what was found about a reference. -/
def settleReference (dr : Draft × Recorder) (r : PendingReference)
    (verdict : Except Finding TypeTarget) : Draft × Recorder :=
  match verdict with
  | .ok target => (dr.1.bindReference r target, dr.2.emit .trace (bindingEvent r))
  | .error finding => (dr.1.reportAbout finding r.referrer, dr.2)

/-- Settles the references that the sweeps left over, all judged before the first is settled. -/
def settleLeftReferences (pending : List PendingReference) (d : Draft) (r : Recorder) :
    Draft × Recorder :=
  (pending.map fun p => (p, d.judgeReference pending p)).foldl
    (fun dr x => settleReference dr x.1 x.2) (d, r)

end MibCorpus.Draft
