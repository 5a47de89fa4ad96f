import MibCorpus.Draft.Basic
import MibCorpus.Trace.Event

/-!
# Sweeps

Type references and OID values are settled by the same kind of loop. A sweep decides every pending
entry against the draft as it stood when the sweep began and then carries out the decisions that
were made; sweeps follow one another until one decides nothing.
-/

namespace MibCorpus

/-- How the entries of a phase are settled: the decision about an entry, what it does to the draft,
and the event that tells of it. -/
structure SweepRule (α β : Type) where
  phase : Phase
  decide? : Draft → α → Option β
  apply : Draft → α → β → Draft
  event : Draft → α → β → Event

namespace SweepRule

variable {α β : Type}

/-- The entries that a decision is made about, with the decision, and the others. -/
def split (f : α → Option β) : List α → List (α × β) × List α
  | [] => ([], [])
  | x :: xs =>
    let (decided, remaining) := split f xs
    match f x with
    | some y => ((x, y) :: decided, remaining)
    | none => (decided, x :: remaining)

/-- Splitting a list pairs what has a value with it, and keeps the rest. -/
theorem split_eq (f : α → Option β) (xs : List α) :
    split f xs = (xs.filterMap fun x => (f x).map (x, ·), xs.filter fun x => (f x).isNone) := by
  induction xs with
  | nil => rfl
  | cons x xs ih => cases h : f x <;> simp [split, ih, h]

/-- The draft with a list of decisions carried out in order. -/
def applyAll (rule : SweepRule α β) (d : Draft) (decided : List (α × β)) : Draft :=
  decided.foldl (fun d x => rule.apply d x.1 x.2) d

/-- Sweeps over the pending entries, the first of them numbered `pass`. What is left over comes with
the draft and the recorder. -/
def run (rule : SweepRule α β) (pass : Nat) (pending : List α) (d : Draft) (r : Recorder) :
    List α × Draft × Recorder :=
  if pending.isEmpty then ([], d, r)
  else
    let sweep := split (rule.decide? d) pending
    let r := r.sweepStart rule.phase pass pending.length
    let r := r.emitAll .trace (sweep.1.map fun x => rule.event d x.1 x.2)
    let d := rule.applyAll d sweep.1
    let r := r.sweepEnd rule.phase pass sweep.1.length sweep.2.length
    if sweep.2.length < pending.length then rule.run (pass + 1) sweep.2 d r
    else (sweep.2, d, r)
  termination_by pending.length

end SweepRule

end MibCorpus
