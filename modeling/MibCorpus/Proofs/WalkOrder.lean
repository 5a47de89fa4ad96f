import Mathlib.Data.Nat.Find
import MibCorpus.Proofs.PrefixTree

/-!
# What a walk visits

A walk from a node goes through the nodes at or below it in the order of their OIDs and stops behind
the first one that the visitor answers false on. What the visitor remembers from call to call makes
no difference, and the walk always ends.
-/

namespace MibCorpus

namespace Mib

section Walks

variable (mib : Mib) {σ : Type} (visitor : OidNode → σ → Bool × σ)

/-- The nodes at or below one, that is those whose OIDs start with its OID. -/
def nodesUnder (n : OidNode) : List OidNode :=
  mib.nodes.toList.filter fun m => (mib.oidOf n).isPrefixOf (mib.oidOf m)

/-- The walk from a node ends. It makes these calls of the visitor and no others, and comes to this
answer and state. -/
structure Walked (i : NodeId) (s : σ) (calls : List OidNode) (out : Bool × σ) : Prop where
  course : ∀ calls' out', mib.WalksFrom visitor i s calls' out' ↔ calls' = calls ∧ out' = out
  result : mib.walk i visitor s = out

/-- Walks of a model go through the nodes in the order of their OIDs. -/
structure WalksInOrder : Prop where
  /-- The nodes at or below one are listed in the order of their OIDs. -/
  ordered : ∀ n, (mib.nodesUnder n).Pairwise fun m m' =>
    compare (mib.oidOf m) (mib.oidOf m') = .lt
  /-- A walk that does not start at a node calls nothing and answers true. -/
  missing : ∀ {σ : Type} (visitor : OidNode → σ → Bool × σ) (i : NodeId) (s : σ),
    mib.node? i = none → mib.Walked visitor i s [] (true, s)
  /-- If the visitor does not answer false on any of the nodes at or below the start, each of them
  is visited, and the walk answers true. -/
  finished : ∀ {σ : Type} (visitor : OidNode → σ → Bool × σ) (i : NodeId) (n : OidNode) (s : σ),
    mib.node? i = some n → (∀ k, ¬RefusesAt visitor (mib.nodesUnder n) s k) →
      mib.Walked visitor i s (mib.nodesUnder n) (true, stateAfter visitor (mib.nodesUnder n) s)
  /-- Otherwise the nodes up to the first one that the visitor answers false on are visited, and the
  walk answers false. -/
  stopped : ∀ {σ : Type} (visitor : OidNode → σ → Bool × σ) (i : NodeId) (n : OidNode) (s : σ) k,
    mib.node? i = some n → RefusesAt visitor (mib.nodesUnder n) s k →
      (∀ j < k, ¬RefusesAt visitor (mib.nodesUnder n) s j) →
        mib.Walked visitor i s ((mib.nodesUnder n).take (k + 1))
          (false, stateAfter visitor ((mib.nodesUnder n).take (k + 1)) s)
  /-- So a walk answers false if the visitor does. -/
  answer : ∀ {σ : Type} (visitor : OidNode → σ → Bool × σ) (i : NodeId) (n : OidNode) (s : σ),
    mib.node? i = some n →
      ((mib.walk i visitor s).1 = false ↔ ∃ k, RefusesAt visitor (mib.nodesUnder n) s k)

variable {mib visitor} {i : NodeId} {n : OidNode} {s : σ} {calls ns : List OidNode} {out : Bool × σ}

/-- A walk has no other course than one that it has. -/
lemma walked_of_course (course : mib.WalksFrom visitor i s calls out)
    (result : mib.walk i visitor s = out) : mib.Walked visitor i s calls out := by
  refine ⟨fun calls' out' => ⟨fun other => other.unique course, ?_⟩, result⟩
  rintro ⟨rfl, rfl⟩
  exact course

/-- If some node is refused, there is a first one. -/
lemma exists_first_refusesAt (h : ∃ k, RefusesAt visitor ns s k) :
    ∃ k, RefusesAt visitor ns s k ∧ ∀ j < k, ¬RefusesAt visitor ns s j := by
  classical exact ⟨Nat.find h, Nat.find_spec h, fun j => Nat.find_min h⟩

/-- A walk that is a tour makes the calls of the tour and ends as it does. -/
lemma MakesTour.walked (h : mib.MakesTour visitor (mib.walk · visitor) i ns s)
    (tour_eq : tour visitor ns s = (calls, out)) : mib.Walked visitor i s calls out := by
  obtain ⟨course, result⟩ := h
  rw [tour_eq] at course result
  exact walked_of_course course result

/-- A walk from what is no node is over at once, even if no level may be entered. -/
lemma walk_of_missing (absent : mib.node? i = none) : mib.walk i visitor s = (true, s) := by
  unfold walk
  cases mib.nodes.size with
  | zero => rfl
  | succ depth => rw [walkLevels, absent]

end Walks

namespace HasSortedTree

variable {mib : Mib} {os : List Oid} {claimants : Oid → List AssignmentId}

/-- In a sorted tree the nodes under one are those of its subtree. -/
lemma nodesUnder_among (h : mib.HasSortedTree os claimants) {o : Oid} (ho : o ∈ os) :
    mib.nodesUnder (.among os claimants o) = OidNode.subtree os claimants o := by
  rw [nodesUnder, h.toList_nodes, List.filter_map, h.oidOf_among ho, OidNode.subtree, Oid.under]
  refine congrArg _ (List.filter_congr fun p hp => ?_)
  rw [Function.comp_apply, h.oidOf_among hp]

/-- A walk from a node is a tour of the nodes at or below it. -/
lemma makesTour_nodesUnder (h : mib.HasSortedTree os claimants) {σ : Type}
    (visitor : OidNode → σ → Bool × σ) {i : NodeId} {n : OidNode} (hn : mib.node? i = some n)
    (s : σ) : mib.MakesTour visitor (mib.walk · visitor) i (mib.nodesUnder n) s := by
  obtain ⟨o, ho, rfl, rfl⟩ := h.exists_of_node? hn
  have mem := List.mem_of_getElem? ho
  rw [h.nodesUnder_among mem]
  exact h.makesTour_walk visitor mem s

/-- The walks of a model with a sorted tree go in order. -/
lemma walksInOrder (h : mib.HasSortedTree os claimants) : mib.WalksInOrder := by
  have finished {σ : Type} (visitor : OidNode → σ → Bool × σ) (i : NodeId) (n : OidNode) (s : σ)
      (hn : mib.node? i = some n) (agrees : ∀ k, ¬RefusesAt visitor (mib.nodesUnder n) s k) :=
    (h.makesTour_nodesUnder visitor hn s).walked (tour_eq_of_not_refusesAt agrees)
  have stopped {σ : Type} (visitor : OidNode → σ → Bool × σ) (i : NodeId) (n : OidNode) (s : σ) k
      (hn : mib.node? i = some n) (refuses : RefusesAt visitor (mib.nodesUnder n) s k)
      (agrees : ∀ j < k, ¬RefusesAt visitor (mib.nodesUnder n) s j) :=
    (h.makesTour_nodesUnder visitor hn s).walked (tour_eq_of_refusesAt refuses agrees)
  refine ⟨fun n => h.pairwise_oidOf.filter _, fun _ _ _ absent => ?_, finished, stopped,
    fun visitor i n s hn => ?_⟩
  · exact walked_of_course (.missing absent) (walk_of_missing absent)
  · by_cases refuses : ∃ k, RefusesAt visitor (mib.nodesUnder n) s k
    · obtain ⟨k, first, agrees⟩ := exists_first_refusesAt refuses
      rw [(stopped visitor i n s k hn first agrees).result]
      exact iff_of_true rfl refuses
    · rw [(finished visitor i n s hn (not_exists.1 refuses)).result]
      exact iff_of_false Bool.noConfusion refuses

end HasSortedTree

end Mib

/-- In the model of every run a walk visits the nodes at or below its start in the order of their
OIDs, up to the first one that the visitor answers false on. -/
theorem Pipeline.walksInOrder_runParsed (p : Pipeline) (files : List ParsedFile) :
    modelOf (p.runParsed files).1 = some (p.resolve files).1.mib ∧
      (p.resolve files).1.mib.WalksInOrder := by
  obtain ⟨linked, types, oids, s, -, bare, final⟩ := Draft.exists_finalized p files
  refine ⟨modelOf_runParsed p files, ?_⟩
  rw [final]
  exact (Draft.hasSortedTree_finalize bare).walksInOrder

end MibCorpus
