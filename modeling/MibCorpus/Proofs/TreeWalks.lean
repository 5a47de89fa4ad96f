import Mathlib.Tactic.Lemma
import MibCorpus.Model.Query

/-!
# Courses of walks

A walk calls its visitor on a node, then walks from each child in turn, and comes back through all
levels as soon as the visitor answers false. Its course is what happens on the way: the calls, the
last answer and the last state. A walk has one course at most; it has none where it never ends.
-/

namespace MibCorpus.Mib

section Courses

variable {σ : Type} (mib : Mib) (visitor : OidNode → σ → Bool × σ)

mutual

/-- The walk from a node in some state makes these calls and comes to this answer and state. -/
inductive WalksFrom : NodeId → σ → List OidNode → Bool × σ → Prop where
  | missing {i s} (absent : mib.node? i = none) : WalksFrom i s [] (true, s)
  | refused {i n s s'} (node : mib.node? i = some n) (no : visitor n s = (false, s')) :
    WalksFrom i s [n] (false, s')
  | entered {i n s s' calls out} (node : mib.node? i = some n) (yes : visitor n s = (true, s'))
    (below : WalksOver n.children s' calls out) : WalksFrom i s (n :: calls) out

/-- The walks from some nodes in turn, until one is stopped. -/
inductive WalksOver : List NodeId → σ → List OidNode → Bool × σ → Prop where
  | nil {s} : WalksOver [] s [] (true, s)
  | stopped {i is s s' calls} (first : WalksFrom i s calls (false, s')) :
    WalksOver (i :: is) s calls (false, s')
  | next {i is s s' calls calls' out} (first : WalksFrom i s calls (true, s'))
    (rest : WalksOver is s' calls' out) : WalksOver (i :: is) s (calls ++ calls') out

end

variable {mib visitor}

mutual

/-- A walk has one course at most. -/
lemma WalksFrom.unique {i : NodeId} {s : σ} {calls calls' : List OidNode} {out out' : Bool × σ} :
    mib.WalksFrom visitor i s calls out → mib.WalksFrom visitor i s calls' out' →
      calls = calls' ∧ out = out'
  | .missing _, .missing _ => ⟨rfl, rfl⟩
  | .missing absent, .refused node _ => by cases absent.symm.trans node
  | .missing absent, .entered node _ _ => by cases absent.symm.trans node
  | .refused node _, .missing absent => by cases absent.symm.trans node
  | .refused node no, .refused node' no' => by
    cases node.symm.trans node'
    cases no.symm.trans no'
    exact ⟨rfl, rfl⟩
  | .refused node no, .entered node' yes _ => by
    cases node.symm.trans node'
    cases no.symm.trans yes
  | .entered node _ _, .missing absent => by cases absent.symm.trans node
  | .entered node yes _, .refused node' no => by
    cases node.symm.trans node'
    cases no.symm.trans yes
  | .entered node yes below, .entered node' yes' below' => by
    cases node.symm.trans node'
    cases yes.symm.trans yes'
    obtain ⟨rfl, rfl⟩ := below.unique below'
    exact ⟨rfl, rfl⟩

/-- Walks over the same nodes make the same calls, with the same outcome. -/
lemma WalksOver.unique {is : List NodeId} {s : σ} {calls calls' : List OidNode}
    {out out' : Bool × σ} :
    mib.WalksOver visitor is s calls out → mib.WalksOver visitor is s calls' out' →
      calls = calls' ∧ out = out'
  | .nil, .nil => ⟨rfl, rfl⟩
  | .stopped first, .stopped first' => first.unique first'
  | .stopped first, .next first' _ => by cases (first.unique first').2
  | .next first _, .stopped first' => by cases (first.unique first').2
  | .next first rest, .next first' rest' => by
    obtain ⟨rfl, e⟩ := first.unique first'
    cases e
    obtain ⟨rfl, rfl⟩ := rest.unique rest'
    exact ⟨rfl, rfl⟩

end

end Courses

/-! ## Visits in a row -/

section Tours

variable {σ : Type} {visitor : OidNode → σ → Bool × σ} {n : OidNode} {ns ms : List OidNode}
  {s s' : σ}

/-- The calls, the last answer and the last state when nodes are visited in a row until the visitor
answers false. -/
def tour (visitor : OidNode → σ → Bool × σ) : List OidNode → σ → List OidNode × Bool × σ
  | [], s => ([], true, s)
  | n :: ns, s =>
    match visitor n s with
    | (true, s) => (n :: (tour visitor ns s).1, (tour visitor ns s).2)
    | (false, s) => ([n], false, s)

/-- A tour goes on behind a node that the visitor answers true on. -/
lemma tour_cons_of_true (yes : visitor n s = (true, s')) :
    tour visitor (n :: ns) s = (n :: (tour visitor ns s').1, (tour visitor ns s').2) := by
  rw [tour, yes]

/-- A tour stops at a node that the visitor answers false on. -/
lemma tour_cons_of_false (no : visitor n s = (false, s')) :
    tour visitor (n :: ns) s = ([n], false, s') := by
  rw [tour, no]

/-- A tour goes on behind a list that it comes to the end of. -/
lemma tour_append_of_true (h : (tour visitor ns s).2 = (true, s')) :
    tour visitor (ns ++ ms) s =
      ((tour visitor ns s).1 ++ (tour visitor ms s').1, (tour visitor ms s').2) := by
  induction ns generalizing s with
  | nil =>
    cases h
    rfl
  | cons n ns ih =>
    rcases hv : visitor n s with ⟨answer, s₁⟩
    cases answer with
    | true =>
      rw [tour_cons_of_true hv] at h
      rw [List.cons_append, tour_cons_of_true hv, tour_cons_of_true hv, ih h]
      rfl
    | false =>
      rw [tour_cons_of_false hv] at h
      cases h

/-- A tour that is stopped in a list never gets behind it. -/
lemma tour_append_of_false (h : (tour visitor ns s).2 = (false, s')) :
    tour visitor (ns ++ ms) s = tour visitor ns s := by
  induction ns generalizing s with
  | nil => cases h
  | cons n ns ih =>
    rcases hv : visitor n s with ⟨answer, s₁⟩
    cases answer with
    | true =>
      rw [tour_cons_of_true hv] at h
      rw [List.cons_append, tour_cons_of_true hv, tour_cons_of_true hv, ih h]
    | false => rw [List.cons_append, tour_cons_of_false hv, tour_cons_of_false hv]

/-- The walk from a node is a tour of some nodes, and a function gives its result. -/
structure MakesTour (mib : Mib) (visitor : OidNode → σ → Bool × σ) (walk : NodeId → σ → Bool × σ)
    (i : NodeId) (ns : List OidNode) (s : σ) : Prop where
  course : mib.WalksFrom visitor i s (tour visitor ns s).1 (tour visitor ns s).2
  result : walk i s = (tour visitor ns s).2

variable {mib : Mib} {walk : NodeId → σ → Bool × σ} {α : Type} {place : α → NodeId}
  {below : α → List OidNode} {cs : List α}

/-- Walks in turn, each of which is a tour of some nodes, are a tour of all these in a row. -/
lemma walksOver_of_makesTour
    (each : ∀ c ∈ cs, ∀ s, mib.MakesTour visitor walk (place c) (below c) s)
    (s : σ) :
    mib.WalksOver visitor (cs.map place) s (tour visitor (cs.flatMap below) s).1
        (tour visitor (cs.flatMap below) s).2 ∧
      visitAll walk (cs.map place) s = (tour visitor (cs.flatMap below) s).2 := by
  induction cs generalizing s with
  | nil => exact ⟨.nil, rfl⟩
  | cons c cs ih =>
    obtain ⟨course, result⟩ := each c (List.mem_cons_self ..) s
    rw [List.map_cons, List.flatMap_cons, visitAll, result]
    rcases out : (tour visitor (below c) s).2 with ⟨answer, s'⟩
    rw [out] at course
    cases answer with
    | true =>
      obtain ⟨rest, result'⟩ := ih (fun c' hc' => each c' (List.mem_cons_of_mem _ hc')) s'
      rw [tour_append_of_true out]
      exact ⟨.next course rest, result'⟩
    | false =>
      rw [tour_append_of_false out, out]
      exact ⟨.stopped course, rfl⟩

/-! ## Refusals -/

/-- The state after the visitor was called on some nodes in a row, whatever it answered. -/
def stateAfter (visitor : OidNode → σ → Bool × σ) (ns : List OidNode) (s : σ) : σ :=
  ns.foldl (fun s n => (visitor n s).2) s

/-- The state after some calls is that after the others, started behind the first. -/
lemma stateAfter_cons :
    stateAfter visitor (n :: ns) s = stateAfter visitor ns (visitor n s).2 := rfl

/-- Called on all nodes before it in a row, the visitor answers false on the node at position
`k`. -/
def RefusesAt (visitor : OidNode → σ → Bool × σ) (ns : List OidNode) (s : σ) (k : Nat) : Prop :=
  ∃ n, ns[k]? = some n ∧ (visitor n (stateAfter visitor (ns.take k) s)).1 = false

/-- The visitor refuses the first node if it answers false on it. -/
lemma refusesAt_zero : RefusesAt visitor (n :: ns) s 0 ↔ (visitor n s).1 = false := by
  simp [RefusesAt, stateAfter]

/-- A refusal behind the first node is one among the others, from the state behind the first. -/
lemma refusesAt_succ {k : Nat} :
    RefusesAt visitor (n :: ns) s (k + 1) ↔ RefusesAt visitor ns (visitor n s).2 k := Iff.rfl

/-- Without a refusal the tour goes through all nodes. -/
lemma tour_eq_of_not_refusesAt (agrees : ∀ k, ¬RefusesAt visitor ns s k) :
    tour visitor ns s = (ns, true, stateAfter visitor ns s) := by
  induction ns generalizing s with
  | nil => rfl
  | cons n ns ih =>
    rcases hv : visitor n s with ⟨answer, s'⟩
    have yes : answer = true := by simpa [refusesAt_zero, hv] using agrees 0
    subst yes
    have later : ∀ k, ¬RefusesAt visitor ns s' k := by
      intro k
      simpa only [refusesAt_succ, hv] using agrees (k + 1)
    rw [tour_cons_of_true hv, ih later, stateAfter_cons, hv]

/-- The tour is stopped at the first refusal. -/
lemma tour_eq_of_refusesAt {k : Nat} (refuses : RefusesAt visitor ns s k)
    (agrees : ∀ j < k, ¬RefusesAt visitor ns s j) :
    tour visitor ns s = (ns.take (k + 1), false, stateAfter visitor (ns.take (k + 1)) s) := by
  induction ns generalizing s k with
  | nil =>
    obtain ⟨n, hn, -⟩ := refuses
    cases hn
  | cons n ns ih =>
    rcases hv : visitor n s with ⟨answer, s'⟩
    cases k with
    | zero =>
      have no : answer = false := by simpa [refusesAt_zero, hv] using refuses
      subst no
      rw [tour_cons_of_false hv, List.take_succ_cons, List.take_zero, stateAfter_cons, hv]
      rfl
    | succ k =>
      have yes : answer = true := by
        simpa [refusesAt_zero, hv] using agrees 0 (Nat.succ_pos k)
      subst yes
      rw [refusesAt_succ, hv] at refuses
      have later : ∀ j < k, ¬RefusesAt visitor ns s' j := by
        intro j lt
        simpa only [refusesAt_succ, hv] using agrees (j + 1) (Nat.succ_lt_succ lt)
      rw [tour_cons_of_true hv, ih refuses later, List.take_succ_cons, stateAfter_cons, hv]

end Tours

end MibCorpus.Mib
