import MibCorpus.Typing.Binding
import Mathlib.Data.Finset.Card
import Mathlib.Tactic.Lemma

/-!
# How far steps lead

Refinement chains and waiting are followed for a bounded number of steps. The bound does not matter
where it is at least the number of places that a step can be made from: a longer way comes through
some place twice and can be cut short.
-/

namespace MibCorpus

section Steps

variable {α : Type} {step : α → Option α}

/-- Where `n` steps lead. -/
def stepsFrom (step : α → Option α) : Nat → α → Option α
  | 0, a => some a
  | n + 1, a => (step a).bind (stepsFrom step n)

/-- To take `m + n` steps is to take `m`, then `n`. -/
lemma stepsFrom_add (m n : Nat) (a : α) :
    stepsFrom step (m + n) a = (stepsFrom step m a).bind (stepsFrom step n) := by
  induction m generalizing a with
  | zero => rw [Nat.zero_add]; rfl
  | succ m ih =>
    rw [Nat.add_right_comm, stepsFrom, stepsFrom, Option.bind_assoc]
    exact Option.bind_congr fun b _ => ih b

/-- Steps end in one place. -/
lemma eq_of_stepsFrom {i j : Nat} {a b c : α} (hb : stepsFrom step i a = some b)
    (hc : stepsFrom step j a = some c) (endsB : step b = none) (endsC : step c = none) : b = c := by
  have last : ∀ {i j : Nat} {b c : α}, i ≤ j → stepsFrom step i a = some b →
      stepsFrom step j a = some c → step b = none → b = c := by
    intro i j b c le hb hc ends
    obtain ⟨k, rfl⟩ := Nat.exists_eq_add_of_le le
    rw [stepsFrom_add, hb, Option.bind_some] at hc
    cases k with
    | zero => exact Option.some.inj hc
    | succ k => simp [stepsFrom, ends] at hc
  rcases Nat.le_total i j with le | le
  · exact last le hb hc endsB
  · exact (last le hc hb endsC).symm

/-- What steps lead to, as many steps lead to as there are places to make them from, or fewer. -/
theorem exists_stepsFrom_le [DecidableEq α] {places : List α}
    (all : ∀ a b, step a = some b → a ∈ places) {n : Nat} {a b : α}
    (h : stepsFrom step n a = some b) : ∃ k ≤ places.length, stepsFrom step k a = some b := by
  induction n using Nat.strongRecOn with
  | ind n ih =>
    by_cases le : n ≤ places.length
    · exact ⟨n, le, h⟩
    -- The way is so long that it is somewhere twice.
    have between : ∀ i ∈ Finset.range n, stepsFrom step i a ∈ (places.map some).toFinset := by
      intro i hi
      obtain ⟨k, rfl⟩ := Nat.exists_eq_add_of_lt (Finset.mem_range.1 hi)
      rw [Nat.add_assoc, stepsFrom_add, Option.bind_eq_some_iff] at h
      obtain ⟨x, hx, rest⟩ := h
      obtain ⟨y, hy, -⟩ := Option.bind_eq_some_iff.1 rest
      rw [hx, List.mem_toFinset]
      exact List.mem_map_of_mem (all x y hy)
    have fewer : (places.map some).toFinset.card < (Finset.range n).card := by
      have card := List.toFinset_card_le (places.map some)
      rw [List.length_map] at card
      rw [Finset.card_range]
      omega
    obtain ⟨i, hi, j, hj, ne, same⟩ := Finset.exists_ne_map_eq_of_card_lt_of_maps_to fewer between
    have cut : ∀ {i j : Nat}, i < j → j < n → stepsFrom step i a = stepsFrom step j a →
        ∃ k ≤ places.length, stepsFrom step k a = some b := by
      intro i j lt hj same
      refine ih (i + (n - j)) (by omega) ?_
      rw [stepsFrom_add, same, ← stepsFrom_add, Nat.add_sub_cancel' hj.le]
      exact h
    rcases Nat.lt_or_gt_of_ne ne with lt | gt
    · exact cut lt (Finset.mem_range.1 hj) same
    · exact cut gt (Finset.mem_range.1 hi) same.symm

/-- Steps from identifiers below a bound lead no further than within that many steps. -/
lemma exists_stepsFrom_le_of_index_lt {r : Arena} {step : Ident r → Option (Ident r)} {m : Nat}
    (bounded : ∀ a b, step a = some b → a.index < m) {n : Nat} {a b : Ident r}
    (h : stepsFrom step n a = some b) : ∃ k ≤ m, stepsFrom step k a = some b := by
  have places : ∀ a b, step a = some b → a ∈ (List.range m).map Ident.mk :=
    fun a b hab => List.mem_map.2 ⟨a.index, List.mem_range.2 (bounded a b hab), rfl⟩
  have few := exists_stepsFrom_le places h
  rwa [List.length_map, List.length_range] at few

/-- Steps that are matched one by one lead to places that match. -/
lemma stepsFrom_map {β : Type} {step' : β → Option β} {f : α → β} {live : α → Prop}
    (matched : ∀ a, live a → step' (f a) = (step a).map f)
    (stays : ∀ a b, live a → step a = some b → live b) (n : Nat) {a : α} (ha : live a) :
    stepsFrom step' n (f a) = (stepsFrom step n a).map f ∧
      ∀ b, stepsFrom step n a = some b → live b := by
  induction n generalizing a with
  | zero =>
    refine ⟨rfl, ?_⟩
    rintro b ⟨⟩
    exact ha
  | succ n ih =>
    rw [stepsFrom, stepsFrom, matched a ha]
    cases hs : step a with
    | none => exact ⟨rfl, nofun⟩
    | some b => exact ih (stays a b ha hs)

end Steps

/-! ## Refinement chains -/

namespace Mib

/-- The node that a node refines. -/
def refined? (mib : Mib) (t : TypeId) : Option TypeId := (mib.type? t).bind (·.shape.parent?)

/-- From no type there is no chain. -/
lemma chainFrom_none (mib : Mib) (n : Nat) : mib.chainFrom n none = [] := by
  cases n <;> rfl

/-- A refinement chain lists where steps of refinement lead. -/
lemma getElem?_chainFrom (mib : Mib) (n k : Nat) (t : TypeId) :
    (mib.chainFrom n (some t))[k]? =
      if k < n then (stepsFrom mib.refined? k t).bind mib.type? else none := by
  induction n generalizing k t with
  | zero => rfl
  | succ n ih =>
    rw [chainFrom]
    cases k with
    | zero =>
      rw [if_pos (Nat.succ_pos n)]
      change _ = mib.type? t
      cases mib.type? t <;> rfl
    | succ k =>
      simp only [Nat.add_lt_add_iff_right, stepsFrom, refined?]
      cases ht : mib.type? t with
      | none => simp
      | some x =>
        rw [List.getElem?_cons_succ]
        cases hp : x.shape.parent? with
        | none => simp [chainFrom_none, hp]
        | some p => simp only [ih, Option.bind_some, hp]

/-- An unbound reference has no parent. -/
lemma parent?_of_isUnbound {s : TypeShape} (h : s.isUnbound) : s.parent? = none := by
  cases s with
  | reference symbol qualifier target from? =>
    cases target with
    | none => rfl
    | some => cases h
  | builtin | enumeration | sequence | sequenceOf | choice | textualConvention => cases h

/-- A refinement chain lists every node that refinement comes to. -/
lemma mem_typeChain {mib : Mib} {t : TypeId} {n : TypeNode} :
    n ∈ mib.typeChain t ↔ ∃ k, (stepsFrom mib.refined? k t).bind mib.type? = some n := by
  constructor
  · intro hn
    obtain ⟨k, hk⟩ := List.mem_iff_getElem?.1 hn
    rw [typeChain, getElem?_chainFrom] at hk
    split at hk
    · exact ⟨k, hk⟩
    · cases hk
  · rintro ⟨j, hj⟩
    obtain ⟨u, hu, hn⟩ := Option.bind_eq_some_iff.1 hj
    have stored : ∀ a b, mib.refined? a = some b → a.index < mib.types.size := by
      intro a b hab
      obtain ⟨x, hx, -⟩ := Option.bind_eq_some_iff.1 hab
      exact (Array.getElem?_eq_some_iff.1 hx).1
    obtain ⟨k, le, hk⟩ := exists_stepsFrom_le_of_index_lt stored hu
    refine List.mem_of_getElem? (i := k) ?_
    rw [typeChain, getElem?_chainFrom, if_pos (Nat.lt_succ_of_le le), hk]
    exact hn

/-- The unbound reference on a refinement chain is where refinement ends, if it does. -/
theorem find?_typeChain_eq_some_iff {mib : Mib} {t : TypeId} {n : TypeNode} :
    (mib.typeChain t).find? (·.shape.isUnbound) = some n ↔
      n.shape.isUnbound ∧ ∃ k, (stepsFrom mib.refined? k t).bind mib.type? = some n := by
  have ends : ∀ {u : TypeId} {n : TypeNode}, mib.type? u = some n → n.shape.isUnbound →
      mib.refined? u = none := by
    intro u n hn unbound
    rw [refined?, hn, Option.bind_some, parent?_of_isUnbound unbound]
  constructor
  · intro h
    exact ⟨by simpa using List.find?_some h, mem_typeChain.1 (List.mem_of_find?_eq_some h)⟩
  · rintro ⟨unbound, reached⟩
    cases hm : (mib.typeChain t).find? (·.shape.isUnbound) with
    | none => exact absurd unbound (List.find?_eq_none.1 hm n (mem_typeChain.2 reached))
    | some m =>
      -- Refinement ends at an unbound reference, so it does not come to two of them.
      have unbound' : m.shape.isUnbound := by simpa using List.find?_some hm
      obtain ⟨i, hi⟩ := mem_typeChain.1 (List.mem_of_find?_eq_some hm)
      obtain ⟨v, hv, hm⟩ := Option.bind_eq_some_iff.1 hi
      obtain ⟨j, hj⟩ := reached
      obtain ⟨u, hu, hn⟩ := Option.bind_eq_some_iff.1 hj
      rw [eq_of_stepsFrom hv hu (ends hm unbound') (ends hn unbound), hn] at hm
      exact hm.symm

end Mib

/-! ## Waiting -/

namespace Draft

variable {d : Draft} {pending : List PendingReference} {target current : AssignmentId}

/-- Waiting is followed for as many steps as there is fuel. -/
lemma leadsTo_iff_exists_le {n : Nat} : d.leadsTo pending target n current ↔
    ∃ k ≤ n, stepsFrom (d.waitsFor? pending) k current = some target := by
  induction n generalizing current with
  | zero => simp [leadsTo, stepsFrom]
  | succ n ih =>
    rw [leadsTo, Bool.or_eq_true, decide_eq_true_iff]
    constructor
    · rintro (rfl | h)
      · exact ⟨0, Nat.zero_le _, rfl⟩
      · cases hw : d.waitsFor? pending current with
        | none => simp [hw] at h
        | some next =>
          simp only [hw] at h
          obtain ⟨k, le, hk⟩ := ih.1 h
          exact ⟨k + 1, Nat.succ_le_succ le, by rw [stepsFrom, hw]; exact hk⟩
    · rintro ⟨k, le, hk⟩
      cases k with
      | zero => exact .inl (Option.some.inj hk)
      | succ k =>
        obtain ⟨next, hw, hk⟩ := Option.bind_eq_some_iff.1 hk
        refine .inr ?_
        simp only [hw]
        exact ih.2 ⟨k, Nat.le_of_succ_le_succ le, hk⟩

/-- Waiting is followed as far as it leads. -/
theorem leadsTo_iff : d.leadsTo pending target d.mib.assignments.size current ↔
    ∃ k, stepsFrom (d.waitsFor? pending) k current = some target := by
  rw [leadsTo_iff_exists_le]
  constructor
  · rintro ⟨k, -, hk⟩
    exact ⟨k, hk⟩
  · rintro ⟨k, hk⟩
    refine exists_stepsFrom_le_of_index_lt (fun a b hab => ?_) hk
    obtain ⟨x, hx, -⟩ := Option.bind_eq_some_iff.1 hab
    exact (Array.getElem?_eq_some_iff.1 hx).1

end Draft

end MibCorpus
