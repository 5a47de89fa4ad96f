import MibCorpus.Draft.Basic
import Mathlib.Data.List.Nodup
import Mathlib.Data.List.Perm.Basic
import Mathlib.Logic.Equiv.Basic
import Mathlib.Tactic.Lemma

/-!
# Renamings

Identifiers are positions, so putting the entries of an arena into another order renames the
identifiers. A renaming is a permutation of all identifiers of an arena; those that stand for
nothing are renamed among themselves.
-/

namespace MibCorpus

/-- The entries of the second list are those of the first, with entry `i` at position `f i`. -/
def Moves {α : Type} (f : Equiv.Perm Nat) (xs ys : List α) : Prop := ∀ i, ys[f i]? = xs[i]?

/-- A permutation of the positions behind the first. -/
def liftPositions (f : Equiv.Perm Nat) : Equiv.Perm Nat where
  toFun
    | 0 => 0
    | i + 1 => f i + 1
  invFun
    | 0 => 0
    | i + 1 => f.symm i + 1
  left_inv i := by cases i <;> simp
  right_inv i := by cases i <;> simp

section Moves

variable {α : Type} {xs ys : List α} {f : Equiv.Perm Nat}

/-- Lists that are permutations of each other have their entries moved. -/
lemma exists_moves (h : xs.Perm ys) : ∃ f, Moves f xs ys := by
  induction h with
  | nil => exact ⟨.refl _, fun _ => rfl⟩
  | cons x _ ih =>
    obtain ⟨f, hf⟩ := ih
    refine ⟨liftPositions f, fun i => ?_⟩
    cases i with
    | zero => rfl
    | succ i => exact hf i
  | swap x y zs =>
    refine ⟨Equiv.swap 0 1, fun i => ?_⟩
    match i with
    | 0 => rfl
    | 1 => rfl
    | i + 2 => rw [Equiv.swap_apply_of_ne_of_ne (by omega) (by omega)]; rfl
  | trans _ _ ih ih' =>
    obtain ⟨f, hf⟩ := ih
    obtain ⟨g, hg⟩ := ih'
    exact ⟨f.trans g, fun i => (hg (f i)).trans (hf i)⟩

/-- Lists whose entries are moved are permutations of each other. -/
lemma Moves.perm (h : Moves f xs ys) : ys.Perm xs := by
  have listed : ∀ zs : List α, zs = (List.range zs.length).filterMap (zs[·]?) := by
    intro zs
    induction zs with
    | nil => rfl
    | cons z zs ih =>
      rw [List.length_cons, List.range_succ_eq_map, List.filterMap_cons, List.filterMap_map]
      exact congrArg (z :: ·) ih
  have positions : ((List.range xs.length).map f).Perm (List.range ys.length) := by
    rw [List.perm_ext_iff_of_nodup (List.nodup_range.map f.injective) List.nodup_range]
    intro j
    have e := h (f.symm j)
    rw [Equiv.apply_symm_apply] at e
    have bound : j < ys.length ↔ f.symm j < xs.length := by
      rw [← Nat.not_le, ← Nat.not_le, ← List.getElem?_eq_none_iff, ← List.getElem?_eq_none_iff, e]
    rw [List.mem_map, List.mem_range, bound]
    constructor
    · rintro ⟨i, hi, rfl⟩
      simpa using hi
    · exact fun hj => ⟨_, List.mem_range.2 hj, by simp⟩
  have same := positions.filterMap (ys[·]?)
  rw [List.filterMap_map, ← listed ys] at same
  have e : (ys[·]?) ∘ f = (xs[·]?) := funext h
  rw [e, ← listed xs] at same
  exact same.symm

end Moves

/-- What has a key is found by it, wherever it stands. -/
lemma find?_eq_some_iff_of_nodup {α β : Type} [DecidableEq β] {key : α → β} {xs : List α}
    (nodup : (xs.map key).Nodup) {k : β} {x : α} :
    xs.find? (key · = k) = some x ↔ x ∈ xs ∧ key x = k := by
  constructor
  · intro h
    exact ⟨List.mem_of_find?_eq_some h, by simpa using List.find?_some h⟩
  · rintro ⟨hx, rfl⟩
    cases h : xs.find? (key · = key x) with
    | none =>
      have no := List.find?_eq_none.1 h x hx
      simp at no
    | some y =>
      have same : key y = key x := by simpa using List.find?_some h
      rw [List.inj_on_of_nodup_map nodup (List.mem_of_find?_eq_some h) hx same]

/-- A permutation of positions renames identifiers. -/
def Ident.permute {a : Arena} (f : Equiv.Perm Nat) : Equiv.Perm (Ident a) where
  toFun i := ⟨f i.index⟩
  invFun i := ⟨f.symm i.index⟩
  left_inv i := by simp
  right_inv i := by simp

/-- A permutation of identifiers moves positions. -/
def Ident.positions {a : Arena} (e : Equiv.Perm (Ident a)) : Equiv.Perm Nat where
  toFun i := (e ⟨i⟩).index
  invFun i := (e.symm ⟨i⟩).index
  left_inv i := congrArg Ident.index (e.symm_apply_apply ⟨i⟩)
  right_inv i := congrArg Ident.index (e.apply_symm_apply ⟨i⟩)

end MibCorpus
