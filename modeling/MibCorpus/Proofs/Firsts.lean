import MibCorpus.Draft.Registration
import Mathlib.Data.List.Induction
import Mathlib.Data.List.Nodup
import Mathlib.Data.List.Perm.Basic
import Mathlib.Tactic.Lemma

/-!
# First occurrences

Of several entries with one key the first counts, and the others repeat it: they are doubles of the
first. Which entries come first does not depend on how entries of different keys are mixed, so
modules can be sorted by name before or after their repetitions are taken out.
-/

namespace MibCorpus

section Firsts

variable {α κ : Type} [DecidableEq κ] (key : α → κ)

/-- The entries whose key is neither in `seen` nor that of an earlier entry. -/
def firstsBy (seen : List κ) : List α → List α
  | [] => []
  | x :: xs => if key x ∈ seen then firstsBy seen xs else x :: firstsBy (key x :: seen) xs

/-- The entries whose key is in `seen` or that of an earlier entry. -/
def repeatsBy (seen : List κ) : List α → List α
  | [] => []
  | x :: xs => if key x ∈ seen then x :: repeatsBy seen xs else repeatsBy (key x :: seen) xs

variable {key} {seen seen' : List κ} {xs ys : List α} {x y : α} {k : κ}

/-- An element whose key was seen is no first. -/
lemma firstsBy_cons_of_mem (h : key x ∈ seen) :
    firstsBy key seen (x :: xs) = firstsBy key seen xs := if_pos h

/-- An element whose key is new is a first, and its key counts as seen from then on. -/
lemma firstsBy_cons_of_notMem (h : key x ∉ seen) :
    firstsBy key seen (x :: xs) = x :: firstsBy key (key x :: seen) xs := if_neg h

/-- An element whose key was seen is a repeat. -/
lemma repeatsBy_cons_of_mem (h : key x ∈ seen) :
    repeatsBy key seen (x :: xs) = x :: repeatsBy key seen xs := if_pos h

/-- An element whose key is new is no repeat, and its key counts as seen from then on. -/
lemma repeatsBy_cons_of_notMem (h : key x ∉ seen) :
    repeatsBy key seen (x :: xs) = repeatsBy key (key x :: seen) xs := if_neg h

/-- An entry comes first or repeats another. -/
lemma length_firstsBy_add (key : α → κ) (seen : List κ) (xs : List α) :
    (firstsBy key seen xs).length + (repeatsBy key seen xs).length = xs.length := by
  induction xs generalizing seen with
  | nil => rfl
  | cons x xs ih =>
    have tail := ih seen
    have tail' := ih (key x :: seen)
    by_cases h : key x ∈ seen
    · rw [firstsBy_cons_of_mem h, repeatsBy_cons_of_mem h, List.length_cons, List.length_cons]
      omega
    · rw [firstsBy_cons_of_notMem h, repeatsBy_cons_of_notMem h, List.length_cons,
        List.length_cons]
      omega

/-- It only matters which keys have been seen. -/
lemma firstsBy_congr (same : ∀ k, k ∈ seen ↔ k ∈ seen') (xs : List α) :
    firstsBy key seen xs = firstsBy key seen' xs := by
  induction xs generalizing seen seen' with
  | nil => rfl
  | cons x xs ih =>
    by_cases h : key x ∈ seen
    · rw [firstsBy_cons_of_mem h, firstsBy_cons_of_mem ((same _).1 h), ih same]
    · rw [firstsBy_cons_of_notMem h, firstsBy_cons_of_notMem (mt (same _).2 h)]
      exact congrArg (x :: ·) (ih fun k => by simp only [List.mem_cons, same])

/-- The firsts stand in the order of the list. -/
lemma firstsBy_sublist (key : α → κ) (seen : List κ) (xs : List α) :
    (firstsBy key seen xs).Sublist xs := by
  induction xs generalizing seen with
  | nil => exact .slnil
  | cons x xs ih =>
    rw [firstsBy]
    split
    · exact (ih _).cons _
    · exact (ih _).cons_cons _

/-- The keys that come up for the first time. -/
lemma mem_keys_firstsBy :
    k ∈ (firstsBy key seen xs).map key ↔ k ∈ xs.map key ∧ k ∉ seen := by
  induction xs generalizing seen with
  | nil => simp [firstsBy]
  | cons x xs ih =>
    by_cases h : key x ∈ seen
    · rw [firstsBy_cons_of_mem h, ih, List.map_cons, List.mem_cons]
      refine and_congr_left fun new => (or_iff_right ?_).symm
      rintro rfl
      exact new h
    · rw [firstsBy_cons_of_notMem h, List.map_cons, List.map_cons, List.mem_cons, List.mem_cons, ih,
        List.mem_cons]
      by_cases hk : k = key x
      · simp [hk, h]
      · simp [hk]

/-- No key comes up for the first time twice. -/
lemma nodup_keys_firstsBy (key : α → κ) (seen : List κ) (xs : List α) :
    ((firstsBy key seen xs).map key).Nodup := by
  induction xs generalizing seen with
  | nil => exact .nil
  | cons x xs ih =>
    by_cases h : key x ∈ seen
    · rw [firstsBy_cons_of_mem h]
      exact ih seen
    · rw [firstsBy_cons_of_notMem h, List.map_cons, List.nodup_cons]
      refine ⟨fun mem => ?_, ih _⟩
      exact (mem_keys_firstsBy.1 mem).2 (List.mem_cons_self ..)

/-- Where all keys are new and distinct, all entries come first. -/
lemma firstsBy_eq_self (nodup : (xs.map key).Nodup) (new : ∀ x ∈ xs, key x ∉ seen) :
    firstsBy key seen xs = xs := by
  induction xs generalizing seen with
  | nil => rfl
  | cons x xs ih =>
    rw [List.map_cons, List.nodup_cons] at nodup
    rw [firstsBy_cons_of_notMem (new x (List.mem_cons_self ..)), ih nodup.2]
    intro y hy
    rw [List.mem_cons, not_or]
    exact ⟨fun same => nodup.1 (List.mem_map.2 ⟨y, hy, same⟩), new y (List.mem_cons_of_mem _ hy)⟩

/-- Where keys are distinct, what stands behind other entries comes first too. -/
lemma firstsBy_eq_self_of_append (nodup : ((xs ++ ys).map key).Nodup) :
    firstsBy key (xs.map key) ys = ys := by
  rw [List.map_append, List.nodup_append] at nodup
  exact firstsBy_eq_self nodup.2.1 fun y hy old =>
    nodup.2.2 _ old _ (List.mem_map_of_mem hy) rfl

/-- What comes first behind other entries has a key that none of them has. -/
lemma firstsBy_append (seen : List κ) (xs ys : List α) : firstsBy key seen (xs ++ ys) =
    firstsBy key seen xs ++ firstsBy key (xs.map key ++ seen) ys := by
  induction xs generalizing seen with
  | nil => rfl
  | cons x xs ih =>
    rw [List.cons_append, List.map_cons, List.cons_append]
    by_cases h : key x ∈ seen
    · rw [firstsBy_cons_of_mem h, firstsBy_cons_of_mem h, ih]
      refine congrArg (_ ++ ·) (firstsBy_congr (fun k => ?_) ys)
      simp only [List.mem_cons, List.mem_append]
      refine ⟨.inr, ?_⟩
      rintro (rfl | hk)
      · exact .inr h
      · exact hk
    · rw [firstsBy_cons_of_notMem h, firstsBy_cons_of_notMem h, ih, List.cons_append]
      refine congrArg (x :: _ ++ ·) (firstsBy_congr (fun k => ?_) ys)
      simp only [List.mem_cons, List.mem_append]
      tauto

/-- What is done to entries without touching their keys can be done before. -/
lemma firstsBy_map {β : Type} {key' : β → κ} {f : α → β} (same : ∀ x, key' (f x) = key x)
    (seen : List κ) (xs : List α) :
    firstsBy key' seen (xs.map f) = (firstsBy key seen xs).map f := by
  induction xs generalizing seen with
  | nil => rfl
  | cons x xs ih =>
    rw [List.map_cons]
    by_cases h : key x ∈ seen
    · rw [firstsBy_cons_of_mem h, firstsBy_cons_of_mem (by rwa [same]), ih]
    · rw [firstsBy_cons_of_notMem h, firstsBy_cons_of_notMem (by rwa [same]), List.map_cons, same,
        ih]

/-- The same holds if every entry is made into one. -/
lemma firstsBy_filterMap {β : Type} {key' : β → κ} {f : α → Option β}
    (same : ∀ x ∈ xs, (f x).map key' = some (key x)) :
    firstsBy key' seen (xs.filterMap f) = (firstsBy key seen xs).filterMap f := by
  induction xs generalizing seen with
  | nil => rfl
  | cons x xs ih =>
    have tail := fun seen => @ih seen fun y hy => same y (List.mem_cons_of_mem _ hy)
    obtain ⟨y, hy, k⟩ := Option.map_eq_some_iff.1 (same x (List.mem_cons_self ..))
    rw [List.filterMap_cons_some hy]
    by_cases h : key x ∈ seen
    · rw [firstsBy_cons_of_mem h, firstsBy_cons_of_mem (by rwa [k]), tail]
    · rw [firstsBy_cons_of_notMem h, firstsBy_cons_of_notMem (by rwa [k]),
        List.filterMap_cons_some hy, k, tail]

/-- A key that is filtered out anyway need not count as seen. -/
lemma filter_firstsBy_cons {p : κ → Bool} (hk : ¬p k) (seen : List κ) (xs : List α) :
    (firstsBy key (k :: seen) xs).filter (fun x => p (key x)) =
      (firstsBy key seen xs).filter fun x => p (key x) := by
  induction xs generalizing seen with
  | nil => rfl
  | cons x xs ih =>
    by_cases h : key x ∈ seen
    · rw [firstsBy_cons_of_mem h, firstsBy_cons_of_mem (List.mem_cons_of_mem _ h), ih]
    · by_cases same : key x = k
      · rw [firstsBy_cons_of_notMem h, firstsBy_cons_of_mem (by simp [same]),
          List.filter_cons_of_neg (by rwa [same]), same]
      · have swapped : firstsBy key (key x :: k :: seen) xs =
            firstsBy key (k :: key x :: seen) xs :=
          firstsBy_congr (fun k => by simp only [List.mem_cons, or_left_comm]) xs
        rw [firstsBy_cons_of_notMem h, firstsBy_cons_of_notMem (by simp [same, h]),
          List.filter_cons, List.filter_cons, swapped, ih]

/-- Entries of some keys come first or not whatever other keys there are. -/
lemma firstsBy_filter (p : κ → Bool) (seen : List κ) (xs : List α) :
    firstsBy key seen (xs.filter fun x => p (key x)) =
      (firstsBy key seen xs).filter fun x => p (key x) := by
  induction xs generalizing seen with
  | nil => rfl
  | cons x xs ih =>
    by_cases h : key x ∈ seen
    · rw [firstsBy_cons_of_mem h, List.filter_cons]
      split
      · rw [firstsBy_cons_of_mem h, ih]
      · exact ih seen
    · rw [firstsBy_cons_of_notMem h, List.filter_cons, List.filter_cons]
      split
      next => rw [firstsBy_cons_of_notMem h, ih]
      next hp => rw [ih, filter_firstsBy_cons hp]

/-- An entry comes first if none of its key does before. -/
lemma mem_firstsBy : x ∈ firstsBy key seen xs ↔
    key x ∉ seen ∧ (xs.filter (key · = key x)).head? = some x := by
  induction xs generalizing seen with
  | nil => simp [firstsBy]
  | cons y xs ih =>
    by_cases same : key y = key x
    · rw [List.filter_cons_of_pos (by simpa using same), List.head?_cons, Option.some.injEq]
      by_cases h : key y ∈ seen
      · rw [firstsBy_cons_of_mem h, ih]
        simp [← same, h]
      · rw [firstsBy_cons_of_notMem h, List.mem_cons, ih]
        simp [← same, h, eq_comm]
    · rw [List.filter_cons_of_neg (by simpa using same)]
      by_cases h : key y ∈ seen
      · rw [firstsBy_cons_of_mem h, ih]
      · rw [firstsBy_cons_of_notMem h, List.mem_cons, ih, List.mem_cons, not_or]
        have ne : x ≠ y := fun e => same (e ▸ rfl)
        simp [ne, Ne.symm same]

/-- Where keys are distinct, an entry is the only one of its key. -/
lemma filter_key_eq (nodup : (xs.map key).Nodup) (hx : x ∈ xs) :
    xs.filter (key · = key x) = [x] := by
  induction xs with
  | nil => cases hx
  | cons y xs ih =>
    rw [List.map_cons, List.nodup_cons] at nodup
    rcases List.mem_cons.1 hx with rfl | hx
    · have others : xs.filter (key · = key x) = [] := by
        refine List.filter_eq_nil_iff.2 fun z hz same => nodup.1 ?_
        exact List.mem_map.2 ⟨z, hz, by simpa using same⟩
      rw [List.filter_cons_of_pos (by simp), others]
    · have other : key y ≠ key x := fun same => nodup.1 (List.mem_map.2 ⟨x, hx, same.symm⟩)
      rw [List.filter_cons_of_neg (by simpa using other), ih nodup.2 hx]

/-- What is found among the entries that come first is found among all. -/
lemma find?_firstsBy (new : k ∉ seen) (xs : List α) :
    (firstsBy key seen xs).find? (key · = k) = xs.find? (key · = k) := by
  rw [← List.head?_filter, ← List.head?_filter, ← firstsBy_filter (· = k)]
  cases found : xs.filter (key · = k) with
  | nil => rfl
  | cons x ys =>
    have same : key x = k := by
      have mem : x ∈ xs.filter (key · = k) := found ▸ List.mem_cons_self ..
      simpa using (List.mem_filter.1 mem).2
    rw [firstsBy_cons_of_notMem (by rwa [same])]
    rfl

/-! ## Doubles -/

/-- The entries whose key an earlier entry has, each with the first entry of its key. -/
def doublesBy (key : α → κ) (xs : List α) : List (α × α) :=
  xs.zipIdx.filterMap fun x => ((xs.take x.2).find? (key · = key x.1)).map (x.1, ·)

/-- A double pairs an element with the first earlier one of equal key. -/
lemma mem_doublesBy : (x, y) ∈ doublesBy key xs ↔
    ∃ i, xs[i]? = some x ∧ (xs.take i).find? (key · = key x) = some y := by
  simp only [doublesBy, List.mem_filterMap, List.mem_zipIdx_iff_getElem?, Prod.exists,
    Option.map_eq_some_iff, Prod.mk.injEq]
  constructor
  · rintro ⟨_, i, hi, _, hy, rfl, rfl⟩
    exact ⟨i, hi, hy⟩
  · rintro ⟨i, hi, hy⟩
    exact ⟨x, i, hi, y, hy, rfl, rfl⟩

/-- An entry is a double if those before it have its key. -/
lemma doublesBy_concat (key : α → κ) (xs : List α) (x : α) : doublesBy key (xs ++ [x]) =
    doublesBy key xs ++ (xs.find? (key · = key x)).toList.map (x, ·) := by
  rw [doublesBy, doublesBy, List.zipIdx_append, List.filterMap_append]
  refine congrArg₂ (· ++ ·) (List.filterMap_congr fun y hy => ?_) ?_
  · rw [List.take_append_of_le_length (Nat.le_of_lt (List.snd_lt_of_mem_zipIdx hy))]
  · simp only [List.zipIdx_singleton, Nat.zero_add, List.take_left, List.filterMap_cons,
      List.filterMap_nil]
    cases xs.find? (key · = key x) <;> rfl

example : doublesBy (· % 10) [11, 2, 21, 31, 2] = [(21, 11), (31, 11), (2, 2)] := by decide

/-- A double stands behind the first entry of its key. -/
lemma exists_lt_of_mem_doublesBy (h : (x, y) ∈ doublesBy key xs) :
    ∃ i j : Nat, xs[i]? = some x ∧ xs[j]? = some y ∧ j < i ∧ key y = key x := by
  obtain ⟨i, hi, first⟩ := mem_doublesBy.1 h
  obtain ⟨j, hj⟩ := List.mem_iff_getElem?.1 (List.mem_of_find?_eq_some first)
  rw [List.getElem?_take] at hj
  split at hj
  next lt => exact ⟨i, j, hi, hj, lt, by simpa using List.find?_some first⟩
  next => cases hj

/-- An entry behind another of its key is a double of the first one. -/
lemma mem_doublesBy_of_find? {z : α} {i j : Nat} (hi : xs[i]? = some x) (hj : xs[j]? = some z)
    (lt : j < i) (same : key z = key x) (first : xs.find? (key · = key x) = some y) :
    (x, y) ∈ doublesBy key xs := by
  refine mem_doublesBy.2 ⟨i, hi, ?_⟩
  have before : z ∈ xs.take i := List.mem_of_getElem? (by rwa [List.getElem?_take, if_pos lt])
  rw [← List.take_append_drop i xs, List.find?_append] at first
  cases found : (xs.take i).find? (key · = key x) with
  | none => exact absurd (decide_eq_true same) (List.find?_eq_none.1 found z before)
  | some w => rwa [found, Option.some_or] at first

/-- Entries of new and distinct keys are no doubles. -/
lemma doublesBy_append (nodup : (ys.map key).Nodup) (new : ∀ y ∈ ys, key y ∉ xs.map key) :
    doublesBy key (xs ++ ys) = doublesBy key xs := by
  induction ys generalizing xs with
  | nil => rw [List.append_nil]
  | cons y ys ih =>
    rw [List.map_cons, List.nodup_cons] at nodup
    have absent : xs.find? (key · = key y) = none := by
      rw [List.find?_eq_none]
      intro x hx same
      exact new y (List.mem_cons_self ..) (List.mem_map.2 ⟨x, hx, by simpa using same⟩)
    rw [List.append_cons, ih nodup.2, doublesBy_concat, absent]
    · exact List.append_nil _
    · intro z hz
      rw [List.map_append, List.mem_append, not_or, List.map_singleton, List.mem_singleton]
      refine ⟨new z (List.mem_cons_of_mem _ hz), fun same => nodup.1 ?_⟩
      exact List.mem_map.2 ⟨z, hz, same⟩

/-- The doubles are listed in the order in which they come up. -/
lemma fst_doublesBy_sublist (key : α → κ) (xs : List α) :
    ((doublesBy key xs).map Prod.fst).Sublist xs := by
  induction xs using List.reverseRecOn with
  | nil => exact .slnil
  | append_singleton xs x ih =>
    rw [doublesBy_concat, List.map_append]
    refine ih.append ?_
    cases xs.find? (key · = key x) with
    | none => exact List.nil_sublist _
    | some y => exact List.Sublist.refl _

end Firsts

/-! ## Modules by name -/

namespace Draft

/-- Sorting by name is a permutation. -/
lemma perm_byName (ms : List Module) : (byName ms).Perm ms := List.mergeSort_perm ms _

/-- The order by name is transitive. -/
lemma name_le_trans (a b c : Module) : decide (a.name ≤ b.name) → decide (b.name ≤ c.name) →
    decide (a.name ≤ c.name) := by
  simpa using String.le_trans

/-- The order by name is total. -/
lemma name_le_total (a b : Module) : decide (a.name ≤ b.name) || decide (b.name ≤ a.name) := by
  simpa using String.le_total a.name b.name

/-- Modules sorted by name stand in order of their names. -/
lemma pairwise_byName (ms : List Module) : (byName ms).Pairwise fun a b => a.name ≤ b.name :=
  (List.pairwise_mergeSort name_le_trans name_le_total ms).imp fun h => by simpa using h

/-- Modules of one name keep their order when modules are sorted. -/
lemma filter_byName (ms : List Module) (name : String) :
    (byName ms).filter (·.name = name) = ms.filter (·.name = name) := by
  have alike : (ms.filter (·.name = name)).Pairwise fun a b => decide (a.name ≤ b.name) := by
    refine List.pairwise_of_forall_mem_list fun a ha b hb => ?_
    have na : a.name = name := by simpa using (List.mem_filter.1 ha).2
    have nb : b.name = name := by simpa using (List.mem_filter.1 hb).2
    rw [na, nb]
    exact decide_eq_true (String.le_refl name)
  have sub := List.sublist_mergeSort name_le_trans name_le_total alike List.filter_sublist
  have filtered := sub.filter (·.name = name)
  rw [List.filter_filter] at filtered
  simp only [Bool.and_self] at filtered
  refine (filtered.eq_of_length ?_).symm
  exact ((perm_byName ms).filter _).length_eq.symm

/-- Repeated modules can be taken out before or after sorting. -/
lemma byName_firstsBy (seen : List String) (ms : List Module) :
    byName (firstsBy (·.name) seen ms) = firstsBy (·.name) seen (byName ms) := by
  have nodup := nodup_keys_firstsBy Module.name seen ms
  have nodup' := nodup_keys_firstsBy Module.name seen (byName ms)
  have perm : (firstsBy (·.name) seen ms).Perm (firstsBy (·.name) seen (byName ms)) := by
    refine (List.perm_ext_iff_of_nodup nodup.of_map nodup'.of_map).2 fun m => ?_
    rw [mem_firstsBy, mem_firstsBy, filter_byName]
  have first := (perm_byName _).trans perm
  refine first.eq_of_pairwise (fun a b ha hb le ge => ?_)
    (pairwise_byName _) ((pairwise_byName ms).sublist (firstsBy_sublist _ _ _))
  exact List.inj_on_of_nodup_map nodup' (first.subset ha) hb (String.le_antisymm le ge)

end Draft

end MibCorpus
