import MibCorpus.Proofs.Admission
import MibCorpus.Proofs.Embedding
import MibCorpus.Proofs.EmbeddedLowering

/-!
# The definitions of a module

The assignments of a module stand for its definitions one by one, and those are kept whose name
comes first in the module. So two drafts whose modules define the same can be matched assignment by
assignment.
-/

namespace MibCorpus

section Lists

variable {α κ : Type} [DecidableEq κ] {key : α → κ}

/-- What is told by whether a key has come before tells first entries from repeated ones. -/
lemma filter_eq_firstsBy {p : α → Bool} {xs : List α}
    (repeated : ∀ as x bs, xs = as ++ x :: bs → (p x ↔ key x ∈ as.map key)) :
    xs.filter (!p ·) = firstsBy key [] xs ∧ xs.filter p = repeatsBy key [] xs := by
  -- The induction is on what is still ahead; `pre` has been passed, and its keys have been seen.
  have all : ∀ (pre ys : List α) (seen : List κ), xs = pre ++ ys →
      (∀ k, k ∈ seen ↔ k ∈ pre.map key) →
      ys.filter (!p ·) = firstsBy key seen ys ∧ ys.filter p = repeatsBy key seen ys := by
    intro pre ys
    induction ys generalizing pre with
    | nil => exact fun _ _ _ => ⟨rfl, rfl⟩
    | cons y ys ih =>
      intro seen split same
      have told := repeated pre y ys split
      rw [← same] at told
      have next : xs = (pre ++ [y]) ++ ys := by rw [split, List.append_assoc]; rfl
      by_cases h : key y ∈ seen
      · obtain ⟨firsts, repeats⟩ := ih (pre ++ [y]) seen next fun k => by
          rw [List.map_append, List.mem_append, ← same]
          refine ⟨.inl, fun hk => hk.elim id fun hk => ?_⟩
          obtain rfl : k = key y := by simpa using hk
          exact h
        rw [firstsBy_cons_of_mem h, repeatsBy_cons_of_mem h, List.filter_cons_of_neg (by
          simp [told.2 h]), List.filter_cons_of_pos (told.2 h), firsts, repeats]
        exact ⟨rfl, rfl⟩
      · obtain ⟨firsts, repeats⟩ := ih (pre ++ [y]) (key y :: seen) next fun k => by
          rw [List.map_append, List.mem_append, ← same, List.mem_cons, or_comm]
          simp
        rw [firstsBy_cons_of_notMem h, repeatsBy_cons_of_notMem h, List.filter_cons_of_pos (by
          simpa using mt told.1 h), List.filter_cons_of_neg (mt told.1 h), firsts, repeats]
        exact ⟨rfl, rfl⟩
  exact all [] xs [] rfl fun k => by simp

/-- What is sorted by a number falls into groups. -/
lemma eq_flatMap_filter_of_sorted {key : α → Nat} {xs : List α}
    (sorted : xs.Pairwise fun x y => key x ≤ key y) {n : Nat} (lt : ∀ x ∈ xs, key x < n) :
    xs = (List.range n).flatMap fun k => xs.filter (key · = k) := by
  induction n generalizing xs with
  | zero =>
    rw [List.eq_nil_iff_forall_not_mem.2 fun x hx => Nat.not_lt_zero _ (lt x hx)]
    rfl
  | succ n ih =>
    -- Of the entries below `n + 1` those below `n` come before the others.
    have split : xs = xs.filter (key · < n) ++ xs.filter (key · = n) := by
      clear ih
      induction xs with
      | nil => rfl
      | cons x xs ih =>
        rw [List.pairwise_cons] at sorted
        have ih := ih sorted.2 fun y hy => lt y (List.mem_cons_of_mem _ hy)
        rcases Nat.lt_succ_iff_lt_or_eq.1 (lt x (List.mem_cons_self ..)) with below | last
        · rw [List.filter_cons_of_pos (by simpa using below),
            List.filter_cons_of_neg (by simpa using Nat.ne_of_lt below), List.cons_append, ← ih]
        · have none : xs.filter (key · < n) = [] := by
            refine List.filter_eq_nil_iff.2 fun y hy => ?_
            have le := sorted.1 y hy
            simpa using last ▸ le
          rw [none, List.nil_append] at ih
          rw [List.filter_cons_of_neg (by simp [last]),
            List.filter_cons_of_pos (by simpa using last), none, List.nil_append, ← ih]
    have below := ih (sorted.filter (key · < n)) fun x hx => by simpa using (List.mem_filter.1 hx).2
    rw [List.range_succ, List.flatMap_append, List.flatMap_singleton]
    refine split.trans (congrArg (· ++ _) (below.trans (List.flatMap_congr fun k hk => ?_)))
    rw [List.filter_filter]
    refine List.filter_congr fun x _ => ?_
    have lt := List.mem_range.1 hk
    by_cases same : key x = k
    · simp [same, lt]
    · simp [same]

/-- What is matched without repetition is matched by a permutation. -/
lemma exists_perm_of_pairs {α : Type} [DecidableEq α] {ps : List (α × α)}
    (left : (ps.map Prod.fst).Nodup) (right : (ps.map Prod.snd).Nodup) :
    ∃ f : Equiv.Perm α, ∀ p ∈ ps, f p.1 = p.2 := by
  induction ps with
  | nil => exact ⟨.refl _, by simp⟩
  | cons p ps ih =>
    rw [List.map_cons, List.nodup_cons] at left right
    obtain ⟨f, hf⟩ := ih left.2 right.2
    -- The new pair is swapped into place, which moves none of the others.
    refine ⟨f.trans (Equiv.swap (f p.1) p.2), fun q hq => ?_⟩
    rcases List.mem_cons.1 hq with rfl | hq
    · exact Equiv.swap_apply_left _ _
    · rw [Equiv.trans_apply, hf q hq]
      refine Equiv.swap_apply_of_ne_of_ne (fun same => left.1 ?_) fun same => right.1 ?_
      · rw [← hf q hq] at same
        exact List.mem_map.2 ⟨q, hq, f.injective same⟩
      · exact List.mem_map.2 ⟨q, hq, same⟩

end Lists

namespace Draft

variable {d d' : Draft}

/-- The assignments of a module, in order of declaration. -/
def ownDefinitions (d : Draft) (m : ModuleId) : List OwnedDefinition :=
  d.definitions.filter (·.2.1 = m)

/-- A definition belongs to a module if its owner is that module. -/
lemma mem_ownDefinitions {m : ModuleId} {x : OwnedDefinition} :
    x ∈ d.ownDefinitions m ↔ d.owner? x.1 = some x.2 ∧ x.2.1 = m := by
  rw [ownDefinitions, List.mem_filter, mem_definitions, decide_eq_true_iff]

/-- Modules are numbered in the order of their registration. -/
lemma ModulesRegistered.pairwise_id (h : d.ModulesRegistered) :
    d.modules.toList.Pairwise fun r q => r.id.index < q.id.index := by
  refine List.pairwise_iff_getElem.2 fun i j hi hj lt => ?_
  have at_i := h.entry i _ (by rw [← Array.getElem?_toList, List.getElem?_eq_getElem hi])
  have at_j := h.entry j _ (by rw [← Array.getElem?_toList, List.getElem?_eq_getElem hj])
  rwa [at_i.1, at_j.1]

/-- Registered modules have distinct identifiers. -/
lemma ModulesRegistered.nodup_ids (h : d.ModulesRegistered) :
    (d.modules.toList.map (·.id)).Nodup :=
  List.pairwise_map.2 (h.pairwise_id.imp fun lt same => by simp [same] at lt)

/-- The assignments of a module stand for its definitions. -/
lemma Registered.map_ownDefinitions (h : d.Registered) {m : ModuleId} {s : Module}
    (hs : d.sources[m.index]? = some s) :
    (d.ownDefinitions m).map Prod.snd = s.definitions.map (m, ·) := by
  obtain ⟨r, hr, rfl⟩ := Option.map_eq_some_iff.1 ((getElem?_sources ..).symm.trans hs)
  have id : r.id = m := (h.modules.entry m.index r hr).1
  have mem : r ∈ d.modules.toList := List.mem_of_getElem? (by rwa [Array.getElem?_toList])
  have named : ∀ q ∈ d.modules.toList, ∀ o ∈ q.source.definitions.map (q.id, ·), o.1 = q.id := by
    intro q _ o ho
    obtain ⟨x, -, rfl⟩ := List.mem_map.1 ho
    rfl
  have own := filter_flatMap_eq named h.modules.nodup_ids mem
  rw [← h.modules.owners_eq, ← map_snd_definitions, List.filter_map, id] at own
  exact own

/-- The definitions of a module stand in order of their identifiers. -/
lemma pairwise_ownDefinitions (d : Draft) (m : ModuleId) :
    (d.ownDefinitions m).Pairwise fun x y => x.1.index < y.1.index :=
  d.pairwise_definitions.filter _

/-- A definition is refused if the module has its name before. -/
lemma Registered.isRefused_iff (h : d.Registered) {m : ModuleId} {as bs : List OwnedDefinition}
    {x : OwnedDefinition} (split : d.ownDefinitions m = as ++ x :: bs) :
    d.isRefused x.1 ↔ x.2.2.name ∈ as.map (·.2.2.name) := by
  have own : ∀ y, y ∈ d.ownDefinitions m ↔ y ∈ as ∨ y = x ∨ y ∈ bs := by simp [split]
  have sorted := d.pairwise_ownDefinitions m
  rw [split, List.pairwise_append, List.pairwise_cons] at sorted
  obtain ⟨hx, module⟩ := mem_ownDefinitions.1 ((own x).2 (.inr (.inl rfl)))
  -- The name stands for the first definition that has it.
  obtain ⟨j, hj, le⟩ := h.definitions.lookup?_of_owner hx
  obtain ⟨y, hy, name⟩ := h.definitions.owner_of_lookup? hj
  have refused : d.isRefused x.1 ↔ j ≠ x.1.index := by
    rw [isRefused, hx, Option.any_some, hj, decide_eq_true_iff, Ne, Option.some.injEq]
    exact not_congr ⟨congrArg Ident.index, fun same => by rw [same]⟩
  rw [refused, List.mem_map]
  constructor
  · intro ne
    have first : (⟨j⟩, x.2.1, y) ∈ d.ownDefinitions m := mem_ownDefinitions.2 ⟨hy, module⟩
    refine ⟨(⟨j⟩, x.2.1, y), ?_, name⟩
    rcases (own _).1 first with before | same | behind
    · exact before
    · exact absurd (congrArg (fun z => z.1.index) same) ne
    · have lt := sorted.2.1.1 _ behind
      exact absurd (Nat.lt_of_le_of_lt le lt) (Nat.lt_irrefl _)
  · rintro ⟨z, hz, same⟩
    have lt := sorted.2.2 z hz x (List.mem_cons_self ..)
    obtain ⟨hz, module'⟩ := mem_ownDefinitions.1 ((own z).2 (.inl hz))
    obtain ⟨k, hk, le'⟩ := h.definitions.lookup?_of_owner hz
    rw [same, module', ← module, hj] at hk
    obtain rfl : j = k := congrArg Ident.index (Option.some.inj hk)
    omega

/-- Of the definitions of a module those are kept whose name comes first, and the others refused. -/
lemma Registered.filter_ownDefinitions (h : d.Registered) (m : ModuleId) :
    (d.ownDefinitions m).filter (!d.isRefused ·.1) =
        firstsBy (·.2.2.name) [] (d.ownDefinitions m) ∧
      (d.ownDefinitions m).filter (d.isRefused ·.1) =
        repeatsBy (·.2.2.name) [] (d.ownDefinitions m) :=
  filter_eq_firstsBy fun _ _ _ split => h.isRefused_iff split

/-- The assignments of all modules, module by module. -/
lemma Registered.definitions_eq (h : d.Registered) :
    d.definitions = (List.range d.sources.length).flatMap fun k => d.ownDefinitions ⟨k⟩ := by
  have sorted : d.definitions.Pairwise fun x y => x.2.1.index ≤ y.2.1.index := by
    have owners : d.owners.Pairwise fun o p => o.1.index ≤ p.1.index := by
      rw [h.modules.owners_eq, List.pairwise_flatMap]
      refine ⟨fun r _ => ?_, h.modules.pairwise_id.imp fun lt o ho p hp => ?_⟩
      · exact List.pairwise_map.2 (List.pairwise_of_forall fun _ _ => Nat.le_refl _)
      · obtain ⟨x, -, rfl⟩ := List.mem_map.1 ho
        obtain ⟨y, -, rfl⟩ := List.mem_map.1 hp
        exact Nat.le_of_lt lt
    rw [← map_snd_definitions, List.pairwise_map] at owners
    exact owners
  refine (eq_flatMap_filter_of_sorted sorted fun x => h.index_lt_of_mem_definitions).trans
    (List.flatMap_congr fun k _ => List.filter_congr fun x _ => ?_)
  obtain ⟨i, ⟨m⟩, x⟩ := x
  simp

/-! ## Matching drafts -/

/-- Assignments of different modules are different. -/
lemma nodup_flatMap_ids {μ : ModuleId → ModuleId} (injective : Function.Injective μ)
    {A : ModuleId → List OwnedDefinition} (sub : ∀ m, (A m).Sublist (d.ownDefinitions (μ m)))
    (n : Nat) : ((List.range n).flatMap fun k => (A ⟨k⟩).map Prod.fst).Nodup := by
  refine List.nodup_flatMap.2 ⟨fun k _ => ?_, List.nodup_range.imp fun {k l} ne => ?_⟩
  · exact d.nodup_definitions.sublist (((sub ⟨k⟩).trans List.filter_sublist).map _)
  · refine List.disjoint_left.2 fun i hi hi' => ne ?_
    obtain ⟨x, hx, rfl⟩ := List.mem_map.1 hi
    obtain ⟨y, hy, same⟩ := List.mem_map.1 hi'
    obtain ⟨hx, here⟩ := mem_ownDefinitions.1 ((sub ⟨k⟩).subset hx)
    obtain ⟨hy, there⟩ := mem_ownDefinitions.1 ((sub ⟨l⟩).subset hy)
    rw [same, hx, Option.some.injEq] at hy
    rw [← hy, here] at there
    exact congrArg Ident.index (injective there)

/-- Where modules have parts that define the same, the assignments can be renamed. -/
theorem exists_renaming (μ : Equiv.Perm ModuleId) {A A' : ModuleId → List OwnedDefinition}
    (sub : ∀ m, (A m).Sublist (d.ownDefinitions m))
    (sub' : ∀ m, (A' m).Sublist (d'.ownDefinitions (μ m)))
    (alike : ∀ m, d.HasModule m → (A' m).map (·.2.2) = (A m).map (·.2.2)) :
    ∃ α : Equiv.Perm AssignmentId, ∀ m, d.HasModule m → A' m = (A m).map (renamed ⟨μ, α⟩) := by
  have length : ∀ m, d.HasModule m → (A' m).length = (A m).length := fun m hm => by
    simpa using congrArg List.length (alike m hm)
  -- Pairing off the definitions of each module matches distinct assignments with distinct ones.
  obtain ⟨α, matched⟩ : ∃ α : Equiv.Perm AssignmentId,
      ∀ p ∈ (List.range d.sources.length).flatMap fun k =>
        ((A ⟨k⟩).map Prod.fst).zip ((A' ⟨k⟩).map Prod.fst), α p.1 = p.2 := by
    have same : ∀ k ∈ List.range d.sources.length,
        ((A ⟨k⟩).map Prod.fst).length = ((A' ⟨k⟩).map Prod.fst).length := fun k hk => by
      rw [List.length_map, List.length_map, length ⟨k⟩ (List.mem_range.1 hk)]
    refine exists_perm_of_pairs ?_ ?_
    · rw [List.map_flatMap, List.flatMap_congr fun k hk =>
        List.map_fst_zip (Nat.le_of_eq (same k hk))]
      exact nodup_flatMap_ids Function.injective_id sub _
    · rw [List.map_flatMap,
        List.flatMap_congr fun k hk => List.map_snd_zip (Nat.le_of_eq (same k hk).symm)]
      exact nodup_flatMap_ids μ.injective sub' _
  refine ⟨α, fun m hm => List.ext_getElem (by rw [List.length_map, length m hm]) fun k hk hk' => ?_⟩
  rw [List.length_map] at hk'
  have definition := congrArg (·[k]?) (alike m hm)
  simp only [List.getElem?_map, List.getElem?_eq_getElem hk, List.getElem?_eq_getElem hk',
    Option.map_some, Option.some.injEq] at definition
  have here := (mem_ownDefinitions.1 ((sub m).subset (List.getElem_mem hk'))).2
  have there := (mem_ownDefinitions.1 ((sub' m).subset (List.getElem_mem hk))).2
  have id : α (A m)[k].1 = (A' m)[k].1 := by
    refine matched (_, _) (List.mem_flatMap.2 ⟨m.index, List.mem_range.2 hm, ?_⟩)
    refine List.mem_of_getElem? (i := k) (List.getElem?_zip_eq_some.2 ⟨?_, ?_⟩)
    · rw [List.getElem?_map, List.getElem?_eq_getElem hk']
      rfl
    · rw [List.getElem?_map, List.getElem?_eq_getElem hk]
      rfl
  rw [List.getElem_map, renamed, id, here, ← there, ← definition]

/-- Drafts whose modules keep the same are embedded. -/
lemma embeds_of_kept {σ : Renaming} (h : d.Registered) (h' : d'.Registered)
    (policy : d'.policy = d.policy)
    (modules : ∀ m s, d.sources[m.index]? = some s →
      ∃ s', d'.sources[(σ.module m).index]? = some s' ∧ s'.name = s.name ∧ s'.imports = s.imports)
    (mentioned : ∀ s ∈ d.sources, ∀ name ∈ s.mentions,
      d'.scope.module? name = (d.scope.module? name).map σ.module)
    (kept : ∀ m, d.HasModule m → (d'.ownDefinitions (σ.module m)).filter (!d'.isRefused ·.1) =
      ((d.ownDefinitions m).filter (!d.isRefused ·.1)).map (renamed σ)) :
    Embeds σ d d' where
  registered := h
  registered' := h'
  policy := policy
  modules := modules
  mentioned := mentioned
  keeps m hm j x := by
    have mem : ∀ {e : Draft} {i : AssignmentId} {m : ModuleId} {x : Definition},
        e.Keeps i m x ↔ (i, m, x) ∈ (e.ownDefinitions m).filter (!e.isRefused ·.1) := by
      intro e i m x
      rw [List.mem_filter, mem_ownDefinitions, Keeps]
      simp
    rw [mem, kept m hm, List.mem_map]
    constructor
    · rintro ⟨⟨i, n, y⟩, hy, same⟩
      obtain ⟨rfl, module, rfl⟩ : σ.assignment i = j ∧ σ.module n = σ.module m ∧ y = x := by
        simpa [renamed] using same
      obtain rfl := σ.module.injective module
      exact ⟨i, rfl, mem.2 hy⟩
    · rintro ⟨i, rfl, hx⟩
      exact ⟨_, mem.1 hx, rfl⟩

end Draft

end MibCorpus
