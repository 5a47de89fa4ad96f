import MibCorpus.Proofs.Finalization
import Mathlib.Data.List.Induction

/-!
# Claimed OIDs

The claims list each OID once, with all its claimants. So there is a conflict exactly where an OID
has two claimants, and a conflict that is an error exactly where two of them have different names:
which claimant comes first decides how many conflicts are errors, but not whether there is one.
-/

namespace MibCorpus

/-- Elements that contribute nothing need not be left out. -/
lemma flatMap_filter_eq {α β : Type} {p : α → Bool} {f : α → List β} {l : List α}
    (nothing : ∀ x ∈ l, p x = false → f x = []) : (l.filter p).flatMap f = l.flatMap f := by
  induction l with
  | nil => rfl
  | cons x l ih =>
    have ih := ih fun y hy => nothing y (List.mem_cons_of_mem _ hy)
    cases hx : p x with
    | true => simp [hx, ih]
    | false => simp [hx, ih, nothing x (List.mem_cons_self ..) hx]

namespace Oid

/-- Only equal OIDs compare as equal. -/
lemma compare_eq_iff {o p : Oid} : compare o p = .eq ↔ o = p := by
  have arcs : List.compareLex compare o.arcs p.arcs = .eq ↔ o.arcs = p.arcs :=
    Std.LawfulEqCmp.compare_eq_iff_eq
  refine arcs.trans ?_
  cases o
  cases p
  simp

/-- Comparing the other way round turns `gt` into `lt`. -/
lemma compare_gt_iff {o p : Oid} : compare o p = .gt ↔ compare p o = .lt := by
  have arcs : List.compareLex compare o.arcs p.arcs = .gt ↔
      List.compareLex compare p.arcs o.arcs = .lt := Std.OrientedCmp.gt_iff_lt
  exact arcs

/-- The order of OIDs is transitive. -/
lemma compare_lt_trans {o p q : Oid} (h : compare o p = .lt) (h' : compare p q = .lt) :
    compare o q = .lt := by
  have arcs : ∀ {as bs cs : List Arc}, List.compareLex compare as bs = .lt →
      List.compareLex compare bs cs = .lt → List.compareLex compare as cs = .lt :=
    Std.TransCmp.lt_trans
  exact arcs h h'

/-- OIDs that do not compare as equal differ. -/
lemma ne_of_compare_ne {o p : Oid} (h : compare o p ≠ .eq) : o ≠ p :=
  fun e => h (compare_eq_iff.2 e)

end Oid

namespace Claim

/-- The claims come in the order of their OIDs. -/
def Sorted (cs : List Claim) : Prop := cs.Pairwise fun c c' => compare c.1 c'.1 = .lt

/-- A claim on another OID does not change a look-up. -/
lemma lookup_cons_of_ne {o o' : Oid} (h : o ≠ o') (as : List AssignmentId) (cs : List Claim) :
    List.lookup o ((o', as) :: cs) = cs.lookup o := by
  rw [List.lookup_cons, beq_false_of_ne h]

/-- An OID before all claims is not looked up. -/
lemma lookup_eq_none {cs : List Claim} {o : Oid} (h : ∀ c ∈ cs, compare o c.1 = .lt) :
    cs.lookup o = none := by
  refine List.lookup_eq_none_iff.2 fun c hc => ?_
  have ne : o ≠ c.1 := Oid.ne_of_compare_ne (by simp [h c hc])
  simpa using ne

/-- Adding a claimant adds no OID but its own. -/
lemma fst_of_mem_add {oid : Oid} {a : AssignmentId} {cs : List Claim} {c : Claim}
    (h : c ∈ add oid a cs) : c.1 = oid ∨ ∃ c' ∈ cs, c'.1 = c.1 := by
  induction cs with
  | nil =>
    rw [add, List.mem_singleton] at h
    exact .inl (congrArg Prod.fst h)
  | cons c' cs ih =>
    obtain ⟨o', as'⟩ := c'
    unfold add at h
    split at h
    · rcases List.mem_cons.1 h with rfl | h
      · exact .inl rfl
      · exact .inr ⟨c, h, rfl⟩
    · rcases List.mem_cons.1 h with rfl | h
      · exact .inr ⟨_, List.mem_cons_self .., rfl⟩
      · exact .inr ⟨c, List.mem_cons_of_mem _ h, rfl⟩
    · rcases List.mem_cons.1 h with rfl | h
      · exact .inr ⟨_, List.mem_cons_self .., rfl⟩
      · obtain e | ⟨c', hc', e⟩ := ih h
        · exact .inl e
        · exact .inr ⟨c', List.mem_cons_of_mem _ hc', e⟩

/-- Adding a claimant keeps the order. -/
lemma Sorted.add {cs : List Claim} (h : Sorted cs) (oid : Oid) (a : AssignmentId) :
    Sorted (add oid a cs) := by
  induction cs with
  | nil => exact List.pairwise_singleton _ _
  | cons c cs ih =>
    obtain ⟨o', as'⟩ := c
    obtain ⟨head, tail⟩ := List.pairwise_cons.1 h
    unfold Claim.add
    split
    next hc =>
      refine List.pairwise_cons.2 ⟨fun c hc' => ?_, h⟩
      rcases List.mem_cons.1 hc' with rfl | hc'
      · exact hc
      · exact Oid.compare_lt_trans hc (head c hc')
    next => exact List.pairwise_cons.2 ⟨head, tail⟩
    next hc =>
      refine List.pairwise_cons.2 ⟨fun c hc' => ?_, ih tail⟩
      obtain e | ⟨c', hc', e⟩ := fst_of_mem_add hc'
      · rw [e]
        exact Oid.compare_gt_iff.1 hc
      · rw [← e]
        exact head c' hc'

/-- Adding a claimant changes the claimants of its OID alone. -/
lemma Sorted.lookup_add {cs : List Claim} (h : Sorted cs) (oid : Oid) (a : AssignmentId) (o : Oid) :
    (Claim.add oid a cs).lookup o =
      if o = oid then some ((cs.lookup oid).getD [] ++ [a]) else cs.lookup o := by
  induction cs with
  | nil => by_cases ho : o = oid <;> simp [Claim.add, ho]
  | cons c cs ih =>
    obtain ⟨o', as'⟩ := c
    obtain ⟨head, tail⟩ := List.pairwise_cons.1 h
    unfold Claim.add
    split
    -- The OID comes before all that are listed, so it is not among them.
    next hc =>
      have absent : ((o', as') :: cs).lookup oid = none := by
        refine lookup_eq_none fun c hc' => ?_
        rcases List.mem_cons.1 hc' with rfl | hc'
        · exact hc
        · exact Oid.compare_lt_trans hc (head c hc')
      by_cases ho : o = oid
      · rw [if_pos ho, absent, ho]
        simp
      · rw [if_neg ho, lookup_cons_of_ne ho]
    next hc =>
      obtain rfl := Oid.compare_eq_iff.1 hc
      by_cases ho : o = oid
      · simp [ho]
      · rw [if_neg ho, lookup_cons_of_ne ho, lookup_cons_of_ne ho]
    next hc =>
      have ne : oid ≠ o' := Oid.ne_of_compare_ne (by simp [hc])
      by_cases ho : o = o'
      · simp [ho, ne.symm]
      · rw [lookup_cons_of_ne ho, lookup_cons_of_ne ho, lookup_cons_of_ne ne]
        exact ih tail

/-- The claimants of an OID among some claimants. -/
def claimantsOf (xs : List (AssignmentId × Oid)) (o : Oid) : List AssignmentId :=
  (xs.filter (·.2 = o)).map Prod.fst

/-- The claims list each OID that is claimed, with its claimants in order. -/
lemma lookup_collect (xs : List (AssignmentId × Oid)) :
    Sorted (collect xs) ∧ ∀ o, (collect xs).lookup o =
      if claimantsOf xs o = [] then none else some (claimantsOf xs o) := by
  induction xs using List.reverseRecOn with
  | nil => exact ⟨.nil, fun _ => rfl⟩
  | append_singleton xs x ih =>
    -- The last claimant is added to what the others have left.
    obtain ⟨sorted, lookup⟩ := ih
    have step : collect (xs ++ [x]) = Claim.add x.2 x.1 (collect xs) := by
      rw [collect, List.foldl_append]
      rfl
    rw [step]
    refine ⟨sorted.add .., fun o => ?_⟩
    rw [sorted.lookup_add, lookup, lookup]
    by_cases ho : o = x.2
    · subst ho
      have snoc : claimantsOf (xs ++ [x]) x.2 = claimantsOf xs x.2 ++ [x.1] := by
        simp [claimantsOf]
      have known : (if claimantsOf xs x.2 = [] then none else some (claimantsOf xs x.2)).getD [] =
          claimantsOf xs x.2 := by
        split
        next none => exact none.symm
        next => rfl
      rw [if_pos rfl, known, snoc, if_neg (List.append_ne_nil_of_right_ne_nil _ (by simp))]
    · have same : claimantsOf (xs ++ [x]) o = claimantsOf xs o := by
        simp [claimantsOf, List.filter_append, Ne.symm ho]
      rw [if_neg ho, same]

/-- An OID is claimed by all its claimants together. -/
lemma mem_collect {xs : List (AssignmentId × Oid)} {o : Oid} {as : List AssignmentId} :
    (o, as) ∈ collect xs ↔ as = claimantsOf xs o ∧ as ≠ [] := by
  obtain ⟨sorted, lookup⟩ := lookup_collect xs
  -- No OID is listed twice, so membership and look-up agree.
  have found : (o, as) ∈ collect xs ↔ (collect xs).lookup o = some as := by
    constructor
    · intro h
      obtain ⟨l, l', e⟩ := List.append_of_mem h
      refine List.lookup_eq_some_iff.2 ⟨l, l', e, fun c hc => ?_⟩
      rw [e] at sorted
      have lt := (List.pairwise_append.1 sorted).2.2 c hc (o, as) (List.mem_cons_self ..)
      have ne : c.1 ≠ o := Oid.ne_of_compare_ne (by simp [lt])
      simpa using ne.symm
    · intro h
      obtain ⟨l, l', e, -⟩ := List.lookup_eq_some_iff.1 h
      rw [e]
      exact List.mem_append_right _ (List.mem_cons_self ..)
  rw [found, lookup]
  split
  next none => simp [none]
  next some =>
    rw [Option.some.injEq]
    constructor
    · rintro rfl
      exact ⟨rfl, some⟩
    · exact fun h => h.1.symm

end Claim

/-- The OID that is claimed in this state. -/
def ResolutionState.claimed? (s : ResolutionState) (oid : Option Oid) : Option Oid :=
  match s with
  | resolved | degraded => oid
  | pending | unresolved | excluded => none

namespace Draft

variable {d : Draft}

/-- Assignment `i` claims `o`. -/
def ClaimsOid (d : Draft) (o : Oid) (i : AssignmentId) : Prop :=
  ∃ a, d.mib.assignment? i = some a ∧ a.claim? = some o

/-- The claimants of an OID, in the order in which they come first. -/
def claimantsOf (d : Draft) (o : Oid) : List AssignmentId := Claim.claimantsOf d.claimants o

/-- In order of registration the claimants of an OID are the assignments that claim it. -/
lemma claimantsOf_registered (as : List Assignment) (o : Oid) :
    Claim.claimantsOf (as.filterMap fun a => a.claim?.map (a.id, ·)) o =
      (as.filter (·.claim? = some o)).map (·.id) := by
  induction as with
  | nil => rfl
  | cons a as ih =>
    unfold Claim.claimantsOf at ih ⊢
    cases hc : a.claim? with
    | none => simp [hc, ih]
    | some p => by_cases hp : p = o <;> simp [hc, hp, ih]

/-- What claims an OID is among its claimants, once. -/
lemma DefinitionsRegistered.claimantsOf (h : d.DefinitionsRegistered) (o : Oid) :
    (d.claimantsOf o).Nodup ∧ ∀ i, i ∈ d.claimantsOf o ↔ d.ClaimsOid o i := by
  -- The order in which claimants come first does not matter here.
  have same : (d.claimantsOf o).Perm
      ((d.mib.assignments.toList.filter (·.claim? = some o)).map (·.id)) := by
    rw [← claimantsOf_registered, Draft.claimantsOf, claimants]
    cases d.policy.canonical with
    | firstRegistered => exact .refl _
    | lastRegistered => exact ((List.reverse_perm _).filter _).map _
  -- Assignments are numbered by their places.
  have ids : d.mib.assignments.toList.map (·.id) =
      (List.range d.mib.assignments.size).map Ident.mk := by
    refine List.ext_getElem (by simp) fun i hi hi' => ?_
    rw [List.length_map, Array.length_toList] at hi
    obtain ⟨-, -, id, -⟩ := h.owner (i := ⟨i⟩) (Array.getElem?_eq_getElem hi)
    simpa using id
  have nodup : (d.mib.assignments.toList.map (·.id)).Nodup := by
    rw [ids]
    exact List.nodup_range.map fun i j e => congrArg Ident.index e
  refine ⟨same.nodup_iff.2 (nodup.sublist (List.filter_sublist.map _)), fun i => ?_⟩
  rw [same.mem_iff, List.mem_map]
  constructor
  · rintro ⟨a, ha, rfl⟩
    obtain ⟨ha, hc⟩ := List.mem_filter.1 ha
    obtain ⟨j, hj⟩ := List.mem_iff_getElem?.1 ha
    rw [Array.getElem?_toList] at hj
    obtain ⟨-, -, id, -⟩ := h.owner (i := ⟨j⟩) hj
    exact ⟨a, id ▸ hj, by simpa using hc⟩
  · rintro ⟨a, ha, hc⟩
    obtain ⟨-, -, id, -⟩ := h.owner ha
    have mem := Array.mem_of_getElem? ha
    exact ⟨a, List.mem_filter.2 ⟨Array.mem_toList_iff.2 mem, by simpa using hc⟩, id⟩

/-! ## Conflicts -/

/-- The claims list each claimed OID with its claimants. -/
lemma mem_claims {o : Oid} {as : List AssignmentId} :
    (o, as) ∈ d.claims ↔ as = d.claimantsOf o ∧ as ≠ [] :=
  Claim.mem_collect

/-- The severity of a conflict does not depend on the order of the two claimants. -/
lemma conflictSeverity_comm (d : Draft) (i j : AssignmentId) :
    d.conflictSeverity i j = d.conflictSeverity j i := by
  simp only [conflictSeverity, eq_comm]

/-- No conflict is worse than one between different names. -/
lemma atLeast_error_of_conflictSeverity {d : Draft} {i j : AssignmentId} {s : Severity}
    (h : (d.conflictSeverity i j).atLeast s) : Severity.error.atLeast s := by
  unfold conflictSeverity at h
  split at h
  · revert h
    cases s <;> decide
  · exact h

/-- Of two claimants, one is as badly in conflict with any third as they are with each other. -/
lemma atLeast_conflictSeverity_kept {d : Draft} {i j : AssignmentId} {s : Severity} (ne : i ≠ j)
    (bad : (d.conflictSeverity i j).atLeast s) (kept : AssignmentId) :
    (i ≠ kept ∧ (d.conflictSeverity kept i).atLeast s) ∨
      (j ≠ kept ∧ (d.conflictSeverity kept j).atLeast s) := by
  by_cases hi : i = kept
  · subst hi
    exact .inr ⟨ne.symm, bad⟩
  by_cases hj : j = kept
  · subst hj
    exact .inl ⟨hi, conflictSeverity_comm d i j ▸ bad⟩
  -- If the third is named like the first, it is to the second what the first is.
  by_cases same : d.mib.nameOf kept = d.mib.nameOf i
  · refine .inr ⟨hj, ?_⟩
    rwa [conflictSeverity, same, ← conflictSeverity]
  · refine .inl ⟨hi, ?_⟩
    rw [conflictSeverity, if_neg same]
    exact atLeast_error_of_conflictSeverity bad

/-- There is a conflict at least as bad as `s` where an OID has two claimants that would be in
one. -/
theorem DefinitionsRegistered.exists_conflict_iff (h : d.DefinitionsRegistered) (s : Severity) :
    (∃ p ∈ d.claims.flatMap d.claimProblems, p.severity.atLeast s) ↔
      ∃ o i j, i ≠ j ∧ d.ClaimsOid o i ∧ d.ClaimsOid o j ∧ (d.conflictSeverity i j).atLeast s := by
  constructor
  · rintro ⟨p, hp, bad⟩
    obtain ⟨⟨o, as⟩, hc, hp⟩ := List.mem_flatMap.1 hp
    obtain ⟨rfl, -⟩ := mem_claims.1 hc
    obtain ⟨nodup, mem⟩ := h.claimantsOf o
    unfold claimProblems at hp
    cases e : d.claimantsOf o with
    | nil => simp [e] at hp
    | cons kept others =>
      rw [e] at nodup mem
      simp only [e] at hp
      obtain ⟨refused, hr, rfl⟩ := List.mem_map.1 hp
      refine ⟨o, kept, refused, ?_, (mem _).1 (List.mem_cons_self ..),
        (mem _).1 (List.mem_cons_of_mem _ hr), bad⟩
      rintro rfl
      exact (List.nodup_cons.1 nodup).1 hr
  · rintro ⟨o, i, j, ne, hi, hj, bad⟩
    obtain ⟨nodup, mem⟩ := h.claimantsOf o
    cases e : d.claimantsOf o with
    | nil =>
      have none := (mem i).2 hi
      rw [e] at none
      cases none
    | cons kept others =>
      have claim : (o, kept :: others) ∈ d.claims := mem_claims.2 ⟨e.symm, List.cons_ne_nil _ _⟩
      -- Every other claimant is in conflict with the one that is kept.
      have conflict : ∀ k, d.ClaimsOid o k → k ≠ kept → (d.conflictSeverity kept k).atLeast s →
          ∃ p ∈ d.claims.flatMap d.claimProblems, p.severity.atLeast s := by
        intro k hk ne bad
        have at_k := (mem k).2 hk
        rw [e] at at_k
        have others := (List.mem_cons.1 at_k).resolve_left ne
        exact ⟨d.conflictProblem o kept k,
          List.mem_flatMap.2 ⟨_, claim, List.mem_map_of_mem others⟩, bad⟩
      obtain ⟨other, bad⟩ | ⟨other, bad⟩ := atLeast_conflictSeverity_kept ne bad kept
      · exact conflict i hi other bad
      · exact conflict j hj other bad

end Draft

end MibCorpus
