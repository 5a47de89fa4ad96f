import MibCorpus.Proofs.Claimants
import MibCorpus.Proofs.EmbeddedResults

/-!
# The claims of drafts that keep the same

If the larger of two embedded drafts keeps nothing but what the smaller one keeps, then every OID
has the same claimants in the same order. So the same conflicts are reported and the same tree is
built.
-/

namespace MibCorpus

/-! ## Claims -/

namespace Claim

/-- A claim with its claimants renamed. -/
def rename (f : AssignmentId → AssignmentId) (c : Claim) : Claim := (c.1, c.2.map f)

variable (f : AssignmentId → AssignmentId)

/-- Adding a renamed claimant to renamed claims is renaming after adding. -/
lemma add_rename (o : Oid) (i : AssignmentId) (cs : List Claim) :
    add o (f i) (cs.map (rename f)) = (add o i cs).map (rename f) := by
  induction cs with
  | nil => rfl
  | cons c cs ih =>
    obtain ⟨p, as⟩ := c
    simp only [add, rename, List.map_cons] at ih ⊢
    cases compare o p with
    | lt => rfl
    | eq => simp [rename]
    | gt => simp only [ih, List.map_cons, rename]

/-- Renamed claimants make the same claims under other names. -/
lemma collect_rename (xs : List (AssignmentId × Oid)) :
    collect (xs.map fun x => (f x.1, x.2)) = (collect xs).map (rename f) := by
  have from_any : ∀ (xs : List (AssignmentId × Oid)) (cs : List Claim),
      (xs.map fun x => (f x.1, x.2)).foldl (fun cs x => add x.2 x.1 cs) (cs.map (rename f)) =
        (xs.foldl (fun cs x => add x.2 x.1 cs) cs).map (rename f) := by
    intro xs
    induction xs with
    | nil => exact fun _ => rfl
    | cons x xs ih =>
      intro cs
      rw [List.map_cons, List.foldl_cons, List.foldl_cons, add_rename, ih]
  exact from_any xs []

/-- The claimed OIDs are the same. -/
lemma prefixes_rename (cs : List Claim) : prefixes (cs.map (rename f)) = prefixes cs := by
  rw [prefixes, List.foldl_map]
  rfl

/-- The claimants in renamed claims are the renamed claimants. -/
lemma claimantsIn_rename (cs : List Claim) (o : Oid) :
    TreeBuilder.claimantsIn (cs.map (rename f)) o = (TreeBuilder.claimantsIn cs o).map f := by
  induction cs with
  | nil => rfl
  | cons c cs ih =>
    obtain ⟨p, as⟩ := c
    simp only [TreeBuilder.claimantsIn, rename, List.map_cons, List.lookup_cons] at ih ⊢
    split
    · rfl
    · exact ih

end Claim

/-! ## The tree by names -/

/-- A node of the tree as it reads by names: its OID, and what defines it and is shadowed there,
each by the names of its module and its own. -/
structure NamedNode where
  oid : Oid
  definition : Option (String × String)
  shadowed : List (String × String)
  deriving DecidableEq

/-- The OID that is claimed by what became of an assignment. -/
def AssignmentResult.claim? (r : AssignmentResult) : Option Oid := r.state.claimed? r.oid

namespace Mib

/-- The names of an assignment's module and of the assignment. -/
def labelOf (mib : Mib) (i : AssignmentId) : String × String :=
  (mib.result? i).elim ("", "") fun r => (r.module, r.name)

/-- The nodes of the tree by names, in order. -/
def namedTree (mib : Mib) : List NamedNode :=
  mib.nodes.toList.map fun n =>
    ⟨mib.oidOf n, n.definition.map mib.labelOf, n.shadowed.map mib.labelOf⟩

/-- The name of an assignment is the second part of its label. -/
lemma nameOf_eq_label (mib : Mib) (i : AssignmentId) : mib.nameOf i = (mib.labelOf i).2 := by
  rw [nameOf, labelOf, result?]
  cases mib.assignment? i <;> rfl

/-- The qualified name of an assignment joins the parts of its label. -/
lemma qualifiedName_eq_label (mib : Mib) (i : AssignmentId) :
    mib.qualifiedName i = (mib.labelOf i).1 ++ "::" ++ (mib.labelOf i).2 := by
  rw [qualifiedName, nameOf_eq_label, labelOf, result?]
  cases mib.assignment? i <;> rfl

end Mib

namespace Draft

variable {σ : Renaming} {d d' e e' : Draft}

/-- Finalizing keeps what became of an assignment. -/
lemma Finalizes.resultOf (h : Finalizes d d') : d'.mib.resultOf = d.mib.resultOf := by
  funext a
  simp only [Mib.resultOf, Mib.moduleName, Mib.module?, Mib.str, h.strings, h.modules]

/-- Finalizing keeps each look-up of a result. -/
lemma Finalizes.result? (h : Finalizes d d') (i : AssignmentId) :
    d'.mib.result? i = d.mib.result? i := by
  rw [Mib.result?, Mib.result?, h.resultOf, Mib.assignment?, Mib.assignment?, h.assignments]

/-- Finalizing keeps the results. -/
lemma Finalizes.results (h : Finalizes d d') : d'.mib.results = d.mib.results := by
  rw [Mib.results, Mib.results, h.resultOf, h.assignments]

/-! ## Drafts -/

/-- The definitions that are kept. -/
def keptDefinitions (d : Draft) : List OwnedDefinition := d.definitions.filter (!d.isRefused ·.1)

/-- The kept definitions depend on the registry only. -/
lemma keptDefinitions_of_registry (c : d'.registry = d.registry) :
    d'.keptDefinitions = d.keptDefinitions := by
  have refused : d'.isRefused = d.isRefused := funext (isRefused_of_registry c)
  rw [keptDefinitions, keptDefinitions, definitions_of_registry c, refused]

/-- Before typing, the definitions included in the model are the kept ones. -/
lemma Untyped.included_eq (h : d.Untyped) : d.included = d.keptDefinitions :=
  List.filter_congr fun _ hx => isIncluded_iff h.definitions h.fresh (mem_definitions.1 hx)

/-- Each entry among the kept definitions is kept. -/
lemma kept_of_mem_keptDefinitions {x : OwnedDefinition} (hx : x ∈ d.keptDefinitions) :
    d.Kept x.1 := by
  obtain ⟨hx, kept⟩ := List.mem_filter.1 hx
  exact ⟨x.2.1, x.2.2, mem_definitions.1 hx, by simpa using kept⟩

/-- The claimants in order of registration. -/
lemma DefinitionsRegistered.claimants_registered (h : d.DefinitionsRegistered) :
    d.mib.assignments.toList.filterMap (fun a => a.claim?.map (a.id, ·)) =
      d.definitions.filterMap fun x =>
        ((d.mib.result? x.1).bind (·.claim?)).map (x.1, ·) := by
  rw [h.toList_assignments, List.filterMap_filterMap]
  refine List.filterMap_congr fun x hx => ?_
  obtain ⟨a, ha, -⟩ := h.exists_assignment (mem_definitions.1 hx)
  obtain ⟨-, -, id, -⟩ := h.owner ha
  rw [Mib.result?, ha, Option.bind_some, Option.map_some, Option.bind_some, id]
  rfl

/-- Drafts in which the same became of what they keep, and what they refuse claims nothing. -/
structure SettledAlike (σ : Renaming) (e e' : Draft) : Prop where
  definitions : e.DefinitionsRegistered
  definitions' : e'.DefinitionsRegistered
  policy : e'.policy = e.policy
  kept : e'.keptDefinitions = e.keptDefinitions.map (renamed σ)
  result? : ∀ i, e.Kept i → e'.mib.result? (σ.assignment i) = e.mib.result? i
  leftOut : ∀ i, e.isRefused i → (e.mib.result? i).bind (·.claim?) = none
  leftOut' : ∀ i, e'.isRefused i → (e'.mib.result? i).bind (·.claim?) = none

section SettledAlike

variable (h : SettledAlike σ e e')
include h

/-- The OIDs are claimed in the same order. -/
lemma SettledAlike.claimants : e'.claimants = e.claimants.map fun x => (σ.assignment x.1, x.2) := by
  -- Only what is kept claims anything.
  have all : ∀ {d : Draft}, (∀ i, d.isRefused i → (d.mib.result? i).bind (·.claim?) = none) →
      (d.definitions.filterMap fun x => ((d.mib.result? x.1).bind (·.claim?)).map (x.1, ·)) =
        d.keptDefinitions.filterMap fun x =>
          ((d.mib.result? x.1).bind (·.claim?)).map (x.1, ·) := by
    intro d leftOut
    rw [keptDefinitions, List.filterMap_filter]
    refine List.filterMap_congr fun x _ => ?_
    split
    next => rfl
    next refused => rw [leftOut x.1 (by simpa using refused), Option.map_none]
  have same : e'.mib.assignments.toList.filterMap (fun a => a.claim?.map (a.id, ·)) =
      (e.mib.assignments.toList.filterMap fun a => a.claim?.map (a.id, ·)).map
        fun x => (σ.assignment x.1, x.2) := by
    rw [h.definitions'.claimants_registered, h.definitions.claimants_registered, all h.leftOut',
      all h.leftOut, h.kept, List.filterMap_map, List.map_filterMap]
    refine List.filterMap_congr fun x hx => ?_
    rw [Function.comp_apply, Option.map_map]
    simp only [renamed, h.result? x.1 (kept_of_mem_keptDefinitions hx)]
    rfl
  rw [Draft.claimants, Draft.claimants, h.policy]
  cases e.policy.canonical with
  | firstRegistered => exact same
  | lastRegistered => exact (congrArg List.reverse same).trans List.map_reverse.symm

/-- The same claims are made. -/
lemma SettledAlike.claims : e'.claims = e.claims.map (Claim.rename σ.assignment) := by
  rw [Draft.claims, h.claimants, Claim.collect_rename]
  rfl

/-- What claims an OID is kept. -/
lemma SettledAlike.kept_of_mem_claims {c : Claim} (hc : c ∈ e.claims) {i : AssignmentId}
    (hi : i ∈ c.2) : e.Kept i := by
  obtain ⟨o, as⟩ := c
  obtain ⟨rfl, -⟩ := mem_claims.1 hc
  obtain ⟨a, ha, claimed⟩ := ((h.definitions.claimantsOf o).2 i).1 hi
  obtain ⟨x, hx, -⟩ := h.definitions.owner ha
  refine ⟨a.module, x, hx, Bool.eq_false_iff.2 fun refused => ?_⟩
  have none := h.leftOut i refused
  rw [Mib.result?, ha] at none
  cases claimed.symm.trans none

/-- The label of a kept entry is carried over by the embedding. -/
lemma SettledAlike.labelOf {i : AssignmentId} (hi : e.Kept i) :
    e'.mib.labelOf (σ.assignment i) = e.mib.labelOf i := by
  rw [Mib.labelOf, Mib.labelOf, h.result? i hi]

/-- The same conflicts are reported. -/
lemma SettledAlike.conflicts : (e'.claims.flatMap e'.claimProblems).map (·.content) =
    (e.claims.flatMap e.claimProblems).map (·.content) := by
  rw [h.claims, List.flatMap_map, List.map_flatMap, List.map_flatMap]
  refine List.flatMap_congr fun c hc => ?_
  have kept : ∀ i ∈ c.2, e.Kept i := fun i hi => h.kept_of_mem_claims hc hi
  obtain ⟨o, as⟩ := c
  cases as with
  | nil => rfl
  | cons first others =>
    simp only [Claim.rename, claimProblems, List.map_cons, List.map_map]
    refine List.map_congr_left fun i hi => ?_
    have label := h.labelOf (kept i (List.mem_cons_of_mem _ hi))
    have label' := h.labelOf (kept first (List.mem_cons_self ..))
    simp only [Function.comp_apply, conflictProblem, Problem.content, Finding.toProblem,
      Problem.ofKind, conflictSeverity, Mib.nameOf_eq_label, Mib.qualifiedName_eq_label, label,
      label']

/-- The same tree is built. -/
lemma SettledAlike.namedTree_finalize (bare : e.mib.canopy = ⟨#[], [], .empty⟩)
    (bare' : e'.mib.canopy = ⟨#[], [], .empty⟩) :
    e'.finalize.mib.namedTree = e.finalize.mib.namedTree := by
  have read : ∀ {d : Draft}, d.mib.canopy = ⟨#[], [], .empty⟩ → d.finalize.mib.namedTree =
      (Claim.prefixes d.claims).map fun o =>
        ⟨o, ((TreeBuilder.claimantsIn d.claims o).map d.mib.labelOf).head?,
          ((TreeBuilder.claimantsIn d.claims o).map d.mib.labelOf).tail⟩ := by
    intro d bare
    have tree := hasSortedTree_finalize bare
    have labels : d.finalize.mib.labelOf = d.mib.labelOf := by
      funext i
      rw [Mib.labelOf, (finalizes_finalize d).result?, Mib.labelOf]
    rw [Mib.namedTree, tree.toList_nodes, List.map_map]
    refine List.map_congr_left fun o ho => ?_
    rw [Function.comp_apply, tree.oidOf_among ho, labels, List.head?_map, ← List.map_tail]
    rfl
  rw [read bare', read bare, h.claims, Claim.prefixes_rename]
  refine List.map_congr_left fun o _ => ?_
  have labels : ((TreeBuilder.claimantsIn e.claims o).map σ.assignment).map e'.mib.labelOf =
      (TreeBuilder.claimantsIn e.claims o).map e.mib.labelOf := by
    rw [List.map_map, claimantsIn_claims]
    refine List.map_congr_left fun i hi => h.labelOf ?_
    exact h.kept_of_mem_claims (mem_claims.2 ⟨rfl, List.ne_nil_of_mem hi⟩) hi
  rw [Claim.claimantsIn_rename, labels]

end SettledAlike

end Draft

end MibCorpus
