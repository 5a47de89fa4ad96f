import MibCorpus.Proofs.Claimants
import MibCorpus.Proofs.PolicyChange

/-!
# What a policy decides

Runs on the same files by policies that agree on base modules build the same model but for two
things: how bad repeated imports are, and in which order the claimants of an OID come and so which
of them are in conflict. A threshold ends no run early and leaves nothing out of the model.
-/

namespace MibCorpus

/-- The node without its claimants. -/
def OidNode.unclaimed (n : OidNode) : OidNode := { n with definition := none, shadowed := [] }

/-- Claimants that come in the order of one choice, in the order of another. -/
def CanonicalChoice.reorder (choice other : CanonicalChoice) (as : List AssignmentId) :
    List AssignmentId :=
  if choice = other then as else as.reverse

namespace Draft

/-- The conflicts between the claimants of the nodes, node by node. -/
def conflicts (d : Draft) : List Problem :=
  d.mib.nodes.toList.flatMap fun n => d.claimProblems (d.mib.oidOf n, n.claimants)

/-- The drafts differ in nothing but what policies `p` and `q` decide. -/
structure DifferBy (p q : Policy) (d e : Draft) : Prop where
  strings : e.mib.strings = d.mib.strings
  files : e.mib.files = d.mib.files
  modules : e.mib.modules = d.mib.modules
  assignments : e.mib.assignments = d.mib.assignments
  types : e.mib.types = d.mib.types
  roots : e.mib.roots = d.mib.roots
  nodes : e.mib.nodes.map OidNode.unclaimed = d.mib.nodes.map OidNode.unclaimed
  /-- Under another choice the claimants come in the reverse order. -/
  claimants : ∀ i n m, d.mib.node? i = some n → e.mib.node? i = some m →
    m.claimants = p.canonical.reorder q.canonical n.claimants ∧
      n.claimants.Pairwise p.canonical.Precedes ∧ m.claimants.Pairwise q.canonical.Precedes
  /-- The problems are the same but for the rating of repeated imports, up to the conflicts. -/
  problems : ∃ ps : List Problem, (∀ x ∈ ps, x.kind ≠ .multipleValueConflict) ∧
    d.mib.problems.toList = ps.map (·.ratedBy p) ++ d.conflicts ∧
    e.mib.problems.toList = ps.map (·.ratedBy q) ++ e.conflicts

variable {d : Draft} {q : Policy}

/-! ## Claims -/

/-- Under another policy the claimants of an OID are the same, in that policy's order. -/
lemma claimantsOf_withPolicy (d : Draft) (q : Policy) (o : Oid) :
    (d.withPolicy q).claimantsOf o = d.policy.canonical.reorder q.canonical (d.claimantsOf o) := by
  have reversed : ∀ xs : List (AssignmentId × Oid),
      Claim.claimantsOf xs.reverse o = (Claim.claimantsOf xs o).reverse := by
    intro xs
    rw [Claim.claimantsOf, List.filter_reverse, List.map_reverse, ← Claim.claimantsOf]
  unfold claimantsOf claimants CanonicalChoice.reorder
  cases hd : d.policy.canonical <;> cases hq : q.canonical <;>
    simp [withPolicy, hq, reversed]

/-- Under another policy the claimed OIDs have the same prefixes. -/
lemma prefixes_claims_withPolicy (d : Draft) (q : Policy) :
    Claim.prefixes (d.withPolicy q).claims = Claim.prefixes d.claims := by
  have sorted : ∀ d : Draft, Claim.Sorted d.claims := fun d => (Claim.lookup_collect d.claimants).1
  have claimed : ∀ (d : Draft) (o : Oid), (∃ c ∈ d.claims, o.Above c.1) ↔
      ∃ p, d.claimantsOf p ≠ [] ∧ o.Above p := by
    intro d o
    constructor
    · rintro ⟨⟨p, as⟩, hc, above⟩
      obtain ⟨rfl, ne⟩ := mem_claims.1 hc
      exact ⟨p, ne, above⟩
    · rintro ⟨p, ne, above⟩
      exact ⟨_, mem_claims.2 ⟨rfl, ne⟩, above⟩
  have same : ∀ o, (d.withPolicy q).claimantsOf o = [] ↔ d.claimantsOf o = [] := by
    intro o
    rw [claimantsOf_withPolicy, CanonicalChoice.reorder]
    split
    · rfl
    · exact List.reverse_eq_nil_iff
  refine Oid.eq_of_mem_iff (sorted _).arePrefixes.sorted (sorted _).arePrefixes.sorted fun o => ?_
  rw [(sorted _).arePrefixes.mem, (sorted _).arePrefixes.mem, claimed, claimed]
  simp only [ne_eq, same]

/-- Under another policy the problems are the same, rated by that policy. -/
lemma problems_withPolicy (d : Draft) (q : Policy) :
    (d.withPolicy q).mib.problems.toList = d.mib.problems.toList.map (·.ratedBy q) := by
  simp [withPolicy, Problems.toList]

/-! ## The last phase -/

/-- Finalizing changes nothing about how a conflict is reported. -/
lemma claimProblems_finalize (d : Draft) : d.finalize.claimProblems = d.claimProblems := by
  obtain ⟨-, -, strings, modules, assignments, -, -⟩ := finalizes_finalize d
  have names : d.finalize.mib.nameOf = d.mib.nameOf := by
    funext i
    simp only [Mib.nameOf, Mib.str, Mib.assignment?, strings, assignments]
  have qualified : d.finalize.mib.qualifiedName = d.mib.qualifiedName := by
    funext i
    simp only [Mib.qualifiedName, names, Mib.moduleName, Mib.str, Mib.assignment?, Mib.module?,
      strings, modules, assignments]
  have located : d.finalize.locationOf = d.locationOf := by
    funext i
    simp only [locationOf, fileOf, Mib.assignment?, Mib.module?, modules, assignments]
  have conflict : d.finalize.conflictProblem = d.conflictProblem := by
    funext oid kept refused
    simp only [conflictProblem, conflictSeverity, names, qualified, located]
  funext c
  simp only [claimProblems, conflict]

/-- Finalizing reports the conflicts at the nodes. -/
lemma problems_finalize (bare : d.mib.canopy = ⟨#[], [], .empty⟩)
    (proper : d.claimantsOf .root = []) :
    d.finalize.mib.problems.toList = d.mib.problems.toList ++ d.finalize.conflicts := by
  rw [(finalizes_finalize d).problems, conflicts, claimProblems_finalize]
  congr 1
  exact flatMap_claims_finalize bare proper (fun o as => d.claimProblems (o, as)) fun _ => rfl

/-- Finalizing by another policy. -/
lemma DefinitionsRegistered.differBy_finalize (registered : d.DefinitionsRegistered)
    (bare : d.mib.canopy = ⟨#[], [], .empty⟩)
    (proper : d.claimantsOf .root = [])
    (others : ∀ x ∈ d.mib.problems.toList, x.kind ≠ .multipleValueConflict)
    (rated : d.withPolicy d.policy = d) :
    DifferBy d.policy q d.finalize (d.withPolicy q).finalize := by
  have h := finalizes_finalize d
  have h' := finalizes_finalize (d.withPolicy q)
  have registered' : (d.withPolicy q).DefinitionsRegistered :=
    ⟨registered.written, registered.size, registered.entry, registered.lookup?⟩
  have bare' : (d.withPolicy q).mib.canopy = ⟨#[], [], .empty⟩ := bare
  have proper' : (d.withPolicy q).claimantsOf .root = [] := by
    rw [claimantsOf_withPolicy, proper, CanonicalChoice.reorder, List.reverse_nil, ite_self]
  have tree := hasSortedTree_finalize bare
  have tree' := hasSortedTree_finalize bare'
  rw [prefixes_claims_withPolicy] at tree'
  constructor
  case strings => rw [h'.strings, h.strings]; rfl
  case files =>
    have files := congrArg Registry.files h.continues.registry
    exact (congrArg Registry.files h'.continues.registry).trans files.symm
  case modules => rw [h'.modules, h.modules]; rfl
  case assignments => rw [h'.assignments, h.assignments]; rfl
  case types => rw [h'.types, h.types]; rfl
  case roots => rw [tree'.roots, tree.roots]
  case nodes =>
    rw [← Array.toList_inj, Array.toList_map, Array.toList_map, tree'.toList_nodes,
      tree.toList_nodes, List.map_map, List.map_map]
    rfl
  case claimants =>
    intro i n m hn hm
    obtain ⟨o, ho, -, rfl⟩ := tree.exists_of_node? hn
    obtain ⟨o', ho', -, rfl⟩ := tree'.exists_of_node? hm
    obtain rfl : o = o' := Option.some.inj (ho.symm.trans ho')
    rw [claimants_among, claimants_among]
    exact ⟨claimantsOf_withPolicy d q o, registered.ordered_claimantsOf o,
      registered'.ordered_claimantsOf o⟩
  case problems =>
    refine ⟨d.mib.problems.toList, others, ?_, ?_⟩
    · rw [problems_finalize bare proper]
      -- The draft is rated by its own policy.
      have own := congrArg (fun e : Draft => e.mib.problems.toList) rated
      rw [problems_withPolicy] at own
      rw [own]
    · rw [problems_finalize bare' proper', problems_withPolicy]

end Draft

namespace Pipeline

/-- A run ends as failed if the worst problem reaches the threshold and as done otherwise, with the
complete model in either case. -/
structure Concludes (threshold : Severity) (mib : Mib) (out : Except RunError Mib × Pipeline) :
    Prop where
  failed : ∀ worst, out.1 = .error (.failed mib worst) ↔
    mib.problems.worst? = some worst ∧ worst.atLeast threshold
  done : out.1 = .ok mib ↔ ∀ x ∈ mib.problems.toList, ¬x.severity.atLeast threshold
  stage : out.2.stage = if out.1.isOk then .done else .failed

/-- Each run concludes as the worst of its problems says. -/
lemma concludes_runParsed (p : Pipeline) (files : List ParsedFile) :
    Concludes p.policy.threshold (p.resolve files).1.mib (p.runParsed files) := by
  have stage : (p.runParsed files).2.stage =
      if (p.runParsed files).1.isOk then .done else .failed := by
    rw [runParsed_eq_told]
    rfl
  have below : (∀ x ∈ (p.resolve files).1.mib.problems.toList,
      ¬x.severity.atLeast p.policy.threshold) ↔
        ¬∃ w, (p.resolve files).1.mib.problems.worst? = some w ∧ w.atLeast p.policy.threshold := by
    rw [Problems.worst?, ← Problems.exists_atLeast_iff]
    simp only [not_exists, not_and]
  refine ⟨fun worst => ?_, ?_, stage⟩
  · rw [fst_runParsed, verdict]
    cases (p.resolve files).1.mib.problems.worst? with
    | none => simp
    | some w =>
      by_cases reaches : p.policy.failsAt (some w)
      · simp only [if_pos reaches]
        constructor
        · rintro ⟨⟩
          exact ⟨rfl, reaches⟩
        · rintro ⟨⟨⟩, -⟩
          rfl
      · simp only [if_neg reaches]
        constructor
        · rintro ⟨⟩
        · rintro ⟨⟨⟩, reached⟩
          exact absurd reached reaches
  · rw [below, fst_runParsed, verdict]
    cases (p.resolve files).1.mib.problems.worst? with
    | none => simp
    | some w => cases reaches : w.atLeast p.policy.threshold <;> simp [Policy.failsAt, reaches]

end Pipeline

namespace Draft

variable {p q : Policy} {files : List ParsedFile}

/-- Before the last phase no conflict is reported. -/
lemma kind_of_mem_numbered {x : Problem} (hx : x ∈ (numbered p files).mib.problems.toList) :
    x.kind ≠ .multipleValueConflict := by
  intro e
  refine (stages_built p files).phase_of_mem_problems hx ?_
  rw [e]
  rfl

/-- What is built by one policy differs from what is built by another in nothing but what they
decide. -/
theorem differBy_built (base : q.baseModules = p.baseModules) :
    DifferBy p q (built p files) (built q files) := by
  have s := stages_built p files
  have bare : (numbered p files).mib.canopy = ⟨#[], [], .empty⟩ :=
    canopy_of_register p files _ _ _
  -- A run by policy `p` is a run by any policy under policy `p`.
  have rated : numbered p files = (numbered p files).withPolicy p := numbered_withPolicy rfl files
  have policy : (numbered p files).policy = p := congrArg Draft.policy rated
  have differ : DifferBy (numbered p files).policy q (numbered p files).finalize
      ((numbered p files).withPolicy q).finalize :=
    s.definitions.differBy_finalize bare s.claimantsOf_root (fun _ => kind_of_mem_numbered)
      (policy.symm ▸ rated.symm)
  rw [policy, ← numbered_withPolicy base] at differ
  exact differ

end Draft

namespace Pipeline

/-- Runs by policies that agree on base modules differ in nothing but what the policies decide, and
each concludes by its own threshold. -/
theorem differBy_runParsed {p q : Pipeline}
    (base : q.policy.baseModules = p.policy.baseModules) (files : List ParsedFile) :
    Draft.DifferBy p.policy q.policy (p.resolve files).1 (q.resolve files).1 ∧
      Concludes p.policy.threshold (p.resolve files).1.mib (p.runParsed files) ∧
      Concludes q.policy.threshold (q.resolve files).1.mib (q.runParsed files) := by
  refine ⟨?_, concludes_runParsed p files, concludes_runParsed q files⟩
  rw [resolve_eq_told, resolve_eq_told]
  exact Draft.differBy_built base

/-- A module that imports a value twice and defines another one with the same OID. -/
def contestedCorpus : List ParsedFile :=
  [⟨"a.mib", .ok [⟨"A-MIB", [⟨"B-MIB", "b", .synthetic⟩, ⟨"B-MIB", "b", .synthetic⟩],
      [⟨"a", .value [.arc 1], .synthetic⟩], .synthetic⟩]⟩,
    ⟨"b.mib", .ok [⟨"B-MIB", [], [⟨"b", .value [.arc 1], .synthetic⟩], .synthetic⟩]⟩]

/-- The last claimant wins, a repeated import is a warning, and an error fails the run. -/
def strictPolicy : Policy := ⟨.error, .warn, .lastRegistered, true⟩

/-- One policy lets both problems pass; the other one makes a warning of the first and fails at the
second. -/
theorem differBy_runParsed_contestedCorpus :
    strictPolicy.baseModules = Policy.usual.baseModules ∧
      (Draft.DifferBy .usual strictPolicy ((new .usual .error).resolve contestedCorpus).1
          ((new strictPolicy .error).resolve contestedCorpus).1 ∧
        Concludes .fatal ((new .usual .error).resolve contestedCorpus).1.mib
          ((new .usual .error).runParsed contestedCorpus) ∧
        Concludes .error ((new strictPolicy .error).resolve contestedCorpus).1.mib
          ((new strictPolicy .error).runParsed contestedCorpus)) ∧
      ((new .usual .error).resolve contestedCorpus).1.mib.problems.toList.map (·.severity) =
        [.error, .error] ∧
      ((new strictPolicy .error).resolve contestedCorpus).1.mib.problems.toList.map (·.severity) =
        [.warning, .error] ∧
      ((new .usual .error).runParsed contestedCorpus).2.stage = .done ∧
      ((new strictPolicy .error).runParsed contestedCorpus).2.stage = .failed := by
  have base : (new strictPolicy .error).policy.baseModules =
      (new .usual .error).policy.baseModules := rfl
  refine ⟨base, differBy_runParsed base contestedCorpus, ?_, ?_, ?_, ?_⟩
  · decide +kernel
  · decide +kernel
  · decide +kernel
  · decide +kernel

end Pipeline

end MibCorpus
