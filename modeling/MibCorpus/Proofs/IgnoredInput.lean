import MibCorpus.Proofs.ModuleRecords
import MibCorpus.Proofs.Reduction

/-!
# Ignored input leaves no trace

What a run ignores is reported and leaves no other trace: the reduced corpus has the same modules,
the same becomes of its assignments, and the same tree and the same other problems come of it. One
problem is reported for everything that is ignored.
-/

namespace MibCorpus

/-- The kinds of problems that are reported about what is ignored. -/
def ProblemKind.ofIgnored : List ProblemKind :=
  [.parseFailure, .duplicateModule, .duplicateDefinition]

/-- The rendered problems but those about what is ignored, in order. -/
def Mib.renderedApartFromIgnored (mib : Mib) : List String :=
  (mib.problems.toList.filter (·.kind ∉ ProblemKind.ofIgnored)).map toString

/-- The first model comes of some files, and the second of the reduced corpus. -/
structure Mib.ReducesTo (fs : List ParsedFile) (mib mib' : Mib) : Prop where
  /-- The same is said of the modules. -/
  modules : mib'.moduleRecords = mib.moduleRecords
  /-- The same became of the first definitions of each name in each module. -/
  results : mib'.results = firstsBy (fun r => (r.module, r.name)) [] mib.results
  /-- The tree is the same by names. -/
  tree : mib'.namedTree = mib.namedTree
  /-- The same is reported otherwise. -/
  problems : mib'.problems.toList.map toString = mib.renderedApartFromIgnored
  /-- One problem is reported for each file that is ignored, … -/
  failures : (mib.problems.ofKind .parseFailure).length + (reducedCorpus [] fs).length = fs.length
  /-- … for each module … -/
  copies : (mib.problems.ofKind .duplicateModule).length +
    ((reducedCorpus [] fs).flatMap (·.modules)).length = (fs.flatMap (·.modules)).length
  /-- … and for each definition of the other modules. -/
  repetitions : (mib.problems.ofKind .duplicateDefinition).length +
    (((reducedCorpus [] fs).flatMap (·.modules)).flatMap (·.definitions)).length =
      ((firstsBy (·.name) [] (Draft.offered fs)).flatMap (·.definitions)).length

namespace Draft

variable {σ : Renaming} {d d' e e' : Draft} {types types' oids oids' : Recorder}

/-! ## What is reported -/

/-- What a draft is reduced to stays so in drafts that continue both. -/
lemma Reduces.of_continues (h : Reduces σ d d') (c : Continues d e) (c' : Continues d' e') :
    Reduces σ e e' where
  embeds := h.embeds.of_continues c c'
  sources := by
    rw [sources_of_registry c.registry, sources_of_registry c'.registry]
    exact h.sources
  kept := by
    rw [keptDefinitions_of_registry c.registry, keptDefinitions_of_registry c'.registry, h.kept]
  whole := by
    rw [keptDefinitions_of_registry c.registry, definitions_of_registry c.registry, h.whole]

/-- The same is said about the imports. -/
lemma Reduces.contents_linked (h : Reduces σ d d') (bare : d.scope.imports = .empty)
    (bare' : d'.scope.imports = .empty) :
    ∃ new, d.link.contents = d.contents ++ new ∧ d'.link.contents = d'.contents ++ new := by
  refine ⟨_, contents_link d, (contents_link d').trans (congrArg (d'.contents ++ ·) ?_)⟩
  have registry := (linked_link d).links.continues.registry
  have scope : Scope.Embeds σ d.link.HasModule d.link.scope d'.link.scope := by
    rw [hasModule_of_registry registry]
    exact h.embeds.scope_link bare bare'
  have sources : d.link.sources = d.sources := sources_of_registry registry
  have mem : ∀ s' ∈ d'.sources, s'.withoutRepeats ∈ d.sources := fun s' hs' => by
    rw [h.sources]
    exact List.mem_map_of_mem hs'
  rw [h.sources, List.flatMap_map, List.flatMap_map]
  refine congrArg₂ (· ++ ·) (List.flatMap_congr fun s' hs' => ?_)
    (List.flatMap_congr fun s' hs' => ?_)
  · exact h.embeds.importContents (mem s' hs') rfl
  · exact h.embeds.link.checkContents (s := s'.withoutRepeats) scope (sources ▸ mem s' hs')

/-- Finalizing reports the conflicts. -/
lemma contents_finalize (d : Draft) :
    d.finalize.contents = d.contents ++ (d.claims.flatMap d.claimProblems).map (·.content) := by
  rw [contents, (finalizes_finalize d).problems, List.map_append, contents]

/-! ## What became of the assignments -/

/-- Modules of distinct names are told apart by them. -/
lemma sourceName_injective (nodup : (d.sources.map (·.name)).Nodup) {m n : ModuleId}
    (hm : d.HasModule m) (hn : d.HasModule n) (same : d.sourceName m = d.sourceName n) : m = n := by
  obtain ⟨s, hs⟩ := hasModule_iff.1 hm
  obtain ⟨t, ht⟩ := hasModule_iff.1 hn
  rw [sourceName, sourceName, hs, ht, Option.elim_some, Option.elim_some] at same
  have at_m : (d.sources.map (·.name))[m.index]? = some s.name := by rw [List.getElem?_map, hs]; rfl
  have at_n : (d.sources.map (·.name))[n.index]? = some t.name := by rw [List.getElem?_map, ht]; rfl
  rw [← same] at at_n
  exact congrArg Ident.mk ((List.getElem?_inj (List.getElem?_eq_some_iff.1 at_m).1 nodup).1
    (at_m.trans at_n.symm))

/-- Of the definitions of one name in one module the first is kept. -/
lemma Registered.firstsBy_definitions (h : d.Registered) (nodup : (d.sources.map (·.name)).Nodup) :
    firstsBy (fun x => (d.sourceName x.2.1, x.2.2.name)) [] d.definitions = d.keptDefinitions := by
  refine (filter_eq_firstsBy (p := fun x : OwnedDefinition => d.isRefused x.1)
    fun as x bs split => ?_).1.symm
  have mem : ∀ y ∈ as ++ [x], d.HasModule y.2.1 := fun y hy => by
    refine h.index_lt_of_mem_definitions (split ▸ ?_)
    rcases List.mem_append.1 hy with hy | hy
    · exact List.mem_append_left _ hy
    · exact List.mem_append_right _ (List.mem_singleton.1 hy ▸ List.mem_cons_self ..)
  have own : d.ownDefinitions x.2.1 =
      as.filter (·.2.1 = x.2.1) ++ x :: bs.filter (·.2.1 = x.2.1) := by
    rw [ownDefinitions, split, List.filter_append, List.filter_cons_of_pos (by simp)]
  rw [h.isRefused_iff own, List.mem_map, List.mem_map]
  constructor
  · rintro ⟨y, hy, name⟩
    obtain ⟨hy, module⟩ := List.mem_filter.1 hy
    exact ⟨y, hy, by rw [name, of_decide_eq_true module]⟩
  · rintro ⟨y, hy, same⟩
    obtain ⟨module, name⟩ := Prod.mk.inj same
    have module := sourceName_injective nodup (mem y (List.mem_append_left _ hy))
      (mem x (List.mem_append_right _ (List.mem_singleton_self x))) module
    exact ⟨y, List.mem_filter.2 ⟨hy, decide_eq_true module⟩, name⟩

/-- The same became of what is not ignored. -/
lemma Reduces.results (h : Reduces σ e e') (nodup : (e'.sources.map (·.name)).Nodup)
    (same : ∀ i, e.Kept i → e'.mib.result? (σ.assignment i) = e.mib.result? i) :
    e.mib.results = firstsBy (fun r => (r.module, r.name)) [] e'.mib.results := by
  have small := h.embeds.registered
  have large := h.embeds.registered'
  rw [small.definitions.results_eq, large.definitions.results_eq,
    firstsBy_filterMap fun x hx => large.result?_of_mem hx, large.firstsBy_definitions nodup,
    h.kept, List.filterMap_map, ← h.whole]
  exact List.filterMap_congr fun x hx => (same x.1 (kept_of_mem_keptDefinitions hx)).symm

/-! ## How much is reported -/

/-- The kinds of problems about ignored input are those of registration. -/
lemma mem_ofIgnored_iff (k : ProblemKind) :
    k ∈ ProblemKind.ofIgnored ↔ k.phase = .registration := by
  cases k <;> decide

/-- One problem is reported for each definition that is refused. -/
lemma Ledger.reported_duplicateDefinition {names : ModuleId → String} (h : Ledger names d) :
    d.reported .duplicateDefinition = (d.definitions.filter (d.isRefused ·.1)).length := by
  have refusals := congrArg List.length h.refusals
  rw [List.length_map, notices, List.filter_map, List.length_map, ← List.countP_eq_length_filter]
    at refusals
  rw [reported, ← refusals]
  refine List.countP_congr fun p hp => ?_
  rw [decide_eq_true_iff, ← h.subjects p hp]
  rfl

/-- There are as many definitions as the sources write. -/
lemma Registered.length_definitions (h : d.Registered) :
    d.definitions.length = (d.sources.flatMap (·.definitions)).length := by
  have all := congrArg List.length (map_snd_definitions d)
  rw [List.length_map, h.modules.owners_eq] at all
  rw [all, sources, List.flatMap_map, List.length_flatMap, List.length_flatMap]
  simp

/-- What is refused is what the reduced draft lacks. -/
lemma Reduces.reported_duplicateDefinition (h : Reduces σ d d') {names : ModuleId → String}
    (ledger : Ledger names d') :
    d'.reported .duplicateDefinition + (d.sources.flatMap (·.definitions)).length =
      (d'.sources.flatMap (·.definitions)).length := by
  have kept := congrArg List.length h.kept
  rw [List.length_map, h.whole] at kept
  have both := List.length_eq_length_filter_add (l := d'.definitions) (d'.isRefused ·.1)
  rw [ledger.reported_duplicateDefinition, ← h.embeds.registered.length_definitions,
    ← h.embeds.registered'.length_definitions, ← kept, both]
  rfl

/-- The modules of a corpus that are registered and the base modules. -/
lemma length_definitions_reducedCorpus (policy : Policy) (fs : List ParsedFile) (n : Nat)
    (balance :
      n + ((registeredSources policy (reducedCorpus [] fs)).flatMap (·.definitions)).length =
      ((registeredSources policy fs).flatMap (·.definitions)).length) :
    n + (((reducedCorpus [] fs).flatMap (·.modules)).flatMap (·.definitions)).length =
      ((firstsBy (·.name) [] (offered fs)).flatMap (·.definitions)).length := by
  have reduced := ((perm_offered (reducedCorpus [] fs)).flatMap_right (·.definitions)).length_eq
  rw [offered_reducedCorpus] at reduced
  rw [registeredSources_reducedCorpus, registeredSources_eq, List.map_append,
    BaseModule.map_withoutRepeats, List.flatMap_append, List.flatMap_append, List.length_append,
    List.length_append, reduced] at balance
  omega

/-! ## Runs -/

variable {policy : Policy} {fs : List ParsedFile} {r r' : Recorder}

/-- While modules are registered only what is ignored is reported, and nothing of it later. -/
lemma exists_late (policy : Policy) (fs : List ParsedFile) (r types oids : Recorder) :
    (∀ p ∈ ((Draft.new policy).register fs r).1.mib.problems.toList,
        p.kind ∈ ProblemKind.ofIgnored) ∧
      ∃ late, (decided policy fs r types oids).finalize.mib.problems.toList =
        ((Draft.new policy).register fs r).1.mib.problems.toList ++ late ∧
          ∀ p ∈ late, p.kind ∉ ProblemKind.ofIgnored := by
  have stages := stages_of_register policy fs r types oids
  obtain ⟨first, registering, registration⟩ := (registers_register (Draft.new policy) fs r).reports
  obtain ⟨second, linked, linking⟩ := (linked_link ((Draft.new policy).register fs r).1).reports
  obtain ⟨third, typed, typing⟩ := stages.untyped.reports (r := types)
  obtain ⟨fourth, valued, values⟩ := (stages.untyped.oidsPending types).reports (r := oids)
  obtain ⟨fifth, finalized, conflicts⟩ := stages.finalizes.reports
  refine ⟨fun p hp => ?_, second ++ third ++ fourth ++ fifth, ?_, fun p hp => ?_⟩
  · rw [registering] at hp
    exact (mem_ofIgnored_iff _).2 (registration p hp)
  · rw [show (decided policy fs r types oids).finalize.mib.problems.toList = _ from finalized,
      valued, typed, linked]
    simp only [List.append_assoc]
  · rw [mem_ofIgnored_iff]
    simp only [List.mem_append] at hp
    rcases hp with ((hp | hp) | hp) | hp
    · simp [linking p hp]
    · simp [typing p hp]
    · simp [values p hp]
    · simp [conflicts p hp]

/-- What is ignored is reported while modules are registered. -/
lemma length_ofKind (policy : Policy) (fs : List ParsedFile) (r types oids : Recorder)
    {k : ProblemKind} (hk : k ∈ ProblemKind.ofIgnored) :
    ((decided policy fs r types oids).finalize.mib.problems.ofKind k).length =
      ((Draft.new policy).register fs r).1.reported k := by
  obtain ⟨-, late, problems, others⟩ := exists_late policy fs r types oids
  have none : late.filter (·.kind == k) = [] :=
    List.filter_eq_nil_iff.2 fun p hp same => others p hp (beq_iff_eq.1 same ▸ hk)
  rw [Problems.ofKind, problems, List.filter_append, none, List.append_nil,
    ← List.countP_eq_length_filter]
  rfl

/-- The rendered problems are those that are reported later. -/
lemma renderedApartFromIgnored_eq {types oids : Recorder}
    {new : List (ProblemKind × Severity × String)}
    (h : (decided policy fs r types oids).finalize.contents =
      ((Draft.new policy).register fs r).1.contents ++ new) :
    (decided policy fs r types oids).finalize.mib.renderedApartFromIgnored =
      new.map renderContent := by
  obtain ⟨ignored, late, problems, others⟩ := exists_late policy fs r types oids
  have same : late.map (·.content) = new := by
    rw [contents, problems, List.map_append] at h
    exact List.append_cancel_left h
  rw [Mib.renderedApartFromIgnored, problems, List.filter_append,
    List.filter_eq_nil_iff.2 fun p hp => by simpa using ignored p hp,
    List.filter_eq_self.2 fun p hp => by simpa using others p hp, ← same, List.map_map]
  rfl

/-- For the reduced corpus nothing is reported while modules are registered. -/
lemma contents_register_reducedCorpus (policy : Policy) (fs : List ParsedFile) (r : Recorder) :
    ((Draft.new policy).register (reducedCorpus [] fs) r).1.contents = [] := by
  rw [contents_register policy (distinctNames_reducedCorpus fs), filterMap_finding?_reducedCorpus]
  rfl

/-- What is registered for a corpus can be reduced. -/
lemma exists_reduces_register (policy : Policy) (fs : List ParsedFile) (r r' : Recorder) :
    ∃ σ, Reduces σ ((Draft.new policy).register (reducedCorpus [] fs) r).1
      ((Draft.new policy).register fs r').1 := by
  have small := accounts_register policy (reducedCorpus [] fs) r
  have large := accounts_register policy fs r'
  refine exists_reduces small.registered large.registered
    (large.same_policy.trans small.same_policy.symm) ?_ ?_
  · rw [small.sources, large.sources, registeredSources_reducedCorpus]
  · rw [large.sources]
    exact nodup_registeredSources policy fs

/-- What is refused claims nothing in the end. -/
lemma Stages.claims_nothing {linked final : Draft} (s : Stages linked types oids final)
    (i : AssignmentId) (refused : (linked.settled types oids).isRefused i) :
    ((linked.settled types oids).mib.result? i).bind (·.claim?) = none := by
  rw [isRefused_of_registry (s.untyped.continues_settled types oids).registry] at refused
  cases ha : (linked.settled types oids).mib.assignment? i with
  | none => rw [Mib.result?, ha, Option.map_none, Option.bind_none]
  | some a =>
    obtain ⟨state, -⟩ := s.leftOut refused ((s.assignment?_eq i).trans ha)
    rw [Mib.result?, ha, Option.map_some, Option.bind_some, AssignmentResult.claim?, Mib.resultOf,
      state]
    rfl

/-- The same is said of the modules. -/
lemma moduleRecords_reducedCorpus (policy : Policy) (fs : List ParsedFile)
    (r r' types types' oids oids' : Recorder) :
    (decided policy (reducedCorpus [] fs) r types oids).finalize.mib.moduleRecords =
      (decided policy fs r' types' oids').finalize.mib.moduleRecords := by
  have nodup := nodup_keys_firstsBy Module.name [] (offered fs)
  have firsts : (firstsBy (·.name) [] (offered (reducedCorpus [] fs))).length =
      (firstsBy (·.name) [] (offered fs)).length := by
    rw [offered_reducedCorpus, firstsBy_eq_self (distinctNames_withoutRepeats nodup).modules
      fun _ _ => List.not_mem_nil, List.length_map]
  rw [moduleRecords_finalize, moduleRecords_finalize, syntheticFlags_register,
    syntheticFlags_register, firsts, registeredSources_reducedCorpus, map_name_withoutRepeats,
    List.length_map, List.zipWith_map_left]
  rfl

/-- Before finalizing the same became of what is not ignored, and the same was reported about it. -/
lemma exists_settledAlike (policy : Policy) (fs : List ParsedFile)
    (r r' types types' oids oids' : Recorder) :
    let d := ((Draft.new policy).register (reducedCorpus [] fs) r).1
    let d' := ((Draft.new policy).register fs r').1
    let e := decided policy (reducedCorpus [] fs) r types oids
    let e' := decided policy fs r' types' oids'
    ∃ σ, Reduces σ d d' ∧ Reduces σ e e' ∧ SettledAlike σ e e' ∧
      ∃ new, e.contents = d.contents ++ new ∧ e'.contents = d'.contents ++ new := by
  intro d d' e e'
  have small := stages_of_register policy (reducedCorpus [] fs) r types oids
  have large := stages_of_register policy fs r' types' oids'
  have bare := imports_register policy
  obtain ⟨σ, registered⟩ := exists_reduces_register policy fs r r'
  have linked := registered.of_continues (linked_link d).links.continues
    (linked_link d').links.continues
  have settled : Reduces σ e e' := linked.of_continues (small.untyped.continues_settled types oids)
    (large.untyped.continues_settled types' oids')
  have embeds := registered.embeds.embedsLinked (bare _ r) (bare _ r') small.untyped large.untyped
  -- Linking and the phases behind it say the same of both, whatever registration said before.
  refine ⟨σ, registered, settled, ⟨settled.embeds.registered.definitions,
    settled.embeds.registered'.definitions, settled.embeds.policy, settled.kept, fun i hi => ?_,
    small.claims_nothing, large.claims_nothing⟩, ?_⟩
  · exact embeds.result?
      ((kept_of_registry (small.untyped.continues_settled types oids).registry).1 hi)
  · obtain ⟨new, here, there⟩ := registered.contents_linked (bare _ r) (bare _ r')
    have included : d'.link.included = d.link.included.map (renamed σ) := by
      rw [large.untyped.included_eq, linked.kept, small.untyped.included_eq]
    have said := embeds.contents_said types types' oids oids'
    rw [← included] at said
    refine ⟨new ++ ((d.link.said types oids).flatMap (noticesAbout d.link.included)).map Prod.snd,
      ?_, ?_⟩
    · rw [← List.append_assoc, ← here]
      exact small.untyped.contents_settled types oids
    · rw [← said, ← List.append_assoc, ← there]
      exact large.untyped.contents_settled types' oids'

/-- The results of a run can be reduced. -/
theorem reducesTo_finalize (policy : Policy) (fs : List ParsedFile)
    (r r' types types' oids oids' : Recorder) :
    (decided policy fs r' types' oids').finalize.mib.ReducesTo fs
      (decided policy (reducedCorpus [] fs) r types oids).finalize.mib := by
  have accounts := accounts_register policy fs r'
  obtain ⟨σ, registered, settled, alike, new, here, there⟩ :=
    exists_settledAlike policy fs r r' types types' oids oids'
  constructor
  case modules => exact moduleRecords_reducedCorpus ..
  case results =>
    rw [(finalizes_finalize _).results, (finalizes_finalize _).results]
    refine settled.results ?_ alike.result?
    rw [sources_decided]
    exact nodup_registeredSources policy fs
  case tree =>
    exact (alike.namedTree_finalize (canopy_of_register ..) (canopy_of_register ..)).symm
  case problems =>
    -- What is reported behind the ignored input ends with the conflicts.
    have conflicts := alike.conflicts
    have whole := contents_finalize (decided policy fs r' types' oids')
    have reduced := contents_finalize (decided policy (reducedCorpus [] fs) r types oids)
    rw [there, conflicts, List.append_assoc] at whole
    rw [here, contents_register_reducedCorpus, List.nil_append] at reduced
    rw [renderedApartFromIgnored_eq whole, ← reduced, contents, List.map_map]
    rfl
  case failures =>
    rw [length_ofKind _ _ _ _ _ (by decide), reported_eq, accounts.failures, List.length_map,
      Nat.add_comm, length_reducedCorpus]
  case copies =>
    have each := length_firstsBy_add (·.name) [] (offered fs)
    have offered := (perm_offered (reducedCorpus [] fs)).length_eq
    rw [offered_reducedCorpus, List.length_map] at offered
    rw [length_ofKind _ _ _ _ _ (by decide), accounts.doubles, ← offered,
      ← (perm_offered fs).length_eq, Nat.add_comm, each]
  case repetitions =>
    rw [length_ofKind _ _ _ _ _ (by decide)]
    refine length_definitions_reducedCorpus policy fs _ ?_
    have balance := registered.reported_duplicateDefinition accounts.ledger
    rwa [accounts.sources, (accounts_register policy (reducedCorpus [] fs) r).sources] at balance

end Draft

/-- What a run ignores leaves no trace but in the problems that report it: the run on the reduced
corpus has the same modules, assignments, tree and other problems, and one problem is reported for
every file, module and definition that is ignored. -/
theorem Pipeline.reducesTo_runParsed (p : Pipeline) (fs : List ParsedFile) :
    ∃ mib mib', modelOf (p.runParsed fs).1 = some mib ∧
      modelOf (p.runParsed (reducedCorpus [] fs)).1 = some mib' ∧ mib.ReducesTo fs mib' := by
  obtain ⟨r', types', oids', whole⟩ := Draft.exists_decided p fs
  obtain ⟨r, types, oids, reduced⟩ := Draft.exists_decided p (reducedCorpus [] fs)
  refine ⟨_, _, modelOf_runParsed p fs, modelOf_runParsed p _, ?_⟩
  rw [whole, reduced]
  exact Draft.reducesTo_finalize ..

end MibCorpus
