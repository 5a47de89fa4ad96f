import MibCorpus.Proofs.Generation
import MibCorpus.Proofs.ImportAccounts
import MibCorpus.Proofs.PolicyChange
import MibCorpus.Proofs.ProblemSubjects

/-!
# Base modules by themselves

A base module mentions nothing but base modules, and these are generated with it. So where a corpus
has no base module of its own, the generated ones are a part of what is registered that does not
depend on the rest: of their definitions the same becomes as in a corpus that consists of them
alone. There everything is resolved, and nothing is wrong with their imports.
-/

namespace MibCorpus

namespace BaseModule

/-- A base module and those that it imports from. -/
def companions (b : BaseModule) : List BaseModule :=
  all.filter fun c => c = b || b.imports.any (·.source == c.name)

/-- A corpus of a base module and those that it imports from. -/
def corpus (b : BaseModule) : List ParsedFile := b.companions.map fun c => ⟨c.name, .ok [c.source]⟩

/-- The companions of a base module are itself and the modules it imports from. -/
lemma mem_companions {b c : BaseModule} :
    c ∈ b.companions ↔ c = b ∨ ∃ i ∈ b.imports, i.source = c.name := by
  simp [companions, mem_all]

/-- The companions of a base module mention nothing but each other. -/
lemma mentions_companions {b c : BaseModule} (hc : c ∈ b.companions) {name : String}
    (mentioned : name ∈ c.source.mentions) : name ∈ b.companions.map (·.name) := by
  have all : ∀ b : BaseModule, ∀ c ∈ b.companions, ∀ name ∈ c.source.mentions,
      name ∈ b.companions.map (·.name) := by
    intro b
    cases b <;> decide
  exact all b c hc name mentioned

/-- What a base module imports is defined by a base module. -/
lemma defines_of_mem_imports {b : BaseModule} {i : Import} (hi : i ∈ b.imports) :
    ∃ c : BaseModule, i.source = c.name ∧ i.symbol ∈ c.definitions.map (·.name) := by
  cases b with
  | snmpV2Tc =>
    obtain rfl := List.mem_singleton.1 hi
    exact ⟨.snmpV2Smi, rfl, by decide⟩
  | _ => cases hi

end BaseModule

namespace Draft

variable {policy : Policy} {files : List ParsedFile} {b : BaseModule}

/-! ## A base module alone -/

/-- Where no candidate is lacking none is generated. -/
lemma generated_eq_nil {ms : List Module} {candidates : List BaseModule}
    (none : ∀ c ∈ candidates, lackedBy ms c = false) : generated ms candidates = [] := by
  have all : notLacked ms candidates = candidates :=
    List.filter_eq_self.2 fun c hc => by rw [none c hc]; rfl
  rw [generated, if_neg (by rw [all]; exact Nat.lt_irrefl _)]

/-- The companions of a base module lack nothing. -/
lemma registeredSources_corpus (policy : Policy) (b : BaseModule) :
    registeredSources policy b.corpus = b.companions.map (·.source) := by
  have offered_eq : offered b.corpus = b.companions.map (·.source) := by
    rw [offered, BaseModule.corpus, List.flatMap_map, List.map_eq_flatMap]
    exact List.flatMap_congr fun c _ => List.mergeSort_singleton c.source
  have nodup : ((b.companions.map (·.source)).map (·.name)).Nodup := by
    rw [List.map_map]
    exact BaseModule.nodup_all.sublist (List.filter_sublist.map _)
  have complete : ∀ c ∈ BaseModule.all, lackedBy (b.companions.map (·.source)) c = false := by
    cases b <;> decide
  rw [registeredSources, offered_eq, firstsBy_eq_self nodup fun _ _ => List.not_mem_nil, completed,
    generated_eq_nil complete, List.map_nil, List.append_nil, ite_self]

/-- Everything there is resolved. -/
lemma resolved_corpus (on : policy.baseModules = true) (b : BaseModule) :
    ∀ r ∈ (numbered policy b.corpus).mib.results, r.state = .resolved := by
  have usual : ∀ b : BaseModule, ∀ r ∈ (numbered .usual b.corpus).mib.results,
      r.state = .resolved := by
    intro b
    cases b <;> decide +kernel
  rw [numbered_withPolicy (p := .usual) on]
  exact usual b

/-! ## Among other modules -/

/-- Of distinct names, one is left if the list is cut down to it. -/
lemma filter_mem_singleton {ns : List String} (nodup : ns.Nodup) {n : String} (mem : n ∈ ns) :
    ns.filter (· ∈ [n]) = [n] := by
  have same : (fun x => decide (x ∈ [n])) = fun x => decide (x = n) := by
    funext x
    simp
  rw [same, List.filter_eq, List.count_eq_one_of_mem nodup mem]
  rfl

/-- Numbering the tree keeps the registered sources. -/
lemma sources_numbered (policy : Policy) (files : List ParsedFile) :
    (numbered policy files).sources = registeredSources policy files :=
  sources_decided ..

/-- Base modules are generated only if the policy asks for them. -/
lemma baseModules_of_generated (hb : b ∈ generatedModules policy files) :
    policy.baseModules = true := by
  by_contra off
  rw [generatedModules, generatedFor, if_neg off] at hb
  cases hb

/-- What is of the kind of linking was reported by linking. -/
lemma Stages.mem_linked_problems {linked final : Draft} {types oids : Recorder}
    (s : Stages linked types oids final) {p : Problem} (hp : p ∈ final.mib.problems.toList)
    (phase : p.kind.phase = .linking) : p ∈ linked.mib.problems.toList := by
  obtain ⟨typing, typed, inTypes⟩ := s.untyped.reports (r := types)
  obtain ⟨numbering, numbered, inOids⟩ := (s.untyped.oidsPending types).reports (r := oids)
  obtain ⟨conflicts, final, inEnd⟩ := s.finalizes.reports
  rw [final, numbered, typed] at hp
  simp only [List.mem_append, or_assoc] at hp
  rcases hp with hp | hp | hp | hp
  · exact hp
  · cases phase.symm.trans (inTypes p hp)
  · cases phase.symm.trans (inOids p hp)
  · cases phase.symm.trans (inEnd p hp)

section Unsupplied

variable (unsupplied : ∀ c : BaseModule, c.name ∉ corpusNames files)
include unsupplied

/-- Where the corpus has no base modules, those that are registered were generated. -/
lemma generated_of_mem_names {c : BaseModule}
    (there : c.name ∈ (registeredSources policy files).map (·.name)) :
    c ∈ generatedModules policy files := by
  have generated := (mem_names_registeredSources.1 there).resolve_left (unsupplied c)
  rwa [List.mem_map_of_injective BaseModule.name_injective] at generated

/-- A base module that has the name of a registered module is that module. -/
lemma eq_source_of_name {c : BaseModule} {s : Module} (hs : s ∈ registeredSources policy files)
    (name : s.name = c.name) : s = c.source := by
  have hc : c ∈ generatedModules policy files := by
    refine generated_of_mem_names unsupplied ?_
    rw [← name]
    exact List.mem_map_of_mem hs
  refine List.inj_on_of_nodup_map (nodup_registeredSources policy files) hs ?_ name
  rw [registeredSources_eq]
  exact List.mem_append_right _ (List.mem_map_of_mem hc)

/-- The companions of a generated module are generated. -/
lemma companions_generated (hb : b ∈ generatedModules policy files) {c : BaseModule}
    (hc : c ∈ b.companions) : c ∈ generatedModules policy files := by
  rcases BaseModule.mem_companions.1 hc with rfl | ⟨i, hi, source⟩
  · exact hb
  · refine generated_of_mem_names unsupplied (mem_names_of_generated hb ?_)
    rw [← source]
    exact mem_mentions_of_import hi

/-- A corpus of a generated module and its companions is a part of the whole. -/
lemma exists_partOf_corpus (hb : b ∈ generatedModules policy files) (r : Recorder) :
    ∃ σ, PartOf σ ((Draft.new policy).register b.corpus r).1
      ((Draft.new policy).register files r).1 := by
  have small := accounts_register policy b.corpus r
  have large := accounts_register policy files r
  have sources := small.sources.trans (registeredSources_corpus policy b)
  refine exists_partOf small.registered large.registered
    (large.same_policy.trans small.same_policy.symm) ?_ ?_ ?_ ?_
  · rw [small.sources]
    exact nodup_registeredSources policy b.corpus
  · rw [large.sources]
    exact nodup_registeredSources policy files
  · rw [sources, large.sources, registeredSources_eq]
    intro s hs
    obtain ⟨c, hc, rfl⟩ := List.mem_map.1 hs
    exact List.mem_append_right _
      (List.mem_map_of_mem (companions_generated unsupplied hb hc))
  · rw [sources]
    intro s hs name mentioned _
    obtain ⟨c, hc, rfl⟩ := List.mem_map.1 hs
    rw [List.map_map]
    exact BaseModule.mentions_companions hc mentioned

/-- Everything that a generated module defines is resolved. -/
lemma resolved_of_generated (hb : b ∈ generatedModules policy files) :
    ∀ r ∈ (numbered policy files).mib.resultsIn [b.name], r.state = .resolved := by
  obtain ⟨σ, part⟩ := exists_partOf_corpus unsupplied hb (.new .error)
  have small := continues_decided policy b.corpus (.new .error) (.new .error) (.new .error)
  have large := continues_decided policy files (.new .error) (.new .error) (.new .error)
  have settled : PartOf σ (numbered policy b.corpus) (numbered policy files) :=
    part.of_continues small large
  have order : ((numbered policy files).sources.map (·.name)).filter (· ∈ [b.name]) =
      ((numbered policy b.corpus).sources.map (·.name)).filter (· ∈ [b.name]) := by
    rw [filter_mem_singleton settled.nodup', filter_mem_singleton settled.nodup]
    · rw [sources_numbered, registeredSources_corpus, List.map_map]
      exact List.mem_map_of_mem (BaseModule.mem_companions.2 (.inl rfl))
    · rw [sources_numbered]
      exact mem_names_registeredSources.2 (.inr (List.mem_map_of_mem hb))
  intro r hr
  have there : r ∈ (numbered policy b.corpus).mib.resultsIn [b.name] := by
    rw [← settled.resultsIn order fun x hx => part.result?_decided hx]
    exact hr
  exact resolved_corpus (baseModules_of_generated hb) b r (List.mem_filter.1 there).1

/-- What a generated module imports comes from a generated module, which defines it. -/
lemma exists_visible (hb : b ∈ generatedModules policy files) {i : Import} (hi : i ∈ b.imports) :
    ∃ s, (registered policy files).registeredAs? i.source = some s ∧
      (linked policy files).scope.resolve s i.symbol ≠ .notFound := by
  have h := (accounts_register policy files (.new .error)).registered
  have sources := sources_registered policy files
  obtain ⟨c, source, defined⟩ := BaseModule.defines_of_mem_imports hi
  have there : i.source ∈ (registered policy files).sources.map (·.name) := by
    rw [sources]
    exact mem_names_of_generated hb (mem_mentions_of_import hi)
  obtain ⟨s, found⟩ := Option.isSome_iff_exists.1 (h.isSome_module? there)
  refine ⟨s, h.registeredAs?_eq ▸ found, ?_⟩
  obtain ⟨u, hu, name⟩ := h.exists_source_of_module? found
  have mem : u ∈ registeredSources policy files := by
    rw [← sources]
    exact List.mem_of_getElem? hu
  obtain rfl : u = c.source := eq_source_of_name unsupplied mem (name.trans source)
  obtain ⟨x, hx, symbol⟩ := List.mem_map.1 defined
  have owned : (s, x) ∈ (registered policy files).owners := h.mem_owners.2 ⟨_, hu, hx⟩
  obtain ⟨k, hk⟩ := List.mem_iff_getElem?.1 owned
  obtain ⟨j, own, -⟩ :=
    h.definitions.lookup?_of_owner ((h.definitions.getElem?_owners k).symm.trans hk)
  have own : (linked policy files).scope.lookup? s i.symbol = some ⟨j⟩ := by
    rw [lookup?_of_registry (continues_linked policy files).registry, ← symbol]
    exact own
  intro unseen
  rw [Scope.resolve, own] at unseen
  cases unseen

/-- Nothing is wrong with the imports of a generated module. -/
lemma no_reports (hb : b ∈ generatedModules policy files) {m : RegisteredModule}
    (source : m.source = b.source) {reports : List ImportReport}
    (fits : ∀ p ∈ reports, p.subject ∈ m.plainImports ∧ p.Fits)
    (accounts : (registered policy files).AccountsFor m reports) : reports = [] := by
  have plain : m.plainImports = b.imports := by
    rw [RegisteredModule.plainImports, source]
    cases b <;> rfl
  have distinct : m.distinctImports = m.plainImports := by
    rw [RegisteredModule.distinctImports, plain]
    cases b <;> rfl
  -- With one import at most there is no other to repeat it or to be confused with it.
  have single : m.plainImports.length ≤ 1 := by
    rw [plain]
    cases b <;> decide
  have visible : ∀ i ∈ m.plainImports,
      ∃ s, (registered policy files).registeredAs? i.source = some s ∧
        (linked policy files).scope.resolve s i.symbol ≠ .notFound := by
    rw [plain]
    exact fun i hi => exists_visible unsupplied hb hi
  refine List.eq_nil_iff_forall_not_mem.2 fun p hp => ?_
  -- The accounts count the reports of each kind, and every count comes out as zero.
  obtain ⟨hi, fit⟩ := fits p hp
  cases fit with
  | duplicate m' i =>
    have count := accounts.duplicates
    rw [distinct, Nat.sub_self] at count
    exact List.countP_eq_zero.1 count _ hp (by simp [Finding.kind])
  | ambiguous m' i other =>
    have count := accounts.ambiguous i.symbol
    have card : (m.sourcesOf i.symbol).card ≤ 1 := by
      refine (List.toFinset_card_le _).trans ?_
      rw [List.length_map]
      exact (List.length_filter_le ..).trans single
    rw [Nat.sub_eq_zero_of_le card] at count
    exact List.countP_eq_zero.1 count _ hp (by simp [Finding.kind])
  | missing m' i =>
    obtain ⟨s, found, -⟩ := visible i hi
    have count := accounts.missing i.source
    rw [found, if_neg (by simp)] at count
    exact List.countP_eq_zero.1 count _ hp (by simp [Finding.kind])
  | unresolved m' i =>
    obtain ⟨s, found, seen⟩ := visible i hi
    have count := accounts.unresolved i.symbol i.source
    rw [found, if_neg fun missed => seen (of_decide_eq_true missed.2.2)] at count
    exact List.countP_eq_zero.1 count _ hp (by simp [Finding.kind])

/-- Whatever linking finds wrong, it is not in a generated module. -/
lemma module_ne_of_linking {m : ModuleId} (hb : b ∈ generatedModules policy files)
    (source : (built policy files).sources[m.index]? = some b.source) {p : Problem}
    (hp : p ∈ (built policy files).mib.problems.toList) (phase : p.kind.phase = .linking) :
    p.location.module ≠ some m := by
  intro located
  have h : (registered policy files).Registered :=
    (accounts_register policy files (.new .error)).registered
  obtain ⟨reports, problems, fits, accounts⟩ :=
    h.exists_accounts (bare_after policy [files] (.new .error))
  obtain ⟨new, registration, kinds⟩ :=
    (registers_register (.new policy) files (.new .error)).reports
  have reported := (stages_built policy files).mem_linked_problems hp phase
  rw [show Draft.linked policy files = (registered policy files).link from rfl, problems]
    at reported
  rcases List.mem_append.1 reported with early | late
  · -- What registration reports has another kind.
    have kind := kinds p ((congrArg (p ∈ ·) registration).mp early)
    rw [phase] at kind
    cases kind
  · obtain ⟨q, hq, rfl⟩ := List.mem_map.1 late
    obtain ⟨hm, -⟩ := fits q hq
    have id : q.importer.id = m := Option.some.inj located
    have at_id : ∀ {r}, r ∈ (registered policy files).modules → r.id = m →
        (registered policy files).modules[m.index]? = some r := by
      rintro r hr rfl
      obtain ⟨k, hk⟩ := Array.mem_iff_getElem?.1 hr
      rwa [(h.modules.entry k r hk).1]
    have own : q.importer.source = b.source := by
      have written := getElem?_sources (registered policy files) m.index
      rw [at_id hm id, sources_registered, ← sources_built, source] at written
      exact (Option.some.inj written).symm
    have empty := no_reports unsupplied hb own (fun p hp => ?_) (accounts _ hm)
    · have mem : q ∈ reports.filter (·.importer.id = q.importer.id) :=
        List.mem_filter.2 ⟨hq, decide_eq_true rfl⟩
      rw [empty] at mem
      cases mem
    · obtain ⟨hp, same⟩ := List.mem_filter.1 hp
      obtain ⟨hm', subject⟩ := fits p hp
      have importer := (at_id hm' ((of_decide_eq_true same).trans id)).symm.trans (at_id hm id)
      rwa [Option.some.inj importer] at subject

/-- Everything that is in a generated module is resolved in the end. -/
lemma state_of_generated {m : ModuleId} (hb : b ∈ generatedModules policy files)
    (source : (built policy files).sources[m.index]? = some b.source) {i : AssignmentId}
    {a : Assignment} (ha : (built policy files).mib.assignment? i = some a)
    (module : a.module = m) :
    a.state = .resolved := by
  have s := stages_built policy files
  have named : (built policy files).mib.moduleName a.module = b.name := by
    rw [module, (s.registered.of_continues s.continues).moduleName_eq source]
    rfl
  have listed : (built policy files).mib.resultOf a ∈ (built policy files).mib.results :=
    List.mem_map_of_mem (Array.mem_toList_iff.2 (Array.mem_of_getElem? ha))
  refine resolved_of_generated unsupplied hb ((built policy files).mib.resultOf a) ?_
  refine List.mem_filter.2 ⟨?_, decide_eq_true (List.mem_singleton.2 named)⟩
  exact s.finalizes.results ▸ listed

end Unsupplied

end Draft

/-- If base modules are to be generated, this happens in finitely many rounds, after which those are
there that the corpus calls for. Where the corpus has none of its own, everything that the generated
ones define ends as resolved, and nothing is found wrong with their imports. -/
theorem Pipeline.hasBases_runParsed (p : Pipeline) (files : List ParsedFile)
    (on : p.policy.baseModules = true) :
    let d := Draft.built p.policy files
    (∀ r, Draft.RoundsEnd (files.foldl Draft.registerFile (.new p.policy, r))
        ((Draft.new p.policy).register files r)) ∧
      (Draft.registered p.policy files).HasBases files ∧
      modelOf (p.runParsed files).1 = some d.mib ∧ d.HasBases files ∧
      ((∀ b : BaseModule, b.name ∉ corpusNames files) →
        ∀ name m, (name, m, true) ∈ d.mib.moduleListing →
          (∀ i a, d.mib.assignment? i = some a → a.module = m → a.state = .resolved) ∧
          ∀ q ∈ d.mib.problems.toList, q.kind.phase = .linking → q.location.module ≠ some m) := by
  intro d
  have c := Draft.continues_built p.policy files
  refine ⟨Draft.roundsEnd_register on, Draft.hasBases on (.refl _), ?_, Draft.hasBases on c, ?_⟩
  · rw [modelOf_runParsed, resolve_eq_told]
  intro unsupplied name m listed
  obtain ⟨b, hb, -, source⟩ := Draft.exists_generated c listed
  constructor
  · intro i a ha module
    exact Draft.state_of_generated unsupplied hb source ha module
  · intro q hq phase
    exact Draft.module_ne_of_linking unsupplied hb source hq phase

/-- A module that imports from a base module, which imports from another one. -/
def cascadeCorpus : List ParsedFile :=
  [⟨"a.mib", .ok [⟨"A-MIB", [⟨"SNMPv2-TC", "DisplayString", .synthetic⟩], [], .synthetic⟩]⟩]

/-- Both are generated, and what they define is resolved. -/
theorem Pipeline.hasBases_runParsed_cascadeCorpus : let d := Draft.built .usual cascadeCorpus
    Policy.usual.baseModules = true ∧ d.HasBases cascadeCorpus ∧
      d.mib.moduleListing =
        [("A-MIB", ⟨0⟩, false), ("SNMPv2-TC", ⟨1⟩, true), ("SNMPv2-SMI", ⟨2⟩, true)] ∧
      ∀ i a, d.mib.assignment? i = some a → a.module = ⟨1⟩ ∨ a.module = ⟨2⟩ →
        a.state = .resolved := by
  intro d
  have on : Policy.usual.baseModules = true := rfl
  obtain ⟨-, -, -, bases, resolved⟩ := hasBases_runParsed (new .usual .info) cascadeCorpus on
  have listing : d.mib.moduleListing =
      [("A-MIB", ⟨0⟩, false), ("SNMPv2-TC", ⟨1⟩, true), ("SNMPv2-SMI", ⟨2⟩, true)] := by
    rw [Draft.moduleListing_eq_admitted _ _ (Draft.continues_built .usual cascadeCorpus)]
    decide +kernel
  have unsupplied : ∀ b : BaseModule, b.name ∉ corpusNames cascadeCorpus := by
    intro b
    cases b <;> decide
  have conventions : ("SNMPv2-TC", ⟨1⟩, true) ∈ d.mib.moduleListing := by rw [listing]; decide
  have management : ("SNMPv2-SMI", ⟨2⟩, true) ∈ d.mib.moduleListing := by rw [listing]; decide
  refine ⟨on, bases, listing, fun i a ha module => ?_⟩
  rcases module with module | module
  · exact (resolved unsupplied _ _ conventions).1 i a ha module
  · exact (resolved unsupplied _ _ management).1 i a ha module

end MibCorpus
