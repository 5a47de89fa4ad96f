import MibCorpus.Proofs.Chronicle
import MibCorpus.Proofs.Enrolment
import MibCorpus.Proofs.Isolation

/-!
# Generated modules

Base modules are generated in rounds: each registers those that are lacking, and since a generated
module may import from another base module, there may be a next round. No base module is lacking
twice, so the rounds come to an end. Then a base module is registered if the corpus has a module of
its name or if some registered module imports from it, and in no other case; it is generated if the
corpus has none, and it stands behind all modules of the corpus.
-/

namespace MibCorpus

/-- Among some modules, one imports from the module of a name. -/
def IsImportedFrom (ms : List Module) (name : String) : Prop :=
  ∃ m ∈ ms, ∃ i ∈ m.imports, i.source = name

/-- What some modules import from is imported from by more of them. -/
lemma IsImportedFrom.mono {ms ns : List Module} {name : String} (h : IsImportedFrom ms name)
    (sub : ms ⊆ ns) : IsImportedFrom ns name := by
  obtain ⟨m, hm, imported⟩ := h
  exact ⟨m, sub hm, imported⟩

namespace Draft

variable {ms : List Module} {b : BaseModule} {d : Draft}

/-! ## Lacking modules -/

/-- A base module is lacking if some module imports from it and none has its name. -/
lemma lackedBy_iff : lackedBy ms b = true ↔
    IsImportedFrom ms b.name ∧ b.name ∉ ms.map (·.name) := by
  simp [lackedBy, IsImportedFrom]

/-- A draft imports from a module exactly if its sources do. -/
lemma importsFrom_iff {name : String} :
    d.importsFrom name = true ↔ IsImportedFrom d.sources name := by
  simp only [importsFrom, ← Array.any_toList, List.any_eq_true, beq_iff_eq, IsImportedFrom, sources,
    List.mem_map, exists_exists_and_eq_and]

/-- A base module that is generated is new, and it is imported from. -/
lemma lacked_of_mem_generated {candidates : List BaseModule} (hb : b ∈ generated ms candidates) :
    b ∈ candidates ∧ IsImportedFrom (ms ++ (generated ms candidates).map (·.source)) b.name ∧
      b.name ∉ ms.map (·.name) := by
  fun_induction generated ms candidates with
  | case1 ms candidates lt ih =>
    rcases List.mem_append.1 hb with hb | hb
    · obtain ⟨candidate, lacked⟩ := List.mem_filter.1 hb
      obtain ⟨imported, new⟩ := lackedBy_iff.1 lacked
      exact ⟨candidate, imported.mono (List.subset_append_left ..), new⟩
    · obtain ⟨candidate, imported, new⟩ := ih hb
      refine ⟨(List.mem_filter.1 candidate).1, ?_, fun old => new ?_⟩
      · rwa [List.map_append, ← List.append_assoc]
      · rw [List.map_append]
        exact List.mem_append_left _ old
  | case2 => cases hb

/-! ## Rounds -/

/-- One round: the base modules that are lacking are registered. -/
def supplyLacking (dr : Draft × Recorder) : Draft × Recorder :=
  (dr.1.lacking BaseModule.all).foldl (fun dr b => registerModule none dr b.source) dr

/-- Rounds that each find something lacking lead from `start` to `final`, where nothing is. There
are no more of them than base modules. -/
def RoundsEnd (start final : Draft × Recorder) : Prop :=
  ∃ n ≤ BaseModule.all.length, supplyLacking^[n] start = final ∧
    final.1.lacking BaseModule.all = [] ∧
      ∀ k < n, (supplyLacking^[k] start).1.lacking BaseModule.all ≠ []

/-- What is registered is not lacking. -/
lemma Registered.lacks_eq_false (h : d.Registered) (there : b.name ∈ d.sources.map (·.name)) :
    d.lacks b = false := by
  rw [h.lacks_eq, ← Bool.not_eq_true, lackedBy_iff]
  exact fun lacked => lacked.2 there

/-- What is lacking is among the candidates if the other base modules are registered. -/
lemma Registered.lacking_filter (h : d.Registered) {q : BaseModule → Bool}
    (there : ∀ b, q b = false → b.name ∈ d.sources.map (·.name)) :
    d.lacking (BaseModule.all.filter q) = d.lacking BaseModule.all := by
  rw [lacking, lacking, List.filter_filter]
  refine List.filter_congr fun b _ => ?_
  cases candidate : q b with
  | true => rw [Bool.and_true]
  | false => rw [Bool.and_false, h.lacks_eq_false (there b candidate)]

/-- Fewer candidates remain exactly if one of them is lacking. -/
lemma length_notLacking_lt_iff (d : Draft) (candidates : List BaseModule) :
    (d.notLacking candidates).length < candidates.length ↔ d.lacking candidates ≠ [] := by
  have all := List.length_eq_length_filter_add (l := candidates) d.lacks
  rw [← List.length_pos_iff, notLacking, lacking]
  omega

/-- Generating what is lacking goes through rounds, as many as there are candidates at most, if the
base modules that are no candidates are there. -/
lemma exists_rounds (q : BaseModule → Bool) (dr : Draft × Recorder) (h : dr.1.Registered)
    (nodup : (dr.1.sources.map (·.name)).Nodup)
    (there : ∀ b, q b = false → b.name ∈ dr.1.sources.map (·.name)) :
    ∃ n ≤ (BaseModule.all.filter q).length,
      supplyLacking^[n] dr = generateLacking (BaseModule.all.filter q) dr ∧
        (supplyLacking^[n] dr).1.lacking BaseModule.all = [] ∧
          ∀ k < n, (supplyLacking^[k] dr).1.lacking BaseModule.all ≠ [] := by
  have lacking_all := h.lacking_filter there
  generalize candidates_eq : BaseModule.all.filter q = candidates at lacking_all ⊢
  fun_induction generateLacking candidates dr generalizing q with
  | case1 candidates dr others lt ih =>
    have distinct : (candidates.map (·.name)).Nodup := by
      rw [← candidates_eq]
      exact BaseModule.nodup_all.sublist (List.filter_sublist.map _)
    have round := sources_lacking candidates dr h nodup distinct
    have next : (dr.1.lacking candidates).foldl (fun dr b => registerModule none dr b.source) dr =
        supplyLacking dr := by rw [supplyLacking, ← lacking_all]
    rw [next] at ih ⊢
    obtain ⟨registered, extended, listed⟩ := next ▸ round
    -- What was lacking is registered now and no candidate any more.
    have there' : ∀ b, (q b && !dr.1.lacks b) = false →
        b.name ∈ (supplyLacking dr).1.sources.map (·.name) := by
      intro b settled
      rw [listed, lacking_all, List.map_append, List.mem_append]
      cases candidate : q b with
      | false => exact .inl (there b candidate)
      | true =>
        have lacks : dr.1.lacks b = true := by simpa [candidate] using settled
        have lacked := List.mem_filter.2 ⟨b.mem_all, lacks⟩
        exact .inr (List.mem_map_of_mem (List.mem_map_of_mem lacked))
    have others_eq : BaseModule.all.filter (fun b => q b && !dr.1.lacks b) = others := by
      rw [show others = candidates.filter (!dr.1.lacks ·) from rfl, ← candidates_eq,
        List.filter_filter]
      exact List.filter_congr fun b _ => Bool.and_comm ..
    have lacking_others := registered.lacking_filter there'
    rw [others_eq] at lacking_others
    obtain ⟨n, le, same, none, some⟩ :=
      ih _ registered extended there' others_eq lacking_others
    refine ⟨n + 1, Nat.lt_of_le_of_lt le lt, same, none, fun k hk => ?_⟩
    cases k with
    | zero =>
      rw [Function.iterate_zero_apply, ← lacking_all]
      exact (length_notLacking_lt_iff ..).1 lt
    | succ k => exact some k (Nat.lt_of_succ_lt_succ hk)
  | case2 candidates dr others ge =>
    refine ⟨0, Nat.zero_le _, rfl, ?_, fun k hk => absurd hk k.not_lt_zero⟩
    rw [Function.iterate_zero_apply, ← lacking_all]
    by_contra some
    exact ge ((length_notLacking_lt_iff ..).2 some)

/-! ## What is there in the end -/

section Run

variable {policy : Policy} {files : List ParsedFile}

/-- With the rounds a registered corpus has its base modules. -/
lemma roundsEnd_register (on : policy.baseModules = true) (r : Recorder) :
    RoundsEnd (files.foldl registerFile (.new policy, r))
      ((Draft.new policy).register files r) := by
  have admits := admits_foldl_registerFile files (.new policy, r) (registered_new policy)
  have nodup := nodup_keys_firstsBy Module.name [] (offered files)
  have sources : (files.foldl registerFile (.new policy, r)).1.sources =
      firstsBy (·.name) [] (offered files) := admits.sources
  obtain ⟨n, le, same, none, some⟩ :=
    exists_rounds (fun _ => true) _ admits.registered (by rwa [sources]) nofun
  rw [List.filter_true] at le same
  have register : (Draft.new policy).register files r =
      generateLacking BaseModule.all (files.foldl registerFile (.new policy, r)) := by
    simp [register, new, on]
  rw [register, ← same]
  exact ⟨n, le, rfl, none, some⟩

/-- A base module is registered if the corpus has it or a registered module imports from it, and in
no other case. -/
lemma mem_names_registered_iff (on : policy.baseModules = true) (b : BaseModule) :
    b.name ∈ (registeredSources policy files).map (·.name) ↔
      b.name ∈ corpusNames files ∨ IsImportedFrom (registeredSources policy files) b.name := by
  have complete : lackedBy (registeredSources policy files) b ≠ true := by
    rw [registeredSources_eq, generatedModules, generatedFor, if_pos on, lackedBy_generated _ _ _
      b.mem_all]
    exact Bool.false_ne_true
  constructor
  · intro there
    refine (mem_names_registeredSources.1 there).imp_right fun generated => ?_
    rw [List.mem_map_of_injective BaseModule.name_injective, generatedModules, generatedFor,
      if_pos on] at generated
    rw [registeredSources_eq, generatedModules, generatedFor, if_pos on]
    exact (lacked_of_mem_generated generated).2.1
  · rintro (supplied | imported)
    · exact mem_names_registeredSources.2 (.inl supplied)
    · by_contra new
      exact complete (lackedBy_iff.2 ⟨imported, new⟩)

/-- The modules that are entered have their files, and generated ones have none. -/
lemma getElem?_admitted {i : Nat} {o : Offer} (ho : (admitted policy files)[i]? = some o) :
    (i < (firstsBy Offer.name [] (supplied files)).length ∧ o.file.isNone = false ∧
      o.name ∈ corpusNames files) ∨
    ((firstsBy Offer.name [] (supplied files)).length ≤ i ∧ o.file.isNone = true ∧
      ∃ b ∈ generatedModules policy files, o.source = b.source) := by
  rw [admitted] at ho
  rcases Nat.lt_or_ge i (firstsBy Offer.name [] (supplied files)).length with lt | ge
  · rw [List.getElem?_append_left lt] at ho
    have given := (firstsBy_sublist _ _ _).subset (List.mem_of_getElem? ho)
    refine .inl ⟨lt, ?_, ?_⟩
    · obtain ⟨f, -, offer⟩ := List.mem_flatMap.1 given
      obtain ⟨m, -, rfl⟩ := List.mem_map.1 offer
      rfl
    · rw [mem_corpusNames, ← map_source_supplied]
      exact List.mem_map_of_mem (List.mem_map_of_mem given)
  · rw [List.getElem?_append_right ge] at ho
    obtain ⟨b, hb, rfl⟩ := List.mem_map.1 (List.mem_of_getElem? ho)
    exact .inr ⟨ge, rfl, b, hb, rfl⟩

variable (policy files)

/-- A draft lists the modules that are entered for its corpus. -/
lemma moduleListing_eq_admitted (c : Continues (registered policy files) d) :
    d.mib.moduleListing =
      (admitted policy files).zipIdx.map fun o => (o.1.name, ⟨o.2⟩, o.1.file.isNone) := by
  have enrolled := enrolled_register policy files (.new .error)
  have flags : d.mib.syntheticFlags = d.modules.toList.map (·.file.isNone) := by
    rw [syntheticFlags_of_registry c.registry, modules_of_registry c.registry]
    exact flags_register policy files _
  have modules : d.modules.toList = entered (admitted policy files) := by
    rw [modules_of_registry c.registry, ← firstsBy_generated]
    exact enrolled.modules
  rw [(enrolled.registered.of_continues c).modules.moduleListing_eq flags, modules, entered,
    List.map_map]
  rfl

end Run

/-- The base modules of a draft are those that its corpus calls for. -/
structure HasBases (files : List ParsedFile) (d : Draft) : Prop where
  /-- A base module is registered if the corpus has it or a registered module imports from it. -/
  complete : ∀ b : BaseModule, b.name ∈ d.mib.moduleListing.map (·.1) ↔
    b.name ∈ corpusNames files ∨ d.importsFrom b.name = true
  /-- It is generated if the corpus does not have it. -/
  generated : ∀ (b : BaseModule) (m : ModuleId) (synthetic : Bool),
    (b.name, m, synthetic) ∈ d.mib.moduleListing →
      (synthetic = true ↔ b.name ∉ corpusNames files)
  /-- Nothing else is generated. -/
  base : ∀ name m, (name, m, true) ∈ d.mib.moduleListing → isBaseModule name = true
  /-- What is generated stands behind the corpus. -/
  behind : ∀ name m name' m', (name, m, false) ∈ d.mib.moduleListing →
    (name', m', true) ∈ d.mib.moduleListing → m.index < m'.index

section Run

variable {policy : Policy} {files : List ParsedFile}

/-- The listing shows the admitted modules, and those without a file as synthetic. -/
lemma mem_moduleListing_iff (c : Continues (registered policy files) d) {name : String}
    {m : ModuleId} {synthetic : Bool} : (name, m, synthetic) ∈ d.mib.moduleListing ↔
      ∃ o, (admitted policy files)[m.index]? = some o ∧ o.name = name ∧
        o.file.isNone = synthetic := by
  rw [moduleListing_eq_admitted policy files c]
  constructor
  · intro mem
    obtain ⟨⟨o, i⟩, ho, e⟩ := List.mem_map.1 mem
    cases e
    exact ⟨o, List.mem_zipIdx_iff_getElem?.1 ho, rfl, rfl⟩
  · rintro ⟨o, ho, rfl, rfl⟩
    exact List.mem_map.2 ⟨(o, m.index), List.mem_zipIdx_iff_getElem?.2 ho, rfl⟩

/-- What is generated is listed with its base module. -/
lemma exists_generated (c : Continues (registered policy files) d) {name : String}
    {m : ModuleId} (listed : (name, m, true) ∈ d.mib.moduleListing) :
    ∃ b ∈ generatedModules policy files, name = b.name ∧ d.sources[m.index]? = some b.source := by
  obtain ⟨o, ho, rfl, synthetic⟩ := (mem_moduleListing_iff c).1 listed
  rcases getElem?_admitted ho with ⟨-, file, -⟩ | ⟨-, -, b, hb, source⟩
  · rw [synthetic] at file
    cases file
  · refine ⟨b, hb, congrArg Module.name source, ?_⟩
    rw [sources_of_registry c.registry, sources_registered, ← map_source_admitted,
      List.getElem?_map, ho, Option.map_some, source]

/-- Whatever comes after registration, the base modules that the corpus calls for are there. -/
theorem hasBases (on : policy.baseModules = true) (c : Continues (registered policy files) d) :
    d.HasBases files where
  complete b := by
    have names : d.mib.moduleListing.map (·.1) = (registeredSources policy files).map (·.name) := by
      rw [moduleListing_eq_admitted policy files c, List.map_map, ← map_source_admitted,
        List.map_map]
      conv_rhs => rw [← List.zipIdx_map_fst 0 (admitted policy files), List.map_map]
      rfl
    have sources : d.sources = registeredSources policy files := by
      rw [sources_of_registry c.registry, sources_registered]
    rw [names, importsFrom_iff, sources]
    exact mem_names_registered_iff on b
  generated b m synthetic mem := by
    obtain ⟨o, ho, name, rfl⟩ := (mem_moduleListing_iff c).1 mem
    rw [← name]
    rcases getElem?_admitted ho with ⟨-, file, given⟩ | ⟨-, file, b', hb, source⟩
    · simp [file, given]
    · have new := notMem_corpusNames_of_generated hb
      rw [file, show o.name = b'.name from congrArg Module.name source]
      exact ⟨fun _ => new, fun _ => rfl⟩
  base name m mem := by
    obtain ⟨b, -, rfl, -⟩ := exists_generated c mem
    cases b <;> decide
  behind name m name' m' given generated := by
    obtain ⟨o, ho, -, file⟩ := (mem_moduleListing_iff c).1 given
    obtain ⟨o', ho', -, file'⟩ := (mem_moduleListing_iff c).1 generated
    -- A module with a file is one of the offers, and one without stands behind all of these.
    rcases getElem?_admitted ho with ⟨lt, -⟩ | ⟨-, none, -⟩
    · rcases getElem?_admitted ho' with ⟨-, some, -⟩ | ⟨ge, -⟩
      · rw [some] at file'
        cases file'
      · exact Nat.lt_of_lt_of_le lt ge
    · rw [none] at file
      cases file

end Run

end Draft

end MibCorpus
