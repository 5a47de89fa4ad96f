import MibCorpus.Proofs.DraftParts
import MibCorpus.Proofs.ModuleRecords

/-!
# Isolation

Files that are put among those of a corpus change nothing for its modules if they have no module
that these mention or that has the name of one of them, and if the same base modules are generated.
The same becomes of the assignments of these modules, and the same is said about them, conflicts
aside: what another module claims may well be in conflict with them.
-/

namespace MibCorpus

/-- The third list consists of the first two, each of which keeps its order. -/
inductive Interleaves {α : Type} : List α → List α → List α → Prop
  | nil : Interleaves [] [] []
  | left (x : α) {xs ys zs : List α} : Interleaves xs ys zs → Interleaves (x :: xs) ys (x :: zs)
  | right (y : α) {xs ys zs : List α} : Interleaves xs ys zs → Interleaves xs (y :: ys) (y :: zs)

/-- The names of the modules of a corpus. -/
def corpusNames (fs : List ParsedFile) : List String := (fs.flatMap (·.modules)).map (·.name)

/-- No module of the files `gs` has the name of a module of the corpus `fs` or is mentioned
there. -/
def ApartFrom (fs gs : List ParsedFile) : Prop :=
  ∀ g ∈ gs.flatMap (·.modules), g.name ∉ corpusNames fs ∧
    ∀ s ∈ fs.flatMap (·.modules), g.name ∉ s.mentions

/-- In both models the same became of the assignments of the modules of some names, and the same is
said about them, conflicts aside. -/
structure Mib.AgreesOn (names : List String) (mib mib' : Mib) : Prop where
  results : mib'.resultsIn names = mib.resultsIn names
  remarks : mib'.remarksIn names = mib.remarksIn names

/-! ## Interleaved lists -/

section Interleaves

variable {α β : Type} {xs ys zs : List α} {members : α → List β}

/-- Interleaving puts nothing else in the list than what is in the two. -/
lemma Interleaves.mem_flatMap (h : Interleaves xs ys zs) {b : β} :
    b ∈ zs.flatMap members ↔ b ∈ xs.flatMap members ∨ b ∈ ys.flatMap members := by
  induction h with
  | nil => simp
  | left x _ ih => rw [List.flatMap_cons, List.flatMap_cons, List.mem_append, List.mem_append, ih,
      or_assoc]
  | right y _ ih => rw [List.flatMap_cons, List.flatMap_cons, List.mem_append, List.mem_append, ih,
      or_left_comm]

/-- What tells the first list from the second finds it in the third. -/
lemma Interleaves.filter_flatMap (h : Interleaves xs ys zs) {p : β → Bool}
    (left : ∀ b ∈ xs.flatMap members, p b) (right : ∀ b ∈ ys.flatMap members, ¬p b) :
    (zs.flatMap members).filter p = xs.flatMap members := by
  induction h with
  | nil => rfl
  | left x _ ih =>
    simp only [List.flatMap_cons, List.mem_append] at left ⊢
    rw [List.filter_append, List.filter_eq_self.2 fun b hb => left b (.inl hb),
      ih (fun b hb => left b (.inr hb)) right]
  | right y _ ih =>
    simp only [List.flatMap_cons, List.mem_append] at right ⊢
    rw [List.filter_append, List.filter_eq_nil_iff.2 fun b hb => right b (.inl hb),
      ih left fun b hb => right b (.inr hb), List.nil_append]

end Interleaves

namespace Draft

variable {policy : Policy} {fs gs hs : List ParsedFile}

/-! ## What is registered -/

/-- The modules on offer are those of the files. -/
lemma mem_offered {m : Module} : m ∈ offered fs ↔ m ∈ fs.flatMap (·.modules) := by
  rw [offered, List.mem_flatMap, List.mem_flatMap]
  simp only [(perm_byName _).mem_iff]

/-- The names in a corpus are those of the modules on offer. -/
lemma mem_corpusNames {name : String} :
    name ∈ corpusNames fs ↔ name ∈ (offered fs).map (·.name) := by
  simp only [corpusNames, List.mem_map, mem_offered]

/-- The names of the modules that are registered. -/
lemma mem_names_registeredSources {name : String} :
    name ∈ (registeredSources policy fs).map (·.name) ↔
      name ∈ corpusNames fs ∨ name ∈ (generatedModules policy fs).map (·.name) := by
  rw [registeredSources_eq, List.map_append, List.mem_append, mem_keys_firstsBy, mem_corpusNames,
    List.map_map]
  simp only [List.not_mem_nil, not_false_eq_true, and_true]
  rfl

/-- What is generated has the name of no module of the corpus. -/
lemma notMem_corpusNames_of_generated {b : BaseModule} (hb : b ∈ generatedModules policy fs) :
    b.name ∉ corpusNames fs := by
  intro given
  have nodup := nodup_registeredSources policy fs
  rw [registeredSources_eq, List.map_append, List.nodup_append] at nodup
  have first := mem_keys_firstsBy.2 ⟨mem_corpusNames.1 given, List.not_mem_nil⟩
  exact nodup.2.2 _ first _ (List.mem_map_of_mem (List.mem_map_of_mem hb)) rfl

/-- The modules of the corpus are found among those of the larger one by their names. -/
lemma firstsBy_offered (among : Interleaves fs gs hs) (apart : ApartFrom fs gs) :
    firstsBy (·.name) [] (offered fs) =
      (firstsBy (·.name) [] (offered hs)).filter (·.name ∈ corpusNames fs) := by
  have own : offered fs = (offered hs).filter (·.name ∈ corpusNames fs) := by
    refine (among.filter_flatMap (fun m hm => ?_) fun m hm => ?_).symm
    · exact decide_eq_true (mem_corpusNames.2 (List.mem_map_of_mem hm))
    · rw [decide_eq_true_iff]
      exact (apart m (mem_offered.1 hm)).1
  conv_lhs => rw [own]
  exact firstsBy_filter (fun name => decide (name ∈ corpusNames fs)) [] (offered hs)

section Generated

variable (same : ∀ name, name ∈ (generatedModules policy fs).map (·.name) ↔
  name ∈ (generatedModules policy hs).map (·.name))

include same

/-- The same base modules are generated for the corpus and the larger one. -/
lemma mem_generatedModules_iff {b : BaseModule} :
    b ∈ generatedModules policy fs ↔ b ∈ generatedModules policy hs := by
  rw [← List.mem_map_of_injective BaseModule.name_injective, same,
    List.mem_map_of_injective BaseModule.name_injective]

/-- The modules that are registered for the corpus are among those of the larger one. -/
lemma registeredSources_subset (among : Interleaves fs gs hs) (apart : ApartFrom fs gs) :
    registeredSources policy fs ⊆ registeredSources policy hs := by
  rw [registeredSources_eq, registeredSources_eq, firstsBy_offered among apart]
  intro s hs
  rcases List.mem_append.1 hs with hs | hs
  · exact List.mem_append_left _ (List.mem_filter.1 hs).1
  · obtain ⟨b, hb, rfl⟩ := List.mem_map.1 hs
    exact List.mem_append_right _ (List.mem_map_of_mem ((mem_generatedModules_iff same).1 hb))

/-- They come in the same order there. -/
lemma filter_registeredSources (among : Interleaves fs gs hs) (apart : ApartFrom fs gs) :
    ((registeredSources policy hs).map (·.name)).filter (· ∈ corpusNames fs) =
      ((registeredSources policy fs).map (·.name)).filter (· ∈ corpusNames fs) := by
  have generated : ∀ ds, (∀ b ∈ generatedModules policy ds, b ∈ generatedModules policy fs) →
      ((generatedModules policy ds).map (·.source)).filter (·.name ∈ corpusNames fs) = [] := by
    refine fun ds sub => List.filter_eq_nil_iff.2 fun s hs => ?_
    obtain ⟨b, hb, rfl⟩ := List.mem_map.1 hs
    rw [decide_eq_true_iff]
    exact notMem_corpusNames_of_generated (sub b hb)
  have firsts := firstsBy_offered among apart
  rw [List.filter_map, List.filter_map, registeredSources_eq, registeredSources_eq]
  simp only [Function.comp_def, List.filter_append]
  rw [generated fs fun _ => id, generated hs fun _ => (mem_generatedModules_iff same).2, ← firsts,
    firsts, List.filter_filter]
  simp only [Bool.and_self]

end Generated

/-- A base module that is generated mentions modules that are registered. -/
lemma mem_names_of_generated {b : BaseModule} (hb : b ∈ generatedModules policy fs) {name : String}
    (mentioned : name ∈ b.source.mentions) : name ∈ (registeredSources policy fs).map (·.name) := by
  have mentions : b.source.mentions = b.source.imports.map (·.source) := by
    cases b <;> rfl
  have only : ∀ i ∈ b.source.imports, i.source = BaseModule.snmpV2Smi.name := by
    cases b <;> decide
  rw [mentions] at mentioned
  obtain ⟨i, hi, rfl⟩ := List.mem_map.1 mentioned
  have base : policy.baseModules = true := by
    by_contra off
    rw [generatedModules, generatedFor, if_neg off] at hb
    cases hb
  have present := lackedBy_generated (firstsBy (·.name) [] (offered fs)) BaseModule.all .snmpV2Smi
    (by decide)
  rw [registeredSources_eq, generatedModules, generatedFor, if_pos base]
  rw [generatedModules, generatedFor, if_pos base] at hb
  rw [lackedBy, Bool.and_eq_false_iff, Bool.not_eq_false', List.contains_iff_mem] at present
  rw [only i hi]
  refine present.resolve_left fun unused => ?_
  rw [List.any_eq_false] at unused
  refine unused b.source (List.mem_append_right _ (List.mem_map_of_mem hb)) (List.any_eq_true.2 ?_)
  exact ⟨i, hi, beq_iff_eq.2 (only i hi)⟩

/-- What is registered for the corpus is part of what is registered for the larger one. -/
theorem exists_partOf_register (among : Interleaves fs gs hs) (apart : ApartFrom fs gs)
    (same : ∀ name, name ∈ (generatedModules policy fs).map (·.name) ↔
      name ∈ (generatedModules policy hs).map (·.name)) (r r' : Recorder) :
    ∃ σ, PartOf σ ((Draft.new policy).register fs r).1 ((Draft.new policy).register hs r').1 := by
  have small := accounts_register policy fs r
  have large := accounts_register policy hs r'
  refine exists_partOf small.registered large.registered
    (large.same_policy.trans small.same_policy.symm) ?_ ?_ ?_ ?_
  · rw [small.sources]
    exact nodup_registeredSources policy fs
  · rw [large.sources]
    exact nodup_registeredSources policy hs
  · rw [small.sources, large.sources]
    exact registeredSources_subset same among apart
  rw [small.sources, large.sources]
  intro s hs name mentioned registered
  rw [registeredSources_eq] at hs
  rcases List.mem_append.1 hs with hs | hs
  · -- A module of the corpus mentions no module that was added.
    have given := mem_offered.1 ((firstsBy_sublist _ _ _).subset hs)
    rw [mem_names_registeredSources] at registered ⊢
    refine registered.imp (fun known => ?_) (same name).2
    obtain ⟨t, ht, rfl⟩ := List.mem_map.1 known
    rcases among.mem_flatMap.1 ht with own | added
    · exact List.mem_map_of_mem own
    · exact absurd mentioned ((apart t added).2 s given)
  · obtain ⟨b, hb, rfl⟩ := List.mem_map.1 hs
    exact mem_names_of_generated hb mentioned

/-! ## What is said -/

/-- What is said about a definition that is refused. -/
def saidOfRefusal (d : Draft) (x : OwnedDefinition) : List (ProblemKind × Severity × String) :=
  [(Finding.duplicateDefinition x.2.2.name (d.sourceName x.2.1)).content]

/-- While modules are registered only refusals are reported about assignments. -/
lemma Ledger.refusals_eq {d : Draft} (h : Ledger d.sourceName d) : d.notices.filter (·.1.isSome) =
    noticesAbout (d.definitions.filter (d.isRefused ·.1)) d.saidOfRefusal := by
  rw [h.refusals, noticesAbout, List.map_eq_flatMap]
  rfl

/-- Linking reports nothing about assignments. -/
lemma filter_notices_link (d : Draft) :
    d.link.notices.filter (·.1.isSome) = d.notices.filter (·.1.isSome) := by
  obtain ⟨new, problems, others⟩ := (linked_link d).exists_new
  have none : (new.map Problem.notice).filter (·.1.isSome) = [] := by
    refine List.filter_eq_nil_iff.2 fun n hn => ?_
    obtain ⟨p, hp, rfl⟩ := List.mem_map.1 hn
    simp [Problem.notice, (others p hp).2]
  rw [notices, problems, List.map_append, List.filter_append, none, List.append_nil, notices]

/-- Only what is about an assignment counts. -/
lemma filterMap_remark? (mib : Mib) (names : List String)
    (ns : List (Option AssignmentId × ProblemKind × Severity × String)) :
    (ns.filter (·.1.isSome)).filterMap (mib.remark? names) = ns.filterMap (mib.remark? names) := by
  rw [List.filterMap_filter]
  refine List.filterMap_congr fun n _ => ?_
  obtain ⟨_ | i, c⟩ := n
  · simp [Mib.remark?]
  · rfl

/-- The conflicts do not count. -/
lemma Finalizes.remarksIn {e final : Draft} (h : Finalizes e final) (names : List String) :
    final.mib.remarksIn names = e.notices.filterMap (e.mib.remark? names) := by
  have same : final.mib.remark? names = e.mib.remark? names := by
    have results : final.mib.result? = e.mib.result? := funext h.result?
    funext n
    rw [Mib.remark?, results, Mib.remark?]
  obtain ⟨conflicts, problems, kinds⟩ := h.reports
  have none : conflicts.filterMap (fun p => e.mib.remark? names p.notice) = [] := by
    refine List.filterMap_eq_nil_iff.2 fun p hp => ?_
    have kind : p.notice.2.1 = .multipleValueConflict := by
      have phase : p.notice.2.1.phase = .finalizing := kinds p hp
      revert phase
      cases p.notice.2.1 <;> decide
    rw [Mib.remark?, if_pos kind]
  rw [Mib.remarksIn, same, problems, List.filterMap_append, none, List.append_nil, notices,
    List.filterMap_map]
  rfl

/-- What is said about assignments in a run: first about those that are refused, then round by round
about the others. -/
lemma remarksIn_finalize (policy : Policy) (fs : List ParsedFile) (r types oids : Recorder)
    (names : List String) :
    let d := ((Draft.new policy).register fs r).1
    let e := decided policy fs r types oids
    e.finalize.mib.remarksIn names =
      (noticesAbout (e.definitions.filter (e.isRefused ·.1)) d.saidOfRefusal).filterMap
          (e.mib.remark? names) ++
        (d.link.said types oids).flatMap fun s =>
          (noticesAbout (e.definitions.filter (!e.isRefused ·.1)) s).filterMap
            (e.mib.remark? names) := by
  intro d e
  have untyped := (stages_of_register policy fs r types oids).untyped
  have linked := (linked_link d).links.continues
  have settled : Continues d.link e := untyped.continues_settled types oids
  have definitions : e.definitions = d.definitions :=
    definitions_of_registry (linked.trans settled).registry
  have refused : e.isRefused = d.isRefused :=
    funext (isRefused_of_registry (linked.trans settled).registry)
  have kept : e.definitions.filter (!e.isRefused ·.1) = d.link.included := by
    rw [untyped.included_eq]
    exact keptDefinitions_of_registry settled.registry
  have notices : e.notices = d.link.notices ++
      (d.link.said types oids).flatMap (noticesAbout d.link.included) :=
    untyped.notices_settled types oids
  rw [(finalizes_finalize e).remarksIn, notices, List.filterMap_append, kept,
    List.filterMap_flatMap, definitions, refused, ← filterMap_remark?, filter_notices_link,
    (accounts_register policy fs r).ledger.refusals_eq]

/-! ## What becomes of the modules -/

/-- What is refused is left out. -/
lemma Stages.result?_of_refused {linked final : Draft} {types oids : Recorder}
    (s : Stages linked types oids final) {x : OwnedDefinition} (hx : x ∈ linked.definitions)
    (refused : linked.isRefused x.1) : (linked.settled types oids).mib.result? x.1 =
      some ⟨linked.sourceName x.2.1, x.2.2.name, x.2.2.kind, none, .excluded⟩ := by
  have settled := s.untyped.continues_settled types oids
  rw [← definitions_of_registry settled.registry] at hx
  obtain ⟨a, ha, told⟩ := (s.registered.of_continues settled).exists_result hx
  obtain ⟨state, oid⟩ := s.leftOut refused ((s.assignment?_eq x.1).trans ha)
  rw [told, state, oid, sourceName, sources_of_registry settled.registry, sourceName]

/-- The same becomes of the assignments of a part as without the rest. -/
lemma PartOf.result?_decided {σ : Renaming} {r r' types types' oids oids' : Recorder}
    (part : PartOf σ ((Draft.new policy).register fs r).1 ((Draft.new policy).register hs r').1)
    {x : OwnedDefinition} (hx : x ∈ (decided policy fs r types oids).definitions) :
    (decided policy hs r' types' oids').mib.result? (σ.assignment x.1) =
      (decided policy fs r types oids).mib.result? x.1 := by
  have small := stages_of_register policy fs r types oids
  have large := stages_of_register policy hs r' types' oids'
  have linked := part.of_continues (linked_link _).links.continues (linked_link _).links.continues
  have embeds := part.embeds.embedsLinked (imports_register policy fs r)
    (imports_register policy hs r') small.untyped large.untyped
  have settles := (small.untyped.continues_settled types oids).registry
  replace hx := definitions_of_registry settles ▸ hx
  cases refused : ((Draft.new policy).register fs r).1.link.isRefused x.1 with
  | true =>
    have there := linked.isRefused hx
    rw [refused] at there
    refine (large.result?_of_refused (linked.mem_definitions hx) there).trans ?_
    rw [decided, small.result?_of_refused hx refused, renamed, linked.sourceName hx]
  | false =>
    refine embeds.result? (kept_of_mem_keptDefinitions (List.mem_filter.2 ⟨hx, ?_⟩))
    rw [refused]
    rfl

/-- Files put among those of a corpus change nothing for its modules. -/
theorem agreesOn_finalize (among : Interleaves fs gs hs) (apart : ApartFrom fs gs)
    (same : ∀ name, name ∈ (generatedModules policy fs).map (·.name) ↔
      name ∈ (generatedModules policy hs).map (·.name))
    (r r' types types' oids oids' : Recorder) :
    Mib.AgreesOn (corpusNames fs) (decided policy fs r types oids).finalize.mib
      (decided policy hs r' types' oids').finalize.mib := by
  have small := stages_of_register policy fs r types oids
  have large := stages_of_register policy hs r' types' oids'
  obtain ⟨σ, part⟩ := exists_partOf_register among apart same r r'
  have continues := continues_decided policy fs r types oids
  have settled := part.of_continues continues (continues_decided policy hs r' types' oids')
  have embeds := part.embeds.embedsLinked (imports_register policy fs r)
    (imports_register policy hs r') small.untyped large.untyped
  -- The modules of the corpus come in the same order, so what is listed by modules is too.
  have order : ((decided policy hs r' types' oids').sources.map (·.name)).filter
      (· ∈ corpusNames fs) = ((decided policy fs r types oids).sources.map (·.name)).filter
        (· ∈ corpusNames fs) := by
    rw [sources_decided, sources_decided]
    exact filter_registeredSources same among apart
  have settles := (small.untyped.continues_settled types oids).registry
  have results : ∀ x ∈ (decided policy fs r types oids).definitions,
      (decided policy hs r' types' oids').mib.result? (σ.assignment x.1) =
        (decided policy fs r types oids).mib.result? x.1 := fun x hx => part.result?_decided hx
  refine ⟨?_, ?_⟩
  · rw [(finalizes_finalize _).resultsIn, (finalizes_finalize _).resultsIn]
    exact settled.resultsIn order results
  rw [remarksIn_finalize, remarksIn_finalize]
  refine congrArg₂ (· ++ ·) ?_ ?_
  · refine settled.remarks order results (fun x hx => settled.isRefused hx) fun x hx => ?_
    have hx := (List.mem_filter.1 hx).1
    rw [definitions_of_registry continues.registry] at hx
    rw [saidOfRefusal, saidOfRefusal, renamed, part.sourceName hx]
  · refine flatMap_eq_of_forall₂ (embeds.said types types' oids oids') fun s s' said => ?_
    refine settled.remarks order results (fun x hx => ?_) fun x hx => said x ?_
    · exact congrArg (!·) (settled.isRefused hx)
    · rw [small.untyped.included_eq, ← keptDefinitions_of_registry settles]
      exact hx

end Draft

namespace Pipeline

/-- The modules that are generated in a run are the base modules that the corpus lacks. -/
lemma syntheticModules_runParsed (p : Pipeline) (fs : List ParsedFile) {mib : Mib}
    (model : modelOf (p.runParsed fs).1 = some mib) :
    mib.syntheticModules = (Draft.generatedModules p.policy fs).map (·.name) := by
  obtain ⟨r, types, oids, decided⟩ := Draft.exists_decided p fs
  rw [modelOf_runParsed, decided, Option.some.injEq] at model
  rw [← model]
  exact Draft.syntheticModules_finalize ..

/-- Files that are put among those of a corpus change nothing for its modules if they have no module
that these mention or that has the name of one of them, and if the same base modules are generated:
the same becomes of every assignment, and the same is said about it, conflicts aside. -/
theorem agreesOn_runParsed (p : Pipeline) {fs gs hs : List ParsedFile}
    (among : Interleaves fs gs hs) (apart : ApartFrom fs gs) :
    ∃ mib mib', modelOf (p.runParsed fs).1 = some mib ∧ modelOf (p.runParsed hs).1 = some mib' ∧
      ((∀ name, name ∈ mib.syntheticModules ↔ name ∈ mib'.syntheticModules) →
        mib.AgreesOn (corpusNames fs) mib') := by
  obtain ⟨r, types, oids, small⟩ := Draft.exists_decided p fs
  obtain ⟨r', types', oids', large⟩ := Draft.exists_decided p hs
  refine ⟨_, _, modelOf_runParsed p fs, modelOf_runParsed p hs, fun same => ?_⟩
  rw [small, large, Draft.syntheticModules_finalize, Draft.syntheticModules_finalize] at same
  rw [small, large]
  exact Draft.agreesOn_finalize among apart same ..

/-- A file whose module imports from a base module and defines a name twice. -/
def ownFile : ParsedFile :=
  ⟨"a.mib", .ok [⟨"A-MIB", [⟨"SNMPv2-SMI", "enterprises", .synthetic⟩],
    [⟨"top", .value [.name "enterprises", .arc 1], .synthetic⟩,
      ⟨"top", .value [.name "gone", .arc 2], .synthetic⟩], .synthetic⟩]⟩

/-- A file whose module defines the same name and one that is missing in the other. -/
def otherFile : ParsedFile :=
  ⟨"b.mib", .ok [⟨"B-MIB", [], [⟨"gone", .value [.name "iso", .arc 7], .synthetic⟩,
    ⟨"top", .value [.name "gone", .arc 1], .synthetic⟩], .synthetic⟩]⟩

/-- The file with the other module changes nothing for the first. -/
theorem agreesOn_runParsed_twoFiles :
    Interleaves [ownFile] [otherFile] [otherFile, ownFile] ∧ ApartFrom [ownFile] [otherFile] ∧
      ∃ mib mib', modelOf ((new .usual .info).runParsed [ownFile]).1 = some mib ∧
        modelOf ((new .usual .info).runParsed [otherFile, ownFile]).1 = some mib' ∧
        (∀ name, name ∈ mib.syntheticModules ↔ name ∈ mib'.syntheticModules) ∧
        mib.AgreesOn (corpusNames [ownFile]) mib' := by
  have among : Interleaves [ownFile] [otherFile] [otherFile, ownFile] := .right _ (.left _ .nil)
  have apart : ApartFrom [ownFile] [otherFile] := by
    unfold ApartFrom
    decide
  obtain ⟨mib, mib', model, model', agrees⟩ := agreesOn_runParsed (new .usual .info) among apart
  -- In both runs one base module is generated.
  have small : Draft.generatedModules .usual [ownFile] = [.snmpV2Smi] := by decide +kernel
  have large : Draft.generatedModules .usual [otherFile, ownFile] = [.snmpV2Smi] := by
    decide +kernel
  have synthetic : mib.syntheticModules = ["SNMPv2-SMI"] :=
    (syntheticModules_runParsed _ _ model).trans (congrArg (·.map (·.name)) small)
  have synthetic' : mib'.syntheticModules = ["SNMPv2-SMI"] :=
    (syntheticModules_runParsed _ _ model').trans (congrArg (·.map (·.name)) large)
  have same : ∀ name, name ∈ mib.syntheticModules ↔ name ∈ mib'.syntheticModules := fun name => by
    rw [synthetic, synthetic']
  exact ⟨among, apart, mib, mib', model, model', same, agrees same⟩

end Pipeline

end MibCorpus
