import MibCorpus.Proofs.ImportChains
import MibCorpus.Proofs.ModuleRecords
import Mathlib.Data.Finset.Card

/-!
# Accounts of imports

Linking says something of every import. The first of each pair of symbol and source is listed, and
the others are reported as duplicates; what is reported about a listed import depends on whether its
source exists, whether the symbol comes from another source too, and whether it is visible in its
source once everything is linked. So the number of problems of each kind can be read off the imports
as written.
-/

namespace MibCorpus

namespace RegisteredModule

/-- The imports of a module, macros aside. -/
def plainImports (m : RegisteredModule) : List Import := m.source.imports.filter (!·.isMacro)

/-- The imports of which there is none before with the same symbol and source, macros aside. -/
def distinctImports (m : RegisteredModule) : List Import :=
  firstsBy (fun i => (i.symbol, i.source)) [] m.plainImports

/-- The sources that a symbol is imported from. -/
def sourcesOf (m : RegisteredModule) (symbol : String) : Finset String :=
  ((m.plainImports.filter (·.symbol = symbol)).map (·.source)).toFinset

end RegisteredModule

/-- Something found wrong with an import of a module. -/
structure ImportReport where
  importer : RegisteredModule
  subject : Import
  finding : Finding

namespace ImportReport

/-- The finding as a problem. Duplicates have the severity that the policy gives them. -/
def problem (policy : Policy) (p : ImportReport) : Problem :=
  { p.finding.toProblem (.inModule p.importer.file p.importer.id p.subject.span) with
    severity := if p.finding.kind = .duplicateImport then policy.duplicateImports.severity
      else p.finding.kind.defaultSeverity }

/-- The findings that there may be about an import. The first source of an ambiguous symbol is that
of the first import of it. -/
inductive Fits : ImportReport → Prop
  | duplicate (m : RegisteredModule) (i : Import) :
    Fits ⟨m, i, .duplicateImport i.symbol i.source⟩
  | ambiguous (m : RegisteredModule) (i : Import) {first : String}
    (other : (m.plainImports.find? (·.symbol = i.symbol)).map (·.source) = some first) :
    Fits ⟨m, i, .ambiguousImport i.symbol first i.source⟩
  | missing (m : RegisteredModule) (i : Import) : Fits ⟨m, i, .missingSource i.source⟩
  | unresolved (m : RegisteredModule) (i : Import) :
    Fits ⟨m, i, .unresolvedImport i.symbol i.source⟩

end ImportReport

namespace Draft

/-- The module registered under a name. -/
def registeredAs? (d : Draft) (name : String) : Option ModuleId :=
  (d.modules.toList.find? (·.source.name = name)).map (·.id)

/-- What linking a draft does with the imports of a module, given the reports about them. -/
structure AccountsFor (d : Draft) (m : RegisteredModule) (reports : List ImportReport) : Prop where
  /-- The first import of each pair is listed. -/
  listed : ∃ e, d.link.mib.module? m.id = some e ∧
    e.imports.map (fun x =>
      (d.link.mib.str x.symbol, d.link.mib.str x.sourceName, x.source, x.span)) =
    m.distinctImports.map fun i => (i.symbol, i.source, d.registeredAs? i.source, i.span)
  duplicates : reports.countP (·.finding.kind = .duplicateImport) =
    m.plainImports.length - m.distinctImports.length
  ambiguous : ∀ symbol, reports.countP
      (fun p => p.finding.kind = .ambiguousImport ∧ p.subject.symbol = symbol) =
    (m.sourcesOf symbol).card - 1
  missing : ∀ source, reports.countP
      (fun p => p.finding.kind = .missingImportSource ∧ p.subject.source = source) =
    if source ∈ m.plainImports.map (·.source) ∧ d.registeredAs? source = none then 1 else 0
  unresolved : ∀ symbol source, reports.countP
      (fun p => p.finding.kind = .unresolvedImport ∧
        (p.subject.symbol, p.subject.source) = (symbol, source)) =
    if (symbol, source) ∈ m.distinctImports.map (fun i => (i.symbol, i.source)) ∧
      intrinsicRoot? symbol = none ∧
      (d.registeredAs? source).any (d.link.scope.resolve · symbol = .notFound) then 1 else 0

/-! ## Imports of one module -/

section Module

variable (source? : String → Option ModuleId) (m : RegisteredModule)

/-- The reports about a new import. -/
def newImportReports (seen : List (String × String)) (absent : List String) (i : Import) :
    List ImportReport :=
  ((seen.lookup i.symbol).map fun other =>
    ⟨m, i, .ambiguousImport i.symbol other i.source⟩).toList ++
      if isNewlyAbsent source? absent i.source then [⟨m, i, .missingSource i.source⟩] else []

/-- The missing sources that have been reported after an import. -/
def absentAfter (absent : List String) (i : Import) : List String :=
  if isNewlyAbsent source? absent i.source then i.source :: absent else absent

/-- The reports about the imports of a module. -/
def importReports (seen : List (String × String)) (absent : List String) :
    List Import → List ImportReport
  | [] => []
  | i :: is =>
    if seen.contains (i.symbol, i.source) then
      ⟨m, i, .duplicateImport i.symbol i.source⟩ :: importReports seen absent is
    else
      newImportReports source? m seen absent i ++
        importReports (seen ++ [(i.symbol, i.source)]) (absentAfter source? absent i) is

variable {source? m} {seen : List (String × String)} {absent : List String}

/-- The problems of an import are its reports, rated by the policy. -/
lemma map_problem_newImportReports (policy : Policy) (i : Import) :
    (newImportReports source? m seen absent i).map (·.problem policy) =
      newImportProblems source? m seen absent i := by
  rw [newImportReports, newImportProblems, List.map_append]
  congr 1
  · cases seen.lookup i.symbol <;> rfl
  · split <;> rfl

/-- What is recorded are the problems of the reports. -/
lemma map_problem_importReports (policy : Policy) (is : List Import) :
    (importReports source? m seen absent is).map (·.problem policy) =
      importProblems policy source? m seen absent is := by
  induction is generalizing seen absent with
  | nil => rfl
  | cons i is ih =>
    unfold importReports importProblems
    split
    · rw [List.map_cons, ih]
      rfl
    · rw [List.map_append, ih, map_problem_newImportReports, absentAfter]

/-- The new imports are the first ones of each symbol and source. -/
lemma newImports_eq_firstsBy (seen : List (String × String)) (is : List Import) :
    newImports seen is = firstsBy (fun i => (i.symbol, i.source)) seen is := by
  induction is generalizing seen with
  | nil => rfl
  | cons i is ih =>
    unfold newImports firstsBy
    simp only [List.contains_iff_mem]
    split
    · exact ih seen
    · rw [ih]
      exact congrArg (i :: ·) (firstsBy_congr (fun k => by simp [or_comm]) is)

/-- The imports that are bound are the distinct ones. -/
lemma boundImports_eq (m : RegisteredModule) : boundImports m = m.distinctImports :=
  newImports_eq_firstsBy [] _

/-- A new import is no duplicate. -/
lemma countP_duplicate_new (i : Import) :
    (newImportReports source? m seen absent i).countP (·.finding.kind = .duplicateImport) = 0 := by
  rw [newImportReports, List.countP_append]
  cases seen.lookup i.symbol <;> cases isNewlyAbsent source? absent i.source <;> rfl

/-- An import is a duplicate or counts. -/
lemma countP_duplicate (is : List Import) :
    (importReports source? m seen absent is).countP (·.finding.kind = .duplicateImport) +
      (newImports seen is).length = is.length := by
  induction is generalizing seen absent with
  | nil => rfl
  | cons i is ih =>
    unfold importReports newImports
    split
    · rw [List.countP_cons_of_pos (by rfl), List.length_cons, ← ih]
      exact Nat.add_right_comm ..
    · rw [List.countP_append, countP_duplicate_new, Nat.zero_add, List.length_cons,
        List.length_cons, ← Nat.add_assoc, ih]

/-- A new import is ambiguous if its symbol has been seen. -/
lemma countP_ambiguous_new (i : Import) (symbol : String) :
    (newImportReports source? m seen absent i).countP
        (fun p => p.finding.kind = .ambiguousImport ∧ p.subject.symbol = symbol) =
      if i.symbol = symbol ∧ (seen.lookup symbol).isSome then 1 else 0 := by
  rw [newImportReports, List.countP_append]
  by_cases hs : i.symbol = symbol
  · subst hs
    cases seen.lookup i.symbol <;> cases isNewlyAbsent source? absent i.source <;>
      simp [Finding.kind]
  · cases seen.lookup i.symbol <;> cases isNewlyAbsent source? absent i.source <;>
      simp [hs]

/-- An import of a symbol counts if it is reported as ambiguous or is the first of the symbol. -/
lemma countP_ambiguous (symbol : String) (is : List Import) :
    (importReports source? m seen absent is).countP
        (fun p => p.finding.kind = .ambiguousImport ∧ p.subject.symbol = symbol) +
      (if seen.lookup symbol = none ∧ symbol ∈ is.map (·.symbol) then 1 else 0) =
    (newImports seen is).countP (·.symbol = symbol) := by
  induction is generalizing seen absent with
  | nil => simp [importReports, newImports]
  | cons i is ih =>
    unfold importReports newImports
    split
    next old =>
      have same : (seen.lookup symbol = none ∧ symbol ∈ (i :: is).map (·.symbol)) ↔
          seen.lookup symbol = none ∧ symbol ∈ is.map (·.symbol) := by
        rw [List.map_cons, List.mem_cons]
        refine and_congr_right fun new => or_iff_right ?_
        rintro rfl
        have other := List.lookup_eq_none_iff.1 new _ (List.contains_iff_mem.1 old)
        simp at other
      rw [List.countP_cons_of_neg (by simp [Finding.kind]), ← @ih seen absent]
      simp only [same]
    next new =>
      rw [List.countP_append, countP_ambiguous_new, List.countP_cons,
        ← @ih _ (absentAfter source? absent i), List.map_cons, List.lookup_append]
      by_cases hs : i.symbol = symbol
      · subst hs
        cases seen.lookup i.symbol <;> simp [Nat.add_comm]
      · have other : (symbol == i.symbol) = false := beq_false_of_ne (Ne.symm hs)
        simp only [List.lookup_cons, List.lookup_nil, other, Option.or_none, List.mem_cons,
          Ne.symm hs, hs, false_or, false_and, if_false, Nat.zero_add, decide_false,
          Bool.false_eq_true, Nat.add_zero]

/-- A new import has a missing source if none is there and it has not been reported. -/
lemma countP_missing_new (i : Import) (source : String) :
    (newImportReports source? m seen absent i).countP
        (fun p => p.finding.kind = .missingImportSource ∧ p.subject.source = source) =
      if i.source = source ∧ source? source = none ∧ source ∉ absent then 1 else 0 := by
  rw [newImportReports, List.countP_append]
  by_cases hs : i.source = source
  · subst hs
    cases hs : source? i.source <;> by_cases old : i.source ∈ absent <;>
      cases seen.lookup i.symbol <;> simp [Finding.kind, isNewlyAbsent, hs, old]
  · cases seen.lookup i.symbol <;> cases isNewlyAbsent source? absent i.source <;>
      simp [hs]

/-- A source that is missing has been reported after an import from it. -/
lemma mem_absentAfter {i : Import} {source : String} : source ∈ absentAfter source? absent i ↔
    source ∈ absent ∨ (source = i.source ∧ source? source = none) := by
  rw [absentAfter, isNewlyAbsent]
  by_cases hs : source = i.source
  · subst hs
    cases hs : source? i.source <;> by_cases old : i.source ∈ absent <;> simp [old]
  · split <;> simp [hs]

/-- A missing source is reported once, where the sources seen before have been reported. -/
lemma countP_missing (reported : ∀ k ∈ seen, source? k.2 = none → k.2 ∈ absent) (source : String)
    (is : List Import) :
    (importReports source? m seen absent is).countP
        (fun p => p.finding.kind = .missingImportSource ∧ p.subject.source = source) =
      if source ∈ is.map (·.source) ∧ source? source = none ∧ source ∉ absent then 1 else 0 := by
  induction is generalizing seen absent with
  | nil => simp [importReports]
  | cons i is ih =>
    unfold importReports
    split
    next old =>
      -- An import that repeats another adds no source that has not been looked at before.
      have old := reported _ (List.contains_iff_mem.1 old)
      rw [List.countP_cons_of_neg (by simp [Finding.kind]), ih reported]
      refine if_congr ?_ rfl rfl
      rw [List.map_cons, List.mem_cons]
      refine and_congr_left fun fresh => (or_iff_right ?_).symm
      rintro rfl
      exact fresh.2 (old fresh.1)
    next new =>
      rw [List.countP_append, countP_missing_new, ih]
      · simp only [List.map_cons, List.mem_cons, mem_absentAfter]
        by_cases hs : source = i.source
        · subst hs
          cases source? i.source <;> simp
        · simp [hs, Ne.symm hs]
      · intro k hk missing
        rw [mem_absentAfter]
        rcases List.mem_append.1 hk with hk | hk
        · exact .inl (reported k hk missing)
        · obtain rfl := List.mem_singleton.1 hk
          exact .inr ⟨rfl, missing⟩

/-- Every report is about an import at hand and fits it, where what has been seen stands before.
None is about what is visible in the end. -/
lemma fits_importReports {before is : List Import} (all : m.plainImports = before ++ is)
    (first : ∀ symbol, seen.lookup symbol =
      (before.find? (·.symbol = symbol)).map (·.source)) :
    ∀ p ∈ importReports source? m seen absent is,
      p.importer = m ∧ p.subject ∈ is ∧ p.Fits ∧ p.finding.kind ≠ .unresolvedImport := by
  induction is generalizing before seen absent with
  | nil => exact nofun
  | cons i is ih =>
    have all' : m.plainImports = (before ++ [i]) ++ is := by rw [all, List.append_cons]
    have later : ∀ {ps : List ImportReport},
        (∀ p ∈ ps, p.importer = m ∧ p.subject ∈ is ∧ p.Fits ∧ p.finding.kind ≠ .unresolvedImport) →
          ∀ p ∈ ps, p.importer = m ∧ p.subject ∈ i :: is ∧ p.Fits ∧
            p.finding.kind ≠ .unresolvedImport :=
      fun h p hp => ⟨(h p hp).1, List.mem_cons_of_mem i (h p hp).2.1, (h p hp).2.2⟩
    unfold importReports
    split
    next old =>
      rw [List.forall_mem_cons]
      refine ⟨⟨rfl, List.mem_cons_self .., .duplicate m i, nofun⟩, later (ih all' fun symbol => ?_)⟩
      rw [first, List.find?_append, List.find?_singleton]
      cases found : before.find? (·.symbol = symbol) with
      | some j => rfl
      | none =>
        have unseen : seen.lookup symbol = none := by rw [first, found, Option.map_none]
        have other := List.lookup_eq_none_iff.1 unseen _ (List.contains_iff_mem.1 old)
        rw [if_neg (by simpa using Ne.symm (bne_iff_ne.1 other)), Option.or_none]
    next new =>
      rw [List.forall_mem_append]
      refine ⟨fun p hp => ?_, later (ih all' fun symbol => ?_)⟩
      · rcases List.mem_append.1 hp with hp | hp
        · obtain ⟨other, known, rfl⟩ := Option.map_eq_some_iff.1 (Option.mem_toList.1 hp)
          refine ⟨rfl, List.mem_cons_self .., .ambiguous m i ?_, nofun⟩
          rw [first] at known
          obtain ⟨j, found, rfl⟩ := Option.map_eq_some_iff.1 known
          rw [all, List.find?_append, found]
          rfl
        · split at hp <;> simp only [List.mem_singleton, List.not_mem_nil] at hp
          subst hp
          exact ⟨rfl, List.mem_cons_self .., .missing m i, nofun⟩
      · rw [List.lookup_append, first, List.find?_append, List.find?_singleton]
        cases before.find? (·.symbol = symbol) with
        | some j => rfl
        | none =>
          by_cases hs : i.symbol = symbol
          · simp [hs]
          · simp [List.lookup_cons, hs, beq_false_of_ne (Ne.symm hs)]

/-- Every report about the imports of a module fits the import that it is about. -/
lemma fits_allReports : ∀ p ∈ importReports source? m [] [] m.plainImports,
    p.importer = m ∧ p.subject ∈ m.plainImports ∧ p.Fits ∧ p.finding.kind ≠ .unresolvedImport :=
  fits_importReports (List.nil_append _).symm fun _ => rfl

end Module

/-! ## Listed imports -/

/-- The distinct imports differ in symbol or source. -/
lemma nodup_keys_distinctImports (m : RegisteredModule) :
    (m.distinctImports.map fun i => (i.symbol, i.source)).Nodup :=
  nodup_keys_firstsBy _ [] m.plainImports

/-- Every source of a symbol comes with one import that counts. -/
lemma card_sourcesOf (m : RegisteredModule) (symbol : String) :
    (m.sourcesOf symbol).card = m.distinctImports.countP (·.symbol = symbol) := by
  have same : m.sourcesOf symbol =
      ((m.distinctImports.filter (·.symbol = symbol)).map (·.source)).toFinset := by
    ext source
    have key : (symbol, source) ∈ m.distinctImports.map (fun i => (i.symbol, i.source)) ↔
        (symbol, source) ∈ m.plainImports.map (fun i => (i.symbol, i.source)) := by
      rw [RegisteredModule.distinctImports, mem_keys_firstsBy]
      exact and_iff_left List.not_mem_nil
    simpa [RegisteredModule.sourcesOf, and_assoc] using key.symm
  rw [same, List.toFinset_card_of_nodup, List.length_map, List.countP_eq_length_filter]
  have distinct := (nodup_keys_distinctImports m).sublist
    ((List.filter_sublist (p := (·.symbol = symbol))).map _)
  rw [List.Nodup, List.pairwise_map] at distinct ⊢
  refine distinct.imp_of_mem fun {i j} hi hj ne same => ne ?_
  have hi : i.symbol = symbol := by simpa using (List.mem_filter.1 hi).2
  have hj : j.symbol = symbol := by simpa using (List.mem_filter.1 hj).2
  rw [hi, hj, same]

/-- Whether a symbol is to be reported as not visible in a source. -/
def isUnresolved (d : Draft) (symbol source : String) : Bool :=
  intrinsicRoot? symbol = none ∧
    (d.registeredAs? source).any (d.link.scope.resolve · symbol = .notFound)

/-- The reports about imports of a module that nothing is visible for. -/
def unresolvedReports (d : Draft) (m : RegisteredModule) : List ImportReport :=
  (m.distinctImports.filter fun i => d.isUnresolved i.symbol i.source).map fun i =>
    ⟨m, i, .unresolvedImport i.symbol i.source⟩

/-- An import is reported as unresolved once. -/
lemma countP_unresolved (d : Draft) (m : RegisteredModule) (symbol source : String) :
    (d.unresolvedReports m).countP (fun p => p.finding.kind = .unresolvedImport ∧
        (p.subject.symbol, p.subject.source) = (symbol, source)) =
      if (symbol, source) ∈ m.distinctImports.map (fun i => (i.symbol, i.source)) ∧
        d.isUnresolved symbol source then 1 else 0 := by
  have count := (nodup_keys_distinctImports m).count (a := (symbol, source))
  rw [List.count, List.countP_map] at count
  rw [unresolvedReports, List.countP_map, List.countP_filter]
  by_cases hu : d.isUnresolved symbol source
  · simp only [hu, and_true]
    rw [← count]
    refine List.countP_congr fun i _ => ?_
    have hu : i.symbol = symbol → i.source = source → d.isUnresolved i.symbol i.source := by
      rintro rfl rfl
      exact hu
    simpa [Finding.kind] using hu
  · rw [if_neg fun h => hu h.2, List.countP_eq_zero]
    simp only [Function.comp_apply, Bool.and_eq_true, decide_eq_true_eq, Prod.mk.injEq]
    rintro i - ⟨⟨-, rfl, rfl⟩, unresolved⟩
    exact hu unresolved

/-! ## Linking what is registered -/

section Registered

variable {d : Draft} (h : d.Registered)
include h

/-- Modules are found by the names that they are registered under. -/
lemma Registered.registeredAs?_eq : d.registeredAs? = d.scope.module? := by
  funext name
  rw [h.modules.module?, registeredAs?]
  cases found : d.modules.toList.findIdx? (·.source.name = name) with
  | none =>
    rw [List.findIdx?_eq_none_iff] at found
    rw [List.find?_eq_none.2 fun m hm => by simpa using found m hm]
    rfl
  | some k =>
    obtain ⟨lt, named, first⟩ := List.findIdx?_eq_some_iff_getElem.1 found
    have first : d.modules.toList.find? (·.source.name = name) = some d.modules.toList[k] :=
      List.find?_eq_some_iff_getElem.2 ⟨named, k, lt, rfl, fun j hj => by simpa using first j hj⟩
    rw [first, Option.map_some, Option.map_some, (h.modules.entry k _ ?_).1]
    rw [← Array.getElem?_toList, List.getElem?_eq_getElem lt]

/-- What the checks of a module record are the problems of the reports. -/
lemma Registered.filterMap_checkProblem? (policy : Policy) {m : RegisteredModule}
    (hm : m ∈ d.modules) :
    (moduleImportChecks d.scope.module? m).filterMap d.link.checkProblem? =
      (d.unresolvedReports m).map (·.problem policy) := by
  have linked := h.of_continues (linked_link d).links.continues
  have names : d.link.scope.module? = d.scope.module? :=
    funext (module?_of_registry (linked_link d).links.continues.registry)
  have file : d.link.fileOf m.id = m.file := by
    obtain ⟨k, hk⟩ := Array.mem_iff_getElem?.1 hm
    obtain ⟨id, _, -, entry⟩ := h.modules.entry k m hk
    obtain ⟨e, he, same⟩ := Option.map_eq_some_iff.1 entry
    simp only [Prod.mk.injEq] at same
    rw [fileOf_of_registry (linked_link d).links.continues.registry, fileOf, id,
      show d.mib.module? ⟨k⟩ = some e from he]
    exact same.2.2
  rw [moduleImportChecks, boundImports_eq, unresolvedReports, List.filterMap_filterMap,
    List.map_map, ← List.filterMap_eq_map, List.filterMap_filter]
  refine List.filterMap_congr fun i _ => ?_
  rw [importCheck?, isUnresolved, h.registeredAs?_eq]
  cases hs : d.scope.module? i.source with
  | none => simp
  | some s =>
    have name : d.link.mib.moduleName s = i.source := by
      obtain ⟨source, hs, named⟩ := linked.exists_source_of_module? (names ▸ hs)
      rw [linked.moduleName_eq hs, named]
    have problem : ImportReport.problem policy ⟨m, i, .unresolvedImport i.symbol i.source⟩ =
        (Finding.unresolvedImport i.symbol i.source).toProblem
          (.inModule (d.link.fileOf m.id) m.id i.span) := by
      rw [file]
      rfl
    rw [Option.map_some, Option.bind_some, checkProblem?, name]
    refine if_congr ?_ (congrArg some problem.symm) rfl
    simp [and_comm]

/-- What a module lists are the imports that count. -/
lemma Registered.exists_listed (bare : ∀ c ∈ d.covers, c.2 = []) {m : RegisteredModule}
    (hm : m ∈ d.modules) :
    ∃ e, d.link.mib.module? m.id = some e ∧ e.imports.map (fun x =>
        (d.link.mib.str x.symbol, d.link.mib.str x.sourceName, x.source, x.span)) =
      m.distinctImports.map fun i => (i.symbol, i.source, d.registeredAs? i.source, i.span) := by
  have linked := h.of_continues (linked_link d).links.continues
  obtain ⟨k, hk⟩ := Array.mem_iff_getElem?.1 hm
  have id : m.id = ⟨k⟩ := (h.modules.entry k m hk).1
  have source : d.sources[m.id.index]? = some m.source := by
    rw [getElem?_sources, id, hk]
    rfl
  obtain ⟨e, he⟩ : ∃ e, d.link.mib.module? m.id = some e := by
    have registered := modules_of_registry (linked_link d).links.continues.registry
    obtain ⟨-, _, -, entry⟩ := linked.modules.entry k m (registered ▸ hk)
    obtain ⟨e, he, -⟩ := Option.map_eq_some_iff.1 entry
    exact ⟨e, id ▸ he⟩
  refine ⟨e, he, ?_⟩
  have listed := h.listsImports_link bare source he
  have written : writtenImports m.source.imports = m.distinctImports := boundImports_eq m
  rw [written] at listed
  rw [← List.forall₂_eq_eq_eq, List.forall₂_map_left_iff, List.forall₂_map_right_iff,
    h.registeredAs?_eq]
  refine listed.flip.imp fun e i x => ?_
  rw [Mib.str, Mib.str, Strings.get_of_find? x.symbol, Strings.get_of_find? x.sourceName, x.source,
    x.span]

/-- The reports about the imports of a module account for them. -/
lemma Registered.accountsFor (bare : ∀ c ∈ d.covers, c.2 = []) {m : RegisteredModule}
    (hm : m ∈ d.modules) :
    d.AccountsFor m (importReports d.scope.module? m [] [] m.plainImports ++
      d.unresolvedReports m) := by
  have early : ∀ p ∈ importReports d.scope.module? m [] [] m.plainImports,
      p.finding.kind ≠ .unresolvedImport := fun p hp =>
    (fits_allReports p hp).2.2.2
  have late : ∀ p ∈ d.unresolvedReports m, p.finding.kind = .unresolvedImport := by
    intro p hp
    obtain ⟨i, -, rfl⟩ := List.mem_map.1 hp
    rfl
  have none {k : ProblemKind} (hk : k ≠ .unresolvedImport) (q : ImportReport → Prop)
      [DecidablePred q] :
      (d.unresolvedReports m).countP (fun p => p.finding.kind = k ∧ q p) = 0 := by
    rw [List.countP_eq_zero]
    intro p hp
    simp [late p hp, hk.symm]
  refine ⟨h.exists_listed bare hm, ?_, fun symbol => ?_, fun source => ?_, fun symbol source => ?_⟩
  · have count := @countP_duplicate d.scope.module? m [] [] m.plainImports
    rw [newImports_eq_firstsBy] at count
    have none := none (k := .duplicateImport) (by decide) fun _ => True
    simp only [and_true] at none
    rw [List.countP_append, none, RegisteredModule.distinctImports]
    omega
  · have count := @countP_ambiguous d.scope.module? m [] [] symbol m.plainImports
    rw [newImports_eq_firstsBy] at count
    rw [List.countP_append, none (by decide), card_sourcesOf, RegisteredModule.distinctImports]
    by_cases imported : symbol ∈ m.plainImports.map (·.symbol)
    · rw [if_pos ⟨rfl, imported⟩] at count
      omega
    · have absent : (firstsBy (fun i => (i.symbol, i.source)) [] m.plainImports).countP
          (·.symbol = symbol) = 0 := by
        refine List.countP_eq_zero.2 fun i hi same => imported ?_
        have hi := (firstsBy_sublist _ _ _).subset hi
        exact List.mem_map.2 ⟨i, hi, of_decide_eq_true same⟩
      omega
  · rw [List.countP_append, none (by decide), countP_missing fun k hk => absurd hk List.not_mem_nil,
      h.registeredAs?_eq]
    simp only [List.not_mem_nil, not_false_eq_true, and_true, Nat.add_zero]
  · rw [List.countP_append, countP_unresolved, List.countP_eq_zero.2 fun p hp => ?_, Nat.zero_add]
    · simp only [isUnresolved, decide_eq_true_eq]
    · simp [early p hp]

/-- Linking accounts for the imports of every module. -/
lemma Registered.exists_accounts (bare : ∀ c ∈ d.covers, c.2 = []) : ∃ reports : List ImportReport,
    d.link.mib.problems.toList = d.mib.problems.toList ++ reports.map (·.problem d.policy) ∧
      (∀ p ∈ reports, p.importer ∈ d.modules ∧ p.subject ∈ p.importer.plainImports ∧ p.Fits) ∧
      ∀ m ∈ d.modules, d.AccountsFor m (reports.filter (·.importer.id = m.id)) := by
  let first m := importReports d.scope.module? m [] [] m.plainImports
  have early : ∀ m, ∀ p ∈ first m, p.importer = m ∧ p.subject ∈ m.plainImports ∧ p.Fits := by
    intro m p hp
    obtain ⟨importer, subject, fits, -⟩ := fits_allReports p hp
    exact ⟨importer, subject, fits⟩
  have late : ∀ m, ∀ p ∈ d.unresolvedReports m,
      p.importer = m ∧ p.subject ∈ m.plainImports ∧ p.Fits := by
    intro m p hp
    obtain ⟨i, hi, rfl⟩ := List.mem_map.1 hp
    exact ⟨rfl, (firstsBy_sublist _ _ _).subset (List.mem_filter.1 hi).1, .unresolved m i⟩
  refine ⟨d.modules.toList.flatMap first ++ d.modules.toList.flatMap d.unresolvedReports,
    ?_, ?_, fun m hm => ?_⟩
  · rw [(linked_link d).problems, List.map_append, List.map_flatMap, List.map_flatMap,
      List.filterMap_flatMap]
    congr 2
    · exact congrArg (List.flatMap · _) (funext fun m => (map_problem_importReports ..).symm)
    · refine List.flatMap_congr fun m hm => ?_
      exact h.filterMap_checkProblem? d.policy (Array.mem_toList_iff.1 hm)
  · simp only [List.forall_mem_append, List.mem_flatMap]
    constructor
    all_goals
      rintro p ⟨m, hm, hp⟩
    · obtain ⟨rfl, rest⟩ := early m p hp
      exact ⟨Array.mem_toList_iff.1 hm, rest⟩
    · obtain ⟨rfl, rest⟩ := late m p hp
      exact ⟨Array.mem_toList_iff.1 hm, rest⟩
  · have ids := h.modules.nodup_ids
    have mem := Array.mem_toList_iff.2 hm
    rw [List.filter_append,
      filter_flatMap_eq (fun m _ p hp => congrArg _ (early m p hp).1) ids mem,
      filter_flatMap_eq (fun m _ p hp => congrArg _ (late m p hp).1) ids mem]
    exact h.accountsFor bare hm

end Registered

/-- Registering more modules lists no imports. -/
lemma bare_after (policy : Policy) (corpora : List (List ParsedFile)) (r : Recorder) :
    ∀ c ∈ ((Draft.new policy).after (corpora.map .register) r).covers, c.2 = [] := by
  have more {b : Bool} {d d' : Draft} (x : Covers b d d') (bare : ∀ c ∈ d.covers, c.2 = []) :
      ∀ c ∈ d'.covers, c.2 = [] := by
    obtain ⟨n, e⟩ := x
    rw [e]
    refine List.forall_mem_append.2 ⟨bare, fun c hc => ?_⟩
    rw [List.eq_of_mem_replicate hc]
  have step (d : Draft) (fs : List ParsedFile) (r : Recorder) (bare : ∀ c ∈ d.covers, c.2 = []) :
      ∀ c ∈ (d.register fs r).1.covers, c.2 = [] := by
    have files := more (covers_foldl covers_registerFile fs (d, r)) bare
    unfold register
    simp only
    split
    · exact more (covers_generateLacking BaseModule.all _) files
    · exact files
  have all : ∀ (dr : Draft × Recorder), (∀ c ∈ dr.1.covers, c.2 = []) →
      ∀ c ∈ (dr.1.after (corpora.map .register) dr.2).covers, c.2 = [] := by
    induction corpora with
    | nil => exact fun _ bare => bare
    | cons fs corpora ih => exact fun dr bare => ih _ (step dr.1 fs dr.2 bare)
  exact all (.new policy, r) nofun

/-- Linking a registered corpus accounts for every import. Whatever it reports is about an import
that is not of a macro and fits it, and the reports about the imports of each module are as many as
their symbols and sources call for. -/
theorem accountsFor_link (policy : Policy) (corpora : List (List ParsedFile)) (r : Recorder) :
    let d := (Draft.new policy).after (corpora.map .register) r
    ∃ reports : List ImportReport,
      d.link.mib.problems.toList = d.mib.problems.toList ++ reports.map (·.problem policy) ∧
        (∀ p ∈ reports, p.importer ∈ d.modules ∧ p.subject ∈ p.importer.plainImports ∧ p.Fits) ∧
        ∀ m ∈ d.modules, d.AccountsFor m (reports.filter (·.importer.id = m.id)) := by
  have registers : ∀ c ∈ corpora.map PhaseCall.register, c.phase = .registration := by
    simp [PhaseCall.phase]
  have all := registers_after policy registers r
  have policies : ((Draft.new policy).after (corpora.map .register) r).policy = policy :=
    congrArg Prospects.policy all.prospects
  have accounts := (all.registered (registered_new policy)).exists_accounts
    (bare_after policy corpora r)
  rwa [policies] at accounts

end Draft

end MibCorpus
