import MibCorpus.Proofs.DistinctNames
import MibCorpus.Proofs.Firsts

/-!
# What registration admits

Of the modules of a corpus registration admits the first of each name. It reports every other one,
every file that could not be parsed, and every definition that it refuses; the last are the only
problems about an assignment.
-/

namespace MibCorpus

namespace Draft

/-! ## What is reported -/

/-- The problems of a kind, in order. -/
def problemsOf (d : Draft) (kind : ProblemKind) : List Problem :=
  d.mib.problems.toList.filter (·.kind = kind)

/-- What the problems of a kind say, in order. -/
def contentsOf (d : Draft) (kind : ProblemKind) : List (ProblemKind × Severity × String) :=
  d.contents.filter (·.1 = kind)

/-- The number of problems of a kind. -/
def reported (d : Draft) (kind : ProblemKind) : Nat :=
  d.mib.problems.toList.countP (·.kind = kind)

/-- The number of problems reported of a kind is the length of their list. -/
lemma reported_eq (d : Draft) (kind : ProblemKind) :
    d.reported kind = (d.contentsOf kind).length := by
  rw [reported, contentsOf, contents, List.filter_map, List.length_map,
    List.countP_eq_length_filter]
  rfl

/-- Recording a problem appends it to the problems of its own kind. -/
lemma problemsOf_record (d : Draft) (p : Problem) (kind : ProblemKind) :
    (d.record p).problemsOf kind = d.problemsOf kind ++ if p.kind = kind then [p] else [] := by
  rw [problemsOf, problemsOf, record, Mib.record, Problems.toList_record, List.filter_append,
    List.filter_singleton, Bool.cond_decide]

/-- The contents reported of a kind are those of its problems. -/
lemma contentsOf_eq (d : Draft) (kind : ProblemKind) :
    d.contentsOf kind = (d.problemsOf kind).map (·.content) := by
  rw [contentsOf, contents, List.filter_map]
  rfl

/-- The name that a registered module is written with. -/
def sourceName (d : Draft) (m : ModuleId) : String :=
  (d.sources[m.index]?).elim "" (·.name)

/-- What is reported about a definition that is refused. -/
def refusalNotice (names : ModuleId → String) (x : AssignmentId × ModuleId × Definition) :
    Option AssignmentId × ProblemKind × Severity × String :=
  (some x.1, (Finding.duplicateDefinition x.2.2.name (names x.2.1)).content)

/-- The definitions that are refused, and nothing else, have been reported as assignments. -/
structure Ledger (names : ModuleId → String) (d : Draft) : Prop where
  subjects : ∀ p ∈ d.mib.problems.toList, p.subject.isSome ↔ p.kind = .duplicateDefinition
  refusals : d.notices.filter (·.1.isSome) =
    (d.definitions.filter (d.isRefused ·.1)).map (refusalNotice names)

section Ledger

variable {names : ModuleId → String} {d d' : Draft}

/-- The names of the modules in which something is defined are all that matters. -/
lemma Ledger.congr {names' : ModuleId → String} (h : Ledger names d)
    (same : ∀ x ∈ d.definitions, names' x.2.1 = names x.2.1) : Ledger names' d where
  subjects := h.subjects
  refusals := by
    rw [h.refusals]
    refine List.map_congr_left fun x hx => ?_
    rw [refusalNotice, refusalNotice, same x (List.mem_filter.1 hx).1]

/-- Reporting about no assignment leaves the refusals as they are. -/
lemma Ledger.report (h : Ledger names d) {f : Finding} (other : f.kind ≠ .duplicateDefinition)
    (location : Location) : Ledger names (d.report f location) where
  subjects p hp := by
    simp only [Draft.report, record, Mib.record, Problems.toList_record, List.mem_append,
      List.mem_singleton] at hp
    rcases hp with hp | rfl
    · exact h.subjects p hp
    · simpa [Finding.toProblem, Problem.ofKind] using other
  refusals := by
    have notices : (d.report f location).notices = d.notices ++ [(none, f.content)] := by
      simp only [Draft.notices, Draft.report, record, Mib.record, Problems.toList_record,
        List.map_append]
      rfl
    rw [notices, List.filter_append, h.refusals]
    exact List.append_nil _

/-- The definition is listed behind the others, as the one behind the new assignment. -/
lemma definitions_registerDefinition (d : Draft) {m : RegisteredModule} {o : Origin}
    {x : Definition} (here : d.written? o = some (m.id, x)) :
    (d.registerDefinition m o x).definitions =
      d.definitions ++ [(⟨d.origins.size⟩, m.id, x)] := by
  simp [definitions, List.zipIdx_append, here]

/-- What stands behind all definitions is none of them. -/
lemma index_lt_of_mem_definitions {x : AssignmentId × ModuleId × Definition}
    (hx : x ∈ d.definitions) : x.1.index < d.origins.size := by
  obtain ⟨o, ho, -⟩ := Option.bind_eq_some_iff.1 (mem_definitions.1 hx)
  exact (Array.getElem?_eq_some_iff.1 ho).1

/-- Listing a module refuses nothing. -/
lemma Ledger.list (h : Ledger names d) (r : d.DefinitionsRegistered) (m : RegisteredModule) :
    Ledger names (d.list m) where
  subjects := h.subjects
  refusals := by
    rw [definitions_list d m r]
    simp only [isRefused_list d m r]
    exact h.refusals

/-- A definition is reported if and only if it is refused. -/
lemma Ledger.registerDefinition (h : Ledger names d) (r : d.DefinitionsRegistered)
    {m : RegisteredModule} (name : names m.id = m.source.name) {o : Origin} {x : Definition}
    (here : d.written? o = some (m.id, x)) : Ledger names (d.registerDefinition m o x) := by
  refine ⟨fun p hp => ?_, ?_⟩
  · rw [problems_registerDefinition] at hp
    rcases List.mem_append.1 hp with hp | hp
    · exact h.subjects p hp
    · obtain ⟨existing, -, rfl⟩ := List.mem_map.1 hp
      exact ⟨fun _ => rfl, fun _ => rfl⟩
  have before : d.definitions.filter ((d.registerDefinition m o x).isRefused ·.1) =
      d.definitions.filter (d.isRefused ·.1) := by
    refine List.filter_congr fun y hy => ?_
    rw [r.isRefused_registerDefinition d m o x here,
      if_neg (Nat.ne_of_lt (index_lt_of_mem_definitions hy))]
  have last : (d.registerDefinition m o x).isRefused ⟨d.origins.size⟩ =
      (d.scope.lookup? m.id x.name).isSome := by
    rw [r.isRefused_registerDefinition d m o x here, if_pos rfl]
  rw [notices, problems_registerDefinition, List.map_append, List.filter_append,
    definitions_registerDefinition d here, List.filter_append, before, List.map_append]
  refine congrArg₂ (· ++ ·) h.refusals ?_
  cases free : d.scope.lookup? m.id x.name with
  | none =>
    rw [free] at last
    rw [List.filter_cons_of_neg (by simp [last])]
    rfl
  | some existing =>
    rw [free] at last
    rw [List.filter_cons_of_pos (by simp [last]), r.size, List.filter_nil, List.map_singleton,
      refusalNotice, name]
    rfl

/-- The definitions of a module give rise to no other problems. -/
lemma problemsOf_registerDefinitions {kind : ProblemKind} (other : kind ≠ .duplicateDefinition)
    (m : RegisteredModule) (position : Nat) (d : Draft) :
    (d.registerDefinitions m position).problemsOf kind = d.problemsOf kind := by
  refine foldl_keeps (·.problemsOf kind) (fun e x => ?_) m.source.definitions.zipIdx d
  simp only [problemsOf, problems_registerDefinition, List.filter_append]
  refine (congrArg (_ ++ ·) (List.filter_eq_nil_iff.2 fun p hp => ?_)).trans (List.append_nil _)
  obtain ⟨existing, -, rfl⟩ := List.mem_map.1 hp
  simp [Finding.toProblem, Problem.ofKind, Finding.kind, other.symm]

/-- Accepting a module gives rise to no other problems than repeated names. -/
lemma problemsOf_acceptModule {kind : ProblemKind} (other : kind ≠ .duplicateDefinition)
    (d : Draft) (name : StrId) (file : Option FileId) (source : Module) :
    (d.acceptModule name file source).2.problemsOf kind = d.problemsOf kind :=
  problemsOf_registerDefinitions other (d.accepted file source) d.modules.size
    (d.announced name file source)

/-- Reporting a finding appends its content under its own kind. -/
lemma contentsOf_report (d : Draft) (f : Finding) (location : Location) (kind : ProblemKind) :
    (d.report f location).contentsOf kind =
      d.contentsOf kind ++ if f.kind = kind then [f.content] else [] := by
  rw [contentsOf_eq, contentsOf_eq, report, problemsOf_record, List.map_append,
    apply_ite (List.map _)]
  rfl

end Ledger

/-! ## What is admitted -/

/-- Registration admits the first modules of each name among those offered, and reports the others
and the files that it could not read. -/
structure Admits (offered : List Module) (failures : List Finding) (d d' : Draft) : Prop where
  registered : d'.Registered
  policy : d'.policy = d.policy
  ledger : Ledger d.sourceName d → Ledger d'.sourceName d'
  sources : d'.sources = d.sources ++ firstsBy (·.name) (d.sources.map (·.name)) offered
  doubles : d'.reported .duplicateModule + d'.sources.length =
    d.reported .duplicateModule + d.sources.length + offered.length
  failures : d'.contentsOf .parseFailure =
    d.contentsOf .parseFailure ++ failures.map (·.content)

section Admits

variable {d d' d'' : Draft} {ms ns : List Module} {fs gs : List Finding}

/-- Admitting no module and no failure changes nothing. -/
lemma Admits.nil (h : d.Registered) : Admits [] [] d d :=
  ⟨h, rfl, id, (List.append_nil _).symm, rfl, (List.append_nil _).symm⟩

/-- What is admitted in two steps is admitted in one. -/
lemma Admits.trans (h : Admits ms fs d d') (h' : Admits ns gs d' d'') :
    Admits (ms ++ ns) (fs ++ gs) d d'' where
  registered := h'.registered
  policy := h'.policy.trans h.policy
  ledger l := h'.ledger (h.ledger l)
  sources := by
    rw [h'.sources, h.sources, firstsBy_append, List.append_assoc]
    refine congrArg (d.sources ++ ·) (congrArg (_ ++ ·) (firstsBy_congr (fun name => ?_) ns))
    rw [List.map_append, List.mem_append, List.mem_append, mem_keys_firstsBy]
    tauto
  doubles := by
    have first := h.doubles
    have second := h'.doubles
    rw [List.length_append]
    omega
  failures := by rw [h'.failures, h.failures, List.map_append, List.append_assoc]

/-- A name that a registered module has stands for a module. -/
lemma Registered.isSome_module? (h : d.Registered) {name : String}
    (taken : name ∈ d.sources.map (·.name)) : (d.scope.module? name).isSome := by
  obtain ⟨s, hs, rfl⟩ := List.mem_map.1 taken
  obtain ⟨r, hr, rfl⟩ := List.mem_map.1 hs
  rw [h.modules.module?, Option.isSome_map, Option.isSome_iff_ne_none, Ne,
    List.findIdx?_eq_none_iff]
  exact fun none => by simpa using none r hr

/-- An assignment belongs to a registered module. -/
lemma Registered.index_lt_of_mem_definitions (h : d.Registered)
    {x : AssignmentId × ModuleId × Definition} (hx : x ∈ d.definitions) :
    x.2.1.index < d.sources.length := by
  obtain ⟨s, hs, -⟩ := h.mem_owners.1 (mem_owners_of_owner? (mem_definitions.1 hx))
  exact (List.getElem?_eq_some_iff.1 hs).1

/-- A module of a new name is admitted. -/
lemma admits_acceptModule (d : Draft) (name : StrId) (file : Option FileId) (source : Module)
    (h : d.Registered) (hn : d.mib.strings.find? source.name = some name)
    (new : source.name ∉ d.sources.map (·.name)) :
    Admits [source] [] d (d.acceptModule name file source).2 := by
  have registers := registers_acceptModule d name file source (h.module?_eq_none new) hn
  have sources : (d.acceptModule name file source).2.sources = d.sources ++ [source] := by
    simp [Draft.sources, modules_acceptModule, accepted]
  have index : d.mib.modules.size = d.sources.length := by
    rw [h.modules.size, Draft.sources, List.length_map, Array.length_toList]
  have others : ∀ kind, kind ≠ .duplicateDefinition →
      (d.acceptModule name file source).2.contentsOf kind = d.contentsOf kind :=
        fun kind other => by
    rw [contentsOf_eq, contentsOf_eq, problemsOf_acceptModule other]
  refine ⟨registers.registered h, congrArg Prospects.policy registers.prospects, fun l => ?_, ?_,
    ?_, (others _ (by decide)).trans (List.append_nil _).symm⟩
  · generalize hnames : (d.acceptModule name file source).2.sourceName = names
    have here : names ⟨d.mib.modules.size⟩ = source.name := by
      rw [← hnames, sourceName, sources, index, List.getElem?_concat_length]
      rfl
    have before : Ledger names d := by
      refine l.congr fun x hx => ?_
      rw [← hnames, sourceName, sourceName, sources,
        List.getElem?_append_left (h.index_lt_of_mem_definitions hx)]
    have announced := h.definitions.announced d name file source
    rw [acceptModule_eq_registerDefinitions]
    refine (announced.list _ _).registerDefinitions_keeps (P := Ledger names)
      (written?_announced d name file source) (fun r written l => ?_) ?_
    · exact l.registerDefinition r here written
    · have opened : Ledger names (d.announced name file source) :=
        ⟨before.subjects, before.refusals⟩
      exact opened.list announced _
  · rw [sources, firstsBy_cons_of_notMem new]
    rfl
  · rw [reported_eq, reported_eq, others _ (by decide), sources, List.length_append, Nat.add_assoc]

/-- A module of a name that is taken is reported. -/
lemma admits_refuseModule (d : Draft) (existing : ModuleId) (file : Option FileId)
    (source : Module) (h : d.Registered) (taken : source.name ∈ d.sources.map (·.name)) :
    Admits [source] [] d (d.refuseModule existing file source) where
  registered := h.of_continues ⟨rfl, .refl _⟩
  policy := rfl
  ledger l := l.report (by simp [Finding.kind]) _
  sources := by
    rw [firstsBy_cons_of_mem taken]
    exact (List.append_nil _).symm
  doubles := by
    rw [reported_eq, reported_eq, refuseModule, contentsOf_report, if_pos (by rfl),
      List.length_append]
    exact Nat.add_right_comm ..
  failures := by
    rw [refuseModule, contentsOf_report, if_neg (by simp [Finding.kind])]
    rfl

/-- Naming a module or a file changes nothing that counts. -/
lemma Admits.of_named {e : Draft} (h : Admits ms fs e d')
    (mib : e.mib.problems = d.mib.problems) (same : e = { d with mib := e.mib }) :
    Admits ms fs d d' := by
  have sources : e.sources = d.sources := by rw [same]; rfl
  have policy : e.policy = d.policy := by rw [same]
  have contents : e.contents = d.contents := by rw [Draft.contents, mib, Draft.contents]
  have reported : e.reported .duplicateModule = d.reported .duplicateModule := by
    rw [Draft.reported, mib, Draft.reported]
  refine ⟨h.registered, h.policy.trans policy, fun l => h.ledger ?_, sources ▸ h.sources,
    sources ▸ reported ▸ h.doubles, ?_⟩
  · have names : e.sourceName = d.sourceName := by
      funext m
      rw [sourceName, sources, sourceName]
    rw [names]
    refine ⟨mib ▸ l.subjects, ?_⟩
    have refusals := l.refusals
    rw [notices, ← mib] at refusals
    rw [notices, refusals, same]
    rfl
  · have failures := h.failures
    rwa [contentsOf, contentsOf, contents] at failures

/-- A module is admitted if its name is new. -/
lemma admits_registerModule (file : Option FileId) (dr : Draft × Recorder) (source : Module)
    (h : dr.1.Registered) : Admits [source] [] dr.1 (registerModule file dr source).1 := by
  obtain ⟨d, r⟩ := dr
  have named : ({ d with mib := (d.mib.intern source.name).2 } : Draft).Registered :=
    h.of_continues ⟨rfl, Strings.extends_intern _ _⟩
  refine Admits.of_named (e := { d with mib := (d.mib.intern source.name).2 }) ?_ rfl rfl
  unfold registerModule
  by_cases taken : source.name ∈ d.sources.map (·.name)
  · obtain ⟨existing, he⟩ := Option.isSome_iff_exists.1 (h.isSome_module? taken)
    simp only [he]
    exact admits_refuseModule _ existing file source named taken
  · simp only [h.module?_eq_none taken]
    exact admits_acceptModule _ _ file source named (Strings.find?_intern _ _) taken

/-- Modules are admitted one after another. -/
lemma admits_foldl_registerModule (file : Option FileId) (ms : List Module)
    (dr : Draft × Recorder) (h : dr.1.Registered) :
    Admits ms [] dr.1 (ms.foldl (registerModule file) dr).1 := by
  induction ms generalizing dr with
  | nil => exact .nil h
  | cons m ms ih =>
    have head := admits_registerModule file dr m h
    exact head.trans (ih _ head.registered)

/-! ## Files -/

/-- The modules of a file are admitted in the order of their names. -/
lemma admits_registerFile (dr : Draft × Recorder) (f : ParsedFile) (h : dr.1.Registered) :
    Admits (byName f.modules) f.finding?.toList dr.1 (registerFile dr f).1 := by
  obtain ⟨d, r⟩ := dr
  obtain ⟨path, result⟩ := f
  have added : ({ d with mib := (d.mib.addFile path).2 } : Draft).Registered :=
    (registers_addFile d path).registered h
  refine Admits.of_named (e := { d with mib := (d.mib.addFile path).2 }) ?_ rfl rfl
  cases result with
  | ok ms => exact admits_foldl_registerModule (some ⟨d.mib.files.size⟩) (byName ms) (_, r) added
  | error failure =>
    refine ⟨added.of_continues ⟨rfl, .refl _⟩, rfl, fun l => l.report (by simp [Finding.kind]) _,
      ?_, ?_, ?_⟩
    · simp [registerFile, sources, report, record, ParsedFile.modules, byName, firstsBy]
    · rw [registerFile, reported_eq, reported_eq, contentsOf_report,
        if_neg (by simp [Finding.kind])]
      simp [ParsedFile.modules, byName, sources, report, record]
    · rw [registerFile, contentsOf_report, if_pos (by rfl)]
      rfl

/-- The files are read one after another. -/
lemma admits_foldl_registerFile (fs : List ParsedFile) (dr : Draft × Recorder)
    (h : dr.1.Registered) : Admits (fs.flatMap fun f => byName f.modules)
      (fs.filterMap (·.finding?)) dr.1 (fs.foldl registerFile dr).1 := by
  induction fs generalizing dr with
  | nil => exact .nil h
  | cons f fs ih =>
    have head := admits_registerFile dr f h
    have both := head.trans (ih _ head.registered)
    rw [List.filterMap_eq_flatMap_toList] at both ⊢
    exact both

/-! ## Base modules -/

/-- What is generated for some modules depends on their names and imports. -/
lemma generated_map {f : Module → Module} (name : ∀ m, (f m).name = m.name)
    (imports : ∀ m, (f m).imports = m.imports) (base : ∀ b : BaseModule, f b.source = b.source)
    (ms : List Module) (candidates : List BaseModule) :
    generated (ms.map f) candidates = generated ms candidates := by
  have same : ∀ (ms : List Module) (cs : List BaseModule),
      lacked (ms.map f) cs = lacked ms cs ∧ notLacked (ms.map f) cs = notLacked ms cs := by
    intro ms cs
    have by_names : lackedBy (ms.map f) = lackedBy ms := by
      funext b
      simp [lackedBy, List.any_map, Function.comp_def, name, imports]
    rw [lacked, notLacked, by_names]
    exact ⟨rfl, rfl⟩
  fun_induction generated ms candidates with
  | case1 ms candidates lt ih =>
    have sources : ((lacked ms candidates).map (·.source)).map f =
        (lacked ms candidates).map (·.source) := by
      rw [List.map_map]
      exact List.map_congr_left fun b _ => base b
    rw [List.map_append, sources] at ih
    rw [generated, (same ms candidates).1, (same ms candidates).2, if_pos lt, ih]
  | case2 ms candidates lt =>
    rw [generated, (same ms candidates).2, if_neg lt]

/-- What is lacking depends on the registered modules as written. -/
lemma Registered.lacking_eq (h : d.Registered) (candidates : List BaseModule) :
    d.lacking candidates = lacked d.sources candidates ∧
      d.notLacking candidates = notLacked d.sources candidates := by
  have same : d.lacks = lackedBy d.sources := funext h.lacks_eq
  rw [lacking, notLacking, same]
  exact ⟨rfl, rfl⟩

/-- The base modules that are lacking are admitted behind the modules that are there. -/
lemma sources_lacking (candidates : List BaseModule) (dr : Draft × Recorder) (h : dr.1.Registered)
    (nodup : (dr.1.sources.map (·.name)).Nodup) (distinct : (candidates.map (·.name)).Nodup) :
    let dr' := (dr.1.lacking candidates).foldl (fun dr b => registerModule none dr b.source) dr
    dr'.1.Registered ∧ (dr'.1.sources.map (·.name)).Nodup ∧
      dr'.1.sources = dr.1.sources ++ (dr.1.lacking candidates).map (·.source) := by
  have extended := nodup_names_append_lacked nodup distinct
  rw [← (h.lacking_eq candidates).1] at extended
  have new := admits_foldl_registerModule none ((dr.1.lacking candidates).map (·.source)) dr h
  have listed := new.sources
  rw [firstsBy_eq_self_of_append extended] at listed
  rw [List.foldl_map] at new listed
  exact ⟨new.registered, by rwa [listed], listed⟩

/-- Generating base modules until none is lacking is registering those that are generated. -/
lemma generateLacking_eq_foldl (candidates : List BaseModule) (dr : Draft × Recorder)
    (h : dr.1.Registered) (nodup : (dr.1.sources.map (·.name)).Nodup)
    (distinct : (candidates.map (·.name)).Nodup) : generateLacking candidates dr =
      ((generated dr.1.sources candidates).map (·.source)).foldl (registerModule none) dr := by
  fun_induction generateLacking candidates dr with
  | case1 candidates dr others lt ih =>
    obtain ⟨lacking, notLacking⟩ := h.lacking_eq candidates
    obtain ⟨registered, extended, listed⟩ := sources_lacking candidates dr h nodup distinct
    have unfolded : generated dr.1.sources candidates = dr.1.lacking candidates ++
        generated (dr.1.sources ++ (dr.1.lacking candidates).map (·.source)) others := by
      rw [generated, if_pos (by rw [← notLacking]; exact lt), ← notLacking, ← lacking]
    rw [ih registered extended (distinct.sublist (List.filter_sublist.map _)), listed, unfolded,
      List.map_append, List.foldl_append]
    exact congrArg (List.foldl _ · _) List.foldl_map.symm
  | case2 candidates dr others lt =>
    obtain ⟨-, notLacking⟩ := h.lacking_eq candidates
    rw [generated, if_neg (by rw [← notLacking]; exact lt)]
    rfl

/-- Base modules are admitted until none is lacking. -/
lemma admits_generateLacking (candidates : List BaseModule) (dr : Draft × Recorder)
    (h : dr.1.Registered) (nodup : (dr.1.sources.map (·.name)).Nodup)
    (distinct : (candidates.map (·.name)).Nodup) :
    Admits ((generated dr.1.sources candidates).map (·.source)) [] dr.1
      (generateLacking candidates dr).1 := by
  rw [generateLacking_eq_foldl candidates dr h nodup distinct]
  exact admits_foldl_registerModule none _ dr h

end Admits

/-! ## The phase -/

/-- The modules of a corpus in the order in which they are registered or refused. -/
def offered (fs : List ParsedFile) : List Module := fs.flatMap fun f => byName f.modules

/-- The modules on offer are those of the files, in another order. -/
lemma perm_offered (fs : List ParsedFile) : (offered fs).Perm (fs.flatMap (·.modules)) :=
  .flatMap_left fs fun f _ => perm_byName f.modules

/-- The modules that are registered for a corpus, as written: the first ones of each name, and the
base modules that they lack. -/
def registeredSources (policy : Policy) (fs : List ParsedFile) : List Module :=
  completed policy (firstsBy (·.name) [] (offered fs))

/-- The base modules that are generated for a corpus. -/
def generatedModules (policy : Policy) (fs : List ParsedFile) : List BaseModule :=
  generatedFor policy (firstsBy (·.name) [] (offered fs))

/-- The registered modules are the first of each name on offer, then the generated ones. -/
lemma registeredSources_eq (policy : Policy) (fs : List ParsedFile) : registeredSources policy fs =
    firstsBy (·.name) [] (offered fs) ++ (generatedModules policy fs).map (·.source) :=
  completed_eq ..

/-- The modules that are registered have distinct names. -/
lemma nodup_registeredSources (policy : Policy) (fs : List ParsedFile) :
    ((registeredSources policy fs).map (·.name)).Nodup := by
  have nodup := nodup_keys_firstsBy Module.name [] (offered fs)
  unfold registeredSources completed
  split
  · exact nodup_names_append_generated BaseModule.all nodup BaseModule.nodup_all
  · exact nodup

/-- What a draft has after a corpus was registered: the first modules of each name are listed, with
the base modules that they lack, and the rest is reported. -/
structure Accounts (policy : Policy) (fs : List ParsedFile) (d : Draft) : Prop where
  registered : d.Registered
  same_policy : d.policy = policy
  ledger : Ledger d.sourceName d
  sources : d.sources = registeredSources policy fs
  doubles : d.reported .duplicateModule = (repeatsBy (·.name) [] (offered fs)).length
  failures : d.contentsOf .parseFailure = (fs.filterMap (·.finding?)).map (·.content)

/-- Registering any corpus accounts for all of it. -/
theorem accounts_register (policy : Policy) (fs : List ParsedFile) (r : Recorder) :
    Accounts policy fs ((Draft.new policy).register fs r).1 := by
  have start : Ledger (Draft.new policy).sourceName (.new policy) :=
    ⟨by simp [new, Mib.empty, MibParts.empty], rfl⟩
  have files := admits_foldl_registerFile fs (.new policy, r) (registered_new policy)
  have sources : (fs.foldl registerFile (.new policy, r)).1.sources =
      firstsBy (·.name) [] (offered fs) := files.sources
  have nodup := nodup_keys_firstsBy Module.name [] (offered fs)
  have each := length_firstsBy_add (·.name) [] (offered fs)
  have doubles : (fs.foldl registerFile (.new policy, r)).1.reported .duplicateModule =
      (repeatsBy (·.name) [] (offered fs)).length := by
    have balance := files.doubles
    rw [sources, ← offered] at balance
    have none : (Draft.new policy).reported .duplicateModule = 0 := rfl
    have empty : (Draft.new policy).sources.length = 0 := rfl
    dsimp only at balance
    omega
  have failures : (fs.foldl registerFile (.new policy, r)).1.contentsOf .parseFailure =
      (fs.filterMap (·.finding?)).map (·.content) := files.failures.trans (List.nil_append _)
  cases base : policy.baseModules with
  | false =>
    have e : ((Draft.new policy).register fs r) = fs.foldl registerFile (.new policy, r) := by
      simp [register, new, base]
    rw [e]
    refine ⟨files.registered, files.policy, files.ledger start, ?_, doubles, failures⟩
    rw [sources, registeredSources, completed, base]
    rfl
  | true =>
    have e : ((Draft.new policy).register fs r) =
        generateLacking BaseModule.all (fs.foldl registerFile (.new policy, r)) := by
      simp [register, new, base]
    have more := admits_generateLacking BaseModule.all (fs.foldl registerFile (.new policy, r))
      files.registered (by rwa [sources]) BaseModule.nodup_all
    have all := more.sources
    have balance := more.doubles
    have extended := nodup_names_append_generated BaseModule.all nodup BaseModule.nodup_all
    rw [firstsBy_eq_self_of_append (by rwa [sources])] at all
    rw [all, List.length_append] at balance
    rw [e]
    refine ⟨more.registered, more.policy.trans files.policy, more.ledger (files.ledger start), ?_,
      by omega, more.failures.trans ((List.append_nil _).trans failures)⟩
    rw [all, sources, registeredSources, completed, base]
    rfl

/-! ## Distinct names -/

section Distinct

variable (policy : Policy) {fs : List ParsedFile}
  (distinct : DistinctNames (fs.flatMap (·.modules)))
include distinct

/-- All modules of distinct names are registered. -/
lemma registeredSources_of_distinct :
    registeredSources policy fs = completed policy (offered fs) := by
  have offered := distinct.perm (perm_offered fs).symm
  rw [registeredSources, firstsBy_eq_self offered.modules fun _ _ => List.not_mem_nil]

/-- The registered modules have distinct names. -/
lemma distinctNames_registeredSources : DistinctNames (registeredSources policy fs) := by
  rw [registeredSources_of_distinct policy distinct]
  exact distinctNames_completed policy (distinct.perm (perm_offered fs).symm)

/-- While modules of distinct names are registered, only the files are reported that could not be
parsed. -/
theorem contents_register (r : Recorder) : ((Draft.new policy).register fs r).1.contents =
    (fs.filterMap (·.finding?)).map (·.content) := by
  have accounts := accounts_register policy fs r
  obtain ⟨new, problems, phase⟩ := (registers_register (Draft.new policy) fs r).reports
  rw [← accounts.failures, contentsOf, List.filter_eq_self.2]
  intro c hc
  obtain ⟨p, hp, rfl⟩ := List.mem_map.1 hc
  have registration : p.kind.phase = .registration := by
    rw [problems] at hp
    exact phase p hp
  have copies : p.kind ≠ .duplicateModule := by
    -- No module repeats the name of another.
    have firsts := length_firstsBy_add (·.name) [] (offered fs)
    rw [firstsBy_eq_self (distinct.perm (perm_offered fs).symm).modules
      fun _ _ => List.not_mem_nil] at firsts
    have none : ((Draft.new policy).register fs r).1.reported .duplicateModule = 0 := by
      rw [accounts.doubles]
      omega
    simpa using List.countP_eq_zero.1 none p hp
  have repeats : p.kind ≠ .duplicateDefinition := by
    -- No definition is refused.
    intro kind
    have sources : DistinctNames ((Draft.new policy).register fs r).1.sources := by
      rw [accounts.sources]
      exact distinctNames_registeredSources policy distinct
    have subject := (accounts.ledger.subjects p hp).2 kind
    have refused : p.notice ∈ ((Draft.new policy).register fs r).1.notices.filter (·.1.isSome) :=
      List.mem_filter.2 ⟨List.mem_map_of_mem hp, subject⟩
    rw [accounts.ledger.refusals] at refused
    obtain ⟨x, hx, -⟩ := List.mem_map.1 refused
    have kept := accounts.registered.isRefused_eq_false sources x.1
    simp [kept] at hx
  refine decide_eq_true (?_ : p.kind = .parseFailure)
  revert registration copies repeats
  cases p.kind <;> decide

end Distinct

end Draft

end MibCorpus
