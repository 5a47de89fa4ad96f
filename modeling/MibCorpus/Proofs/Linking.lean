import MibCorpus.Draft.Linking
import MibCorpus.Proofs.Registration

/-!
# What linking does

The imports of a module count where their pair of symbol and source occurs first. These are bound,
listed in the module and checked in the end; what is reported on the way depends on the imports of
the module and the names of all modules alone. Assignments and type nodes are not touched.
-/

namespace MibCorpus

/-- The imports whose pair of symbol and source is neither in `seen` nor before them. -/
def newImports (seen : List (String × String)) : List Import → List Import
  | [] => []
  | i :: is =>
    if seen.contains (i.symbol, i.source) then newImports seen is
    else i :: newImports (seen ++ [(i.symbol, i.source)]) is

/-- Binds imports of a module one by one. -/
def Scope.bindImports (t : Scope) (m : ModuleId) (is : List Import) : Scope :=
  is.foldl (fun t i => t.bindImport m i.symbol (t.module? i.source)) t

namespace Draft

/-! ## One import -/

/-- The imports of a module that are bound. -/
def boundImports (m : RegisteredModule) : List Import :=
  newImports [] (m.source.imports.filter (!·.isMacro))

/-- The place of an import. -/
def importLocation (m : RegisteredModule) (i : Import) : Location :=
  .inModule m.file m.id i.span

/-- The problem of importing a symbol again from the same source. -/
def duplicateImportProblem (policy : Policy) (m : RegisteredModule) (i : Import) : Problem :=
  { (Finding.duplicateImport i.symbol i.source).toProblem (importLocation m i) with
    severity := policy.duplicateImports.severity }

/-- The problem of importing a symbol also from another source. -/
def ambiguousImportProblem (m : RegisteredModule) (i : Import) (other : String) : Problem :=
  (Finding.ambiguousImport i.symbol other i.source).toProblem (importLocation m i)

/-- The problem of importing from a module that does not exist. -/
def missingSourceProblem (m : RegisteredModule) (i : Import) : Problem :=
  (Finding.missingSource i.source).toProblem (importLocation m i)

/-- Whether a source is missing and has not been reported. -/
def isNewlyAbsent (source? : String → Option ModuleId) (absent : List String) (source : String) :
    Bool :=
  (source? source).isNone && !absent.contains source

/-- The problems of a new import. -/
def newImportProblems (source? : String → Option ModuleId) (m : RegisteredModule)
    (seen : List (String × String)) (absent : List String) (i : Import) : List Problem :=
  ((seen.lookup i.symbol).map (ambiguousImportProblem m i)).toList ++
    if isNewlyAbsent source? absent i.source then [missingSourceProblem m i] else []

/-- The check of an import, which needs its source. -/
def importCheck? (source? : String → Option ModuleId) (m : RegisteredModule) (i : Import) :
    Option ImportCheck :=
  (source? i.source).map fun s => ⟨m.id, s, i.symbol, i.span⟩

/-- The problems of the imports of a module. -/
def importProblems (policy : Policy) (source? : String → Option ModuleId) (m : RegisteredModule)
    (seen : List (String × String)) (absent : List String) : List Import → List Problem
  | [] => []
  | i :: is =>
    if seen.contains (i.symbol, i.source) then
      duplicateImportProblem policy m i :: importProblems policy source? m seen absent is
    else
      newImportProblems source? m seen absent i ++
        importProblems policy source? m (seen ++ [(i.symbol, i.source)])
          (if isNewlyAbsent source? absent i.source then i.source :: absent else absent) is

/-- The draft with an import bound and listed. -/
def bindNewImport (d : Draft) (m : ModuleId) (i : Import) : Draft :=
  let source := d.scope.module? i.source
  let named := (d.mib.intern i.symbol).2
  { d with
    scope := d.scope.bindImport m i.symbol source
    mib := (named.intern i.source).2.addImport m
      ⟨(d.mib.intern i.symbol).1, (named.intern i.source).1, source, i.span⟩ }

/-- An import seen before is reported as a duplicate and binds nothing. -/
lemma linkImport_seen (m : RegisteredModule) (st : LinkState) (i : Import)
    (h : (i.symbol, i.source) ∈ st.seen) :
    linkImport m st i = { st with
      draft := st.draft.record (duplicateImportProblem st.draft.policy m i) } := by
  simp only [linkImport, if_pos h]
  rfl

/-- An import that was not seen is bound, after what there is to report about it. -/
lemma linkImport_new (m : RegisteredModule) (st : LinkState) (i : Import)
    (h : (i.symbol, i.source) ∉ st.seen) :
    linkImport m st i = {
      draft := (st.draft.recordAll
        (newImportProblems st.draft.scope.module? m st.seen st.absent i)).bindNewImport m.id i
      seen := st.seen ++ [(i.symbol, i.source)]
      absent := if isNewlyAbsent st.draft.scope.module? st.absent i.source
        then i.source :: st.absent else st.absent
      checks := st.checks ++ (importCheck? st.draft.scope.module? m i).toList } := by
  simp only [linkImport, if_neg h]
  cases hs : st.seen.lookup i.symbol <;> cases hm : st.draft.scope.module? i.source <;>
    by_cases hc : i.source ∈ st.absent <;>
    simp [newImportProblems, isNewlyAbsent, importCheck?, bindNewImport, recordAll, hs, hm, hc,
      report, record, ambiguousImportProblem, missingSourceProblem, importLocation, Mib.intern,
      Mib.record]

/-- A new import binds its symbol to the module of its source's name. -/
lemma scope_bindNewImport (d : Draft) (m : ModuleId) (i : Import) :
    (d.bindNewImport m i).scope = d.scope.bindImport m i.symbol (d.scope.module? i.source) := rfl

/-- Binding an import registers no module. -/
lemma module?_bindNewImport (d : Draft) (m : ModuleId) (i : Import) :
    (d.bindNewImport m i).scope.module? = d.scope.module? := rfl

/-- Binding an import reports nothing. -/
lemma problems_bindNewImport (d : Draft) (m : ModuleId) (i : Import) :
    (d.bindNewImport m i).mib.problems = d.mib.problems := by
  simp [bindNewImport, Mib.addImport, Mib.modifyModule, Mib.intern]

/-! ## What linking leaves alone -/

/-- Draft `d'` comes from `d` by linking: what was registered stays, and nothing is typed. -/
structure Links (d d' : Draft) : Prop where
  continues : Continues d d'
  assignments : d'.mib.assignments = d.mib.assignments
  types : d'.mib.types = d.mib.types

/-- Linking relates each draft to itself. -/
lemma Links.refl (d : Draft) : Links d d := ⟨.refl d, rfl, rfl⟩

/-- Two steps of linking are one. -/
lemma Links.trans {d d' d'' : Draft} (h : Links d d') (h' : Links d' d'') : Links d d'' :=
  ⟨h.continues.trans h'.continues, h'.assignments.trans h.assignments, h'.types.trans h.types⟩

/-- Recording problems is a step of linking. -/
lemma links_recordAll (d : Draft) (ps : List Problem) : Links d (d.recordAll ps) := by
  rw [recordAll_eq]
  exact ⟨⟨rfl, .refl _⟩, rfl, rfl⟩

/-- Binding an import is part of linking. -/
lemma links_bindNewImport (d : Draft) (m : ModuleId) (i : Import) :
    Links d (d.bindNewImport m i) := by
  refine ⟨⟨?_, ?_⟩, rfl, rfl⟩
  · have e := heading_modifyModule ((d.mib.intern i.symbol).2.intern i.source).2 m
      (fun e => { e with imports := e.imports ++ [⟨(d.mib.intern i.symbol).1,
        ((d.mib.intern i.symbol).2.intern i.source).1, d.scope.module? i.source, i.span⟩] })
      fun _ => rfl
    unfold registry
    congr 1
  · exact (Strings.extends_intern _ _).trans (Strings.extends_intern _ _)

/-! ## The imports of a module -/

/-- What linking some imports of a module does. -/
structure LinksImports (m : RegisteredModule) (is : List Import) (st st' : LinkState) : Prop where
  links : Links st.draft st'.draft
  scope : st'.draft.scope = st.draft.scope.bindImports m.id (newImports st.seen is)
  problems : st'.draft.mib.problems.toList = st.draft.mib.problems.toList ++
    importProblems st.draft.policy st.draft.scope.module? m st.seen st.absent is
  checks : st'.checks = st.checks ++
    (newImports st.seen is).filterMap (importCheck? st.draft.scope.module? m)

/-- Imports are linked one by one. -/
lemma linksImports (m : RegisteredModule) (is : List Import) (st : LinkState) :
    LinksImports m is st (is.foldl (linkImport m) st) := by
  induction is generalizing st with
  | nil => exact ⟨.refl _, rfl, by simp [importProblems], by simp [newImports]⟩
  | cons i is ih =>
    have ih := ih (linkImport m st i)
    rw [List.foldl_cons]
    by_cases h : (i.symbol, i.source) ∈ st.seen
    · rw [linkImport_seen m st i h] at ih ⊢
      refine ⟨(links_recordAll st.draft [_]).trans ih.links, ?scope, ?problems, ?checks⟩
      case scope =>
        rw [ih.scope, newImports, if_pos (List.contains_iff_mem.2 h)]
        rfl
      case problems =>
        rw [ih.problems, importProblems, if_pos (List.contains_iff_mem.2 h)]
        simp [record, Mib.record]
      case checks =>
        rw [ih.checks, newImports, if_pos (List.contains_iff_mem.2 h)]
        rfl
    · rw [linkImport_new m st i h] at ih ⊢
      have new : ¬st.seen.contains (i.symbol, i.source) := mt List.contains_iff_mem.1 h
      set ps := newImportProblems st.draft.scope.module? m st.seen st.absent i
      constructor
      case links =>
        exact ((links_recordAll st.draft ps).trans (links_bindNewImport _ m.id i)).trans ih.links
      case scope =>
        rw [ih.scope, newImports, if_neg new, scope_bindNewImport, scope_recordAll]
        rfl
      case problems =>
        have policy : ((st.draft.recordAll ps).bindNewImport m.id i).policy = st.draft.policy := by
          rw [recordAll_eq]
          rfl
        rw [ih.problems, importProblems, if_neg new, ← List.append_assoc, problems_bindNewImport,
          problems_recordAll, module?_bindNewImport, scope_recordAll, policy]
      case checks =>
        rw [ih.checks, newImports, if_neg new, List.filterMap_cons, module?_bindNewImport,
          scope_recordAll]
        cases importCheck? st.draft.scope.module? m i <;> simp

/-- Everything reported about the imports of a module is about linking and about no assignment. -/
lemma of_mem_importProblems {policy : Policy} {source? : String → Option ModuleId}
    {m : RegisteredModule} {is : List Import} {seen : List (String × String)}
    {absent : List String} {p : Problem}
    (hp : p ∈ importProblems policy source? m seen absent is) :
    p.kind.phase = .linking ∧ p.subject = none := by
  induction is generalizing seen absent with
  | nil => simp [importProblems] at hp
  | cons i is ih =>
    unfold importProblems at hp
    split at hp
    · rcases List.mem_cons.1 hp with rfl | hp
      · exact ⟨rfl, rfl⟩
      · exact ih hp
    · rcases List.mem_append.1 hp with hp | hp
      · rcases List.mem_append.1 hp with hp | hp
        · obtain ⟨_, _, rfl⟩ := Option.map_eq_some_iff.1 (Option.mem_toList.1 hp)
          exact ⟨rfl, rfl⟩
        · split at hp <;> simp at hp
          subst hp
          exact ⟨rfl, rfl⟩
      · exact ih hp

/-! ## All modules -/

/-- The problems of the imports of a module, macros aside. -/
def moduleImportProblems (policy : Policy) (source? : String → Option ModuleId)
    (m : RegisteredModule) : List Problem :=
  importProblems policy source? m [] [] (m.source.imports.filter (!·.isMacro))

/-- The checks of the imports of a module. -/
def moduleImportChecks (source? : String → Option ModuleId) (m : RegisteredModule) :
    List ImportCheck :=
  (boundImports m).filterMap (importCheck? source? m)

/-- What the imports of some modules make visible. -/
def bindModules (t : Scope) (ms : List RegisteredModule) : Scope :=
  ms.foldl (fun t m => t.bindImports m.id (boundImports m)) t

/-- What linking some modules does. -/
structure LinksModules (ms : List RegisteredModule) (dc dc' : Draft × List ImportCheck) :
    Prop where
  links : Links dc.1 dc'.1
  scope : dc'.1.scope = bindModules dc.1.scope ms
  problems : dc'.1.mib.problems.toList = dc.1.mib.problems.toList ++
    ms.flatMap (moduleImportProblems dc.1.policy dc.1.scope.module?)
  checks : dc'.2 = dc.2 ++ ms.flatMap (moduleImportChecks dc.1.scope.module?)

/-- Modules are linked one by one. -/
lemma linksModules (ms : List RegisteredModule) (dc : Draft × List ImportCheck) :
    LinksModules ms dc (ms.foldl linkModule dc) := by
  induction ms generalizing dc with
  | nil => exact ⟨.refl _, rfl, by simp, by simp⟩
  | cons m ms ih =>
    rw [List.foldl_cons]
    have head := linksImports m (m.source.imports.filter (!·.isMacro)) ⟨dc.1, [], [], dc.2⟩
    have tail := ih (linkModule dc m)
    have hs : (linkModule dc m).1.scope.module? = dc.1.scope.module? :=
      funext (module?_of_registry head.links.continues.registry)
    have hp : (linkModule dc m).1.policy = dc.1.policy :=
      policy_of_registry head.links.continues.registry
    refine ⟨head.links.trans tail.links, ?_, ?_, ?_⟩
    · rw [tail.scope, show (linkModule dc m).1.scope = _ from head.scope]
      rfl
    · rw [tail.problems, hs, hp,
        show (linkModule dc m).1.mib.problems.toList = _ from head.problems]
      simp [moduleImportProblems]
    · rw [tail.checks, hs, show (linkModule dc m).2 = _ from head.checks]
      simp [moduleImportChecks, boundImports]

/-! ## The checks -/

/-- The problem of an import whose symbol is not there. -/
def checkProblem? (d : Draft) (c : ImportCheck) : Option Problem :=
  if d.scope.resolve c.source c.symbol = .notFound ∧ intrinsicRoot? c.symbol = none then
    some ((Finding.unresolvedImport c.symbol (d.mib.moduleName c.source)).toProblem
      (.inModule (d.fileOf c.module) c.module c.span))
  else none

/-- Checking an import records its problem, if it has one. -/
lemma checkImport_eq (d : Draft) (c : ImportCheck) :
    d.checkImport c = d.recordAll (d.checkProblem? c).toList := by
  unfold checkImport checkProblem?
  cases d.scope.resolve c.source c.symbol <;> cases intrinsicRoot? c.symbol <;>
    simp [recordAll, report]

/-- The checks record their problems. -/
lemma foldl_checkImport (d : Draft) (cs : List ImportCheck) :
    cs.foldl checkImport d = d.recordAll (cs.filterMap d.checkProblem?) := by
  have same : ∀ (d : Draft) (ps : List Problem),
      (fun c => ((d.recordAll ps).checkProblem? c).toList) =
        fun c => (d.checkProblem? c).toList := by
    intro d ps
    rw [recordAll_eq]
    rfl
  rw [foldl_eq_recordAll checkImport_eq same, List.filterMap_eq_flatMap_toList]

/-! ## The phase -/

/-- The phase links the modules and then records what the checks find. -/
lemma link_eq_recordAll (d : Draft) :
    let linked := d.modules.toList.foldl linkModule (d, [])
    d.link = linked.1.recordAll (linked.2.filterMap linked.1.checkProblem?) := by
  rw [link, ← Array.foldl_toList]
  exact foldl_checkImport _ _

/-- What the phase does to a draft. -/
structure Linked (d d' : Draft) : Prop where
  links : Links d d'
  scope : d'.scope = bindModules d.scope d.modules.toList
  problems : d'.mib.problems.toList = d.mib.problems.toList ++
    (d.modules.toList.flatMap (moduleImportProblems d.policy d.scope.module?) ++
      (d.modules.toList.flatMap (moduleImportChecks d.scope.module?)).filterMap d'.checkProblem?)

/-- Linking binds the imports of all modules and reports what is wrong with them. -/
theorem linked_link (d : Draft) : Linked d d.link := by
  have h := linksModules d.modules.toList (d, [])
  rw [link_eq_recordAll]
  refine ⟨h.links.trans (links_recordAll _ _), ?_, ?_⟩
  · rw [scope_recordAll, h.scope]
  · have same : ∀ (d : Draft) (ps : List Problem),
        (d.recordAll ps).checkProblem? = d.checkProblem? := by
      intro d ps
      rw [recordAll_eq]
      rfl
    rw [problems_recordAll, h.problems, h.checks, same, List.append_assoc, List.nil_append]

/-- Everything that linking reports is about linking and about no assignment. -/
lemma Linked.exists_new {d d' : Draft} (h : Linked d d') : ∃ new,
    d'.mib.problems.toList = d.mib.problems.toList ++ new ∧
      ∀ p ∈ new, p.kind.phase = .linking ∧ p.subject = none := by
  refine ⟨_, h.problems, fun p hp => ?_⟩
  rcases List.mem_append.1 hp with hp | hp
  · obtain ⟨m, -, hp⟩ := List.mem_flatMap.1 hp
    exact of_mem_importProblems hp
  · obtain ⟨c, -, hc⟩ := List.mem_filterMap.1 hp
    unfold checkProblem? at hc
    split at hc
    · cases hc
      exact ⟨rfl, rfl⟩
    · cases hc

/-- A linked draft has reported problems of linking only. -/
lemma Linked.reports {d d' : Draft} (h : Linked d d') : Reports .linking d d' := by
  obtain ⟨new, e, all⟩ := h.exists_new
  exact ⟨new, e, fun p hp => (all p hp).1⟩

end Draft

end MibCorpus
