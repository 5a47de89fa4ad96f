import MibCorpus.Proofs.Transcript

/-!
# Erasing SYNTAX clauses

Neither registration nor linking looks at a SYNTAX clause: they only keep it for the phases that
follow. Nor do they look at the spans, which move with the length of what is written: spans only say
where a problem is. So corpora that differ in nothing else are linked to drafts that differ in
nothing else.
-/

namespace MibCorpus

/-! ## Spans -/

/-- The place, but for where in the text of its file. -/
def Location.withoutSpan (l : Location) : Location := { l with span := .synthetic }

/-- The problem, but for where in the text it is. -/
def Problem.withoutSpan (p : Problem) : Problem := { p with location := p.location.withoutSpan }

/-- The import with no place in the text. -/
def Import.withoutSpan (i : Import) : Import := { i with span := .synthetic }

/-- The failure with no place in the text. -/
def ParseFailure.withoutSpan (f : ParseFailure) : ParseFailure := { f with span := .synthetic }

/-- The linked import with no place in the text. -/
def ImportEntry.withoutSpan (e : ImportEntry) : ImportEntry := { e with span := .synthetic }

/-- The module with no place in the text, nor its imports. -/
def ModuleEntry.withoutSpans (m : ModuleEntry) : ModuleEntry :=
  { m with imports := m.imports.map (·.withoutSpan), span := .synthetic }

/-- The assignment with no place in the text. -/
def Assignment.withoutSpan (a : Assignment) : Assignment := { a with span := .synthetic }

/-- The problems, but for where in the text they are. -/
def Problems.withoutSpans (ps : Problems) : Problems := ⟨ps.items.map (·.withoutSpan)⟩

/-- A problem without its span is recorded behind the others without theirs. -/
lemma Problems.withoutSpans_record (ps : Problems) (p : Problem) :
    ps.withoutSpans.record p.withoutSpan = (ps.record p).withoutSpans := by
  simp [withoutSpans, record]

namespace Mib

/-- The model with no places in the text. -/
def withoutSpans (mib : Mib) : Mib :=
  { mib with
    modules := mib.modules.map (·.withoutSpans)
    assignments := mib.assignments.map (·.withoutSpan)
    problems := mib.problems.withoutSpans }

variable (mib : Mib)

/-- A module is found with its spans taken away. -/
lemma module?_withoutSpans (m : ModuleId) :
    mib.withoutSpans.module? m = (mib.module? m).map (·.withoutSpans) :=
  Array.getElem?_map ..

/-- An assignment is found with its span taken away. -/
lemma assignment?_withoutSpans (i : AssignmentId) :
    mib.withoutSpans.assignment? i = (mib.assignment? i).map (·.withoutSpan) :=
  Array.getElem?_map ..

/-- Modules have the same names without spans. -/
lemma moduleName_withoutSpans : mib.withoutSpans.moduleName = mib.moduleName := by
  funext m
  rw [moduleName, moduleName, module?_withoutSpans]
  cases mib.module? m <;> rfl

/-- Assignments have the same names without spans. -/
lemma nameOf_withoutSpans : mib.withoutSpans.nameOf = mib.nameOf := by
  funext i
  rw [nameOf, nameOf, assignment?_withoutSpans]
  cases mib.assignment? i <;> rfl

/-- So have they with the names of their modules. -/
lemma qualifiedName_withoutSpans : mib.withoutSpans.qualifiedName = mib.qualifiedName := by
  funext i
  rw [qualifiedName, qualifiedName, nameOf_withoutSpans, moduleName_withoutSpans,
    assignment?_withoutSpans]
  cases mib.assignment? i <;> rfl

end Mib

/-! ## Corpora -/

/-- The clauses with the same SYNTAX everywhere. -/
def Clauses.withoutSyntax : Clauses → Clauses
  | type _ hint? status => type .integer hint? status
  | textualConvention _ hint? status => textualConvention .integer hint? status
  | objectType _ access status oid => objectType .integer access status oid
  | c => c

namespace Definition

/-- The definition without its SYNTAX and its place in the text. -/
def withoutSyntax (x : Definition) : Definition := ⟨x.name, x.clauses.withoutSyntax, .synthetic⟩

/-- The OID value of a definition is no syntax. -/
@[simp]
lemma oid?_withoutSyntax (x : Definition) : x.withoutSyntax.oid? = x.oid? := by
  obtain ⟨_, c, _⟩ := x
  cases c <;> rfl

/-- A definition is registered as the same assignment whatever its SYNTAX. -/
lemma entry_withoutSyntax (x : Definition) (i : AssignmentId) (m : ModuleId) (name : StrId) :
    x.withoutSyntax.entry i m name = (x.entry i m name).withoutSpan := by
  obtain ⟨_, c, _⟩ := x
  cases c <;> rfl

end Definition

/-- The module without the SYNTAX of its definitions and its places in the text. -/
def Module.withoutSyntax (m : Module) : Module :=
  ⟨m.name, m.imports.map (·.withoutSpan), m.definitions.map (·.withoutSyntax), .synthetic⟩

/-- The file without the SYNTAX of its definitions and the places in its text. -/
def ParsedFile.withoutSyntax (f : ParsedFile) : ParsedFile :=
  match f.result with
  | .ok modules => ⟨f.path, .ok (modules.map (·.withoutSyntax))⟩
  | .error failure => ⟨f.path, .error failure.withoutSpan⟩

/-- What each of some steps commutes with, if the steps are changed too, they all do. -/
lemma foldl_map_commutes {α β : Type} (u : β → β) (v : α → α) {f : β → α → β}
    (each : ∀ b x, f (u b) (v x) = u (f b x)) (xs : List α) (b : β) :
    (xs.map v).foldl f (u b) = u (xs.foldl f b) := by
  rw [List.foldl_map]
  exact List.foldl_hom u fun b x => each b x

/-- A change of an entry commutes with a change of all entries. -/
lemma map_modify_commutes {α : Type} (as : Array α) (i : Nat) {f f' g : α → α}
    (commutes : ∀ a, g (f a) = f' (g a)) : (as.modify i f).map g = (as.map g).modify i f' := by
  refine Array.ext_getElem? fun j => ?_
  simp only [Array.getElem?_map, Array.getElem?_modify]
  split
  · cases as[j]? with
    | none => rfl
    | some a => exact congrArg some (commutes a)
  · rfl

/-- The registered module without the SYNTAX of its definitions and its places in the text. -/
def RegisteredModule.withoutSyntax (m : RegisteredModule) : RegisteredModule :=
  { m with source := m.source.withoutSyntax }

namespace Draft

/-- The draft without the SYNTAX of its definitions and the places in the text. -/
def withoutSyntax (d : Draft) : Draft :=
  { d with
    mib := d.mib.withoutSpans
    modules := d.modules.map (·.withoutSyntax) }

variable {d d' : Draft}

/-- Modules have the same files without syntax. -/
lemma fileOf_withoutSyntax (d : Draft) : d.withoutSyntax.fileOf = d.fileOf := by
  funext m
  rw [fileOf, fileOf, show d.withoutSyntax.mib = d.mib.withoutSpans from rfl,
    Mib.module?_withoutSpans]
  cases d.mib.module? m <;> rfl

/-- Assignments stand at the same place without its span. -/
lemma locationOf_withoutSyntax (d : Draft) (i : AssignmentId) :
    d.withoutSyntax.locationOf i = (d.locationOf i).withoutSpan := by
  rw [locationOf, locationOf, fileOf_withoutSyntax,
    show d.withoutSyntax.mib = d.mib.withoutSpans from rfl, Mib.assignment?_withoutSpans]
  cases d.mib.assignment? i <;> rfl

/-- A problem is recorded without its span in a draft without syntax. -/
lemma record_withoutSyntax (d : Draft) (p : Problem) :
    d.withoutSyntax.record p.withoutSpan = (d.record p).withoutSyntax := by
  have recorded := d.mib.problems.withoutSpans_record p
  simp only [record, withoutSyntax, Mib.record, Mib.withoutSpans, recorded]

/-- A finding is reported in the same way. -/
lemma report_withoutSyntax (d : Draft) (f : Finding) (l : Location) :
    d.withoutSyntax.report f l.withoutSpan = (d.report f l).withoutSyntax :=
  record_withoutSyntax d (f.toProblem l)

/-! ## Registration -/

/-- Registering a definition does not look at its syntax. -/
lemma registerDefinition_withoutSyntax (m : RegisteredModule) (o : Origin) (d : Draft)
    (x : Definition) :
    d.withoutSyntax.registerDefinition m.withoutSyntax o x.withoutSyntax =
      (d.registerDefinition m o x).withoutSyntax := by
  cases h : d.scope.lookup? m.id x.name with
  | none =>
    have listed : ∀ i : AssignmentId, (d.mib.modules.modify m.id.index fun e =>
          { e with assignments := e.assignments ++ [i] }).map ModuleEntry.withoutSpans =
        (d.mib.modules.map ModuleEntry.withoutSpans).modify m.id.index fun e =>
          { e with assignments := e.assignments ++ [i] } :=
      fun i => map_modify_commutes _ _ fun _ => rfl
    rw [registerDefinition_free d m o x h,
      registerDefinition_free d.withoutSyntax m.withoutSyntax o x.withoutSyntax h]
    simp only [withoutSyntax, x.entry_withoutSyntax, Mib.withoutSpans, Array.size_map,
      Array.map_push, listed]
    rfl
  | some existing =>
    rw [registerDefinition_taken d m o x h,
      registerDefinition_taken d.withoutSyntax m.withoutSyntax o x.withoutSyntax h]
    simp only [withoutSyntax, x.entry_withoutSyntax, Mib.withoutSpans, Array.size_map,
      Array.map_push, ← Problems.withoutSpans_record]
    rfl

/-- Accepting a module does not look at the syntax in it. -/
lemma acceptModule_withoutSyntax (d : Draft) (name : StrId) (file : Option FileId)
    (source : Module) : (d.withoutSyntax.acceptModule name file source.withoutSyntax).2 =
      (d.acceptModule name file source).2.withoutSyntax := by
  have accepted : d.withoutSyntax.accepted file source.withoutSyntax =
      (d.accepted file source).withoutSyntax := by
    simp [Draft.accepted, RegisteredModule.withoutSyntax, withoutSyntax, Mib.withoutSpans]
  have position : d.withoutSyntax.modules.size = d.modules.size := Array.size_map
  have announced : d.withoutSyntax.announced name file source.withoutSyntax =
      (d.announced name file source).withoutSyntax := by
    simp only [Draft.announced, Mib.addModule, withoutSyntax, Mib.withoutSpans, Array.size_map,
      Array.map_push]
    rfl
  have defined : d.withoutSyntax.defined name file source.withoutSyntax =
      (d.defined name file source).withoutSyntax := by
    rw [Draft.defined, Draft.defined, announced, accepted, position, registerDefinitions,
      show (d.accepted file source).withoutSyntax.source.definitions.zipIdx = _ from
        List.zipIdx_map]
    exact foldl_map_commutes withoutSyntax (Prod.map Definition.withoutSyntax id)
      (fun e x => registerDefinition_withoutSyntax _ _ e x.1) source.definitions.zipIdx
      (d.announced name file source)
  rw [acceptModule_eq, acceptModule_eq, defined, accepted]
  simp only [Draft.list, withoutSyntax, Array.map_push]

/-- The draft without SYNTAX, with the recorder as it is. -/
def eraseSyntax (dr : Draft × Recorder) : Draft × Recorder := (dr.1.withoutSyntax, dr.2)

/-- Registering a module does not look at it, either. -/
lemma registerModule_eraseSyntax (file : Option FileId) (dr : Draft × Recorder) (source : Module) :
    registerModule file (eraseSyntax dr) source.withoutSyntax =
      eraseSyntax (registerModule file dr source) := by
  obtain ⟨d, r⟩ := dr
  set named : Draft := { d with mib := (d.mib.intern source.name).2 }
  cases h : d.scope.module? source.name with
  | some existing =>
    have h' : d.withoutSyntax.scope.module? source.withoutSyntax.name = some existing := h
    have path : named.withoutSyntax.pathOf? existing = named.pathOf? existing := by
      rw [pathOf?, pathOf?, fileOf_withoutSyntax]
      rfl
    have refused : named.withoutSyntax.refuseModule existing file source.withoutSyntax =
        (named.refuseModule existing file source).withoutSyntax := by
      rw [refuseModule, refuseModule, path]
      exact named.report_withoutSyntax _ ⟨file, none, source.span⟩
    simp only [registerModule, eraseSyntax, h, h']
    exact congrArg (·, r) refused
  | none =>
    have accepted := named.acceptModule_withoutSyntax (d.mib.intern source.name).1 file source
    have h' : d.withoutSyntax.scope.module? source.withoutSyntax.name = none := h
    have size : d.mib.withoutSpans.modules.size = d.mib.modules.size := Array.size_map
    simp only [registerModule, eraseSyntax, h, h']
    rw [show (Draft.acceptModule _ _ _ _).1 = ⟨d.mib.modules.size⟩ from congrArg Ident.mk size]
    exact congrArg (·, r.emit .debug
      (.moduleRegistered source.name ⟨d.mib.modules.size⟩ file.isNone)) accepted

/-- Neither does registering a file. -/
lemma registerFile_eraseSyntax (dr : Draft × Recorder) (file : ParsedFile) :
    registerFile (eraseSyntax dr) file.withoutSyntax = eraseSyntax (registerFile dr file) := by
  obtain ⟨d, r⟩ := dr
  obtain ⟨path, result⟩ := file
  cases result with
  | ok modules =>
    -- Modules are sorted by their names.
    have sorted : byName (modules.map (·.withoutSyntax)) =
        (byName modules).map (·.withoutSyntax) :=
      (List.map_mergeSort (f := Module.withoutSyntax) fun _ _ _ _ => rfl).symm
    have registered := foldl_map_commutes eraseSyntax Module.withoutSyntax
      (registerModule_eraseSyntax (some (d.mib.addFile path).1)) (byName modules)
      ({ d with mib := (d.mib.addFile path).2 }, r)
    rw [← sorted] at registered
    exact registered
  | error failure =>
    exact congrArg (·, r) (report_withoutSyntax { d with mib := (d.mib.addFile path).2 }
      (.parseFailure path failure.message) (.inFile (d.mib.addFile path).1 failure.span))

/-! ## Base modules -/

/-- The same base modules are lacking without syntax. -/
lemma lacks_withoutSyntax (d : Draft) : d.withoutSyntax.lacks = d.lacks := by
  have imports : d.withoutSyntax.importsFrom = d.importsFrom := by
    funext name
    simp only [importsFrom, withoutSyntax, Array.any_map, Function.comp_def,
      RegisteredModule.withoutSyntax, Module.withoutSyntax, List.any_map]
    rfl
  funext b
  rw [lacks, lacks, imports]
  rfl

/-- Base modules are generated alike for drafts that differ in SYNTAX alone. -/
lemma generateLacking_eraseSyntax (candidates : List BaseModule) (dr dr' : Draft × Recorder)
    (same : eraseSyntax dr = eraseSyntax dr') :
    eraseSyntax (generateLacking candidates dr) = eraseSyntax (generateLacking candidates dr') := by
  have lacks : dr'.1.lacks = dr.1.lacks := by
    rw [← lacks_withoutSyntax, ← lacks_withoutSyntax dr.1]
    exact congrArg (fun x => x.1.lacks) same.symm
  have others : dr'.1.notLacking candidates = dr.1.notLacking candidates := by
    rw [notLacking, lacks]
    rfl
  rw [generateLacking.eq_def candidates dr, generateLacking.eq_def candidates dr', others]
  simp only
  split
  next lt =>
    refine generateLacking_eraseSyntax _ _ _ ?_
    rw [lacking, lacking, lacks]
    refine List.foldl_rel (r := fun e e' => eraseSyntax e = eraseSyntax e') same
      fun b _ e e' same => ?_
    rw [← registerModule_eraseSyntax, ← registerModule_eraseSyntax, same]
  next => exact same
  termination_by candidates.length

/-- Corpora that differ in SYNTAX alone are registered as drafts that do. -/
lemma registered_withoutSyntax (policy : Policy) {files files' : List ParsedFile}
    (same : files.map (·.withoutSyntax) = files'.map (·.withoutSyntax)) :
    (registered policy files).withoutSyntax = (registered policy files').withoutSyntax := by
  have fresh : eraseSyntax (new policy, .new .error) = (new policy, .new .error) := by
    simp [eraseSyntax, withoutSyntax, new, Mib.withoutSpans, Mib.empty, MibParts.empty,
      Problems.withoutSpans, Problems.empty]
  have supplied : eraseSyntax (files.foldl registerFile (.new policy, .new .error)) =
      eraseSyntax (files'.foldl registerFile (.new policy, .new .error)) := by
    have erased := fun fs : List ParsedFile => foldl_map_commutes eraseSyntax
      ParsedFile.withoutSyntax registerFile_eraseSyntax fs (new policy, .new .error)
    rw [← erased files, ← erased files', same]
  have registered : eraseSyntax (register (.new policy) files (.new .error)) =
      eraseSyntax (register (.new policy) files' (.new .error)) := by
    unfold register
    simp only
    split
    · exact generateLacking_eraseSyntax _ _ _ supplied
    · exact supplied
  exact congrArg Prod.fst registered

/-! ## Linking -/

/-- The check with no place in the text. -/
def ImportCheck.withoutSpan (c : ImportCheck) : ImportCheck := { c with span := .synthetic }

/-- The linking in progress without SYNTAX and places in the text. -/
def LinkState.withoutSyntax (st : LinkState) : LinkState :=
  { st with draft := st.draft.withoutSyntax, checks := st.checks.map (·.withoutSpan) }

/-- Problems are recorded without their spans. -/
lemma recordAll_withoutSyntax (d : Draft) (ps : List Problem) :
    d.withoutSyntax.recordAll (ps.map (·.withoutSpan)) = (d.recordAll ps).withoutSyntax :=
  foldl_map_commutes withoutSyntax Problem.withoutSpan record_withoutSyntax ps d

/-- What is reported about an import does not depend on any syntax. -/
lemma newImportProblems_withoutSyntax (source? : String → Option ModuleId) (m : RegisteredModule)
    (seen : List (String × String)) (absent : List String) (i : Import) :
    newImportProblems source? m.withoutSyntax seen absent i.withoutSpan =
      (newImportProblems source? m seen absent i).map (·.withoutSpan) := by
  unfold newImportProblems
  rw [show i.withoutSpan.symbol = i.symbol from rfl, show i.withoutSpan.source = i.source from rfl]
  cases seen.lookup i.symbol <;> split <;> rfl

/-- Neither does what is left to check of it. -/
lemma importCheck?_withoutSyntax (source? : String → Option ModuleId) (m : RegisteredModule)
    (i : Import) : importCheck? source? m.withoutSyntax i.withoutSpan =
      (importCheck? source? m i).map (·.withoutSpan) := by
  unfold importCheck?
  rw [show i.withoutSpan.source = i.source from rfl]
  cases source? i.source <;> rfl

/-- Binding an import does not look at syntax. -/
lemma bindNewImport_withoutSyntax (d : Draft) (m : ModuleId) (i : Import) :
    d.withoutSyntax.bindNewImport m i.withoutSpan = (d.bindNewImport m i).withoutSyntax := by
  have listed : ∀ e : ImportEntry, (d.mib.modules.modify m.index fun x =>
        { x with imports := x.imports ++ [e] }).map ModuleEntry.withoutSpans =
      (d.mib.modules.map ModuleEntry.withoutSpans).modify m.index fun x =>
        { x with imports := x.imports ++ [e.withoutSpan] } := fun e =>
    map_modify_commutes _ _ fun x => by simp [ModuleEntry.withoutSpans]
  simp only [bindNewImport, withoutSyntax, Mib.addImport, Mib.modifyModule, Mib.intern,
    Mib.withoutSpans, listed]
  rfl

/-- Linking an import does not look at it. -/
lemma linkImport_withoutSyntax (m : RegisteredModule) (st : LinkState) (i : Import) :
    linkImport m.withoutSyntax st.withoutSyntax i.withoutSpan =
      (linkImport m st i).withoutSyntax := by
  by_cases h : (i.symbol, i.source) ∈ st.seen
  · have recorded := st.draft.record_withoutSyntax (duplicateImportProblem st.draft.policy m i)
    rw [linkImport_seen m st i h, linkImport_seen m.withoutSyntax st.withoutSyntax i.withoutSpan h]
    exact congrArg (fun d => LinkState.mk d st.seen st.absent (st.checks.map (·.withoutSpan)))
      recorded
  · have bound : (st.withoutSyntax.draft.recordAll (newImportProblems st.draft.scope.module?
          m.withoutSyntax st.seen st.absent i.withoutSpan)).bindNewImport m.id i.withoutSpan =
        ((st.draft.recordAll (newImportProblems st.draft.scope.module? m st.seen st.absent
          i)).bindNewImport m.id i).withoutSyntax := by
      rw [newImportProblems_withoutSyntax, ← bindNewImport_withoutSyntax,
        ← recordAll_withoutSyntax]
      rfl
    have checks : st.checks.map (·.withoutSpan) ++
          (importCheck? st.draft.scope.module? m.withoutSyntax i.withoutSpan).toList =
        (st.checks ++ (importCheck? st.draft.scope.module? m i).toList).map (·.withoutSpan) := by
      rw [importCheck?_withoutSyntax, List.map_append, Option.toList_map]
    rw [linkImport_new m st i h, linkImport_new m.withoutSyntax st.withoutSyntax i.withoutSpan h]
    exact congrArg₂ (fun d cs => LinkState.mk d _ _ cs) bound checks

/-- What is linked so far without SYNTAX and places in the text. -/
def eraseLinked (dc : Draft × List ImportCheck) : Draft × List ImportCheck :=
  (dc.1.withoutSyntax, dc.2.map (·.withoutSpan))

/-- Neither does linking a module. -/
lemma linkModule_eraseLinked (dc : Draft × List ImportCheck) (m : RegisteredModule) :
    linkModule (eraseLinked dc) m.withoutSyntax = eraseLinked (linkModule dc m) := by
  have imports : m.withoutSyntax.source.imports.filter (!·.isMacro) =
      (m.source.imports.filter (!·.isMacro)).map (·.withoutSpan) :=
    List.filter_map
  have linked := foldl_map_commutes LinkState.withoutSyntax Import.withoutSpan
    (linkImport_withoutSyntax m) (m.source.imports.filter (!·.isMacro)) ⟨dc.1, [], [], dc.2⟩
  rw [← imports] at linked
  exact congrArg (fun st : LinkState => (st.draft, st.checks)) linked

/-- Whether an import is reported when it is checked does not depend on any syntax. -/
lemma checkProblem?_withoutSyntax (d : Draft) (c : ImportCheck) :
    d.withoutSyntax.checkProblem? c.withoutSpan = (d.checkProblem? c).map (·.withoutSpan) := by
  unfold checkProblem?
  rw [fileOf_withoutSyntax, show d.withoutSyntax.mib = d.mib.withoutSpans from rfl,
    Mib.moduleName_withoutSpans]
  rw [show d.withoutSyntax.scope = d.scope from rfl,
    show c.withoutSpan.source = c.source from rfl, show c.withoutSpan.symbol = c.symbol from rfl]
  split <;> rfl

/-- Linking looks at no SYNTAX and at no place in the text. -/
theorem link_withoutSyntax (d : Draft) : d.withoutSyntax.link = d.link.withoutSyntax := by
  set linkedAll := d.modules.toList.foldl linkModule (d, [])
  have linked : (d.modules.map (·.withoutSyntax)).toList.foldl linkModule (d.withoutSyntax, []) =
      eraseLinked linkedAll := by
    rw [Array.toList_map]
    exact foldl_map_commutes eraseLinked RegisteredModule.withoutSyntax linkModule_eraseLinked
      d.modules.toList (d, [])
  have problems : (eraseLinked linkedAll).2.filterMap (eraseLinked linkedAll).1.checkProblem? =
      (linkedAll.2.filterMap linkedAll.1.checkProblem?).map (·.withoutSpan) := by
    rw [eraseLinked, List.filterMap_map, List.map_filterMap]
    exact List.filterMap_congr fun c _ => checkProblem?_withoutSyntax linkedAll.1 c
  have checked : (eraseLinked linkedAll).2.foldl checkImport (eraseLinked linkedAll).1 =
      (linkedAll.2.foldl checkImport linkedAll.1).withoutSyntax := by
    rw [foldl_checkImport, foldl_checkImport, problems, ← recordAll_withoutSyntax]
    rfl
  simp only [link, ← Array.foldl_toList]
  rw [← checked, ← linked]
  rfl

/-- Corpora that differ in SYNTAX alone are linked to drafts that do. -/
theorem linked_withoutSyntax (policy : Policy) {files files' : List ParsedFile}
    (same : files.map (·.withoutSyntax) = files'.map (·.withoutSyntax)) :
    (linked policy files).withoutSyntax = (linked policy files').withoutSyntax := by
  rw [linked, linked, ← link_withoutSyntax, ← link_withoutSyntax,
    registered_withoutSyntax policy same]

end Draft

end MibCorpus
