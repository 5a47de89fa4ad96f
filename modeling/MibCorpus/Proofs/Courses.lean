import MibCorpus.Proofs.Linking
import MibCorpus.Proofs.Lowering
import MibCorpus.Proofs.Writes

/-!
# Courses of registration, linking and lowering

The points of a phase follow its functions: a loop leads through the points of its rounds, and a
function through the points of what it calls and what it gives in the end. Registration, linking and
lowering decide nothing but which definitions are refused, so whatever draft they start from, they
are courses.
-/

namespace MibCorpus

namespace Draft

variable {d : Draft}

/-- The points at which problems are recorded one by one. -/
def recordPoints (d : Draft) (ps : List Problem) : List Draft :=
  trail (fun d p => [d.record p]) record ps d

/-- Recording problems goes through the points after each of them. -/
lemma course_recordAll (d : Draft) (ps : List Problem) :
    Course d (d.recordPoints ps) (d.recordAll ps) :=
  course_trail id ps d fun _ p => .single (.record p)

/-! ## Registration -/

/-- The points at which a definition is registered: it enters as pending, and is left out and
reported if its name is taken. -/
def definitionPoints (m : RegisteredModule) (o : Origin) (x : Definition) (d : Draft) :
    List Draft :=
  let entered := d.withAssignment m.id o x
  let registered := d.registerDefinition m o x
  match d.scope.lookup? m.id x.name with
  | none => [entered, registered]
  | some _ => [entered, entered.setState ⟨d.mib.assignments.size⟩ .excluded, registered]

/-- The points at which a module is accepted: it is announced, its definitions are registered, and
it is listed. -/
def acceptPoints (d : Draft) (name : StrId) (file : Option FileId) (source : Module) :
    List Draft :=
  let m := d.accepted file source
  let origin (x : Definition × Nat) : Origin := ⟨d.modules.size, x.2⟩
  let announced := d.announced name file source
  announced :: trail (fun d x => d.definitionPoints m (origin x) x.1)
    (fun d x => d.registerDefinition m (origin x) x.1) source.definitions.zipIdx announced ++
      [(d.acceptModule name file source).2]

/-- The points at which a module is registered. -/
def modulePoints (file : Option FileId) (dr : Draft × Recorder) (source : Module) : List Draft :=
  let (name, mib) := dr.1.mib.intern source.name
  let named := { dr.1 with mib }
  named :: match named.scope.module? source.name with
    | some existing => [named.refuseModule existing file source]
    | none => named.acceptPoints name file source

/-- The points at which a file is registered. -/
def filePoints (dr : Draft × Recorder) (file : ParsedFile) : List Draft :=
  let added : Draft := { dr.1 with mib := (dr.1.mib.addFile file.path).2 }
  match file.result with
  | .ok modules =>
    let f := some ⟨dr.1.mib.files.size⟩
    added :: trail (modulePoints f) (registerModule f) (byName modules) (added, dr.2)
  | .error _ => [added, (registerFile dr file).1]

/-- The points at which base modules are generated. -/
def basePoints (candidates : List BaseModule) (dr : Draft × Recorder) : List Draft :=
  let others := dr.1.notLacking candidates
  if others.length < candidates.length then
    let register := fun dr (b : BaseModule) => registerModule none dr b.source
    trail (fun dr b => modulePoints none dr b.source) register (dr.1.lacking candidates) dr ++
      basePoints others ((dr.1.lacking candidates).foldl register dr)
  else []
  termination_by candidates.length

/-- The points of registration. -/
def registrationPoints (d : Draft) (files : List ParsedFile) (r : Recorder) : List Draft :=
  trail filePoints registerFile files (d, r) ++
    if d.policy.baseModules then basePoints BaseModule.all (files.foldl registerFile (d, r)) else []

/-- Registering a definition goes through the points after its assignment, after it is listed or
refused, and after the report. -/
lemma course_registerDefinition (d : Draft) (m : RegisteredModule) (o : Origin) (x : Definition) :
    Course d (d.definitionPoints m o x) (d.registerDefinition m o x) := by
  have enter : d.Write (d.withAssignment m.id o x) := .enter m.id o x
  unfold definitionPoints
  cases h : d.scope.lookup? m.id x.name with
  | none =>
    have visible : (d.withAssignment m.id o x).mib.Undisturbed
        (d.registerDefinition m o x).mib := by
      rw [registerDefinition_free d m o x h]
      exact .of_eq rfl rfl rfl
    exact .cons enter (.aside visible)
  | some existing =>
    let i : AssignmentId := ⟨d.mib.assignments.size⟩
    have pending : (d.withAssignment m.id o x).Forward (fun _ => .excluded) i := by
      intro a ha
      have last : (d.withAssignment m.id o x).mib.assignment? i =
          some (x.entry i m.id (d.mib.intern x.name).1) :=
        Array.getElem?_push_size
      obtain rfl := Option.some.inj (last.symm.trans ha)
      exact .of_pending rfl _
    have reported : ∃ p, d.registerDefinition m o x =
        ((d.withAssignment m.id o x).setState i .excluded).record p :=
      ⟨_, by simp only [registerDefinition, Scope.define, h]; rfl⟩
    obtain ⟨p, e⟩ := reported
    rw [e]
    exact .cons enter (.cons (.restate _ i pending) (.single (.record p)))

/-- Accepting a module goes through those of its definitions. -/
lemma course_acceptModule (d : Draft) (name : StrId) (file : Option FileId) (source : Module) :
    Course d (d.acceptPoints name file source) (d.acceptModule name file source).2 := by
  have announced : d.mib.Undisturbed (d.announced name file source).mib := .of_eq rfl rfl rfl
  have defined := course_trail id source.definitions.zipIdx (d.announced name file source)
    fun t x => course_registerDefinition t (d.accepted file source) ⟨d.modules.size, x.2⟩ x.1
  exact .cons (.aside announced) (defined.concat (.aside (.of_eq rfl rfl rfl)))

/-- Registering a module goes through those of accepting or refusing it. -/
lemma course_registerModule (file : Option FileId) (dr : Draft × Recorder) (source : Module) :
    Course dr.1 (modulePoints file dr source) (registerModule file dr source).1 := by
  obtain ⟨d, r⟩ := dr
  refine .cons (.aside (.of_eq rfl rfl rfl)) ?_
  unfold registerModule
  cases h : d.scope.module? source.name with
  | some existing =>
    simp only [Mib.intern, h]
    exact .single (.record _)
  | none =>
    simp only [Mib.intern, h]
    exact course_acceptModule _ _ file source

/-- Registering a file goes through those of its modules. -/
lemma course_registerFile (dr : Draft × Recorder) (file : ParsedFile) :
    Course dr.1 (filePoints dr file) (registerFile dr file).1 := by
  obtain ⟨d, r⟩ := dr
  have added : d.mib.Undisturbed (d.mib.addFile file.path).2 := .of_eq rfl rfl rfl
  unfold filePoints registerFile
  cases file.result with
  | ok modules =>
    have registered := course_trail Prod.fst (byName modules)
      ({ d with mib := (d.mib.addFile file.path).2 }, r)
      (course_registerModule (some ⟨d.mib.files.size⟩))
    exact .cons (.aside added) registered
  | error failure => exact .cons (.aside added) (.single (.record _))

/-- Generating base modules goes through those of each module. -/
lemma course_generateLacking (candidates : List BaseModule) (dr : Draft × Recorder) :
    Course dr.1 (basePoints candidates dr) (generateLacking candidates dr).1 := by
  fun_induction generateLacking candidates dr with
  | case1 candidates dr others h ih =>
    rw [basePoints, if_pos h]
    have generated := course_trail Prod.fst (dr.1.lacking candidates) dr
      fun t b => course_registerModule none t b.source
    exact generated.append ih
  | case2 candidates dr others h =>
    rw [basePoints, if_neg h]
    exact .nil _

/-- Registration is a course. -/
lemma course_register (d : Draft) (files : List ParsedFile) (r : Recorder) :
    Course d (d.registrationPoints files r) (d.register files r).1 := by
  have registered := course_trail Prod.fst files (d, r) course_registerFile
  unfold registrationPoints register
  simp only
  split
  · exact registered.append (course_generateLacking _ _)
  · rw [List.append_nil]
    exact registered

/-! ## Linking -/

/-- The points at which an import is linked: what there is to report about it is recorded, and a new
one is bound. -/
def importPoints (m : RegisteredModule) (st : LinkState) (i : Import) : List Draft :=
  let linked := (linkImport m st i).draft
  if st.seen.contains (i.symbol, i.source) then [linked]
  else
    st.draft.recordPoints (newImportProblems st.draft.scope.module? m st.seen st.absent i) ++
      [linked]

/-- The points at which the imports of a module are linked. -/
def linkModulePoints (dc : Draft × List ImportCheck) (m : RegisteredModule) : List Draft :=
  trail (importPoints m) (linkImport m) (m.source.imports.filter (!·.isMacro)) ⟨dc.1, [], [], dc.2⟩

/-- The points of linking. -/
def linkPoints (d : Draft) : List Draft :=
  let dc := d.modules.toList.foldl linkModule (d, [])
  trail linkModulePoints linkModule d.modules.toList (d, []) ++
    trail (fun d c => d.recordPoints (d.checkProblem? c).toList) checkImport dc.2 dc.1

/-- Linking an import goes through the points after each report and after the binding. -/
lemma course_linkImport (m : RegisteredModule) (st : LinkState) (i : Import) :
    Course st.draft (importPoints m st i) (linkImport m st i).draft := by
  unfold importPoints
  by_cases seen : (i.symbol, i.source) ∈ st.seen
  · rw [if_pos (List.contains_iff_mem.2 seen), linkImport_seen m st i seen]
    exact .single (.record _)
  · rw [if_neg (mt List.contains_iff_mem.1 seen), linkImport_new m st i seen]
    exact (course_recordAll _ _).concat (.aside (.of_eq rfl rfl (problems_bindNewImport ..)))

/-- Linking a module goes through those of its imports. -/
lemma course_linkModule (dc : Draft × List ImportCheck) (m : RegisteredModule) :
    Course dc.1 (linkModulePoints dc m) (linkModule dc m).1 := by
  unfold linkModulePoints linkModule
  exact course_trail LinkState.draft _ ⟨dc.1, [], [], dc.2⟩ (course_linkImport m)

/-- Linking is a course. -/
lemma course_link (d : Draft) : Course d d.linkPoints d.link := by
  have linked := course_trail Prod.fst d.modules.toList (d, []) course_linkModule
  have checked := course_trail id (d.modules.toList.foldl linkModule (d, [])).2
    (d.modules.toList.foldl linkModule (d, [])).1 (f := checkImport) fun t c => by
      rw [checkImport_eq]
      exact course_recordAll t _
  rw [link, ← Array.foldl_toList]
  exact linked.append checked

end Draft

/-! ## Lowering -/

namespace Lowering

open Draft (Course trail)

variable {o : TypeOwner}

/-- The points at which a constraint is put on a node: the ranges that cannot hold are reported. -/
def constrainPoints (l : Lowering) (o : TypeOwner) (t : TypeId) (c : WrittenConstraint) :
    List Draft :=
  let defects := (writtenRanges c).filterMap
    (rangeDefect? (l.draft.mib.nameOf o.assignment) c.isSize)
  trail (fun d f => [d.reportAbout f o.assignment]) (·.reportAbout · o.assignment) defects
    l.draft ++ [(l.constrain o t c).draft]

mutual

/-- The points at which a SYNTAX is lowered. -/
def lowerPoints (o : TypeOwner) : TypeSyntax → Lowering → List Draft
  | .constrained base c, l =>
    lowerPoints o base l ++ (lower o base l).2.constrainPoints o (lower o base l).1 c
  | .sequence fields, l =>
    lowerFieldsPoints o fields l ++ [(lower o (.sequence fields) l).2.draft]
  | .sequenceOf element, l =>
    lowerPoints o element l ++ [(lower o (.sequenceOf element) l).2.draft]
  | .choice alternatives, l =>
    lowerFieldsPoints o alternatives l ++ [(lower o (.choice alternatives) l).2.draft]
  | .named name, l => [(lower o (.named name) l).2.draft]
  | .qualified module name, l => [(lower o (.qualified module name) l).2.draft]
  | .integer, l => [(lower o .integer l).2.draft]
  | .octetString, l => [(lower o .octetString l).2.draft]
  | .objectIdentifier, l => [(lower o .objectIdentifier l).2.draft]
  | .enumeration items, l => [(lower o (.enumeration items) l).2.draft]
  | .bits items, l => [(lower o (.bits items) l).2.draft]

/-- The points at which named fields are lowered. -/
def lowerFieldsPoints (o : TypeOwner) : List (String × TypeSyntax) → Lowering → List Draft
  | [], _ => []
  | (label, body) :: rest, l =>
    let named := ((lower o body l).2.intern label).2
    lowerPoints o body l ++ named.draft :: lowerFieldsPoints o rest named

end

/-- The points at which a definition is lowered. -/
def lowerDefinitionPoints (l : Lowering) (o : TypeOwner) (x : Definition) : List Draft :=
  match x.body? with
  | some body => lowerPoints o body l ++ [(l.lowerDefinition o x).draft]
  | none => []

/-- The points of lowering. -/
def lowerAllPoints (d : Draft) : List Draft :=
  trail (fun l (x : OwnedDefinition) => lowerDefinitionPoints l ⟨x.2.1, x.1⟩ x.2.2)
    (fun l x => l.lowerDefinition ⟨x.2.1, x.1⟩ x.2.2) d.included ⟨d, []⟩

/-- Interning disturbs nothing that a point shows. -/
lemma undisturbed_intern (l : Lowering) (s : String) :
    l.draft.mib.Undisturbed (l.intern s).2.draft.mib :=
  .of_eq rfl rfl rfl

/-- Neither does interning a text that may be missing. -/
lemma undisturbed_intern? (mib : Mib) (s? : Option String) :
    mib.Undisturbed (mib.intern? s?).2 := by
  cases s? <;> exact .of_eq rfl rfl rfl

/-- Adding a type node disturbs nothing, either. -/
lemma undisturbed_addNode (l : Lowering) (o : TypeOwner) (shape : TypeShape) :
    l.draft.mib.Undisturbed (l.addNode o shape).2.draft.mib :=
  Mib.undisturbed_addType ..

/-- Nor does adding a reference. -/
lemma undisturbed_addReference (l : Lowering) (o : TypeOwner) (qualifier : Option String)
    (symbol : String) :
    l.draft.mib.Undisturbed (l.addReference o qualifier symbol).2.draft.mib := by
  have named : l.draft.mib.Undisturbed (l.draft.mib.intern symbol).2 := .of_eq rfl rfl rfl
  exact (named.trans (undisturbed_intern? _ qualifier)).trans (Mib.undisturbed_addType ..)

/-- Nor does naming values. -/
lemma undisturbed_nameValues (l : Lowering) (items : List (String × Int)) :
    l.draft.mib.Undisturbed (l.nameValues items).2.draft.mib := by
  induction items generalizing l with
  | nil => exact .of_eq rfl rfl rfl
  | cons item items ih => exact (undisturbed_intern l item.1).trans (ih _)

/-- Named numbers are lowered to a builtin node and a node over it. -/
lemma undisturbed_enumeration (l : Lowering) (o : TypeOwner) (base : BuiltinType)
    (items : List (String × Int)) :
    let added := l.addNode o (.builtin base)
    let named := added.2.nameValues items
    l.draft.mib.Undisturbed (named.2.addNode o (.enumeration added.1 named.1)).2.draft.mib :=
  ((undisturbed_addNode ..).trans (undisturbed_nameValues ..)).trans (undisturbed_addNode ..)

/-- A constraint may be reported, and so many points are gone through. -/
lemma course_constrain (l : Lowering) (o : TypeOwner) (t : TypeId) (c : WrittenConstraint) :
    Course l.draft (l.constrainPoints o t c) (l.constrain o t c).draft := by
  have reported := Draft.course_trail id
    ((writtenRanges c).filterMap (rangeDefect? (l.draft.mib.nameOf o.assignment) c.isSize))
    l.draft (f := (·.reportAbout · o.assignment)) fun _ _ => .single (.record _)
  exact reported.concat (.aside (Mib.undisturbed_modifyType _ t fun _ => rfl))

mutual

/-- Lowering a SYNTAX goes through the points after the reports about its constraints. -/
lemma course_lower : ∀ (s : TypeSyntax) (l : Lowering),
    Course l.draft (lowerPoints o s l) (lower o s l).2.draft
  | .constrained base c, l => by
    rw [lowerPoints, lower]
    exact (course_lower base l).append (course_constrain _ o _ c)
  | .sequence fields, l | .choice fields, l => by
    rw [lowerPoints, lower]
    exact (course_lowerFields fields l).concat (.aside (undisturbed_addNode ..))
  | .sequenceOf element, l => by
    rw [lowerPoints, lower]
    exact (course_lower element l).concat (.aside (undisturbed_addNode ..))
  | .named name, l | .qualified module name, l => by
    rw [lowerPoints, lower]
    exact .aside (undisturbed_addReference ..)
  | .integer, l | .octetString, l | .objectIdentifier, l => by
    rw [lowerPoints, lower]
    exact .aside (undisturbed_addNode ..)
  | .enumeration items, l | .bits items, l => by
    rw [lowerPoints, lower]
    exact .aside (undisturbed_enumeration ..)

/-- So does lowering the fields of a SEQUENCE. -/
lemma course_lowerFields : ∀ (fields : List (String × TypeSyntax)) (l : Lowering),
    Course l.draft (lowerFieldsPoints o fields l) (lowerFields o fields l).2.draft
  | [], l => by
    rw [lowerFieldsPoints, lowerFields]
    exact .nil _
  | (label, body) :: rest, l => by
    rw [lowerFieldsPoints, lowerFields]
    exact (course_lower body l).append
      (.cons (.aside (undisturbed_intern ..)) (course_lowerFields rest _))

end

/-- Wrapping a type as a textual convention disturbs nothing. -/
lemma undisturbed_wrapConvention (l : Lowering) (o : TypeOwner) (base : TypeId)
    (hint? : Option String) (status : Status) :
    l.draft.mib.Undisturbed (l.wrapConvention o base hint? status).2.draft.mib :=
  (undisturbed_intern? l.draft.mib hint?).trans (Mib.undisturbed_addType ..)

/-- Naming a node after an assignment disturbs nothing. -/
lemma undisturbed_nameAfter (l : Lowering) (a : AssignmentId) (t : TypeId) :
    l.draft.mib.Undisturbed (l.nameAfter a t).draft.mib :=
  Mib.undisturbed_modifyType _ t fun _ => rfl

/-- Giving an assignment its type disturbs nothing. -/
lemma undisturbed_assignType (l : Lowering) (a : AssignmentId) (t : TypeId) :
    l.draft.mib.Undisturbed (l.assignType a t).draft.mib :=
  Mib.undisturbed_modifyAssignment _ a fun _ => rfl

/-- Lowering a definition goes through the points after the reports about its SYNTAX. -/
lemma course_lowerDefinition (l : Lowering) (o : TypeOwner) (x : Definition) :
    Course l.draft (l.lowerDefinitionPoints o x) (l.lowerDefinition o x).draft := by
  unfold lowerDefinitionPoints lowerDefinition Definition.body?
  cases x.clauses with
  | type body hint? status =>
    exact (course_lower body l).concat
      (.aside ((undisturbed_nameAfter ..).trans (undisturbed_assignType ..)))
  | textualConvention body hint? status =>
    have wrapped := undisturbed_wrapConvention (lower o body l).2 o (lower o body l).1 hint? status
    exact (course_lower body l).concat (.aside
      ((wrapped.trans (undisturbed_nameAfter ..)).trans (undisturbed_assignType ..)))
  | objectType body access status oid =>
    exact (course_lower body l).concat (.aside (undisturbed_assignType ..))
  | value | objectIdentity | moduleIdentity | notification => exact .nil _

/-- Lowering is a course. -/
lemma course_lowerAll (d : Draft) : Course d (lowerAllPoints d) (lowerAll d).draft :=
  Draft.course_trail draft d.included ⟨d, []⟩ fun l x => course_lowerDefinition l ⟨x.2.1, x.1⟩ x.2.2

end Lowering

end MibCorpus
