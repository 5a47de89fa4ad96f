import MibCorpus.Draft.Phases
import MibCorpus.Proofs.Binding
import MibCorpus.Proofs.Changes
import MibCorpus.Proofs.Finalization
import MibCorpus.Proofs.Linking
import MibCorpus.Proofs.Lowering
import MibCorpus.Proofs.OidEntries
import MibCorpus.Proofs.Sweep
import MibCorpus.Proofs.TypeStates

/-!
# Phases as runs of elementary changes

Every phase takes a closed draft to another by elementary changes, whatever was called before. So
does any sequence of calls, and what a new draft has and every step keeps holds after all of them.
-/

namespace MibCorpus

namespace Draft

variable {d d' : Draft}

/-! ## Problems -/

/-- A problem may be recorded if what it mentions is stored. -/
lemma steps_record {p : Problem} (held : Below d.mib.size p.idents) : d.Steps (d.record p) :=
  steps_edit (.record p held)

/-- Problems may be recorded one after another if what they mention is stored. -/
lemma steps_recordAll {ps : List Problem} (held : ∀ p ∈ ps, Below d.mib.size p.idents) :
    d.Steps (d.recordAll ps) := by
  apply steps_loop id ps d
  intro t s p hp
  exact steps_record (s.below (held p hp))

/-- A problem about no assignment refers to its place only. -/
lemma below_of_place {n : Arena → Nat} {p : Problem} (subject : p.subject = none)
    (other : p.other = none) (place : Below n p.location.idents) : Below n p.idents := by
  simp only [Problem.idents, subject, other, below_append, below_anyOf]
  exact ⟨⟨place, by simp⟩, by simp⟩

/-- The problem of a finding about an assignment refers to the assignment and where it stands. -/
lemma Closed.problemAbout (c : d.Closed) (f : Finding) {a : AssignmentId}
    (ha : a.index < d.mib.assignments.size) : Below d.mib.size (d.problemAbout f a).idents := by
  simp only [Draft.problemAbout, Problem.idents, below_append, below_anyOf]
  refine ⟨⟨c.locationOf a, ?_⟩, nofun⟩
  rintro _ ⟨⟩
  exact ha

/-! ## Registration -/

/-- A definition is registered in a module that is there already. -/
lemma size_modules_registerDefinition (d : Draft) (m : RegisteredModule) (o : Origin)
    (x : Definition) : (d.registerDefinition m o x).mib.modules.size = d.mib.modules.size := by
  have e := congrArg Array.size
    (map_modules_registerDefinition (f := ModuleEntry.id) (fun _ _ => rfl) d m o x)
  simpa only [Array.size_map] using e

section Registration

variable {file : Option FileId}

/-- A module is announced, its definitions are registered one by one, and it is listed. -/
lemma steps_acceptModule {name : StrId} {source : Module}
    (free : d.scope.module? source.name = none) (named : d.mib.findStr? source.name = some name)
    (held : Below d.mib.size (Ident.anyOf file)) :
    d.Steps (d.acceptModule name file source).2 := by
  have announced := (Step.announce name file source free named held).steps
  have size : (d.announced name file source).mib.modules.size = d.mib.modules.size + 1 := by
    simp [Draft.announced, Mib.addModule]
  have accepted : Below (d.announced name file source).mib.size (d.accepted file source).idents :=
    below_cons.2 ⟨by simp [Draft.accepted, size], announced.below held⟩
  -- The module stays the last one while its definitions are registered.
  have defined : (d.announced name file source).Steps (d.defined name file source) ∧
      (d.defined name file source).mib.modules.size = d.mib.modules.size + 1 := by
    apply steps_foldl id (P := fun e => e.mib.modules.size = d.mib.modules.size + 1) _ _ size
    intro t s last x _
    exact ⟨(Step.define _ _ x.1 last.symm (s.below accepted)).steps,
      (size_modules_registerDefinition ..).trans last⟩
  rw [acceptModule_eq]
  exact (announced.trans defined.1).trans (Step.list _ (defined.1.below accepted)).steps

/-- Registering a module goes from step to step, whether the module is accepted or refused. -/
lemma steps_registerModule (held : Below d.mib.size (Ident.anyOf file)) (r : Recorder)
    (source : Module) : d.Steps (registerModule file (d, r) source).1 := by
  have interned := steps_edit (d := d) (.intern source.name)
  refine interned.trans ?_
  unfold registerModule
  simp only
  split
  next existing _ =>
    refine steps_record (below_of_place rfl rfl ?_)
    simpa [Location.idents, Finding.toProblem, Problem.ofKind] using interned.below held
  next free => exact steps_acceptModule free (Strings.find?_intern _ _) (interned.below held)

/-- So does registering several modules of one file. -/
lemma steps_registerModules {α : Type} (held : Below d.mib.size (Ident.anyOf file))
    (source : α → Module) (xs : List α) (r : Recorder) :
    d.Steps (xs.foldl (fun dr x => registerModule file dr (source x)) (d, r)).1 := by
  apply steps_loop Prod.fst xs (d, r)
  intro t s x _
  exact steps_registerModule (s.below held) t.2 (source x)

/-- A file is stored before its modules are registered, or the failure of parsing it is reported. -/
lemma steps_registerFile (dr : Draft × Recorder) (f : ParsedFile) :
    dr.1.Steps (registerFile dr f).1 := by
  obtain ⟨d, r⟩ := dr
  have added := steps_edit (d := d) (.addFile f.path)
  have held : Below ({ d with mib := (d.mib.addFile f.path).2 } : Draft).mib.size
      (Ident.anyOf (some (d.mib.addFile f.path).1)) := by
    simp [Mib.addFile, Mib.intern]
  refine added.trans ?_
  unfold registerFile
  cases f.result with
  | ok modules => exact steps_registerModules held id (byName modules) r
  | error failure =>
    refine steps_record (below_of_place rfl rfl ?_)
    simpa [Location.idents, Finding.toProblem, Problem.ofKind, Location.inFile] using held

/-- Generating base modules is registering them without a file. -/
lemma steps_generateLacking (candidates : List BaseModule) (dr : Draft × Recorder) :
    dr.1.Steps (generateLacking candidates dr).1 := by
  fun_induction generateLacking candidates dr with
  | case1 candidates dr others h ih =>
    exact (steps_registerModules (by simp [Ident.anyOf]) BaseModule.source _ dr.2).trans ih
  | case2 => exact .refl _

/-- The registration phase goes from step to step. -/
lemma steps_register (d : Draft) (files : List ParsedFile) (r : Recorder) :
    d.Steps (d.register files r).1 := by
  have registered : d.Steps (files.foldl registerFile (d, r)).1 :=
    steps_loop Prod.fst files (d, r) fun t _ f _ => steps_registerFile t f
  unfold register
  simp only
  split
  · exact registered.trans (steps_generateLacking _ _)
  · exact registered

end Registration

/-! ## Linking -/

section Linking

variable {m : RegisteredModule}

/-- An import stands in the file and the module that it is written in. -/
lemma below_importLocation {n : Arena → Nat} (held : Below n m.idents) (i : Import) :
    Below n (importLocation m i).idents := by
  simp only [RegisteredModule.idents, below_cons] at held
  simp only [importLocation, Location.idents, Location.inModule, below_append]
  exact ⟨held.2, by simpa using held.1⟩

/-- What is reported about an import mentions nothing but its place. -/
lemma below_newImportProblems {n : Arena → Nat} (held : Below n m.idents)
    (source? : String → Option ModuleId) (seen : List (String × String)) (absent : List String)
    (i : Import) : ∀ p ∈ newImportProblems source? m seen absent i, Below n p.idents := by
  intro p hp
  rcases List.mem_append.1 hp with hp | hp
  · obtain ⟨other, -, rfl⟩ := Option.map_eq_some_iff.1 (Option.mem_toList.1 hp)
    exact below_of_place rfl rfl (below_importLocation held i)
  · split at hp
    next =>
      obtain rfl := List.mem_singleton.1 hp
      exact below_of_place rfl rfl (below_importLocation held i)
    next => cases hp

/-- Binding an import interns its names, lists it and makes it visible. -/
lemma Closed.steps_bindNewImport (c : d.Closed) (m : ModuleId) (i : Import) :
    d.Steps (d.bindNewImport m i) := by
  have symbol := steps_edit (d := d) (.intern i.symbol)
  have source := steps_edit (d := { d with mib := (d.mib.intern i.symbol).2 }) (.intern i.source)
  have named := symbol.trans source
  have listed := steps_edit
    (d := { d with mib := ((d.mib.intern i.symbol).2.intern i.source).2 })
    (.addImport m ⟨(d.mib.intern i.symbol).1, ((d.mib.intern i.symbol).2.intern i.source).1,
      d.scope.module? i.source, i.span⟩ ?_)
  · exact (named.trans listed).trans (Step.bindImport m i.symbol (d.scope.module? i.source)).steps
  · simp only [ImportEntry.idents, below_cons, below_anyOf]
    refine ⟨?_, Mib.intern_lt _ i.source, fun s hs => ?_⟩
    · exact Nat.lt_of_lt_of_le (d.mib.intern_lt i.symbol) (source.grows .strings)
    · exact Nat.lt_of_lt_of_le (c.module? hs) (named.grows .modules)

/-- Linking an import records problems, a binding and an entry, all about what is stored. -/
lemma Closed.steps_linkImport {st : LinkState} (c : st.draft.Closed)
    (held : Below st.draft.mib.size m.idents) (i : Import) :
    st.draft.Steps (linkImport m st i).draft := by
  by_cases seen : (i.symbol, i.source) ∈ st.seen
  · rw [linkImport_seen m st i seen]
    exact steps_record (below_of_place rfl rfl (below_importLocation held i))
  · rw [linkImport_new m st i seen]
    have recorded := steps_recordAll
      (below_newImportProblems held st.draft.scope.module? st.seen st.absent i)
    exact recorded.trans ((recorded.closed c).steps_bindNewImport m.id i)

/-- What is checked is an import of one of the modules. -/
lemma exists_source_of_check {ms : List RegisteredModule} {check : ImportCheck}
    (h : check ∈ (ms.foldl linkModule (d, [])).2) : ∃ m ∈ ms, check.module = m.id := by
  rw [(linksModules ms (d, [])).checks, List.nil_append] at h
  obtain ⟨m, hm, h⟩ := List.mem_flatMap.1 h
  obtain ⟨i, -, h⟩ := List.mem_filterMap.1 h
  obtain ⟨s, -, rfl⟩ := Option.map_eq_some_iff.1 h
  exact ⟨m, hm, rfl⟩

/-- The modules are linked one by one, and the checks report from those modules. -/
lemma Closed.steps_link (c : d.Closed) : d.Steps d.link := by
  have linked : d.Steps (d.modules.toList.foldl linkModule (d, [])).1 := by
    apply steps_loop Prod.fst _ (d, [])
    intro t s m hm
    have held := c.sources m (Array.mem_toList_iff.1 hm)
    apply steps_loop LinkState.draft _ ⟨t.1, [], [], t.2⟩
    intro st s' i _
    have all := s.trans s'
    exact (all.closed c).steps_linkImport (all.below held) i
  have closed := linked.closed c
  rw [link, ← Array.foldl_toList]
  simp only
  rw [foldl_checkImport]
  refine linked.trans (steps_recordAll fun p hp => ?_)
  obtain ⟨check, hc, hp⟩ := List.mem_filterMap.1 hp
  obtain ⟨m, hm, module⟩ := exists_source_of_check hc
  have held := linked.below (c.sources m (Array.mem_toList_iff.1 hm))
  simp only [RegisteredModule.idents, below_cons, ← module] at held
  unfold checkProblem? at hp
  split at hp
  next =>
    cases hp
    exact below_of_place rfl rfl (closed.inModule held.1 check.span)
  next => cases hp

end Linking

/-! ## Typing -/

section Typing

variable {mib : Mib}

/-- Besides its type an assignment stores only what its heading has. -/
lemma below_of_heading {n : Arena → Nat} {a a' : Assignment} (same : a'.heading = a.heading)
    (old : Below n a.idents) (typed : ∀ t, a'.type = some t → t.index < n .types) :
    Below n a'.idents := by
  have id := congrArg Assignment.id same
  have module := congrArg Assignment.module same
  have name := congrArg Assignment.name same
  simp only [Assignment.heading] at id module name
  simp only [Assignment.idents, below_cons, below_anyOf] at old ⊢
  exact ⟨id ▸ old.1, module ▸ old.2.1, name ▸ old.2.2.1, typed⟩

/-- An assignment may be changed but for its heading, if its type is stored. -/
lemma edit_modifyAssignment (c : mib.Closed) (i : AssignmentId) {f : Assignment → Assignment}
    (kept : ∀ a, (f a).heading = a.heading)
    (typed : ∀ a t, mib.assignment? i = some a → (f a).type = some t → t.index < mib.types.size) :
    mib.Edit (mib.modifyAssignment i f) := by
  apply Mib.Edit.reassign
  · exact map_modify_of_keeps _ _ kept
  · apply forall_mem_modify c.assignments
    intro a ha below
    exact below_of_heading (kept a) below fun t => typed a t ha

/-- Assignments may change in all but their headings and types. -/
lemma edit_mapAssignments (c : mib.Closed) {f : Assignment → Assignment}
    (kept : ∀ a, (f a).heading = a.heading) (typed : ∀ a, (f a).type = a.type) :
    mib.Edit { mib with assignments := mib.assignments.map f } := by
  apply Mib.Edit.reassign
  · simp [Function.comp_def, kept]
  · intro a' ha'
    obtain ⟨a, ha, rfl⟩ := Array.mem_map.1 ha'
    have old := c.assignments a ha
    refine below_of_heading (kept a) old fun t ht => ?_
    rw [typed] at ht
    simp only [Assignment.idents, below_cons, below_anyOf] at old
    exact old.2.2.2 t ht

/-- A type node may be changed but for its place, if all that it mentions is stored. -/
lemma edit_modifyType (c : mib.Closed) (t : TypeId) {f : TypeNode → TypeNode}
    (kept : ∀ n, ((f n).id, (f n).module) = (n.id, n.module))
    (held : ∀ n, Below mib.size n.idents → Below mib.size (f n).idents) :
    mib.Edit (mib.modifyType t f) := by
  apply Mib.Edit.retype
  · exact map_modify_of_keeps _ _ kept
  · exact forall_mem_modify c.types fun n _ => held n

end Typing

end Draft

namespace Lowering

/-- The owner of a SYNTAX is an assignment of a closed draft, and its module is there. -/
structure Owned (o : TypeOwner) (l : Lowering) : Prop where
  closed : l.draft.Closed
  module : o.module.index < l.draft.mib.modules.size
  assignment : o.assignment.index < l.draft.mib.assignments.size

/-- Lowering what belongs to `o` is a run of steps and yields identifiers with entries; the
references noted on the way are those of `o`. -/
structure Yields (o : TypeOwner) (l : Lowering) (is : List AnyIdent) (l' : Lowering) : Prop where
  steps : l.draft.Steps l'.draft
  held : Below l'.draft.mib.size is
  references : ∀ r ∈ l'.references, r ∈ l.references ∨ r.referrer = o.assignment

variable {o : TypeOwner} {l l' l'' : Lowering} {is js : List AnyIdent}

/-- The owner of a SYNTAX stays stored while nodes are added for it. -/
lemma Owned.of_steps (h : Owned o l) (s : l.draft.Steps l'.draft) : Owned o l' where
  closed := s.closed h.closed
  module := Nat.lt_of_lt_of_le h.module (s.grows .modules)
  assignment := Nat.lt_of_lt_of_le h.assignment (s.grows .assignments)

/-- Steps of lowering yield their identifiers in a row. -/
lemma Yields.trans (h : Yields o l is l') (h' : Yields o l' js l'') :
    Yields o l (is ++ js) l'' where
  steps := h.steps.trans h'.steps
  held := below_append.2 ⟨h'.steps.below h.held, h'.held⟩
  references r hr := by
    cases h'.references r hr with
    | inl hr => exact h.references r hr
    | inr hr => exact .inr hr

/-- Interning yields the identifier of the string. -/
lemma yields_intern (o : TypeOwner) (l : Lowering) (s : String) :
    Yields o l [(l.intern s).1.any] (l.intern s).2 where
  steps := Draft.steps_edit (.intern s)
  held := below_cons.2 ⟨Mib.intern_lt l.draft.mib s, below_nil⟩
  references _ hr := .inl hr

/-- Adding a node yields the identifier of the node. -/
lemma Owned.yields_addNode (h : Owned o l) (shape : TypeShape)
    (held : Below l.draft.mib.size shape.idents) :
    Yields o l [(l.addNode o shape).1.any] (l.addNode o shape).2 where
  steps := Draft.steps_edit (.addType o.module shape h.module held)
  held := by simp [addNode, Mib.addType, Mib.modifyModule]
  references _ hr := .inl hr

/-- Interning a text that may be missing yields an identifier if there is one. -/
lemma yields_intern? (o : TypeOwner) (l : Lowering) (s? : Option String) :
    Yields o l (Ident.anyOf (l.draft.mib.intern? s?).1)
      { l with draft := { l.draft with mib := (l.draft.mib.intern? s?).2 } } := by
  cases s? with
  | none => exact ⟨.refl _, below_anyOf.2 nofun, fun _ => .inl⟩
  | some s =>
    refine ⟨Draft.steps_edit (.intern s), below_anyOf.2 ?_, fun _ => .inl⟩
    rintro _ ⟨⟩
    exact Mib.intern_lt l.draft.mib s

/-- Adding a reference yields the identifier of its node. -/
lemma Owned.yields_addReference (h : Owned o l) (qualifier : Option String) (symbol : String) :
    Yields o l [(l.addReference o qualifier symbol).1.any]
      (l.addReference o qualifier symbol).2 := by
  have named := (yields_intern o l symbol).trans (yields_intern? o (l.intern symbol).2 qualifier)
  have added := (h.of_steps named.steps).yields_addNode (.reference (l.intern symbol).1
    ((l.intern symbol).2.draft.mib.intern? qualifier).1 none none) ?_
  · refine ⟨named.steps.trans added.steps, added.held, fun r hr => ?_⟩
    rcases List.mem_append.1 hr with hr | hr
    · exact .inl hr
    · rw [List.mem_singleton.1 hr]
      exact .inr rfl
  · simpa [TypeShape.idents] using named.held

/-- Naming values yields the identifiers of their labels. -/
lemma yields_nameValues (o : TypeOwner) (l : Lowering) (items : List (String × Int)) :
    Yields o l ((l.nameValues items).1.map (·.name.any)) (l.nameValues items).2 := by
  induction items generalizing l with
  | nil => exact ⟨.refl _, below_nil, fun _ hr => .inl hr⟩
  | cons item items ih => exact (yields_intern o l item.1).trans (ih _)

/-- A constraint is put on a node behind the problems of its ranges. -/
lemma Owned.yields_constrain (h : Owned o l) (t : TypeId) (c : WrittenConstraint) :
    Yields o l [] (l.constrain o t c) := by
  unfold constrain
  simp only [foldl_reportAbout]
  generalize (writtenRanges c).filterMap _ = defects
  have reported : l.draft.Steps
      (l.draft.recordAll (defects.map (l.draft.problemAbout · o.assignment))) := by
    refine Draft.steps_recordAll fun p hp => ?_
    obtain ⟨f, -, rfl⟩ := List.mem_map.1 hp
    exact h.closed.problemAbout f h.assignment
  have closed := reported.closed h.closed
  refine ⟨reported.trans (Draft.steps_edit (Draft.edit_modifyType closed.mib t ?_ ?_)), below_nil,
    fun _ => .inl⟩
  · exact fun _ => rfl
  · exact fun _ old => old

/-- Naming a node after an assignment yields nothing new. -/
lemma Owned.yields_nameAfter (h : Owned o l) (a : AssignmentId) (t : TypeId) :
    Yields o l [] (l.nameAfter a t) := by
  refine ⟨Draft.steps_edit (Draft.edit_modifyType h.closed.mib t ?_ ?_), below_nil,
    fun _ => .inl⟩
  · exact fun _ => rfl
  · intro n old
    simp only [TypeNode.idents, below_append, below_cons, below_anyOf] at old ⊢
    refine ⟨⟨old.1.1, old.1.2.1, fun name hname => ?_⟩, old.2⟩
    obtain ⟨entry, ha, rfl⟩ := Option.map_eq_some_iff.1 hname
    have named := h.closed.assignment ha
    simp only [Assignment.idents, below_cons] at named
    exact named.2.2.1

/-! ### Syntax -/

/-- A node may be added whose shape mentions only what was yielded before. -/
lemma Yields.addNode (y : Yields o l is l') (h : Owned o l) (shape : TypeShape)
    (parts : shape.idents ⊆ is) :
    Yields o l [(l'.addNode o shape).1.any] (l'.addNode o shape).2 := by
  have added := (h.of_steps y.steps).yields_addNode shape (y.held.subset parts)
  have both := y.trans added
  exact ⟨both.steps, added.held, both.references⟩

/-- An enumeration is lowered to a base and a node that refines it by labels. -/
lemma Owned.yields_enumeration (h : Owned o l) (type : BuiltinType) (items : List (String × Int)) :
    let base := l.addNode o (.builtin type)
    let named := base.2.nameValues items
    Yields o l [(named.2.addNode o (.enumeration base.1 named.1)).1.any]
      (named.2.addNode o (.enumeration base.1 named.1)).2 := by
  intro base named
  have below := h.yields_addNode (.builtin type) below_nil
  exact (below.trans (yields_nameValues o base.2 items)).addNode h _ (List.Subset.refl _)

mutual

/-- Lowering a SYNTAX yields the identifier of its top node. -/
lemma Owned.yields_lower : ∀ (s : TypeSyntax) {l : Lowering}, Owned o l →
    Yields o l [(lower o s l).1.any] (lower o s l).2
  | .named name, _, h => h.yields_addReference none name
  | .qualified module name, _, h => h.yields_addReference (some module) name
  | .integer, _, h | .octetString, _, h | .objectIdentifier, _, h => h.yields_addNode _ below_nil
  | .enumeration items, _, h => h.yields_enumeration .integer items
  | .bits items, _, h => h.yields_enumeration .bits _
  | .constrained base c, l, h => by
    have below := yields_lower base h
    have constrained := (h.of_steps below.steps).yields_constrain (lower o base l).1 c
    simpa only [lower, List.append_nil] using below.trans constrained
  | .sequence fields, _, h | .choice fields, _, h =>
    (yields_lowerFields fields h).addNode h _ (List.Subset.refl _)
  | .sequenceOf element, _, h => (yields_lower element h).addNode h _ (List.Subset.refl _)

/-- Lowering the fields of a SEQUENCE yields the identifiers of their labels and nodes. -/
lemma Owned.yields_lowerFields : ∀ (fields : List (String × TypeSyntax)) {l : Lowering},
    Owned o l → Yields o l (Field.identsOf (lowerFields o fields l).1) (lowerFields o fields l).2
  | [], _, _ => ⟨.refl _, below_nil, fun _ => .inl⟩
  | (label, body) :: rest, l, h => by
    have type := yields_lower body h
    have both := type.trans (yields_intern o (lower o body l).2 label)
    have all := both.trans (yields_lowerFields rest (h.of_steps both.steps))
    refine ⟨all.steps, all.held.subset ?_, all.references⟩
    simp [lowerFields, Field.identsOf]

end

/-! ### Definitions -/

/-- The top node may be named after the assignment that it belongs to. -/
lemma Yields.nameAfter {t : TypeId} (y : Yields o l [t.any] l') (h : Owned o l) :
    Yields o l [t.any] (l'.nameAfter o.assignment t) := by
  simpa only [List.append_nil] using
    y.trans ((h.of_steps y.steps).yields_nameAfter o.assignment t)

/-- The SYNTAX of a definition is lowered to a node, if there is one. -/
lemma Owned.yields_lowerBody (h : Owned o l) (x : Definition) :
    Yields o l (Ident.anyOf (l.lowerBody o x).1) (l.lowerBody o x).2 := by
  unfold lowerBody
  cases x.clauses with
  | type body _ _ => exact (h.yields_lower body).nameAfter h
  | textualConvention body hint? status =>
    have both := (h.yields_lower body).trans (yields_intern? o (lower o body l).2 hint?)
    exact (both.addNode h (.textualConvention _ _ status) (List.Subset.refl _)).nameAfter h
  | objectType body _ _ _ => exact h.yields_lower body
  | _ => exact ⟨.refl _, below_nil, fun _ => .inl⟩

/-- The node becomes the type of the assignment. -/
lemma Owned.yields_lowerDefinition (h : Owned o l) (x : Definition) :
    Yields o l [] (l.lowerDefinition o x) := by
  have body := h.yields_lowerBody x
  rw [lowerDefinition_eq]
  cases ht : (l.lowerBody o x).1 with
  | none => exact ⟨body.steps, below_nil, body.references⟩
  | some t =>
    have closed := body.steps.closed h.closed
    have held := body.held
    rw [ht, below_anyOf] at held
    have assigned := Draft.edit_modifyAssignment closed.mib o.assignment
      (f := fun entry => { entry with type := some t }) (fun _ => rfl) fun _ u _ hu => held u hu
    exact ⟨body.steps.trans (Draft.steps_edit assigned), below_nil, body.references⟩

end Lowering

namespace Draft

variable {d d' : Draft}

/-- The definitions of a closed draft stand behind its assignments. -/
lemma Closed.owned (c : d.Closed) {x : AssignmentId × ModuleId × Definition}
    (hx : x ∈ d.definitions) : Lowering.Owned ⟨x.2.1, x.1⟩ ⟨d, []⟩ where
  closed := c
  module := by
    obtain ⟨o, -, written⟩ := Option.bind_eq_some_iff.1 (mem_definitions.1 hx)
    obtain ⟨m, hm, at_o⟩ := Option.bind_eq_some_iff.1 written
    obtain ⟨y, -, e⟩ := Option.map_eq_some_iff.1 at_o
    have held := c.sources m (Array.mem_of_getElem? hm)
    simp only [RegisteredModule.idents, below_cons] at held
    exact e ▸ held.1
  assignment := by
    obtain ⟨o, ho, -⟩ := Option.bind_eq_some_iff.1 (mem_definitions.1 hx)
    obtain ⟨lt, -⟩ := Array.getElem?_eq_some_iff.1 ho
    exact Nat.lt_of_lt_of_le lt c.numbered

/-- The definitions are lowered one by one, and every reference is noted for one of them. -/
lemma Closed.steps_lowerAll (c : d.Closed) :
    d.Steps (Lowering.lowerAll d).draft ∧ ∀ r ∈ (Lowering.lowerAll d).references,
      r.referrer.index < d.mib.assignments.size := by
  apply steps_foldl Lowering.draft
    (P := fun l => ∀ r ∈ l.references, r.referrer.index < d.mib.assignments.size) _ ⟨d, []⟩ nofun
  intro l s old x hx
  have owned := c.owned (List.mem_of_mem_filter hx)
  have later : Lowering.Owned ⟨x.2.1, x.1⟩ l := owned.of_steps s
  have lowered := later.yields_lowerDefinition x.2.2
  refine ⟨lowered.steps, fun r hr => ?_⟩
  rcases lowered.references r hr with hr | hr
  · exact old r hr
  · rw [hr]
    exact owned.assignment

/-! ### References -/

/-- What a reference is bound to has an entry, and so has its module. -/
lemma Closed.targetOf? (c : d.Closed) {r : PendingReference} {target : TypeTarget}
    (h : d.targetOf? r = some target) :
    target.node.index < d.mib.types.size ∧ target.module.index < d.mib.modules.size := by
  obtain ⟨a, ha, h⟩ := Option.bind_eq_some_iff.1 h
  obtain ⟨i, -, ha⟩ := Option.bind_eq_some_iff.1 ha
  have below := c.assignment ha
  simp only [Assignment.idents, below_cons, below_anyOf] at below
  unfold definedType? at h
  split at h
  next =>
    obtain ⟨t, ht, rfl⟩ := Option.map_eq_some_iff.1 h
    exact ⟨below.2.2.2 t ht, below.2.1⟩
  next => cases h

/-- A reference may be bound to what it named at an earlier point. -/
lemma Closed.steps_bindReference (c : d.Closed) {r : PendingReference} {target : TypeTarget}
    (named : d.targetOf? r = some target) (s : d.Steps d') :
    d'.Steps (d'.bindReference r target) := by
  obtain ⟨node, module⟩ := c.targetOf? named
  have closed := s.closed c
  refine steps_edit (edit_modifyType closed.mib r.node ?_ ?_)
  · intro n
    split <;> rfl
  · intro n old
    split
    next symbol qualifier _ _ shape =>
      simp only [TypeNode.idents, shape, TypeShape.idents, below_append, below_cons] at old ⊢
      refine ⟨old.1, ⟨old.2.1.1, ?_⟩, ?_⟩
      · rw [below_anyOf]
        rintro _ ⟨⟩
        exact Nat.lt_of_lt_of_le node (s.grows .types)
      · rw [below_anyOf]
        intro m hm
        split at hm
        next => cases hm
        next =>
          cases hm
          exact Nat.lt_of_lt_of_le module (s.grows .modules)
    next => exact old

/-- A loop of sweeps is a run of steps if what is decided of a draft may be carried out on any draft
that steps lead to. Nothing new becomes pending. -/
lemma Closed.steps_run {α β : Type} (rule : SweepRule α β) (c : d.Closed)
    (decided : ∀ {e e' : Draft} {x : α} {y : β}, e.Closed → rule.decide? e x = some y →
      e.Steps e' → e'.Steps (rule.apply e' x y))
    (pass : Nat) (xs : List α) (r : Recorder) :
    d.Steps (rule.run pass xs d r).2.1 ∧ (rule.run pass xs d r).1 ⊆ xs := by
  apply rule.run_invariant (P := fun ys e => d.Steps e ∧ ys ⊆ xs) _ pass r
  · exact ⟨.refl d, List.Subset.refl xs⟩
  · rintro ys e ⟨s, sub⟩
    -- What is decided is read off the draft before the sweep and carried out on later ones.
    have swept : e.Steps (rule.sweep e ys) := by
      apply steps_loop id _ e
      intro e' s' x hx
      exact decided (s.closed c) (rule.mem_decided.1 hx).2 s'
    exact ⟨s.trans swept, fun y hy => sub (List.mem_of_mem_filter hy)⟩

/-- Settling what the sweeps leave over reports problems about stored assignments and binds stored
types. -/
lemma Closed.steps_settleLeftReferences (c : d.Closed) {pending : List PendingReference}
    (held : ∀ p ∈ pending, p.referrer.index < d.mib.assignments.size) (r : Recorder) :
    d.Steps (settleLeftReferences pending d r).1 := by
  apply steps_loop Prod.fst _ (d, r)
  intro e s x hx
  obtain ⟨p, hp, rfl⟩ := List.mem_map.1 hx
  unfold settleReference
  cases hv : d.judgeReference pending p with
  | ok target =>
    exact c.steps_bindReference (targetOf?_of_judgeReference hv) s
  | error finding =>
    exact steps_record ((s.closed c).problemAbout finding
      (Nat.lt_of_lt_of_le (held p hp) (s.grows .assignments)))

/-- Settling the states of types changes nothing else about the nodes. -/
lemma Closed.steps_settleTypes (c : d.Closed) : d.Steps d.settleTypes := by
  have settled := TypeStates.getElem?_settle d.mib.types
  apply steps_edit
  apply Mib.Edit.retype
  · apply Array.ext_getElem?
    intro i
    rw [Array.getElem?_map, settled, Array.getElem?_map, Option.map_map]
    rfl
  · intro t ht
    obtain ⟨i, hi⟩ := Array.mem_iff_getElem?.1 ht
    rw [settled] at hi
    obtain ⟨n, hn, rfl⟩ := Option.map_eq_some_iff.1 hi
    exact c.mib.types n (Array.mem_of_getElem? hn)

/-- Assignments take states from their types. -/
lemma Closed.steps_settleTypeAssignments (c : d.Closed) : d.Steps d.settleTypeAssignments := by
  refine steps_edit (edit_mapAssignments c.mib ?_ ?_) <;>
  · intro a
    split <;> rfl

/-- The typing phase goes from step to step. -/
lemma Closed.steps_resolveTypes (c : d.Closed) (r : Recorder) : d.Steps (d.resolveTypes r).1 := by
  obtain ⟨lowered, referrers⟩ := c.steps_lowerAll
  obtain ⟨swept, left⟩ := (lowered.closed c).steps_run referenceRule
    (fun ce hy s => ce.steps_bindReference (Option.filter_eq_some_iff.1 hy).1 s)
    0 (Lowering.lowerAll d).references r
  have both := lowered.trans swept
  have bound := both.trans ((both.closed c).steps_settleLeftReferences
    (fun p hp => Nat.lt_of_lt_of_le (referrers p (left hp)) (both.grows .assignments))
    (referenceRule.run 0 (Lowering.lowerAll d).references (Lowering.lowerAll d).draft r).2.2)
  have settled := bound.trans (bound.closed c).steps_settleTypes
  exact settled.trans (settled.closed c).steps_settleTypeAssignments

/-! ## OIDs -/

/-- An assignment may be changed but for its heading and its type. -/
lemma Closed.steps_modifyAssignment (c : d.Closed) (a : AssignmentId) {f : Assignment → Assignment}
    (kept : ∀ x, (f x).heading = x.heading) (typed : ∀ x, (f x).type = x.type) :
    d.Steps { d with mib := d.mib.modifyAssignment a f } := by
  refine steps_edit (edit_modifyAssignment c.mib a kept fun x t hx ht => ?_)
  have old := c.assignment hx
  simp only [Assignment.idents, below_cons, below_anyOf] at old
  exact old.2.2.2 t (typed x ▸ ht)

/-- Something about an assignment is reported, and its state is decided. -/
lemma Closed.steps_conclude (c : d.Closed) (f : Finding) {a : AssignmentId}
    (ha : a.index < d.mib.assignments.size) (s : ResolutionState) :
    d.Steps ((d.reportAbout f a).setState a s) := by
  have reported := steps_record (c.problemAbout f ha)
  exact reported.trans ((reported.closed c).steps_modifyAssignment a (fun _ => rfl) fun _ => rfl)

/-- Reporting something about each of some assignments and setting its state goes from step to
step. -/
lemma Closed.steps_concludeAll {α : Type} (c : d.Closed) (finding : Draft → α → Finding)
    (subject : α → AssignmentId) (state : α → ResolutionState) {xs : List α}
    (held : ∀ x ∈ xs, (subject x).index < d.mib.assignments.size) :
    d.Steps (xs.foldl (fun e x => (e.reportAbout (finding e x) (subject x)).setState
      (subject x) (state x)) d) := by
  apply steps_loop id _ d
  intro e s x hx
  exact (s.closed c).steps_conclude _ (Nat.lt_of_lt_of_le (held x hx) (s.grows .assignments)) _

/-- OID values are written for stored assignments. -/
lemma Closed.lt_of_mem_writtenOids (c : d.Closed) {x : AssignmentId × ModuleId × String ×
    List OidComponent} (hx : x ∈ d.writtenOids) : x.1.index < d.mib.assignments.size := by
  obtain ⟨-, y, hy, -⟩ := mem_writtenOids.1 hx
  exact (c.owned (mem_definitions (x := (x.1, x.2.1, y)).2 hy)).assignment

/-- Assignments with a type are degraded by its state. -/
lemma Closed.steps_settleObjects (c : d.Closed) : d.Steps d.settleObjects := by
  refine steps_edit (edit_mapAssignments c.mib ?_ ?_) <;>
  · intro a
    unfold degradeByType
    grind [Assignment.heading]

/-- The phase of OID values goes from step to step. -/
lemma Closed.steps_resolveOids (c : d.Closed) (r : Recorder) : d.Steps (d.resolveOids r).1 := by
  have reported : d.Steps d.reportOidDefects := by
    refine c.steps_concludeAll (fun _ (x : AssignmentId × Finding) => x.2) Prod.fst
      (fun _ => .unresolved) ?_
    rintro ⟨a, f⟩ hx
    obtain ⟨m, name, cs, -, hx, -⟩ := mem_oidDefects.1 hx
    exact c.lt_of_mem_writtenOids hx
  obtain ⟨swept, left⟩ := (reported.closed c).steps_run oidRule
    (fun ce _ s => (s.closed ce).steps_modifyAssignment _ (fun _ => rfl) fun _ => rfl)
    0 d.oidEntries r
  have both := reported.trans swept
  have concluded : d.Steps (settleLeftOids (oidRule.run 0 d.oidEntries d.reportOidDefects r).1
      (oidRule.run 0 d.oidEntries d.reportOidDefects r).2.1) := by
    refine both.trans ((both.closed c).steps_concludeAll
      (fun e (x : OidEntry × OidFailure) => e.failureFinding x.1 x.2) (fun x => x.1.assignment)
      (fun x => x.2.state) ?_)
    intro x hx
    obtain ⟨e, he, rfl⟩ := List.mem_map.1 hx
    obtain ⟨name, cs, he, -⟩ := mem_oidEntries.1 (left he)
    exact Nat.lt_of_lt_of_le (c.lt_of_mem_writtenOids he) (both.grows .assignments)
  exact concluded.trans (concluded.closed c).steps_settleObjects

end Draft

/-! ## The tree -/

namespace TreeBuilder

/-- The nodes that a builder has noted stand below the nodes, and by the arcs, that they are noted
for. -/
def Tracks (b : TreeBuilder) : Prop :=
  ∀ p a i, b.nodes.find? (p, a) = some i →
    ∃ n, b.mib.node? i = some n ∧ n.parent = p ∧ n.arc = a

variable {b : TreeBuilder} {d : Draft}

/-- A node is found below its parent or added there. -/
lemma Tracks.ensure (t : b.Tracks) {parent : Option NodeId} {path : Oid} (arc : Arc)
    (above : b.mib.Path parent path) :
    let out := b.ensure (path.child arc) arc parent
    ({ d with mib := b.mib } : Draft).Steps { d with mib := out.2.mib } ∧ out.2.Tracks ∧
      out.2.mib.Path (some out.1) (path.child arc) := by
  intro out
  cases hf : b.nodes.find? (parent, arc) with
  | some i =>
    obtain ⟨n, hn, rfl, rfl⟩ := t parent arc i hf
    have same : out = (i, b) := by simp only [out, TreeBuilder.ensure, hf]
    rw [same]
    exact ⟨.refl _, t, .child hn above⟩
  | none =>
    have same : out = ((b.mib.addNode (path.child arc) arc parent).1,
        ⟨(b.mib.addNode (path.child arc) arc parent).2,
          b.nodes.insert (parent, arc) (b.mib.addNode (path.child arc) arc parent).1⟩) := by
      simp only [out, TreeBuilder.ensure, hf]
    -- The new node is found at the new key, and the others are found where they were.
    have added := Draft.Step.edit (d := { d with mib := b.mib }) (.addNode arc above)
    obtain ⟨n, hn, at_arc, at_parent⟩ := Mib.node?_addNode b.mib (path.child arc) arc parent
    rw [same]
    refine ⟨added.steps, ?_, ?_⟩
    · intro p a i hi
      rw [Table.find?_insert] at hi
      split at hi
      next key =>
        cases key
        cases hi
        exact ⟨n, hn, at_parent, at_arc⟩
      next =>
        obtain ⟨m, hm, rfl, rfl⟩ := t p a i hi
        obtain ⟨m', hm', same⟩ := added.node? hm
        exact ⟨m', hm', (congrArg OidNode.parent same :), (congrArg OidNode.arc same :)⟩
    · have still : (b.mib.addNode (path.child arc) arc parent).2.Path n.parent path := by
        rw [at_parent]
        exact added.path above
      rw [← at_arc] at hn still ⊢
      exact .child hn still

/-- All nodes on the way down are found or added. -/
lemma Tracks.descend (arcs : List Arc) {b : TreeBuilder} (t : b.Tracks) {parent : Option NodeId}
    {path : Oid} (above : b.mib.Path parent path) :
    let out := b.descend path parent arcs
    ({ d with mib := b.mib } : Draft).Steps { d with mib := out.2.mib } ∧ out.2.Tracks := by
  induction arcs generalizing b parent path with
  | nil => exact ⟨.refl _, t⟩
  | cons arc arcs ih =>
    obtain ⟨found, tracks, next⟩ := t.ensure (d := d) arc above
    obtain ⟨rest, tracks⟩ := ih tracks next
    exact ⟨found.trans rest, tracks⟩

/-- The claimants are written to a node that is found or added. -/
lemma Tracks.addClaim (t : b.Tracks) {claim : Claim}
    (held : ∀ a ∈ claim.2, a.index < b.mib.assignments.size) :
    ({ d with mib := b.mib } : Draft).Steps { d with mib := (b.addClaim claim).mib } ∧
      (b.addClaim claim).Tracks := by
  obtain ⟨down, tracks⟩ := t.descend (d := d) claim.1.arcs Mib.Path.root
  unfold TreeBuilder.addClaim
  split
  next b' e =>
    rw [e] at down tracks
    exact ⟨down, tracks⟩
  next n b' e =>
    rw [e] at down tracks
    have claimed := Draft.Step.edit (d := { d with mib := b'.mib })
      (.claim n claim.2.head? claim.2.tail ?_)
    · refine ⟨down.trans claimed.steps, fun p a i hi => ?_⟩
      obtain ⟨m, hm, rfl, rfl⟩ := tracks p a i hi
      obtain ⟨m', hm', same⟩ := claimed.node? hm
      exact ⟨m', hm', (congrArg OidNode.parent same :), (congrArg OidNode.arc same :)⟩
    · have held' : ∀ a ∈ claim.2, a.index < b'.mib.assignments.size :=
        fun a ha => Nat.lt_of_lt_of_le (held a ha) (down.grows .assignments)
      refine below_append.2 ⟨below_anyOf.2 fun a ha => ?_, below_map.2 fun a ha => ?_⟩
      · exact held' a (List.mem_of_head? ha)
      · exact held' a (List.mem_of_mem_tail ha)

/-- The tree is built claim by claim. -/
lemma steps_build {claims : List Claim}
    (held : ∀ c ∈ claims, ∀ a ∈ c.2, a.index < d.mib.assignments.size) :
    d.Steps { d with mib := build d.mib claims } := by
  apply And.left
  apply Draft.steps_foldl (fun b : TreeBuilder => { d with mib := b.mib }) (P := Tracks) claims
    ⟨d.mib, .empty⟩ nofun
  intro b s t claim hc
  exact t.addClaim fun a ha => Nat.lt_of_lt_of_le (held claim hc a ha) (s.grows .assignments)

end TreeBuilder

namespace Draft

variable {d : Draft}

/-- Claims are made by assignments. -/
lemma Closed.lt_of_claims (c : d.Closed) {claim : Claim} (h : claim ∈ d.claims) {a : AssignmentId}
    (ha : a ∈ claim.2) : a.index < d.mib.assignments.size := by
  rw [(mem_claims.1 h).1] at ha
  obtain ⟨x, hx, rfl⟩ := List.mem_map.1 ha
  have registered : x ∈ d.mib.assignments.toList.filterMap fun a => a.claim?.map (a.id, ·) := by
    have hx := List.mem_of_mem_filter hx
    unfold claimants at hx
    cases e : d.policy.canonical with
    | firstRegistered => simpa only [e] using hx
    | lastRegistered => simpa only [e, List.mem_reverse] using hx
  obtain ⟨entry, he, hx⟩ := List.mem_filterMap.1 registered
  obtain ⟨o, -, rfl⟩ := Option.map_eq_some_iff.1 hx
  have below := c.mib.assignments entry (Array.mem_toList_iff.1 he)
  simp only [Assignment.idents, below_cons] at below
  exact below.1

/-- The problems of a claim refer to its claimants. -/
lemma Closed.claimProblems (c : d.Closed) {claim : Claim} (h : claim ∈ d.claims) :
    ∀ p ∈ d.claimProblems claim, Below d.mib.size p.idents := by
  have held := fun a ha => c.lt_of_claims h (a := a) ha
  intro p hp
  unfold Draft.claimProblems at hp
  split at hp
  next => cases hp
  next kept others e =>
    obtain ⟨refused, hr, rfl⟩ := List.mem_map.1 hp
    rw [e] at held
    simp only [conflictProblem, Problem.idents, below_append, below_anyOf]
    refine ⟨⟨c.locationOf refused, ?_⟩, ?_⟩
    · rintro _ ⟨⟩
      exact held refused (List.mem_cons_of_mem kept hr)
    · rintro _ ⟨⟩
      exact held kept (List.mem_cons_self ..)

/-- The last phase goes from step to step: it reports conflicts and adds the nodes of a tree. -/
lemma Closed.steps_finalize (c : d.Closed) : d.Steps d.finalize := by
  have reported : d.Steps (d.claims.foldl reportClaim d) := by
    rw [foldl_reportClaim]
    refine steps_recordAll fun p hp => ?_
    obtain ⟨claim, hc, hp⟩ := List.mem_flatMap.1 hp
    exact c.claimProblems hc p hp
  exact reported.trans (TreeBuilder.steps_build fun claim hc a ha =>
    Nat.lt_of_lt_of_le (c.lt_of_claims hc ha) (reported.grows .assignments))

/-! ## Calls -/

/-- Every phase changes a closed draft by steps. -/
theorem Closed.steps_apply (c : d.Closed) (call : PhaseCall) (r : Recorder) :
    d.Steps (call.apply d r).1 := by
  cases call with
  | register files => exact steps_register d files r
  | link => exact c.steps_link
  | resolveTypes => exact c.steps_resolveTypes r
  | resolveOids => exact c.steps_resolveOids r
  | finalize => exact c.steps_finalize

/-- The draft that some calls of phases lead to. -/
def after (d : Draft) (calls : List PhaseCall) (r : Recorder) : Draft :=
  (calls.foldl (fun dr call => call.apply dr.1 dr.2) (d, r)).1

/-- Any phase calls go from step to step. -/
lemma Closed.steps_after (c : d.Closed) (calls : List PhaseCall) (r : Recorder) :
    d.Steps (d.after calls r) := by
  apply steps_loop Prod.fst calls (d, r)
  intro dr s call _
  exact (s.closed c).steps_apply call dr.2

/-- After any phase calls, whatever a draft mentions is stored in it. -/
lemma closed_after (policy : Policy) (calls : List PhaseCall) (r : Recorder) :
    ((Draft.new policy).after calls r).Closed :=
  ((closed_new policy).steps_after calls r).closed (closed_new policy)

/-- What a new draft has and every step keeps holds after any calls. -/
theorem after_induction {P : Draft → Prop} (policy : Policy) (new : P (.new policy))
    (step : ∀ {d d'}, d.Closed → P d → d.Step d' → P d') (calls : List PhaseCall) (r : Recorder) :
    P ((Draft.new policy).after calls r) := by
  have steps := (closed_new policy).steps_after calls r
  apply And.right
  exact steps.keeps (P := fun d => d.Closed ∧ P d)
    (fun h s => ⟨s.closed h.1, step h.1 h.2 s⟩) ⟨closed_new policy, new⟩

end Draft

end MibCorpus
