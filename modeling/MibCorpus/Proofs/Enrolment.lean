import MibCorpus.Proofs.Chronicle
import MibCorpus.Proofs.NameStores

/-!
# What registration enters

The modules of a corpus are offered file by file, and those of a file by name. Registration enters
the first module of each name, then generated ones, and one assignment for each of their
definitions; a definition whose name is taken in its module is entered but left out. Every module
that is not entered, every definition that is left out and every file that could not be parsed has
one problem of its own, and there are no others.
-/

namespace MibCorpus

/-- A module offered to registration, with the file that it was read from and the path of that. -/
structure Offer where
  origin : Option (FileId × String)
  source : Module

namespace Offer

/-- The name of a module offered. -/
def name (o : Offer) : String := o.source.name

/-- The file that a module offered was read from. -/
def file (o : Offer) : Option FileId := o.origin.map (·.1)

/-- What is reported about a module whose name `first` has already. -/
def refusal (o first : Offer) : Problem :=
  (Finding.duplicateModule o.name (first.origin.map (·.2))).toProblem ⟨o.file, none, o.source.span⟩

end Offer

namespace Draft

/-! ## What is offered -/

/-- The modules of a file as they are offered. -/
def offersOf (f : ParsedFile) (i : FileId) : List Offer :=
  (byName f.modules).map (⟨some (i, f.path), ·⟩)

/-- What is reported about a file that could not be parsed. -/
def unreadable? (f : ParsedFile) (i : FileId) : Option Problem :=
  f.failure?.map fun failure =>
    (Finding.parseFailure f.path failure.message).toProblem (.inFile i failure.span)

/-- What is reported about the files of a corpus that could not be parsed. -/
def unreadable (files : List ParsedFile) : List Problem :=
  files.zipIdx.filterMap fun f => unreadable? f.1 ⟨f.2⟩

/-- The modules of a corpus in the order in which they are offered. -/
def supplied (files : List ParsedFile) : List Offer :=
  files.zipIdx.flatMap fun f => offersOf f.1 ⟨f.2⟩

/-- The modules that are entered for a corpus: the first ones of each name, and generated ones. -/
def admitted (policy : Policy) (files : List ParsedFile) : List Offer :=
  firstsBy Offer.name [] (supplied files) ++ (generatedModules policy files).map (⟨none, ·.source⟩)

/-- Modules with the identifiers that they get in order. -/
def entered (os : List Offer) : List RegisteredModule :=
  os.zipIdx.map fun o => ⟨⟨o.2⟩, o.1.file, o.1.source⟩

/-- The definitions of modules with the identifiers that they get in order. -/
def declared (ms : List RegisteredModule) : List (AssignmentId × ModuleId × Definition) :=
  (ms.flatMap fun m => m.source.definitions.map (m.id, ·)).zipIdx.map fun x => (⟨x.2⟩, x.1)

/-- The module that a definition stands in, and its name. -/
def slot (x : AssignmentId × ModuleId × Definition) : ModuleId × String := (x.2.1, x.2.2.name)

/-- The name of the module `m` of `ms`. -/
def nameIn (ms : List RegisteredModule) (m : ModuleId) : String :=
  (ms[m.index]?).elim "" (·.source.name)

/-- What is reported about a definition of modules `ms` whose name `first` has already. -/
def refusal (ms : List RegisteredModule) (x first : AssignmentId × ModuleId × Definition) :
    Problem :=
  { (Finding.duplicateDefinition x.2.2.name (nameIn ms x.2.1)).toProblem
      (.inModule ((ms[x.2.1.index]?).bind (·.file)) x.2.1 x.2.2.span) with
    subject := some x.1
    other := some first.1 }

variable {d d' : Draft}

/-- A further file offers its modules behind those of the others. -/
lemma supplied_concat (files : List ParsedFile) (f : ParsedFile) :
    supplied (files ++ [f]) = supplied files ++ offersOf f ⟨files.length⟩ := by
  simp [supplied, List.zipIdx_append]

/-- A further file that could not be parsed is reported behind the others. -/
lemma unreadable_concat (files : List ParsedFile) (f : ParsedFile) :
    unreadable (files ++ [f]) = unreadable files ++ (unreadable? f ⟨files.length⟩).toList := by
  rw [unreadable, List.zipIdx_append, List.filterMap_append]
  refine congrArg (unreadable files ++ ·) ?_
  cases e : unreadable? f ⟨files.length⟩ <;> simp [e]

/-- The modules that files supply are those that they offer. -/
lemma map_source_supplied (files : List ParsedFile) :
    (supplied files).map (·.source) = offered files := by
  have each : ∀ f i, (offersOf f i).map (·.source) = byName f.modules := fun f i => by
    rw [offersOf, List.map_map]
    exact List.map_id _
  simp only [supplied, List.map_flatMap, each]
  rw [offered, ← List.zipIdx_map_fst 0 files, List.flatMap_map, List.zipIdx_map_fst]

/-- A module is entered at its position among those admitted. -/
lemma getElem?_entered (os : List Offer) (i : Nat) :
    (entered os)[i]? = (os[i]?).map fun o => ⟨⟨i⟩, o.file, o.source⟩ := by
  simp [entered, List.getElem?_zipIdx, Function.comp_def]

/-- A further module is entered last. -/
lemma entered_concat (os : List Offer) (o : Offer) :
    entered (os ++ [o]) = entered os ++ [⟨⟨os.length⟩, o.file, o.source⟩] := by
  simp [entered, List.zipIdx_append]

/-- As many modules are entered as were admitted. -/
lemma length_entered (os : List Offer) : (entered os).length = os.length := by
  simp [entered]

/-- What is entered are the modules that were admitted. -/
lemma map_source_entered (os : List Offer) :
    (entered os).map (·.source) = os.map (·.source) := by
  rw [entered, List.map_map, ← List.zipIdx_map_fst 0 os, List.map_map, List.zipIdx_map_fst]
  rfl

/-! ## Definitions that are left out -/

/-- What a module defines by a name is the first registered definition of that name. -/
lemma lookup?_eq_find? (h : d.DefinitionsRegistered) (m : ModuleId) (name : String) :
    d.scope.lookup? m name = (d.definitions.find? (slot · = (m, name))).map (·.1) := by
  have same : (fun x : (ModuleId × Definition) × Nat => defines m name x.1) =
      (fun x => decide (slot x = (m, name))) ∘ fun o => (⟨o.2⟩, o.1) := by
    funext x
    simp [defines, slot]
  rw [h.lookup?, h.definitions_eq, List.find?_map, List.findIdx?_eq_fst_find?_zipIdx,
    Option.map_map, Option.map_map, ← same]
  rfl

/-- The definitions whose names are taken, and no others, have been reported. -/
def Refuses (ms : List RegisteredModule) (d : Draft) : Prop :=
  d.problemsOf .duplicateDefinition =
    (doublesBy slot d.definitions).map fun x => refusal ms x.1 x.2

/-- Only the modules in which something is defined matter. -/
lemma Refuses.congr {ms ns : List RegisteredModule} (h : Refuses ms d)
    (same : ∀ x ∈ d.definitions, ns[x.2.1.index]? = ms[x.2.1.index]?) : Refuses ns d := by
  refine h.trans (List.map_congr_left fun x hx => ?_)
  have mem := (fst_doublesBy_sublist slot d.definitions).subset (List.mem_map_of_mem hx)
  rw [refusal, refusal, nameIn, nameIn, same x.1 mem]

/-- A definition is reported if its name is taken. -/
lemma Refuses.registerDefinition {ms : List RegisteredModule} {m : RegisteredModule}
    (h : Refuses ms d) (registered : d.DefinitionsRegistered) (listed : ms[m.id.index]? = some m)
    {o : Origin} {x : Definition} (here : d.written? o = some (m.id, x)) :
    Refuses ms (d.registerDefinition m o x) := by
  rw [Refuses, problemsOf, problems_registerDefinition, List.filter_append,
    definitions_registerDefinition d here, doublesBy_concat, List.map_append]
  refine congrArg₂ (· ++ ·) h ?_
  rw [lookup?_eq_find? registered, registered.size]
  have slot_eq : slot (⟨d.origins.size⟩, m.id, x) = (m.id, x.name) := rfl
  rw [slot_eq]
  cases d.definitions.find? (slot · = (m.id, x.name)) with
  | none => rfl
  | some first => simp [refusal, nameIn, listed, Finding.toProblem, Problem.ofKind, Finding.kind]

/-- Of the definitions of an accepted module those are reported whose names are taken. -/
lemma Refuses.acceptModule (h : Refuses d.modules.toList d) (registered : d.Registered)
    (name : StrId) (file : Option FileId) (source : Module) :
    Refuses (d.acceptModule name file source).2.modules.toList
      (d.acceptModule name file source).2 := by
  have announced := registered.definitions.announced d name file source
  have last : (d.modules.toList ++ [d.accepted file source])[d.mib.modules.size]? =
      some (d.accepted file source) := by
    rw [registered.modules.size, ← Array.length_toList]
    exact List.getElem?_concat_length ..
  -- Nothing has been refused since in the module that is listed behind the others.
  have listed : Refuses (d.modules.toList ++ [d.accepted file source])
      ((d.announced name file source).list (d.accepted file source)) := by
    have before : Refuses d.modules.toList
        ((d.announced name file source).list (d.accepted file source)) := by
      rw [Refuses, definitions_list _ _ announced]
      exact h
    refine before.congr fun x hx => ?_
    rw [definitions_list _ _ announced] at hx
    have lt := registered.index_lt_of_mem_definitions hx
    rw [sources, List.length_map] at lt
    exact List.getElem?_append_left lt
  rw [modules_acceptModule, Array.toList_push, acceptModule_eq_registerDefinitions]
  exact (announced.list _ _).registerDefinitions_keeps (written?_announced d name file source)
    (fun defined here refuses => refuses.registerDefinition defined last here) listed

/-- Registering a definition spares the files. -/
lemma files_registerDefinition (d : Draft) (m : RegisteredModule) (o : Origin) (x : Definition) :
    (d.registerDefinition m o x).mib.files = d.mib.files := by
  cases h : d.scope.lookup? m.id x.name with
  | none => rw [registerDefinition_free d m o x h]
  | some _ => rw [registerDefinition_taken d m o x h]

/-! ## Modules and files -/

/-- The files of a draft have these paths. -/
structure HasFiles (paths : List String) (d : Draft) : Prop where
  size : d.mib.files.size = paths.length
  file? : ∀ (i : Nat) (path : String), paths[i]? = some path →
    ∃ s, d.mib.strings.find? path = some s ∧ d.mib.files[i]? = some ⟨⟨i⟩, s⟩

/-- The files of a draft stay as long as none is added and the strings stay. -/
lemma HasFiles.of_eq {paths : List String} (h : d.HasFiles paths)
    (files : d'.mib.files = d.mib.files) (strings : d.mib.strings.Extends d'.mib.strings) :
    d'.HasFiles paths := by
  refine ⟨by rw [files, h.size], fun i path at_i => ?_⟩
  obtain ⟨s, hs, hf⟩ := h.file? i path at_i
  exact ⟨s, strings.find? hs, by rw [files, hf]⟩

/-- What registration has made of files with these paths, of which those with problems `unread`
could not be parsed, and of the modules offered so far. -/
structure Enrolled (paths : List String) (unread : List Problem) (os : List Offer) (d : Draft) :
    Prop where
  registered : d.Registered
  files : d.HasFiles paths
  origins : ∀ o ∈ os, ∀ i path, o.origin = some (i, path) → paths[i.index]? = some path
  modules : d.modules.toList = entered (firstsBy Offer.name [] os)
  failures : d.problemsOf .parseFailure = unread
  copies : d.problemsOf .duplicateModule =
    (doublesBy Offer.name os).map fun o => o.1.refusal o.2
  refusals : d.Refuses d.modules.toList

section Enrolled

variable {paths : List String} {unread : List Problem} {os : List Offer}

/-- A new draft has nothing enrolled. -/
lemma enrolled_new (policy : Policy) : Enrolled [] [] [] (Draft.new policy) :=
  ⟨registered_new policy, ⟨rfl, nofun⟩, nofun, rfl, rfl, rfl, rfl⟩

/-- Files, names and problems are added without touching what is registered. -/
lemma Enrolled.of_continues (h : Enrolled paths unread os d) (c : Continues d d')
    (problems : d'.mib.problems = d.mib.problems) : Enrolled paths unread os d' where
  registered := h.registered.of_continues c
  files := h.files.of_eq (congrArg Registry.files c.registry) c.strings
  origins := h.origins
  modules := by rw [modules_of_registry c.registry, h.modules]
  failures := by rw [problemsOf, problems]; exact h.failures
  copies := by rw [problemsOf, problems]; exact h.copies
  refusals := by
    rw [Refuses, problemsOf, problems, modules_of_registry c.registry,
      definitions_of_registry c.registry]
    exact h.refusals

/-- A name that no module offered has is free. -/
lemma Enrolled.module?_eq_none (h : Enrolled paths unread os d) {name : String}
    (free : os.find? (Offer.name · = name) = none) : d.scope.module? name = none := by
  refine h.registered.module?_eq_none fun taken => ?_
  rw [sources, h.modules, map_source_entered, List.map_map] at taken
  obtain ⟨o, ho, same⟩ := List.mem_map.1 taken
  have mem := (firstsBy_sublist _ _ _).subset ho
  exact List.find?_eq_none.1 free o mem (decide_eq_true same)

/-- A name stands for the first module offered that has it. -/
lemma Enrolled.exists_module? (h : Enrolled paths unread os d) {name : String} {first : Offer}
    (taken : os.find? (Offer.name · = name) = some first) :
    ∃ i, d.scope.module? name = some ⟨i⟩ ∧ (firstsBy Offer.name [] os)[i]? = some first := by
  rw [← find?_firstsBy List.not_mem_nil, List.find?_eq_bind_findIdx?_getElem?,
    Option.bind_eq_some_iff] at taken
  obtain ⟨i, at_i, listed⟩ := taken
  refine ⟨i, ?_, listed⟩
  have sources := map_source_entered (firstsBy Offer.name [] os)
  have same := congrArg (List.findIdx? (fun m : Module => decide (m.name = name))) sources
  rw [List.findIdx?_map, List.findIdx?_map] at same
  rw [h.registered.modules.module?, h.modules]
  exact congrArg (Option.map Ident.mk) (same.trans at_i)

/-- The file of a registered module. -/
lemma ModulesRegistered.fileOf_eq (h : d.ModulesRegistered) {i : Nat} {r : RegisteredModule}
    (hr : d.modules[i]? = some r) : d.fileOf ⟨i⟩ = r.file := by
  obtain ⟨-, name, -, entry⟩ := h.entry i r hr
  obtain ⟨e, he, heading⟩ := Option.map_eq_some_iff.1 entry
  simp only [Prod.mk.injEq] at heading
  rw [fileOf, Mib.module?, he]
  exact heading.2.2

/-- The path of a module is that of the file it was read from. -/
lemma Enrolled.pathOf?_eq (h : Enrolled paths unread os d) {i : Nat} {first : Offer}
    (listed : (firstsBy Offer.name [] os)[i]? = some first) :
    d.pathOf? ⟨i⟩ = first.origin.map (·.2) := by
  have registered : d.modules[i]? = some ⟨⟨i⟩, first.file, first.source⟩ := by
    rw [← Array.getElem?_toList, h.modules, getElem?_entered, listed]
    rfl
  rw [pathOf?, h.registered.modules.fileOf_eq registered, Offer.file]
  cases origin : first.origin with
  | none => rfl
  | some file =>
    obtain ⟨f, path⟩ := file
    have mem := (firstsBy_sublist _ _ _).subset (List.mem_of_getElem? listed)
    obtain ⟨s, hs, hf⟩ := h.files.file? f.index path (h.origins first mem f path origin)
    simp [Mib.file?, hf, Mib.str, Strings.get_of_find? hs]

/-- A module whose name is taken is reported. -/
lemma Enrolled.refuse (h : Enrolled paths unread os d) {o first : Offer}
    (known : ∀ i path, o.origin = some (i, path) → paths[i.index]? = some path)
    (taken : os.find? (Offer.name · = o.name) = some first) {i : Nat}
    (listed : (firstsBy Offer.name [] os)[i]? = some first) :
    Enrolled paths unread (os ++ [o]) (d.refuseModule ⟨i⟩ o.file o.source) := by
  have recorded : d.refuseModule ⟨i⟩ o.file o.source = d.record (o.refusal first) := by
    rw [refuseModule, h.pathOf?_eq listed]
    rfl
  have old : o.name ∈ os.map Offer.name := by
    refine List.mem_map.2 ⟨first, List.mem_of_find?_eq_some taken, ?_⟩
    simpa using List.find?_some taken
  have kind : (o.refusal first).kind = .duplicateModule := rfl
  rw [recorded]
  refine ⟨h.registered.of_continues ⟨rfl, .refl _⟩, h.files.of_eq rfl (.refl _), ?origins,
    ?modules, ?failures, ?copies, ?refusals⟩
  case origins => exact List.forall_mem_append.2 ⟨h.origins, by simpa using known⟩
  case modules =>
    rw [firstsBy_append, List.append_nil, firstsBy_cons_of_mem old]
    exact h.modules.trans (congrArg entered (List.append_nil _).symm)
  case failures => rw [problemsOf_record, kind, if_neg (by decide), List.append_nil, h.failures]
  case copies =>
    rw [problemsOf_record, kind, if_pos rfl, h.copies, doublesBy_concat, taken, List.map_append]
    rfl
  case refusals =>
    rw [Refuses, problemsOf_record, kind, if_neg (by decide), List.append_nil]
    exact h.refusals

/-- A module whose name is free is entered. -/
lemma Enrolled.accept (h : Enrolled paths unread os d) {o : Offer}
    (known : ∀ i path, o.origin = some (i, path) → paths[i.index]? = some path)
    (free : os.find? (Offer.name · = o.name) = none) {name : StrId}
    (named : d.mib.strings.find? o.name = some name) :
    Enrolled paths unread (os ++ [o]) (d.acceptModule name o.file o.source).2 := by
  have registers := registers_acceptModule d name o.file o.source (h.module?_eq_none free) named
  have defined := registers_defined d name o.file o.source
  have new : o.name ∉ os.map Offer.name := by
    intro taken
    obtain ⟨p, hp, same⟩ := List.mem_map.1 taken
    exact List.find?_eq_none.1 free p hp (decide_eq_true same)
  have firsts : firstsBy Offer.name [] (os ++ [o]) = firstsBy Offer.name [] os ++ [o] := by
    rw [firstsBy_append, List.append_nil, firstsBy_cons_of_notMem new]
    rfl
  have index : d.mib.modules.size = d.modules.toList.length := by
    rw [h.registered.modules.size, Array.length_toList]
  have files : (d.acceptModule name o.file o.source).2.mib.files = d.mib.files :=
    foldl_keeps (·.mib.files)
      (fun e x => files_registerDefinition e (d.accepted o.file o.source) _ x.1)
      o.source.definitions.zipIdx (d.announced name o.file o.source)
  have others : ∀ kind, kind ≠ .duplicateDefinition →
      (d.acceptModule name o.file o.source).2.problemsOf kind = d.problemsOf kind :=
    fun kind other => problemsOf_acceptModule other d name o.file o.source
  have modules : (d.acceptModule name o.file o.source).2.modules.toList =
      d.modules.toList ++ [d.accepted o.file o.source] := by
    rw [modules_acceptModule, Array.toList_push]
  refine ⟨registers.registered h.registered, h.files.of_eq files defined.strings, ?origins,
    ?modules, ?failures, ?copies, ?refusals⟩
  case origins => exact List.forall_mem_append.2 ⟨h.origins, by simpa using known⟩
  case modules => rw [modules, accepted, index, h.modules, length_entered, firsts, entered_concat]
  case failures => rw [others _ (by decide), h.failures]
  case copies =>
    rw [others _ (by decide), h.copies, doublesBy_concat, free, Option.toList_none, List.map_nil,
      List.append_nil]
  case refusals => exact Refuses.acceptModule h.refusals h.registered name o.file o.source

/-- A module is entered if it is the first of its name, and reported otherwise. -/
lemma Enrolled.registerModule (h : Enrolled paths unread os d) {o : Offer}
    (known : ∀ i path, o.origin = some (i, path) → paths[i.index]? = some path) (r : Recorder) :
    Enrolled paths unread (os ++ [o]) (registerModule o.file (d, r) o.source).1 := by
  have named : Enrolled paths unread os { d with mib := (d.mib.intern o.name).2 } :=
    h.of_continues ⟨rfl, Strings.extends_intern _ _⟩ rfl
  unfold Draft.registerModule
  cases taken : os.find? (Offer.name · = o.name) with
  | some first =>
    obtain ⟨i, found, listed⟩ := named.exists_module? taken
    have found : d.scope.module? o.source.name = some ⟨i⟩ := found
    simp only [found]
    exact named.refuse known taken listed
  | none =>
    have free : d.scope.module? o.source.name = none := h.module?_eq_none taken
    simp only [free]
    exact named.accept known taken (Strings.find?_intern _ _)

/-- Modules are entered or reported one after another. -/
lemma Enrolled.foldl_registerModule (origin : Option (FileId × String))
    (known : ∀ i path, origin = some (i, path) → paths[i.index]? = some path) (ms : List Module)
    (dr : Draft × Recorder) (h : Enrolled paths unread os dr.1) :
    Enrolled paths unread (os ++ ms.map (⟨origin, ·⟩))
      (ms.foldl (Draft.registerModule (origin.map (·.1))) dr).1 := by
  induction ms generalizing os dr with
  | nil => rwa [List.map_nil, List.append_nil]
  | cons m ms ih =>
    rw [List.map_cons, List.append_cons]
    exact ih _ (h.registerModule (o := ⟨origin, m⟩) known dr.2)

/-- A file is added behind those that are there. -/
lemma HasFiles.addFile (h : d.HasFiles paths) (path : String) :
    HasFiles (paths ++ [path]) { d with mib := (d.mib.addFile path).2 } := by
  refine ⟨by simp [Mib.addFile, Mib.intern, h.size], fun i p at_i => ?_⟩
  rcases Nat.lt_or_ge i paths.length with lt | ge
  · rw [List.getElem?_append_left lt] at at_i
    obtain ⟨s, hs, hf⟩ := h.file? i p at_i
    refine ⟨s, (Strings.extends_intern _ _).find? hs, ?_⟩
    simp only [Mib.addFile, Mib.intern]
    rw [Array.getElem?_push, if_neg (by rw [h.size]; omega), hf]
  · rw [List.getElem?_append_right ge, List.getElem?_singleton] at at_i
    split at at_i
    next here =>
      cases at_i
      refine ⟨_, Strings.find?_intern _ _, ?_⟩
      obtain rfl : i = paths.length := by omega
      simp only [Mib.addFile, Mib.intern]
      rw [Array.getElem?_push, if_pos h.size.symm, h.size]
    next => cases at_i

/-- Only the strings and the files change when a file is added. -/
lemma Enrolled.addFile (h : Enrolled paths unread os d) (path : String) :
    Enrolled (paths ++ [path]) unread os { d with mib := (d.mib.addFile path).2 } where
  registered := (registers_addFile d path).registered h.registered
  files := h.files.addFile path
  origins o ho i p origin := by
    have at_i := h.origins o ho i p origin
    rw [List.getElem?_append_left (List.getElem?_eq_some_iff.1 at_i).1, at_i]
  modules := h.modules
  failures := h.failures
  copies := h.copies
  refusals := h.refusals

/-- A file that could not be parsed is reported. -/
lemma Enrolled.fail (h : Enrolled paths unread os d) {p : Problem} (kind : p.kind = .parseFailure) :
    Enrolled paths (unread ++ [p]) os (d.record p) where
  registered := h.registered.of_continues ⟨rfl, .refl _⟩
  files := h.files.of_eq rfl (.refl _)
  origins := h.origins
  modules := h.modules
  failures := by rw [problemsOf_record, if_pos kind, h.failures]
  copies := by
    rw [problemsOf_record, kind, if_neg (by decide), List.append_nil]
    exact h.copies
  refusals := by
    rw [Refuses, problemsOf_record, kind, if_neg (by decide), List.append_nil]
    exact h.refusals

/-- The modules of a file are entered or reported, or the file is. -/
lemma Enrolled.registerFile (h : Enrolled paths unread os d) (f : ParsedFile) (r : Recorder) :
    Enrolled (paths ++ [f.path]) (unread ++ (unreadable? f ⟨paths.length⟩).toList)
      (os ++ offersOf f ⟨paths.length⟩) (registerFile (d, r) f).1 := by
  obtain ⟨path, result⟩ := f
  have added := h.addFile path
  have index : (d.mib.addFile path).1 = ⟨paths.length⟩ := congrArg Ident.mk h.files.size
  cases result with
  | ok ms =>
    have known : ∀ (i : FileId) p, some ((⟨paths.length⟩ : FileId), path) = some (i, p) →
        (paths ++ [path])[i.index]? = some p := by
      rintro _ _ ⟨⟩
      exact List.getElem?_concat_length ..
    have all := Enrolled.foldl_registerModule _ known (byName ms) (_, r) added
    simp only [Draft.registerFile, index]
    simpa [unreadable?, ParsedFile.failure?, offersOf, ParsedFile.modules] using all
  | error failure =>
    have reported := added.fail (p := (Finding.parseFailure path failure.message).toProblem
      (.inFile ⟨paths.length⟩ failure.span)) rfl
    simp only [Draft.registerFile, index]
    simpa [unreadable?, ParsedFile.failure?, offersOf, ParsedFile.modules, byName, report] using
      reported

/-- The paths, the failures and the offers of files are taken one file after another. -/
lemma Enrolled.foldl_registerFile (fs gs : List ParsedFile) (dr : Draft × Recorder)
    (h : Enrolled (fs.map (·.path)) (unreadable fs) (supplied fs) dr.1) :
    Enrolled ((fs ++ gs).map (·.path)) (unreadable (fs ++ gs)) (supplied (fs ++ gs))
      (gs.foldl Draft.registerFile dr).1 := by
  induction gs generalizing fs dr with
  | nil => rwa [List.append_nil]
  | cons g gs ih =>
    have one := h.registerFile g dr.2
    rw [List.append_cons]
    refine ih (fs ++ [g]) _ ?_
    rw [List.map_append, supplied_concat, unreadable_concat]
    rwa [List.length_map] at one

/-! ## The phase -/

/-- Registering any corpus enrols its modules and generated ones. -/
lemma enrolled_register (policy : Policy) (files : List ParsedFile) (r : Recorder) :
    Enrolled (files.map (·.path)) (unreadable files)
      (supplied files ++ (generatedModules policy files).map (⟨none, ·.source⟩))
      ((Draft.new policy).register files r).1 := by
  have all := Enrolled.foldl_registerFile [] files (.new policy, r) (enrolled_new policy)
  rw [List.nil_append] at all
  have sources : (files.foldl Draft.registerFile (.new policy, r)).1.sources =
      firstsBy (·.name) [] (offered files) :=
    (admits_foldl_registerFile files (.new policy, r) (registered_new policy)).sources
  cases base : policy.baseModules with
  | false =>
    have e : (Draft.new policy).register files r =
        files.foldl Draft.registerFile (.new policy, r) := by
      simp [register, new, base]
    rw [e, generatedModules, generatedFor, base]
    simpa using all
  | true =>
    have e : (Draft.new policy).register files r =
        generateLacking BaseModule.all (files.foldl Draft.registerFile (.new policy, r)) := by
      simp [register, new, base]
    rw [e, generateLacking_eq_foldl _ _ all.registered
      (by rw [sources]; exact nodup_keys_firstsBy Module.name [] (offered files))
        BaseModule.nodup_all,
      sources, generatedModules, generatedFor, base, if_pos rfl]
    have more := Enrolled.foldl_registerModule none (fun i path origin => by cases origin)
      ((generated (firstsBy (·.name) [] (offered files)) BaseModule.all).map (·.source)) _ all
    rwa [List.map_map] at more

/-- The modules that are entered, as written. -/
lemma map_source_admitted (policy : Policy) (files : List ParsedFile) :
    (admitted policy files).map (·.source) = registeredSources policy files := by
  have firsts : firstsBy Module.name [] ((supplied files).map (·.source)) =
      (firstsBy Offer.name [] (supplied files)).map (·.source) :=
    firstsBy_map (fun _ => rfl) [] (supplied files)
  rw [map_source_supplied] at firsts
  rw [registeredSources_eq, admitted, List.map_append, ← firsts, List.map_map]
  rfl

/-- The names of generated modules are new and distinct. -/
lemma generated_names (policy : Policy) (files : List ParsedFile) :
    let os := (generatedModules policy files).map (fun b => (⟨none, b.source⟩ : Offer))
    (os.map Offer.name).Nodup ∧ ∀ o ∈ os, o.name ∉ (supplied files).map Offer.name := by
  have nodup := nodup_registeredSources policy files
  rw [← map_source_admitted, List.map_map] at nodup
  have nodup : ((admitted policy files).map Offer.name).Nodup := nodup
  rw [admitted, List.map_append, List.nodup_append] at nodup
  refine ⟨nodup.2.1, fun o ho old => ?_⟩
  have first := mem_keys_firstsBy.2 ⟨old, List.not_mem_nil⟩
  exact nodup.2.2 _ first _ (List.mem_map_of_mem ho) rfl

/-- Generated modules come first of their names. -/
lemma firstsBy_generated (policy : Policy) (files : List ParsedFile) :
    firstsBy Offer.name []
      (supplied files ++ (generatedModules policy files).map (⟨none, ·.source⟩)) =
        admitted policy files := by
  obtain ⟨nodup, new⟩ := generated_names policy files
  rw [firstsBy_append, List.append_nil, firstsBy_eq_self nodup new]
  rfl

/-! ## Single definitions -/

/-- Whether an earlier definition among `xs` has the name of `x` in its module. -/
def IsRepeat (xs : List (AssignmentId × ModuleId × Definition))
    (x : AssignmentId × ModuleId × Definition) : Prop :=
  ∃ y ∈ xs, y.1.index < x.1.index ∧ slot y = slot x

instance (xs : List (AssignmentId × ModuleId × Definition))
    (x : AssignmentId × ModuleId × Definition) : Decidable (IsRepeat xs x) :=
  inferInstanceAs (Decidable (∃ y ∈ xs, _))

/-- The first definition among `xs` that has the name of `x` in its module. -/
structure IsFirst (xs : List (AssignmentId × ModuleId × Definition))
    (x first : AssignmentId × ModuleId × Definition) : Prop where
  mem : first ∈ xs
  slot : slot first = slot x
  le : ∀ y ∈ xs, Draft.slot y = Draft.slot x → first.1.index ≤ y.1.index

/-- The problems about an assignment. -/
def problemsAbout (d : Draft) (i : AssignmentId) : List Problem :=
  d.mib.problems.toList.filter (·.subject = some i)

/-- What registration makes of a definition `x` of modules `ms`. -/
structure Enters (ms : List RegisteredModule) (d : Draft)
    (x : AssignmentId × ModuleId × Definition) : Prop where
  /-- The places kept for the assignment lead to the definition among the modules registered. -/
  origin : ∃ o m, d.origins[x.1.index]? = some o ∧ d.modules[o.module]? = some m ∧
    m.id = x.2.1 ∧ m.source.definitions[o.definition]? = some x.2.2
  definition? : d.definition? x.1 = some x.2.2
  assignment? : ∃ name, d.mib.str name = x.2.2.name ∧ d.mib.assignment? x.1 =
    some { x.2.2.entry x.1 x.2.1 name with
      state := if IsRepeat (declared ms) x then .excluded else .pending }
  found : ¬IsRepeat (declared ms) x → d.scope.lookup? x.2.1 x.2.2.name = some x.1 ∧
    (d.mib.lookup? (nameIn ms x.2.1) x.2.2.name).map (·.id) = some x.1 ∧ d.problemsAbout x.1 = []
  refused : IsRepeat (declared ms) x → ∃ first, IsFirst (declared ms) x first ∧
    d.scope.lookup? x.2.1 x.2.2.name = some first.1 ∧
    (d.mib.lookup? (nameIn ms x.2.1) x.2.2.name).map (·.id) = some first.1 ∧
    d.problemsAbout x.1 = [refusal ms x first]

/-- A definition is a repetition if it comes behind the first one of its name. -/
lemma isRepeat_iff {xs : List (AssignmentId × ModuleId × Definition)}
    {x first : AssignmentId × ModuleId × Definition} (h : IsFirst xs x first) :
    IsRepeat xs x ↔ first.1.index < x.1.index := by
  constructor
  · rintro ⟨y, hy, lt, same⟩
    exact Nat.lt_of_le_of_lt (h.le y hy same) lt
  · exact fun lt => ⟨first, h.mem, lt, h.slot⟩

/-- Definitions are listed at the places that their identifiers say. -/
lemma DefinitionsRegistered.getElem?_definitions_iff (h : d.DefinitionsRegistered)
    {x : AssignmentId × ModuleId × Definition} {i : Nat} :
    d.definitions[i]? = some x ↔ x ∈ d.definitions ∧ x.1.index = i := by
  rw [h.getElem?_definitions, mem_definitions, Option.map_eq_some_iff]
  constructor
  · rintro ⟨o, ho, rfl⟩
    exact ⟨ho, rfl⟩
  · rintro ⟨ho, rfl⟩
    exact ⟨x.2, ho, rfl⟩

/-- The first definition of a name has it alone, or the others are behind. -/
lemma DefinitionsRegistered.exists_isFirst (h : d.DefinitionsRegistered)
    {x : AssignmentId × ModuleId × Definition} (hx : x ∈ d.definitions) :
    ∃ first, d.definitions.find? (slot · = slot x) = some first ∧ IsFirst d.definitions x first ∧
      d.scope.lookup? x.2.1 x.2.2.name = some first.1 := by
  cases found : d.definitions.find? (slot · = slot x) with
  | none => exact absurd (decide_eq_true rfl) (List.find?_eq_none.1 found x hx)
  | some first =>
    have lookup := lookup?_eq_find? h x.2.1 x.2.2.name
    rw [show (x.2.1, x.2.2.name) = slot x from rfl, found] at lookup
    obtain ⟨same, i, hi, here, before⟩ := List.find?_eq_some_iff_getElem.1 found
    obtain ⟨mem, rfl⟩ := h.getElem?_definitions_iff.1 (List.getElem?_eq_some_iff.2 ⟨hi, here⟩)
    refine ⟨first, rfl, ⟨mem, by simpa using same, fun y hy eq => ?_⟩, lookup⟩
    refine Nat.le_of_not_lt fun lt => ?_
    obtain ⟨_, at_y⟩ := List.getElem?_eq_some_iff.1 (h.getElem?_definitions_iff.2 ⟨hy, rfl⟩)
    simpa [at_y, eq] using before y.1.index lt

/-- What is listed as a definition is the definition of its assignment. -/
lemma eq_of_mem_definitions {x y : AssignmentId × ModuleId × Definition} (hx : x ∈ d.definitions)
    (hy : y ∈ d.definitions) (same : x.1 = y.1) : x = y := by
  have at_x := mem_definitions.1 hx
  rw [same, mem_definitions.1 hy, Option.some.injEq] at at_x
  exact Prod.ext same at_x.symm

/-- A definition is refused if its name is taken. -/
lemma DefinitionsRegistered.isRefused_eq (h : d.DefinitionsRegistered)
    {x : AssignmentId × ModuleId × Definition} (hx : x ∈ d.definitions) :
    d.isRefused x.1 = decide (IsRepeat d.definitions x) := by
  obtain ⟨first, -, isFirst, lookup⟩ := h.exists_isFirst hx
  rw [isRefused, mem_definitions.1 hx, Option.any_some, lookup]
  refine decide_eq_decide.2 ?_
  rw [isRepeat_iff isFirst, Ne, Option.some.injEq]
  constructor
  · intro other
    refine Nat.lt_of_le_of_ne (isFirst.le x hx rfl) fun same => other ?_
    exact congrArg Ident.mk same
  · intro lt same
    exact Nat.lt_irrefl _ (same ▸ lt)

/-- A problem about a definition is the one about its name, if that is taken. -/
lemma Refuses.problemsAbout_eq {ms : List RegisteredModule} (h : d.Refuses ms)
    (registered : d.DefinitionsRegistered)
    (subjects : ∀ p ∈ d.mib.problems.toList, p.subject.isSome ↔ p.kind = .duplicateDefinition)
    {x first : AssignmentId × ModuleId × Definition} (hx : x ∈ d.definitions)
    (found : d.definitions.find? (slot · = slot x) = some first) :
    d.problemsAbout x.1 = if IsRepeat d.definitions x then [refusal ms x first] else [] := by
  have about : d.problemsAbout x.1 =
      (d.problemsOf .duplicateDefinition).filter (·.subject = some x.1) := by
    rw [problemsOf, List.filter_filter, problemsAbout]
    refine List.filter_congr fun p hp => ?_
    cases same : decide (p.subject = some x.1) with
    | false => rfl
    | true =>
      have kind := (subjects p hp).1 (by rw [of_decide_eq_true same]; rfl)
      rw [kind]
      rfl
  -- The refusals are listed by what they are about, so those about `x` are picked out of the
  -- doubles.
  have reported : d.problemsAbout x.1 =
      ((doublesBy slot d.definitions).filter (·.1.1 = x.1)).map fun z => refusal ms z.1 z.2 := by
    rw [about, h, List.filter_map]
    refine congrArg (List.map _) (List.filter_congr fun z _ => ?_)
    simp [refusal]
  rw [reported]
  split
  next again =>
    obtain ⟨y, hy, lt, same⟩ := again
    have mem := mem_doublesBy_of_find? (registered.getElem?_definitions_iff.2 ⟨hx, rfl⟩)
      (registered.getElem?_definitions_iff.2 ⟨hy, rfl⟩) lt same found
    have nodup : ((doublesBy slot d.definitions).map (·.1.1)).Nodup := by
      have sub := (fst_doublesBy_sublist slot d.definitions).map Prod.fst
      rw [List.map_map] at sub
      exact d.nodup_definitions.sublist sub
    rw [filter_key_eq nodup mem]
    rfl
  next single =>
    rw [List.filter_eq_nil_iff.2, List.map_nil]
    rintro ⟨z, w⟩ hz same
    obtain ⟨i, j, hi, hj, lt, eq⟩ := exists_lt_of_mem_doublesBy hz
    obtain ⟨mem, rfl⟩ := registered.getElem?_definitions_iff.1 hi
    obtain ⟨before, rfl⟩ := registered.getElem?_definitions_iff.1 hj
    obtain rfl := eq_of_mem_definitions mem hx (of_decide_eq_true same)
    exact single ⟨w, before, lt, eq⟩

/-- The name of a registered module stands for it. -/
lemma Enrolled.module?_nameIn (h : Enrolled paths unread os d) {m : ModuleId}
    (lt : m.index < d.sources.length) :
    d.scope.module? (nameIn d.modules.toList m) = some m := by
  rw [sources, h.modules, List.length_map, length_entered] at lt
  obtain ⟨o, listed⟩ : ∃ o, (firstsBy Offer.name [] os)[m.index]? = some o :=
    ⟨_, List.getElem?_eq_getElem lt⟩
  have name : nameIn d.modules.toList m = o.name := by
    rw [nameIn, h.modules, getElem?_entered, listed]
    rfl
  cases found : os.find? (Offer.name · = o.name) with
  | none =>
    have mem := (firstsBy_sublist _ _ _).subset (List.mem_of_getElem? listed)
    exact absurd (decide_eq_true rfl) (List.find?_eq_none.1 found o mem)
  | some first =>
    obtain ⟨i, module, listed'⟩ := h.exists_module? found
    have same : first.name = o.name := by simpa using List.find?_some found
    have names : ((firstsBy Offer.name [] os).map Offer.name)[m.index]? =
        ((firstsBy Offer.name [] os).map Offer.name)[i]? := by
      rw [List.getElem?_map, List.getElem?_map, listed, listed', Option.map_some, Option.map_some,
        same]
    have index := (List.getElem?_inj (by rwa [List.length_map])
      (nodup_keys_firstsBy Offer.name [] os)).1 names
    rw [name, module, ← index]

/-- A query by two names answers what the scope answers for the module of the first. -/
lemma QueriesAgree.lookup? {mib : Mib} {t : Scope} (h : QueriesAgree mib t) {moduleName : String}
    {m : ModuleId} (module : t.module? moduleName = some m) (name : String) :
    (mib.lookup? moduleName name).map (·.id) = t.lookup? m name := by
  have named := (h.module moduleName).trans module
  obtain ⟨e, he, rfl⟩ := Option.map_eq_some_iff.1 named
  rw [Mib.lookup?, he, Option.bind_some, h.definition]

/-- The definitions of a draft are those of its modules. -/
lemma Registered.definitions_eq_declared (h : d.Registered) :
    d.definitions = declared d.modules.toList := by
  rw [h.definitions.definitions_eq, h.modules.owners_eq]
  rfl

/-- What registration makes of a definition depends on whether its name is taken. -/
lemma Enrolled.enters (h : Enrolled paths unread os d) (fresh : d.Fresh)
    (subjects : ∀ p ∈ d.mib.problems.toList, p.subject.isSome ↔ p.kind = .duplicateDefinition)
    (agree : QueriesAgree d.mib d.scope) {x : AssignmentId × ModuleId × Definition}
    (hx : x ∈ d.definitions) : d.Enters d.modules.toList x := by
  have registered := h.registered.definitions
  have origin := mem_definitions.1 hx
  obtain ⟨first, found, isFirst, lookup⟩ := registered.exists_isFirst hx
  have query := agree.lookup?
    (h.module?_nameIn (h.registered.index_lt_of_mem_definitions hx)) x.2.2.name
  have about := h.refusals.problemsAbout_eq registered subjects hx found
  rw [lookup] at query
  constructor
  case origin =>
    obtain ⟨o, ho, written⟩ := Option.bind_eq_some_iff.1 origin
    obtain ⟨m, hm, here⟩ := Option.bind_eq_some_iff.1 written
    obtain ⟨y, hy, e⟩ := Option.map_eq_some_iff.1 here
    exact ⟨o, m, ho, hm, congrArg Prod.fst e, hy.trans (congrArg (some ·.2) e)⟩
  case definition? =>
    rw [definition?, origin]
    rfl
  case assignment? =>
    obtain ⟨name, hn, entry⟩ := registered.entry x.1 x.2.1 x.2.2 origin
    obtain ⟨a, ha, heading⟩ := Option.map_eq_some_iff.1 entry
    obtain ⟨type, oid, state⟩ := fresh.undecided x.1 a ha
    refine ⟨name, Strings.get_of_find? hn, ?_⟩
    rw [registered.isRefused_eq hx] at state
    simp only [decide_eq_true_eq] at state
    have whole : a = { a.heading with type := a.type, oid := a.oid, state := a.state } := rfl
    rw [heading, type, oid, state] at whole
    rw [ha, ← h.registered.definitions_eq_declared]
    exact congrArg some whole
  case found =>
    rw [← h.registered.definitions_eq_declared]
    intro single
    have itself : first.1 = x.1 := by
      have le := isFirst.le x hx rfl
      rw [isRepeat_iff isFirst] at single
      exact congrArg Ident.mk (Nat.le_antisymm le (Nat.le_of_not_lt single))
    rw [if_neg single] at about
    rw [itself] at lookup query
    exact ⟨lookup, query, about⟩
  case refused =>
    rw [← h.registered.definitions_eq_declared]
    intro again
    rw [if_pos again] at about
    exact ⟨first, isFirst, lookup, query, about⟩

end Enrolled

/-! ## A corpus -/

/-- Modules `ns` are `ms` in the order of their names, where those of one name keep their order. -/
structure SortsByName (ms ns : List Module) : Prop where
  perm : ns.Perm ms
  sorted : ns.Pairwise fun m n => m.name ≤ n.name
  stable : ∀ name, ns.filter (·.name = name) = ms.filter (·.name = name)

/-- What registration makes of a corpus. The modules of a file are offered in the order of their
names; the first ones of each name are entered, then generated ones, and their definitions in
order. What is reported is a file that could not be parsed, a module offered whose name is taken, or
a definition whose name is taken in its module. -/
structure Enrols (policy : Policy) (fs : List ParsedFile) (d : Draft) : Prop where
  files : d.HasFiles (fs.map (·.path))
  order : ∀ f ∈ fs, SortsByName f.modules (byName f.modules)
  modules : d.modules.toList = entered (admitted policy fs)
  listing : d.mib.moduleListing = (entered (admitted policy fs)).map fun m =>
    (m.source.name, m.id, m.file.isNone)
  fileOf : ∀ m ∈ d.modules.toList, d.fileOf m.id = m.file
  /-- For the assignments are kept the places of the definitions of these modules, in order. -/
  origins : d.origins.toList = places (entered (admitted policy fs))
  definitions : d.definitions = declared (entered (admitted policy fs))
  size : d.mib.assignments.size = d.definitions.length
  enters : ∀ x ∈ d.definitions, d.Enters (entered (admitted policy fs)) x
  failures : d.problemsOf .parseFailure = unreadable fs
  copies : d.problemsOf .duplicateModule =
    (doublesBy Offer.name (supplied fs)).map fun o => o.1.refusal o.2
  refusals : d.problemsOf .duplicateDefinition = (doublesBy slot d.definitions).map fun x =>
    refusal (entered (admitted policy fs)) x.1 x.2
  others : ∀ p ∈ d.mib.problems.toList,
    p.kind ∈ [.parseFailure, .duplicateModule, .duplicateDefinition]

/-- Modules of one file are sorted by name, with those of equal names as they were. -/
lemma sortsByName_byName (ms : List Module) : SortsByName ms (byName ms) :=
  ⟨perm_byName ms, pairwise_byName ms, filter_byName ms⟩

/-- Registration enters the first module of each name and all their definitions in order, leaves
out those whose names are taken, and reports these, the other modules and the files that could not
be parsed. -/
theorem enrols_register (policy : Policy) (files : List ParsedFile) (r : Recorder) :
    Enrols policy files ((Draft.new policy).register files r).1 := by
  have enrolled := enrolled_register policy files r
  have registers := registers_register (Draft.new policy) files r
  have fresh := registers.fresh (registered_new policy) (fresh_new policy)
  have ledger := (accounts_register policy files r).ledger
  have agree := (namesAgree_after policy [.register files] r).queriesAgree
    (closed_after policy _ r) (numbered_after policy _ r)
  have flags := flags_register policy files r
  have modules := enrolled.modules
  rw [firstsBy_generated] at modules
  have definitions := enrolled.registered.definitions_eq_declared
  refine ⟨enrolled.files, fun f _ => sortsByName_byName f.modules, modules, ?listing, ?fileOf,
    ?origins, ?definitions, ?size, ?enters, enrolled.failures, ?copies, ?refusals, ?others⟩
  case listing => rw [enrolled.registered.modules.moduleListing_eq flags, modules]
  case fileOf =>
    intro m hm
    obtain ⟨i, hi⟩ := List.mem_iff_getElem?.1 hm
    rw [Array.getElem?_toList] at hi
    rw [(enrolled.registered.modules.entry i m hi).1]
    exact enrolled.registered.modules.fileOf_eq hi
  case origins =>
    rw [← modules]
    exact enrolled.registered.modules.origins
  case definitions =>
    rw [← modules]
    exact definitions
  case size =>
    have registered := enrolled.registered.definitions
    rw [registered.size, registered.definitions_eq, List.length_map, List.length_zipIdx,
      registered.length_owners]
  case enters =>
    intro x hx
    rw [← modules]
    exact enrolled.enters fresh ledger.subjects agree hx
  case copies =>
    -- Generated modules have new names, so none of them is a copy.
    obtain ⟨nodup, new⟩ := generated_names policy files
    rw [enrolled.copies, doublesBy_append nodup new]
  case refusals =>
    rw [← modules]
    exact enrolled.refusals
  case others =>
    intro p hp
    obtain ⟨new, problems, phases⟩ := registers.reports
    rw [problems] at hp
    have phase : p.kind.phase = .registration := phases p hp
    revert phase
    cases p.kind <;> decide

end Draft

end MibCorpus
