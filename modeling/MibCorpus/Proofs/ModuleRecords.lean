import MibCorpus.Proofs.Backdrop
import MibCorpus.Proofs.OwnDefinitions
import MibCorpus.Proofs.Run

/-!
# Module records

A model says of each module what it is called, whether it was generated, and what it imports,
leaving out macros and repeated imports. All of this can be read off the modules as written.
-/

namespace MibCorpus

/-- What a model says of a module. An import has its symbol, the source as written, the name of the
source if it exists, and the place. -/
structure ModuleRecord where
  name : String
  synthetic : Bool
  imports : List (String × String × Option String × Span)
  deriving DecidableEq

namespace Mib

/-- What a model says of an import. -/
def importRecord (mib : Mib) (e : ImportEntry) : String × String × Option String × Span :=
  (mib.str e.symbol, mib.str e.sourceName, e.source.map mib.moduleName, e.span)

/-- What a model says of its modules, in order. -/
def moduleRecords (mib : Mib) : List ModuleRecord :=
  mib.modules.toList.map fun e => ⟨mib.str e.name, e.synthetic, e.imports.map mib.importRecord⟩

/-- Which modules were generated. -/
def syntheticFlags (mib : Mib) : List Bool := mib.modules.toList.map (·.synthetic)

/-- The names of the modules that were generated, in order. -/
def syntheticModules (mib : Mib) : List String :=
  (mib.moduleRecords.filter (·.synthetic)).map (·.name)

end Mib

/-- What is said of a module as written where modules of some names exist. -/
def Module.record (names : List String) (m : Module) (synthetic : Bool) : ModuleRecord :=
  ⟨m.name, synthetic, (Draft.writtenImports m.imports).map fun i =>
    (i.symbol, i.source, if i.source ∈ names then some i.source else none, i.span)⟩

namespace Draft

variable {d d' d'' : Draft}

/-! ## Registration -/

/-- Which modules were generated, with what they import so far. -/
def covers (d : Draft) : List (Bool × List ImportEntry) :=
  d.mib.modules.toList.map fun e => (e.synthetic, e.imports)

/-- Some modules are added that import nothing so far. -/
def Covers (synthetic : Bool) (d d' : Draft) : Prop :=
  ∃ n, d'.covers = d.covers ++ List.replicate n (synthetic, [])

/-- The covers of the modules stay where nothing is said about them. -/
lemma Covers.of_eq {synthetic : Bool} (h : d'.covers = d.covers) : Covers synthetic d d' :=
  ⟨0, by simp [h]⟩

/-- Covers are added one behind another. -/
lemma Covers.trans {synthetic : Bool} (h : Covers synthetic d d') (h' : Covers synthetic d' d'') :
    Covers synthetic d d'' := by
  obtain ⟨n, e⟩ := h
  obtain ⟨k, e'⟩ := h'
  exact ⟨n + k, by rw [e', e, List.append_assoc, List.replicate_append_replicate]⟩

/-- Steps that add modules, one after another. -/
lemma covers_foldl {α : Type} {synthetic : Bool} {f : Draft × Recorder → α → Draft × Recorder}
    (step : ∀ dr x, Covers synthetic dr.1 (f dr x).1) (xs : List α) (dr : Draft × Recorder) :
    Covers synthetic dr.1 (xs.foldl f dr).1 := by
  induction xs generalizing dr with
  | nil => exact .of_eq rfl
  | cons x xs ih => exact (step dr x).trans (ih _)

/-- Registering a definition leaves the covers alone. -/
lemma covers_registerDefinition (d : Draft) (m : RegisteredModule) (o : Origin) (x : Definition) :
    (d.registerDefinition m o x).covers = d.covers := by
  cases h : d.scope.lookup? m.id x.name with
  | none =>
    rw [registerDefinition_free d m o x h]
    have kept := map_modify_of_keeps (g := fun e : ModuleEntry => (e.synthetic, e.imports))
      (f := fun e => { e with assignments := e.assignments ++ [⟨d.mib.assignments.size⟩] })
      d.mib.modules m.id.index fun _ => rfl
    simpa [covers] using congrArg Array.toList kept
  | some _ =>
    rw [registerDefinition_taken d m o x h]
    rfl

/-- An accepted module has a cover of its own, without imports. It was generated if it has no
file. -/
lemma covers_acceptModule (d : Draft) (name : StrId) (file : Option FileId) (source : Module) :
    (d.acceptModule name file source).2.covers = d.covers ++ [(file.isNone, [])] := by
  have announced : (d.announced name file source).covers = d.covers ++ [(file.isNone, [])] := by
    simp [announced, Mib.addModule, covers]
  rw [← announced]
  exact foldl_keeps covers (fun e x => covers_registerDefinition e (d.accepted file source) _ x.1)
    source.definitions.zipIdx (d.announced name file source)

/-- Registering a module adds its cover, unless it is refused. -/
lemma covers_registerModule (file : Option FileId) (dr : Draft × Recorder) (source : Module) :
    Covers file.isNone dr.1 (registerModule file dr source).1 := by
  unfold registerModule
  simp only
  split
  · exact .of_eq rfl
  · exact ⟨1, covers_acceptModule _ _ file source⟩

/-- Registering a file adds the covers of its modules, none of which was generated. -/
lemma covers_registerFile (dr : Draft × Recorder) (f : ParsedFile) :
    Covers false dr.1 (registerFile dr f).1 := by
  unfold registerFile
  simp only
  cases f.result with
  | ok ms =>
    exact covers_foldl (covers_registerModule (some ⟨dr.1.mib.files.size⟩)) (byName ms)
      ({ dr.1 with mib := (dr.1.mib.addFile f.path).2 }, dr.2)
  | error failure => exact .of_eq rfl

/-- Generating base modules adds the covers of modules that were generated. -/
lemma covers_generateLacking (candidates : List BaseModule) (dr : Draft × Recorder) :
    Covers true dr.1 (generateLacking candidates dr).1 := by
  fun_induction generateLacking candidates dr with
  | case1 candidates dr others lt ih =>
    have step : ∀ dr (b : BaseModule), Covers true dr.1 (registerModule none dr b.source).1 :=
      fun dr b => covers_registerModule none dr b.source
    exact (covers_foldl step (dr.1.lacking candidates) dr).trans ih
  | case2 => exact .of_eq rfl

/-- There is one cover for each module. -/
lemma Registered.length_covers (h : d.Registered) : d.covers.length = d.sources.length := by
  rw [covers, sources, List.length_map, List.length_map, Array.length_toList, Array.length_toList,
    h.modules.size]

/-- Behind the modules of the corpus come those that were generated. -/
theorem covers_register (policy : Policy) (fs : List ParsedFile) (r : Recorder) :
    ∃ k, ((Draft.new policy).register fs r).1.covers =
      List.replicate (firstsBy (·.name) [] (offered fs)).length (false, []) ++
        List.replicate k (true, []) := by
  obtain ⟨n, files⟩ := covers_foldl covers_registerFile fs (.new policy, r)
  have admitted := admits_foldl_registerFile fs (.new policy, r) (registered_new policy)
  have length : n = (firstsBy (·.name) [] (offered fs)).length := by
    have all := admitted.registered.length_covers
    rw [files, admitted.sources, List.length_append, List.length_replicate] at all
    simpa [covers, sources, new, Mib.empty, MibParts.empty, offered] using all
  have files : (fs.foldl registerFile (.new policy, r)).1.covers =
      List.replicate (firstsBy (·.name) [] (offered fs)).length (false, []) := by
    rw [files, length]
    rfl
  unfold register
  simp only
  split
  · obtain ⟨k, base⟩ :=
      covers_generateLacking BaseModule.all (fs.foldl registerFile (.new policy, r))
    exact ⟨k, by rw [base, files]⟩
  · exact ⟨0, by rw [files]; simp⟩

/-- Whether a module was generated is said on its cover. -/
lemma syntheticFlags_eq (d : Draft) : d.mib.syntheticFlags = d.covers.map Prod.fst := by
  rw [covers, List.map_map]
  rfl

/-- Nothing is imported while modules are registered. -/
lemma bare_register (policy : Policy) (fs : List ParsedFile) (r : Recorder) :
    ∀ c ∈ ((Draft.new policy).register fs r).1.covers, c.2 = [] := by
  obtain ⟨k, covers⟩ := covers_register policy fs r
  intro c hc
  rw [covers, List.mem_append, List.mem_replicate, List.mem_replicate] at hc
  rcases hc with ⟨-, rfl⟩ | ⟨-, rfl⟩ <;> rfl

/-- Behind the modules of the corpus come those that were generated. -/
lemma syntheticFlags_register (policy : Policy) (fs : List ParsedFile) (r : Recorder) :
    ((Draft.new policy).register fs r).1.mib.syntheticFlags =
      List.replicate (firstsBy (·.name) [] (offered fs)).length false ++
        List.replicate
          ((registeredSources policy fs).length - (firstsBy (·.name) [] (offered fs)).length)
          true := by
  obtain ⟨k, covers⟩ := covers_register policy fs r
  have accounts := accounts_register policy fs r
  have length := accounts.registered.length_covers
  rw [covers, accounts.sources, List.length_append, List.length_replicate, List.length_replicate]
    at length
  rw [syntheticFlags_eq, covers, List.map_append, List.map_replicate, List.map_replicate, ← length,
    Nat.add_sub_cancel_left]

/-! ## Linking -/

/-- An entry of a model lists an import. -/
structure ListsImport (source? : String → Option ModuleId) (t : Strings) (i : Import)
    (e : ImportEntry) : Prop where
  symbol : t.find? i.symbol = some e.symbol
  sourceName : t.find? i.source = some e.sourceName
  source : e.source = source? i.source
  span : e.span = i.span

/-- Identifiers of strings stay right as strings are added. -/
lemma ListsImport.of_extends {source? : String → Option ModuleId} {t u : Strings} {i : Import}
    {e : ImportEntry} (h : ListsImport source? t i e) (x : t.Extends u) :
    ListsImport source? u i e :=
  ⟨x.find? h.symbol, x.find? h.sourceName, h.source, h.span⟩

/-- The modules list these imports and no others. -/
def ListsImports (source? : String → Option ModuleId) (ps : List (ModuleId × Import)) (d : Draft) :
    Prop :=
  ∀ m e, d.mib.module? m = some e → List.Forall₂ (ListsImport source? d.mib.strings)
    ((ps.filter (·.1 = m)).map Prod.snd) e.imports

section ListsImports

variable {source? : String → Option ModuleId} {ps : List (ModuleId × Import)}

/-- Recording problems leaves the imports as they are listed. -/
lemma ListsImports.recordAll (h : ListsImports source? ps d) (qs : List Problem) :
    ListsImports source? ps (d.recordAll qs) := by
  rw [recordAll_eq]
  exact h

/-- Binding an import lists it. -/
lemma ListsImports.bindNewImport (h : ListsImports d.scope.module? ps d) (m : ModuleId)
    (i : Import) : ListsImports d.scope.module? (ps ++ [(m, i)]) (d.bindNewImport m i) := by
  have first := Strings.extends_intern d.mib.strings i.symbol
  have second := Strings.extends_intern (d.mib.strings.intern i.symbol).2 i.source
  intro n e' he'
  have changed : (d.bindNewImport m i).mib.module? n = (d.mib.module? n).map fun e =>
      if m.index = n.index then { e with imports := e.imports ++ [⟨(d.mib.intern i.symbol).1,
        ((d.mib.intern i.symbol).2.intern i.source).1, d.scope.module? i.source, i.span⟩] }
      else e := by
    refine Array.getElem?_modify.trans ?_
    split
    · rfl
    · exact Option.map_id'.symm
  obtain ⟨e, he, rfl⟩ := Option.map_eq_some_iff.1 (changed.symm.trans he')
  have before : List.Forall₂ (ListsImport d.scope.module? (d.bindNewImport m i).mib.strings)
      ((ps.filter (·.1 = n)).map Prod.snd) e.imports :=
    (h n e he).imp fun _ _ x => x.of_extends (first.trans second)
  rw [List.filter_append, List.map_append]
  by_cases here : m = n
  · subst here
    have last : ListsImport d.scope.module? (d.bindNewImport m i).mib.strings i
        ⟨(d.mib.intern i.symbol).1, ((d.mib.intern i.symbol).2.intern i.source).1,
          d.scope.module? i.source, i.span⟩ :=
      ⟨second.find? (Strings.find?_intern _ _), Strings.find?_intern _ _, rfl, rfl⟩
    rw [if_pos rfl, List.filter_cons_of_pos (by simp)]
    exact List.rel_append before (.cons last .nil)
  · have other : m.index ≠ n.index := fun same => here (congrArg Ident.mk same)
    rw [if_neg other, List.filter_cons_of_neg (by simpa using here)]
    simpa only [List.filter_nil, List.map_nil, List.append_nil] using before

/-- The new imports of a module are listed. -/
lemma ListsImports.linkImports (m : RegisteredModule) (is : List Import) (st : LinkState)
    (h : ListsImports st.draft.scope.module? ps st.draft) :
    ListsImports st.draft.scope.module? (ps ++ (newImports st.seen is).map (m.id, ·))
      (is.foldl (linkImport m) st).draft := by
  induction is generalizing ps st with
  | nil => simpa [newImports] using h
  | cons i is ih =>
    rw [List.foldl_cons]
    by_cases seen : (i.symbol, i.source) ∈ st.seen
    · rw [linkImport_seen m st i seen, newImports, if_pos (List.contains_iff_mem.2 seen)]
      exact ih _ (h.recordAll [_])
    · rw [newImports, if_neg (mt List.contains_iff_mem.1 seen)]
      have rest := @ih (ps ++ [(m.id, i)]) (linkImport m st i)
      rw [linkImport_new m st i seen] at rest ⊢
      rw [module?_bindNewImport, scope_recordAll, List.append_assoc] at rest
      refine rest ?_
      generalize newImportProblems st.draft.scope.module? m st.seen st.absent i = qs
      have before :
        ListsImports (st.draft.recordAll qs).scope.module? ps (st.draft.recordAll qs) := by
        rw [scope_recordAll]
        exact h.recordAll qs
      have bound := before.bindNewImport m.id i
      rwa [scope_recordAll] at bound

/-- The imports of the modules are listed module by module. -/
lemma ListsImports.linkModules (ms : List RegisteredModule) (dc : Draft × List ImportCheck)
    (h : ListsImports dc.1.scope.module? ps dc.1) :
    ListsImports dc.1.scope.module?
      (ps ++ ms.flatMap fun m => (boundImports m).map (m.id, ·)) (ms.foldl linkModule dc).1 := by
  induction ms generalizing ps dc with
  | nil => simpa using h
  | cons m ms ih =>
    have head := h.linkImports m (m.source.imports.filter (!·.isMacro)) ⟨dc.1, [], [], dc.2⟩
    have same : (linkModule dc m).1.scope.module? = dc.1.scope.module? :=
      funext (module?_of_registry (linksImports m _ ⟨dc.1, [], [], dc.2⟩).links.continues.registry)
    have tail := ih (linkModule dc m) (same ▸ head)
    rw [same, List.append_assoc] at tail
    exact tail

end ListsImports

/-- Linking lists the imports of each module as they are written. -/
lemma Registered.listsImports_link (h : d.Registered) (bare : ∀ c ∈ d.covers, c.2 = [])
    {m : ModuleId} {s : Module} (hs : d.sources[m.index]? = some s) {e : ModuleEntry}
    (he : d.link.mib.module? m = some e) :
    List.Forall₂ (ListsImport d.scope.module? d.link.mib.strings) (writtenImports s.imports)
      e.imports := by
  have start : ListsImports d.scope.module? [] d := by
    intro n e he
    have mem : (e.synthetic, e.imports) ∈ d.covers :=
      List.mem_map.2 ⟨e, Array.mem_toList_iff.2 (Array.mem_of_getElem? he), rfl⟩
    rw [show e.imports = [] from bare _ mem]
    exact .nil
  have linked := start.linkModules d.modules.toList (d, [])
  rw [List.nil_append] at linked
  have all : ListsImports d.scope.module?
      (d.modules.toList.flatMap fun m => (boundImports m).map (m.id, ·)) d.link := by
    rw [link_eq_recordAll]
    exact linked.recordAll _
  obtain ⟨r, hr, rfl⟩ := Option.map_eq_some_iff.1 ((getElem?_sources ..).symm.trans hs)
  obtain rfl : r.id = m := (h.modules.entry m.index r hr).1
  have mem : r ∈ d.modules.toList := List.mem_of_getElem? (by rwa [Array.getElem?_toList])
  have named : ∀ q ∈ d.modules.toList, ∀ p ∈ (boundImports q).map (q.id, ·), p.1 = q.id := by
    intro q _ p hp
    obtain ⟨i, -, rfl⟩ := List.mem_map.1 hp
    rfl
  have own := filter_flatMap_eq named h.modules.nodup_ids mem
  have listed := all r.id e he
  rw [own, List.map_map] at listed
  simpa [writtenImports, boundImports, Function.comp_def] using listed

/-! ## Records -/

/-- A module that is found by its name has this name. -/
lemma Registered.map_moduleName_module? (h : d.Registered) (name : String) :
    (d.scope.module? name).map d.mib.moduleName =
      if name ∈ d.sources.map (·.name) then some name else none := by
  split
  next taken =>
    obtain ⟨m, hm⟩ := Option.isSome_iff_exists.1 (h.isSome_module? taken)
    obtain ⟨s, hs, rfl⟩ := h.exists_source_of_module? hm
    rw [hm, Option.map_some, h.moduleName_eq hs]
  next free =>
    rw [h.module?_eq_none free]
    rfl

/-- The entry of an import says what is written. -/
lemma Registered.importRecord_eq (h : d.Registered) {i : Import} {e : ImportEntry}
    (listed : ListsImport d.scope.module? d.mib.strings i e) :
    d.mib.importRecord e = (i.symbol, i.source,
      if i.source ∈ d.sources.map (·.name) then some i.source else none, i.span) := by
  rw [Mib.importRecord, Mib.str, Mib.str, Strings.get_of_find? listed.symbol,
    Strings.get_of_find? listed.sourceName, listed.source, listed.span, h.map_moduleName_module?]

/-- Which modules were generated can be read off the registry. -/
lemma syntheticFlags_of_registry (h : d'.registry = d.registry) :
    d'.mib.syntheticFlags = d.mib.syntheticFlags := by
  have e := congrArg (fun r => r.modules.toList.map (·.synthetic)) h
  simpa [registry, Mib.syntheticFlags, ModuleEntry.heading, Function.comp_def] using e

/-- What a model says of its modules once they are linked can be read off the modules as written. -/
theorem Registered.moduleRecords_eq (h : d.Registered) (bare : ∀ c ∈ d.covers, c.2 = []) {e : Draft}
    (c : Continues d.link e)
    (imports : e.mib.modules.map (·.imports) = d.link.mib.modules.map (·.imports)) :
    e.mib.moduleRecords = List.zipWith (Module.record (d.sources.map (·.name))) d.sources
      d.mib.syntheticFlags := by
  have links := (linked_link d).links.continues
  have all := links.trans c
  have h' := h.of_continues all
  have sources : e.sources = d.sources := sources_of_registry all.registry
  have flags := syntheticFlags_of_registry all.registry
  refine List.ext_getElem? fun k => ?_
  rw [List.getElem?_zipWith, ← flags, Mib.moduleRecords, Mib.syntheticFlags, List.getElem?_map,
    List.getElem?_map, Array.getElem?_toList]
  have size : e.mib.modules.size = d.sources.length := by
    rw [h'.modules.size, ← sources, Draft.sources, List.length_map, Array.length_toList]
  cases hs : d.sources[k]? with
  | none =>
    rw [Array.getElem?_eq_none (by rw [size]; exact List.getElem?_eq_none_iff.1 hs)]
    rfl
  | some s =>
    obtain ⟨entry, he⟩ : ∃ entry, e.mib.modules[k]? = some entry :=
      ⟨_, Array.getElem?_eq_getElem (by rw [size]; exact (List.getElem?_eq_some_iff.1 hs).1)⟩
    obtain ⟨r, hr, rfl⟩ := Option.map_eq_some_iff.1 ((getElem?_sources ..).symm.trans hs)
    -- Name and imports of the entry stand for what the module is written with.
    have named : e.mib.str entry.name = r.source.name := by
      have name := h'.moduleName_eq (m := ⟨k⟩) (sources ▸ hs)
      rwa [Mib.moduleName, Mib.module?, he] at name
    obtain ⟨linked, hl, same⟩ : ∃ linked, d.link.mib.module? ⟨k⟩ = some linked ∧
        entry.imports = linked.imports := by
      have at_k := congrArg (·[k]?) imports
      simp only [Array.getElem?_map, he, Option.map_some] at at_k
      obtain ⟨linked, hl, same⟩ := Option.map_eq_some_iff.1 at_k.symm
      exact ⟨linked, hl, same.symm⟩
    have listed := (h.listsImports_link bare hs hl).imp fun _ _ x => x.of_extends c.strings
    have imported : entry.imports.map e.mib.importRecord =
        (writtenImports r.source.imports).map fun i => (i.symbol, i.source,
          if i.source ∈ d.sources.map (·.name) then some i.source else none, i.span) := by
      rw [same, ← sources, ← List.forall₂_eq_eq_eq, List.forall₂_map_left_iff,
        List.forall₂_map_right_iff]
      refine listed.flip.imp fun entry i x => h'.importRecord_eq ?_
      rwa [show e.scope.module? = d.scope.module? from funext (module?_of_registry all.registry)]
    simp only [he, Option.map_some, Module.record, named, imported]

/-- What is said of the modules can be read off the modules that are registered. -/
lemma moduleRecords_finalize (policy : Policy) (fs : List ParsedFile) (r types oids : Recorder) :
    (decided policy fs r types oids).finalize.mib.moduleRecords =
      List.zipWith (Module.record ((registeredSources policy fs).map (·.name)))
        (registeredSources policy fs) ((Draft.new policy).register fs r).1.mib.syntheticFlags := by
  have accounts := accounts_register policy fs r
  have stages := stages_of_register policy fs r types oids
  have finalizes := finalizes_finalize (decided policy fs r types oids)
  have kept := congrArg Backdrop.imports ((backdrop_resolveOids
    (((Draft.new policy).register fs r).1.link.resolveTypes types).1 oids).trans
    (backdrop_resolveTypes ((Draft.new policy).register fs r).1.link types))
  have records := accounts.registered.moduleRecords_eq (bare_register policy fs r) stages.continues
    ((congrArg (·.map (·.imports)) finalizes.modules).trans kept)
  rwa [accounts.sources] at records

/-- The modules that were generated are the base modules that the corpus lacks. -/
theorem syntheticModules_finalize (policy : Policy) (fs : List ParsedFile)
    (r types oids : Recorder) : (decided policy fs r types oids).finalize.mib.syntheticModules =
      (generatedModules policy fs).map (·.name) := by
  have written : ∀ (b : Bool) (ms : List Module) (names : List String),
      List.zipWith (Module.record names) ms (List.replicate ms.length b) =
        ms.map (Module.record names · b) := fun b ms names => by
    induction ms with
    | nil => rfl
    | cons m ms ih => exact congrArg (m.record names b :: ·) ih
  have generated : ∀ (bs : List BaseModule) (names : List String),
      (((bs.map (·.source)).map (Module.record names · true)).filter (·.synthetic)).map (·.name) =
        bs.map (·.name) := fun bs names => by
    rw [List.map_map, List.filter_eq_self.2 fun r hr => ?_, List.map_map]
    · rfl
    · obtain ⟨b, -, rfl⟩ := List.mem_map.1 hr
      rfl
  rw [Mib.syntheticModules, moduleRecords_finalize, syntheticFlags_register]
  generalize (registeredSources policy fs).map (·.name) = names
  rw [registeredSources_eq, List.length_append, Nat.add_sub_cancel_left,
    List.zipWith_append (List.length_replicate ..).symm, written, written, List.filter_append,
    List.filter_eq_nil_iff.2 fun r hr => ?_, List.nil_append, generated]
  obtain ⟨m, -, rfl⟩ := List.mem_map.1 hr
  exact Bool.false_ne_true

end Draft

end MibCorpus
