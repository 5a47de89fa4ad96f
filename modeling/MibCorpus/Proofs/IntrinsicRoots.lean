import MibCorpus.Proofs.AssignedOids
import MibCorpus.Proofs.Chronicle
import MibCorpus.Proofs.ImportAccounts
import MibCorpus.Proofs.Lookups

/-!
# Intrinsic roots

The names of the topmost arcs are no assignments. Where nothing defines such a name, an OID value
may start from it in every module, whether the module imports the name or not, and whether the
modules that it is imported from are there or not. The one thing that matters is that imports do not
leave it open where the name comes from: if they lead to a module that imports it from several
others, the name is ambiguous, and a value that starts from it gets no OID.
-/

namespace MibCorpus

/-! ## Imports as written -/

/-- Among modules `ms`, the one at `m` imports a name from the one at `s`. -/
def ImportsFrom (ms : List Module) (name : String) (m s : ModuleId) : Prop :=
  ∃ w u, ms[m.index]? = some w ∧ ms[s.index]? = some u ∧
    ∃ i ∈ w.imports, i.isMacro = false ∧ i.symbol = name ∧ i.source = u.name

/-- Imports of a name lead from module `m` to one that imports it from several modules, through
modules that import it from one other each. -/
inductive Forks (ms : List Module) (name : String) : ModuleId → Prop where
  | here {m s s' : ModuleId} (one : ImportsFrom ms name m s) (other : ImportsFrom ms name m s')
      (distinct : s ≠ s') : Forks ms name m
  | passed {m s : ModuleId} (only : ∀ s', ImportsFrom ms name m s' ↔ s' = s)
      (rest : Forks ms name s) : Forks ms name m

namespace Scope

variable {source? : String → Option ModuleId} {name : String}

/-- The sources of a name are collected import by import. -/
lemma boundSources_cons (old : Option (List (Option ModuleId))) (i : Import) (is : List Import) :
    boundSources source? name old (i :: is) =
      boundSources source? name
        (if i.symbol = name then some (addSource (old.getD []) (source? i.source)) else old) is :=
  rfl

/-- One more source adds just that source. -/
lemma mem_addSource {sources : List (Option ModuleId)} {s source : Option ModuleId} :
    s ∈ addSource sources source ↔ s ∈ sources ∨ s = source := by
  unfold addSource
  split
  next old =>
    refine ⟨.inl, fun mem => mem.elim id fun e => ?_⟩
    rw [e]
    exact List.contains_iff_mem.1 old
  next => simp

/-- The sources of a name are those before and those of the imports of it. -/
lemma mem_boundSources_iff (old : Option (List (Option ModuleId))) (is : List Import)
    {s : Option ModuleId} : s ∈ (boundSources source? name old is).getD [] ↔
      s ∈ old.getD [] ∨ ∃ i ∈ is, i.symbol = name ∧ source? i.source = s := by
  induction is generalizing old with
  | nil => simp [boundSources]
  | cons i is ih =>
    rw [boundSources_cons, ih, List.exists_mem_cons_iff]
    split
    next same => rw [Option.getD_some, mem_addSource, or_assoc]; simp [same, eq_comm]
    next other => simp [other]

/-- Each source counts once. -/
lemma nodup_boundSources {old : Option (List (Option ModuleId))} (is : List Import)
    (distinct : (old.getD []).Nodup) : ((boundSources source? name old is).getD []).Nodup := by
  induction is generalizing old with
  | nil => exact distinct
  | cons i is ih =>
    rw [boundSources_cons]
    refine ih ?_
    split
    · rw [Option.getD_some, addSource]
      split
      next => exact distinct
      next new => exact List.concat_eq_append ▸ distinct.concat (by simpa using new)
    · exact distinct

end Scope

namespace Draft

variable {d : Draft} {name : String} {m s : ModuleId}

/-! ## Imports as bound -/

/-- What is imported, macros aside, is bound under its symbol to its source. -/
lemma exists_mem_writtenImports_iff {is : List Import} {symbol source : String} :
    (∃ i ∈ writtenImports is, i.symbol = symbol ∧ i.source = source) ↔
      ∃ i ∈ is, i.isMacro = false ∧ i.symbol = symbol ∧ i.source = source := by
  have keys : (symbol, source) ∈ (writtenImports is).map (fun i => (i.symbol, i.source)) ↔
      (symbol, source) ∈ (is.filter (!·.isMacro)).map (fun i => (i.symbol, i.source)) ∧
        (symbol, source) ∉ [] := by
    rw [writtenImports, newImports_eq_firstsBy]
    exact mem_keys_firstsBy
  simpa [and_assoc] using keys

section Registered

variable (h : d.Registered) (bare : d.scope.imports = .empty)
include h bare

/-- The sources of a name after linking are the modules that it is imported from. -/
lemma Registered.mem_sources_iff (nodup : (d.sources.map (·.name)).Nodup) :
    s ∈ (d.link.scope.view name).sources m ↔ ImportsFrom d.sources name m s := by
  have each : s ∈ (d.link.scope.view name).sources m ↔
      ∃ i ∈ (d.sources[m.index]?).elim [] fun w => writtenImports w.imports,
        i.symbol = name ∧ d.scope.module? i.source = some s := by
    simp only [Scope.view, List.mem_filterMap, id_eq, exists_eq_right, h.bindings_link bare,
      Scope.mem_boundSources_iff, Option.getD_none, List.not_mem_nil, false_or]
  rw [each]
  constructor
  · rintro ⟨i, hi, symbol, found⟩
    obtain ⟨u, hu, source⟩ := (h.module?_eq_some_iff nodup).1 found
    cases hw : d.sources[m.index]? with
    | none =>
      rw [hw] at hi
      cases hi
    | some w =>
      rw [hw] at hi
      exact ⟨w, u, hw, hu, exists_mem_writtenImports_iff.1 ⟨i, hi, symbol, source.symm⟩⟩
  · rintro ⟨w, u, hw, hu, written⟩
    obtain ⟨i, hi, symbol, source⟩ := exists_mem_writtenImports_iff.2 written
    refine ⟨i, by rwa [hw], symbol, (h.module?_eq_some_iff nodup).2 ⟨u, hu, source.symm⟩⟩

/-- The sources of a name in a linked module are distinct. -/
lemma Registered.nodup_sources : ((d.link.scope.view name).sources m).Nodup := by
  have bound : ((d.link.scope.bindings m name).getD []).Nodup := by
    rw [h.bindings_link bare]
    exact Scope.nodup_boundSources _ List.nodup_nil
  refine bound.filterMap fun a a' s ha ha' => ?_
  rw [Option.mem_def, id_eq] at ha ha'
  rw [ha, ha']

end Registered

end Draft

/-! ## Ambiguous names -/

namespace NameView

variable {v : NameView} {ms : List Module} {name : String} {m s : ModuleId}

/-- No import of a name forks among modules with one source or none that all lead back to them. -/
lemma not_forks_of_closed (sources : ∀ m s, s ∈ v.sources m ↔ ImportsFrom ms name m s)
    {chain : List ModuleId}
    (closed : ∀ x ∈ chain, v.sources x = [] ∨ ∃ s ∈ chain, v.sources x = [s]) (hm : m ∈ chain) :
    ¬Forks ms name m := by
  intro forks
  induction forks with
  | here one other distinct =>
    rw [← sources] at one other
    rcases closed _ hm with e | ⟨s, -, e⟩
    · rw [e] at one
      cases one
    · rw [e, List.mem_singleton] at one other
      exact distinct (one.trans other.symm)
  | passed only _ ih =>
    have next := (sources ..).2 ((only _).2 rfl)
    rcases closed _ hm with e | ⟨s, hs, e⟩
    · rw [e] at next
      cases next
    · rw [e, List.mem_singleton] at next
      exact ih (next ▸ hs)

/-- All but the last module of a chain have the next one as their source. -/
lemma Chain.exists_next {chain : List ModuleId} {last : ModuleId} (h : v.Chain chain m last) :
    ∀ x ∈ chain.dropLast, ∃ s ∈ chain, v.sources x = [s] := by
  induction h using Chain.induction with
  | single => exact nofun
  | cons undefined source _ rest ih =>
    rw [List.dropLast_cons_of_ne_nil rest.ne_nil, List.forall_mem_cons]
    refine ⟨⟨_, List.mem_cons_of_mem _ (List.mem_of_head? rest.first), source⟩, fun x hx => ?_⟩
    obtain ⟨s, hs, next⟩ := ih x hx
    exact ⟨s, List.mem_cons_of_mem _ hs, next⟩

/-- The imports of a name fork behind a chain to a module that has several sources of it. -/
lemma Chain.forks (sources : ∀ m s, s ∈ v.sources m ↔ ImportsFrom ms name m s)
    (nodup : ∀ m, (v.sources m).Nodup) {chain : List ModuleId} {last : ModuleId}
    (h : v.Chain chain m last) (many : 2 ≤ (v.sources last).length) : Forks ms name m := by
  induction h using Chain.induction with
  | single =>
    have distinct := nodup last
    match listed : v.sources last, many with
    | s :: s' :: rest, _ =>
      rw [listed] at distinct
      have one := (sources last s).1 (listed ▸ List.mem_cons_self ..)
      have other := (sources last s').1 (listed ▸ List.mem_cons_of_mem _ (List.mem_cons_self ..))
      refine .here one other fun same => ?_
      exact (List.nodup_cons.1 distinct).1 (same ▸ List.mem_cons_self ..)
  | cons _ source _ _ ih =>
    refine .passed (fun s' => ?_) ih
    rw [← sources, source, List.mem_singleton]

end NameView

namespace Draft

variable {d : Draft} {name : String} {m : ModuleId}

/-- A name that nothing defines is looked up in vain, or it is ambiguous where its imports fork. -/
lemma Registered.resolve_undefined (h : d.Registered) (bare : d.scope.imports = .empty)
    (nodup : (d.sources.map (·.name)).Nodup)
    (undefined : ∀ w ∈ d.sources, ∀ x ∈ w.definitions, x.name ≠ name) (m : ModuleId) :
    (Forks d.sources name m ∧ ∃ ss, d.link.scope.resolve m name = .ambiguous ss) ∨
      (¬Forks d.sources name m ∧ d.link.scope.resolve m name = .notFound) := by
  have follow := NameView.lookupsFollow_view d.link.scope name
  have sources : ∀ m s, s ∈ (d.link.scope.view name).sources m ↔ ImportsFrom d.sources name m s :=
    fun _ _ => h.mem_sources_iff bare nodup
  have own : ∀ m, (d.link.scope.view name).own m = none := by
    intro m
    refine Option.eq_none_iff_forall_ne_some.2 fun i defined => ?_
    have defined : d.link.scope.lookup? m name = some i := defined
    rw [lookup?_of_registry (linked_link d).links.continues.registry] at defined
    obtain ⟨x, hx, called⟩ := h.definitions.owner_of_lookup? defined
    obtain ⟨w, hw, hx⟩ := h.mem_owners.1 (mem_owners_of_owner? hx)
    exact undefined w (List.mem_of_getElem? hw) x hx called
  -- With no definition anywhere, a look-up ends in sources that branch or finds nothing.
  cases found : d.link.scope.resolve m name with
  | found a =>
    obtain ⟨chain, last, -, defined⟩ := (follow.found m a).1 found
    rw [own] at defined
    cases defined
  | ambiguous ss =>
    obtain ⟨chain, last, h', -, rfl, many⟩ := (follow.ambiguous m ss).1 found
    exact .inl ⟨h'.forks sources (fun m => h.nodup_sources bare) many, _, rfl⟩
  | notFound =>
    obtain ⟨chain, last, h', -, ends⟩ := (follow.notFound m).1 found
    have closed : ∀ x ∈ chain, (d.link.scope.view name).sources x = [] ∨
        ∃ s ∈ chain, (d.link.scope.view name).sources x = [s] := by
      intro x hx
      rcases h'.mem_iff.1 hx with hx | rfl
      · exact .inr (h'.exists_next x hx)
      · exact ends
    exact .inr ⟨NameView.not_forks_of_closed sources closed (List.mem_of_head? h'.first), rfl⟩

/-! ## Runs -/

section Run

variable (policy : Policy) (files : List ParsedFile)

/-- A name that no module of a corpus defines is looked up in vain at the end of a run, or it is
ambiguous where its imports fork. -/
lemma resolve_built (undefined : ∀ w ∈ registeredSources policy files, ∀ x ∈ w.definitions,
    x.name ≠ name) (m : ModuleId) :
    (Forks (registeredSources policy files) name m ∧
      ∃ ss, (built policy files).scope.resolve m name = .ambiguous ss) ∨
      (¬Forks (registeredSources policy files) name m ∧
        (built policy files).scope.resolve m name = .notFound) := by
  have registered := (accounts_register policy files (.new .error)).registered
  have nodup := nodup_registeredSources policy files
  rw [← sources_registered] at undefined nodup ⊢
  rw [(stages_built policy files).scope_eq]
  exact registered.resolve_undefined (imports_register ..) nodup undefined m

/-- An OID value that starts from a name which nothing defines can only be derived by the arc that
the name stands for. -/
lemma oidDerivable_iff_of_undefined {i : AssignmentId} {arcs : List Arc} {r : Arc}
    (written : d.WrittenAs i m (.name name) arcs) (intrinsic : intrinsicRoot? name = some r)
    (lost : ∀ a, d.scope.resolve m name ≠ .found a) {o : Oid} :
    d.OidDerivable i o ↔ d.scope.resolve m name = .notFound ∧ o = Oid.extend ⟨[r]⟩ arcs := by
  constructor
  · intro derivable
    cases derivable with
    | arc written' first =>
      obtain ⟨-, rfl, -⟩ := written.unique written'
      cases first
    | named written' first found =>
      obtain ⟨rfl, rfl, -⟩ := written.unique written'
      cases first
      exact absurd found (lost _)
    | root written' first notFound intrinsic' =>
      obtain ⟨rfl, rfl, rfl⟩ := written.unique written'
      cases first
      cases intrinsic.symm.trans intrinsic'
      exact ⟨notFound, rfl⟩
  · rintro ⟨notFound, rfl⟩
    exact .root written rfl notFound intrinsic

end Run

end Draft

/-- If no module of a run defines the name of a topmost arc, each OID value that starts from it and
was not refused is that arc with the written ones behind it, unless imports of the name lead from
its module to one that has it from several: then there is no OID. -/
theorem Pipeline.oid_intrinsicRoot (p : Pipeline) (files : List ParsedFile) {name : String}
    {r : Arc} (intrinsic : intrinsicRoot? name = some r)
    (undefined : ∀ w ∈ Draft.registeredSources p.policy files, ∀ x ∈ w.definitions,
      x.name ≠ name) :
    modelOf (p.runParsed files).1 = some (Draft.built p.policy files).mib ∧
      (Draft.built p.policy files).sources = Draft.registeredSources p.policy files ∧
      ∀ i m arcs, (Draft.built p.policy files).WrittenAs i m (.name name) arcs →
        ¬(Draft.built p.policy files).mib.IsDuplicate i →
        ∃ a, (Draft.built p.policy files).mib.assignment? i = some a ∧
          (¬Forks (Draft.registeredSources p.policy files) name m →
            a.oid = some (Oid.extend ⟨[r]⟩ arcs)) ∧
          (Forks (Draft.registeredSources p.policy files) name m → a.oid = none) := by
  have s := Draft.stages_built p.policy files
  have registered := s.registered.of_continues s.continues
  refine ⟨by rw [modelOf_runParsed, resolve_eq_told], Draft.sources_built p.policy files,
    fun i m arcs written kept => ?_⟩
  have ⟨x, cs, origin, oid, _⟩ := written
  obtain ⟨a, ha, -, kind⟩ := registered.definitions.exists_assignment origin
  have hasOid : a.kind.hasOid := by rw [kind, ← Definition.isSome_oid?, oid]; rfl
  rw [s.isDuplicate_iff, Bool.not_eq_true] at kept
  have looked := Draft.resolve_built p.policy files undefined m
  have lost : ∀ b, (Draft.built p.policy files).scope.resolve m name ≠ .found b := by
    intro b found
    rcases looked with ⟨-, ss, e⟩ | ⟨-, e⟩ <;> cases found.symm.trans e
  have derived : ∀ o, a.oid = some o ↔ _ := fun o =>
    (s.oid_iff ha hasOid kept).trans (Draft.oidDerivable_iff_of_undefined written intrinsic lost)
  refine ⟨a, ha, fun single => ?_, fun forks => ?_⟩
  · rcases looked with ⟨forks, -⟩ | ⟨-, notFound⟩
    · exact absurd forks single
    · exact (derived _).2 ⟨notFound, rfl⟩
  · rcases looked with ⟨-, ss, ambiguous⟩ | ⟨single, -⟩
    · refine Option.eq_none_iff_forall_ne_some.2 fun o ho => ?_
      cases ambiguous.symm.trans ((derived o).1 ho).1
    · exact absurd forks single

/-- A module that has the name of an arc from two others, and one that has it from none. -/
def rootImports : List Module :=
  [⟨"A-MIB", [⟨"B-MIB", "iso", .synthetic⟩, ⟨"C-MIB", "iso", .synthetic⟩],
      [⟨"x", .value [.name "iso", .arc 3], .synthetic⟩], .synthetic⟩,
    ⟨"B-MIB", [⟨"GONE-MIB", "iso", .synthetic⟩],
      [⟨"y", .value [.name "iso", .arc 4], .synthetic⟩], .synthetic⟩,
    ⟨"C-MIB", [], [], .synthetic⟩]

/-- Three files with these modules. -/
def rootCorpus : List ParsedFile := rootImports.map fun m => ⟨m.name, .ok [m]⟩

/-- All three modules are registered, and no generated one besides. -/
lemma registeredSources_rootCorpus : Draft.registeredSources .usual rootCorpus = rootImports := by
  with_unfolding_all rfl

/-- None of the modules defines the arc. -/
lemma undefined_rootCorpus : ∀ w ∈ Draft.registeredSources .usual rootCorpus,
    ∀ x ∈ w.definitions, x.name ≠ "iso" := by
  rw [registeredSources_rootCorpus]
  decide

/-- The first module imports the arc from two modules. -/
lemma forks_rootImports : Forks rootImports "iso" ⟨0⟩ := by
  have distinct : (⟨1⟩ : ModuleId) ≠ ⟨2⟩ := by decide
  refine .here ?_ ?_ distinct
  · exact ⟨_, _, rfl, rfl, ⟨"B-MIB", "iso", .synthetic⟩, by decide, by decide, rfl, rfl⟩
  · exact ⟨_, _, rfl, rfl, ⟨"C-MIB", "iso", .synthetic⟩, by decide, by decide, rfl, rfl⟩

/-- The second module imports it only once. -/
lemma not_forks_rootImports : ¬Forks rootImports "iso" ⟨1⟩ := by
  have none : ∀ s, ¬ImportsFrom rootImports "iso" ⟨1⟩ s := by
    rintro s ⟨w, u, hw, hu, i, hi, -, -, source⟩
    cases hw
    obtain rfl := List.mem_singleton.1 hi
    have absent : ∀ u ∈ rootImports, "GONE-MIB" ≠ u.name := by decide
    exact absent u (List.mem_of_getElem? hu) source
  intro forks
  cases forks with
  | here one => exact none _ one
  | passed only => exact none _ ((only _).2 rfl)

/-- What is written there, of which nothing is refused. -/
lemma writtenAs_rootCorpus : let d := Draft.built .usual rootCorpus
    (d.WrittenAs ⟨0⟩ ⟨0⟩ (.name "iso") [3] ∧ ¬d.mib.IsDuplicate ⟨0⟩) ∧
      d.WrittenAs ⟨1⟩ ⟨1⟩ (.name "iso") [4] ∧ ¬d.mib.IsDuplicate ⟨1⟩ := by
  intro d
  have written : ∀ {i : AssignmentId} {m : ModuleId} {arc : Arc},
      (d.owner? i).map (fun o => (o.1, o.2.oid?)) =
        some (m, some [.name "iso", .arc arc]) → d.WrittenAs i m (.name "iso") [arc] := by
    intro i m arc origin
    obtain ⟨⟨m', x⟩, hx, e⟩ := Option.map_eq_some_iff.1 origin
    obtain ⟨rfl, oid⟩ := Prod.mk.inj e
    exact ⟨x, [.arc arc], hx, oid, rfl⟩
  simp only [d, (Draft.stages_built .usual rootCorpus).isDuplicate_iff]
  exact ⟨⟨written (by decide +kernel), by decide +kernel⟩, written (by decide +kernel),
    by decide +kernel⟩

/-- Two modules that import the name of an arc: an OID value starts from it in the one, but not in
the other. -/
theorem Pipeline.oid_intrinsicRoot_rootCorpus : let d := Draft.built .usual rootCorpus
    intrinsicRoot? "iso" = some 1 ∧
      (∀ w ∈ Draft.registeredSources .usual rootCorpus, ∀ x ∈ w.definitions, x.name ≠ "iso") ∧
      (∃ a, d.mib.assignment? ⟨0⟩ = some a ∧ a.oid = none) ∧
      ∃ a, d.mib.assignment? ⟨1⟩ = some a ∧ a.oid = some ⟨[1, 4]⟩ := by
  intro d
  have intrinsic : intrinsicRoot? "iso" = some 1 := by decide
  have undefined : ∀ w ∈ Draft.registeredSources .usual rootCorpus, ∀ x ∈ w.definitions,
      x.name ≠ "iso" := undefined_rootCorpus
  obtain ⟨-, -, all⟩ := oid_intrinsicRoot (new .usual .info) rootCorpus intrinsic undefined
  obtain ⟨⟨forked, kept⟩, single, kept'⟩ := writtenAs_rootCorpus
  obtain ⟨a, ha, -, lost⟩ := all _ _ _ forked kept
  obtain ⟨b, hb, found, -⟩ := all _ _ _ single kept'
  refine ⟨intrinsic, undefined, ⟨a, ha, lost ?_⟩, b, hb, found ?_⟩
  · exact registeredSources_rootCorpus ▸ forks_rootImports
  · exact registeredSources_rootCorpus ▸ not_forks_rootImports

/-- An OID value starts from the name of an arc that nothing defines, and there is no OID. -/
theorem Pipeline.noOid_rootCorpus : let d := Draft.built .usual rootCorpus
    modelOf ((new .usual .info).runParsed rootCorpus).1 = some d.mib ∧
      intrinsicRoot? "iso" = some 1 ∧
      (∀ w ∈ Draft.registeredSources .usual rootCorpus, ∀ x ∈ w.definitions, x.name ≠ "iso") ∧
      d.WrittenAs ⟨0⟩ ⟨0⟩ (.name "iso") [3] ∧ ¬d.mib.IsDuplicate ⟨0⟩ ∧
      ∃ a, d.mib.assignment? ⟨0⟩ = some a ∧ a.oid ≠ some (Oid.extend ⟨[1]⟩ [3]) := by
  intro d
  obtain ⟨⟨written, kept⟩, -⟩ := writtenAs_rootCorpus
  have lost : (d.mib.assignment? ⟨0⟩).map (·.oid) = some none := by decide +kernel
  obtain ⟨a, ha, none⟩ := Option.map_eq_some_iff.1 lost
  refine ⟨?_, by decide, undefined_rootCorpus, written, kept, a, ha, by rw [none]; nofun⟩
  rw [modelOf_runParsed, resolve_eq_told]
  rfl

end MibCorpus
