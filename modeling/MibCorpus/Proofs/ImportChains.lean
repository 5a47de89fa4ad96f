import MibCorpus.Proofs.Embedding
import MibCorpus.Proofs.PhaseChanges

/-!
# Chains of imports

Linking checks an import from where it points to, one module away, and reports what is not visible
there. Look-ups start from the module that imports the name and follow it through every module that
passes it on. If linking has nothing to report, each name that a module imports comes from one
module, so the modules that pass it on form a chain, and the chain from the importing module is the
one from its source with one module in front. No module occurs in it twice, whatever cycles the
imports form elsewhere.
-/

namespace MibCorpus

namespace Scope

variable {t : Scope} {name : String} {a b : AssignmentId} {m s : ModuleId} {n k : Nat}

/-- Assignment `a` defines a name in the module that `n` imports lead to from another one. -/
inductive Reaches (t : Scope) (name : String) (a : AssignmentId) : Nat → ModuleId → Prop
  | own {m : ModuleId} (defined : t.lookup? m name = some a) : t.Reaches name a 0 m
  | passed {n : Nat} {m s : ModuleId} (undefined : t.lookup? m name = none)
      (bound : t.bindings m name = some [some s]) (rest : t.Reaches name a n s) :
      t.Reaches name a (n + 1) m

/-- A chain of imports has one length and one end. -/
lemma Reaches.unique (h : t.Reaches name a n m) (h' : t.Reaches name b k m) : n = k ∧ a = b := by
  induction h generalizing k with
  | own defined =>
    cases h' with
    | own defined' => exact ⟨rfl, Option.some.inj (defined.symm.trans defined')⟩
    | passed undefined' => cases defined.symm.trans undefined'
  | passed undefined bound _ ih =>
    cases h' with
    | own defined' => cases defined'.symm.trans undefined
    | passed _ bound' rest' =>
      cases bound.symm.trans bound'
      obtain ⟨length, same⟩ := ih rest'
      exact ⟨congrArg Nat.succ length, same⟩

/-- Following imports runs along the chain, since what has been visited lies in front of it. -/
lemma Reaches.follow (h : t.Reaches name a n m) (undefined : t.lookup? m name = none)
    {visited : List ModuleId} (before : ∀ v ∈ visited, ∃ k > n, t.Reaches name a k v) :
    t.follow name visited m none = .found a := by
  induction h generalizing visited with
  | own defined => cases defined.symm.trans undefined
  | @passed n m s _ bound rest ih =>
    have chain := Reaches.passed undefined bound rest
    -- A module visited before would have two chains of different lengths.
    have new : m ∉ visited := by
      intro old
      obtain ⟨k, lt, other⟩ := before m old
      obtain ⟨same, -⟩ := chain.unique other
      omega
    have real : realSources [some s] none = [s] := rfl
    rw [follow_eq, if_neg new, bound]
    simp only [real]
    cases hs : t.lookup? s name with
    | some b =>
      cases rest with
      | own defined => exact congrArg Lookup.found (Option.some.inj (hs.symm.trans defined))
      | passed undefined' => cases hs.symm.trans undefined'
    | none =>
      apply ih hs
      intro v hv
      cases hv with
      | head => exact ⟨n + 1, Nat.lt_succ_self n, chain⟩
      | tail _ hv =>
        obtain ⟨k, lt, other⟩ := before v hv
        exact ⟨k, by omega, other⟩

/-- What a chain leads to is what the name stands for. -/
lemma Reaches.resolve (h : t.Reaches name a n m) : t.resolve m name = .found a := by
  unfold Scope.resolve
  cases hm : t.lookup? m name with
  | some b =>
    obtain ⟨-, rfl⟩ := h.unique (.own hm)
    rfl
  | none => exact h.follow hm nofun

/-! ## Names from one module -/

/-- Wherever a name is imported, it is imported from one module, which exists. -/
def HasOneSource (t : Scope) (name : String) : Prop :=
  ∀ m sources, t.bindings m name = some sources → ∃ s, sources = [some s]

/-- A single source is the only real one, unless the hint names another. -/
lemma realSources_singleton (s : ModuleId) (hint : Option ModuleId) :
    realSources [some s] hint = [] ∨ realSources [some s] hint = [s] := by
  cases h : hint.all (· == s) <;> simp [realSources, h]

/-- Where each name has one source, following it is never ambiguous. -/
lemma HasOneSource.follow_ne_ambiguous (h : t.HasOneSource name) (visited : List ModuleId)
    (m : ModuleId) (hint : Option ModuleId) (sources : List ModuleId) :
    t.follow name visited m hint ≠ .ambiguous sources := by
  fun_induction follow t name visited m hint with
  | case1 | case2 | case3 | case4 => simp
  | case5 _ _ _ _ _ _ _ _ _ ih => exact ih
  | case6 visited m hint _ sources' hb none one =>
    obtain ⟨s, rfl⟩ := h m sources' hb
    cases realSources_singleton s hint with
    | inl empty => exact absurd empty none
    | inr real => exact absurd real (one s)

/-- What is found by following imports is at the end of a chain. -/
lemma HasOneSource.exists_reaches_of_follow (h : t.HasOneSource name) {visited : List ModuleId}
    {hint : Option ModuleId} (found : t.follow name visited m hint = .found a) :
    ∃ n s, t.bindings m name = some [some s] ∧ t.Reaches name a n s := by
  have source_eq : ∀ {m sources hint source}, t.bindings m name = some sources →
      realSources sources hint = [source] → sources = [some source] := by
    intro m sources hint source hb real
    obtain ⟨s, rfl⟩ := h m sources hb
    cases realSources_singleton s hint with
    | inl empty => cases empty.symm.trans real
    | inr one =>
      cases one.symm.trans real
      rfl
  fun_induction follow t name visited m hint with
  | case1 | case2 | case3 | case6 => cases found
  | case4 _ m hint _ sources hb source real b defined =>
    cases found
    exact ⟨0, source, source_eq hb real ▸ hb, .own defined⟩
  | case5 _ m hint _ sources hb source real undefined ih =>
    obtain ⟨n, s, bound, rest⟩ := ih found
    exact ⟨n + 1, source, source_eq hb real ▸ hb, .passed undefined bound rest⟩

/-- Where each name has one source, what is found is reached by a chain of imports. -/
lemma HasOneSource.exists_reaches (h : t.HasOneSource name) (found : t.resolve m name = .found a) :
    ∃ n, t.Reaches name a n m := by
  unfold resolve at found
  split at found
  next b defined =>
    cases found
    exact ⟨0, .own defined⟩
  next undefined =>
    obtain ⟨n, s, bound, rest⟩ := h.exists_reaches_of_follow found
    exact ⟨n + 1, .passed undefined bound rest⟩

/-- Where each name has one source, no look-up is ambiguous. -/
lemma HasOneSource.resolve_ne_ambiguous (h : t.HasOneSource name) (m : ModuleId)
    (sources : List ModuleId) : t.resolve m name ≠ .ambiguous sources := by
  unfold resolve
  split
  next => simp
  next => exact h.follow_ne_ambiguous [] m none sources

/-- What the source of an import finds, the importing module finds, unless it has its own. -/
lemma HasOneSource.exists_found (h : t.HasOneSource name)
    (bound : t.bindings m name = some [some s]) (found : t.resolve s name = .found a) :
    ∃ b, t.resolve m name = .found b := by
  cases hm : t.lookup? m name with
  | some b => exact ⟨b, (Reaches.own hm).resolve⟩
  | none =>
    obtain ⟨n, rest⟩ := h.exists_reaches found
    exact ⟨a, (Reaches.passed hm bound rest).resolve⟩

end Scope

namespace Draft

variable {d : Draft}

/-! ## Imports without problems -/

/-- The imports that count where nothing is wrong with any: each from a module that exists, and each
of another name. -/
structure CleanImports (source? : String → Option ModuleId) (is : List Import) : Prop where
  sources : ∀ i ∈ is, (source? i.source).isSome
  symbols : (is.map (·.symbol)).Nodup

/-- Nothing to report about a new import means that its symbol is new and its source is there. -/
lemma clean_of_newImportProblems {source? : String → Option ModuleId} {m : RegisteredModule}
    {i : Import} {seen : List (String × String)}
    (clean : ∀ p ∈ newImportProblems source? m seen [] i,
      p.kind ≠ .missingImportSource ∧ p.kind ≠ .ambiguousImport) :
    seen.lookup i.symbol = none ∧ (source? i.source).isSome := by
  obtain ⟨unambiguous, present⟩ := List.forall_mem_append.1 clean
  constructor
  · cases hs : seen.lookup i.symbol with
    | none => rfl
    | some other =>
      exact absurd rfl (unambiguous (ambiguousImportProblem m i other) (by simp [hs])).2
  · cases hs : source? i.source with
    | none =>
      exact absurd rfl (present (missingSourceProblem m i) (by simp [isNewlyAbsent, hs])).1
    | some s => rfl

/-- Nothing to report about a module means that its imports are clean. -/
lemma cleanImports_of_importProblems {policy : Policy} {source? : String → Option ModuleId}
    {m : RegisteredModule} {is : List Import} {seen : List (String × String)}
    (clean : ∀ p ∈ importProblems policy source? m seen [] is,
      p.kind ≠ .missingImportSource ∧ p.kind ≠ .ambiguousImport) :
    CleanImports source? (newImports seen is) ∧
      ∀ i ∈ newImports seen is, seen.lookup i.symbol = none := by
  induction is generalizing seen with
  | nil => exact ⟨⟨nofun, .nil⟩, nofun⟩
  | cons i is ih =>
    unfold importProblems at clean
    unfold newImports
    split at clean
    next old =>
      rw [if_pos old]
      exact ih fun p hp => clean p (List.mem_cons_of_mem _ hp)
    next new =>
      rw [if_neg new]
      obtain ⟨now, later⟩ := List.forall_mem_append.1 clean
      obtain ⟨unseen, source⟩ := clean_of_newImportProblems now
      have present : isNewlyAbsent source? [] i.source = false := by
        simpa [isNewlyAbsent] using source
      rw [present] at later
      obtain ⟨rest, apart⟩ := ih later
      -- None of the later imports has the symbol of this one, since that has been seen by then.
      have apart : ∀ j ∈ newImports (seen ++ [(i.symbol, i.source)]) is,
          seen.lookup j.symbol = none ∧ j.symbol ≠ i.symbol := by
        intro j hj
        have none := apart j hj
        rw [List.lookup_append, Option.or_eq_none_iff] at none
        refine ⟨none.1, fun same => ?_⟩
        simp [same] at none
      refine ⟨⟨?_, ?_⟩, ?_⟩
      · rw [List.forall_mem_cons]
        exact ⟨source, rest.sources⟩
      · rw [List.map_cons, List.nodup_cons]
        refine ⟨fun again => ?_, rest.symbols⟩
        obtain ⟨j, hj, same⟩ := List.mem_map.1 again
        exact (apart j hj).2 same
      · rw [List.forall_mem_cons]
        exact ⟨unseen, fun j hj => (apart j hj).1⟩

/-- An import has been seen, or one of its symbol counts. -/
lemma seen_or_newImport {is : List Import} (seen : List (String × String)) {i : Import}
    (h : i ∈ is) : (i.symbol, i.source) ∈ seen ∨ ∃ j ∈ newImports seen is, j.symbol = i.symbol := by
  induction is generalizing seen with
  | nil => cases h
  | cons j is ih =>
    unfold newImports
    split
    next old =>
      cases h with
      | head => exact .inl (List.contains_iff_mem.1 old)
      | tail _ h => exact ih seen h
    next =>
      cases h with
      | head => exact .inr ⟨i, List.mem_cons_self .., rfl⟩
      | tail _ h =>
        rcases ih (seen ++ [(j.symbol, j.source)]) h with old | ⟨k, hk, same⟩
        · rcases List.mem_append.1 old with old | now
          · exact .inl old
          · have same := congrArg Prod.fst (List.mem_singleton.1 now)
            exact .inr ⟨j, List.mem_cons_self .., same.symm⟩
        · exact .inr ⟨k, List.mem_cons_of_mem j hk, same⟩

/-- Imports of other symbols leave the sources bound to a name alone. -/
lemma boundSources_of_ne {source? : String → Option ModuleId} {name : String}
    (old : Option (List (Option ModuleId))) {is : List Import} (other : ∀ i ∈ is, i.symbol ≠ name) :
    Scope.boundSources source? name old is = old := by
  induction is with
  | nil => rfl
  | cons i is ih =>
    obtain ⟨head, tail⟩ := List.forall_mem_cons.1 other
    have step : Scope.boundSources source? name old (i :: is) =
        Scope.boundSources source? name old is := by
      simp [Scope.boundSources, head]
    rw [step, ih tail]

/-- A name that is imported once comes from one module. -/
lemma CleanImports.boundSources {source? : String → Option ModuleId} {is : List Import}
    (clean : CleanImports source? is) (name : String) :
    Scope.boundSources source? name none is =
      (is.find? (·.symbol = name)).map fun i => [source? i.source] := by
  induction is with
  | nil => rfl
  | cons i is ih =>
    obtain ⟨-, sources⟩ := List.forall_mem_cons.1 clean.sources
    have symbols := clean.symbols
    rw [List.map_cons, List.nodup_cons] at symbols
    by_cases same : i.symbol = name
    · have others : ∀ j ∈ is, j.symbol ≠ name := by
        rintro j hj rfl
        exact symbols.1 (List.mem_map.2 ⟨j, hj, same.symm⟩)
      have step : Scope.boundSources source? name none (i :: is) =
          Scope.boundSources source? name (some [source? i.source]) is := by
        simp [Scope.boundSources, same, Scope.addSource]
      rw [step, boundSources_of_ne _ others, List.find?_cons_of_pos (by simpa using same)]
      rfl
    · have step : Scope.boundSources source? name none (i :: is) =
          Scope.boundSources source? name none is := by
        simp [Scope.boundSources, same]
      rw [step, ih ⟨sources, symbols.2⟩, List.find?_cons_of_neg (by simpa using same)]

/-! ## Linking without problems -/

/-- Linking has nothing to say against the sources of any import. -/
def LinksCleanly (d : Draft) : Prop :=
  ∀ p ∈ d.link.mib.problems.since d.mib.problems.length,
    p.kind ≠ .missingImportSource ∧ p.kind ≠ .unresolvedImport ∧ p.kind ≠ .ambiguousImport

/-- The problems of linking are those of each module's import statements, then those of the
checks -/
lemma since_link (d : Draft) : d.link.mib.problems.since d.mib.problems.length =
    d.modules.toList.flatMap (moduleImportProblems d.policy d.scope.module?) ++
      (d.modules.toList.flatMap (moduleImportChecks d.scope.module?)).filterMap
        d.link.checkProblem? := by
  rw [Problems.since, (linked_link d).problems, ← Problems.length_toList, List.drop_left]

/-- After a clean link the imports of each module are clean. -/
lemma LinksCleanly.cleanImports (h : d.LinksCleanly) {r : RegisteredModule} (hr : r ∈ d.modules) :
    CleanImports d.scope.module? (boundImports r) := by
  have clean : ∀ p ∈ moduleImportProblems d.policy d.scope.module? r,
      p.kind ≠ .missingImportSource ∧ p.kind ≠ .ambiguousImport := by
    intro p hp
    have new : p ∈ d.link.mib.problems.since d.mib.problems.length := by
      rw [since_link]
      exact List.mem_append_left _ (List.mem_flatMap.2 ⟨r, Array.mem_toList_iff.2 hr, hp⟩)
    exact ⟨(h p new).1, (h p new).2.2⟩
  exact (cleanImports_of_importProblems clean).1

/-- What counts among the imports of a module is visible in its source or an intrinsic root. -/
lemma LinksCleanly.visible (h : d.LinksCleanly) {r : RegisteredModule} (hr : r ∈ d.modules)
    {i : Import} (hi : i ∈ boundImports r) {s : ModuleId} (hs : d.scope.module? i.source = some s) :
    d.link.scope.resolve s i.symbol ≠ .notFound ∨ (intrinsicRoot? i.symbol).isSome := by
  by_contra invisible
  rw [not_or, not_not, Option.not_isSome_iff_eq_none] at invisible
  let c : ImportCheck := ⟨r.id, s, i.symbol, i.span⟩
  have check : c ∈ d.modules.toList.flatMap (moduleImportChecks d.scope.module?) := by
    refine List.mem_flatMap.2 ⟨r, Array.mem_toList_iff.2 hr, ?_⟩
    exact List.mem_filterMap.2 ⟨i, hi, by rw [importCheck?, hs]; rfl⟩
  obtain ⟨p, hp, kind⟩ : ∃ p, d.link.checkProblem? c = some p ∧ p.kind = .unresolvedImport :=
    ⟨_, if_pos invisible, rfl⟩
  have new : p ∈ d.link.mib.problems.since d.mib.problems.length := by
    rw [since_link]
    exact List.mem_append_right _ (List.mem_filterMap.2 ⟨c, check, hp⟩)
  exact (h p new).2.1 kind

/-! ## What linking makes visible -/

section Registered

variable (registered : d.Registered) (bare : d.scope.imports = .empty)
include registered bare

/-- After a clean link a name is bound to the one module that its first import names. -/
lemma LinksCleanly.bindings (h : d.LinksCleanly) {r : RegisteredModule} (hr : r ∈ d.modules)
    (name : String) : d.link.scope.bindings r.id name =
      ((boundImports r).find? (·.symbol = name)).map fun i => [d.scope.module? i.source] := by
  obtain ⟨k, hk⟩ := Array.mem_iff_getElem?.1 hr
  obtain ⟨id, -⟩ := registered.modules.entry k r hk
  have source : d.sources[r.id.index]? = some r.source := by
    rw [getElem?_sources, id, hk]
    rfl
  rw [registered.bindings_link bare, source]
  exact (h.cleanImports hr).boundSources name

/-- Whatever binds a name is an import that counts. -/
lemma LinksCleanly.exists_import (h : d.LinksCleanly) {m : ModuleId} {name : String}
    {sources : List (Option ModuleId)} (bound : d.link.scope.bindings m name = some sources) :
    ∃ r ∈ d.modules, r.id = m ∧ ∃ i ∈ boundImports r, i.symbol = name ∧
      ∃ s, d.scope.module? i.source = some s ∧ sources = [some s] := by
  cases hk : d.modules[m.index]? with
  | none =>
    rw [registered.bindings_link bare, getElem?_sources, hk] at bound
    cases bound
  | some r =>
    have hr := Array.mem_of_getElem? hk
    obtain ⟨id, -⟩ := registered.modules.entry m.index r hk
    have bound : d.link.scope.bindings r.id name = some sources := id ▸ bound
    rw [h.bindings registered bare hr, Option.map_eq_some_iff] at bound
    obtain ⟨i, found, rfl⟩ := bound
    have hi := List.mem_of_find?_eq_some found
    obtain ⟨s, hs⟩ := Option.isSome_iff_exists.1 ((h.cleanImports hr).sources i hi)
    have symbol : i.symbol = name := by simpa using List.find?_some found
    exact ⟨r, hr, id, i, hi, symbol, s, hs, by rw [hs]⟩

/-- After a clean link every name has at most one source in each module. -/
lemma LinksCleanly.hasOneSource (h : d.LinksCleanly) (name : String) :
    d.link.scope.HasOneSource name := by
  intro m sources bound
  obtain ⟨-, -, -, -, -, -, s, -, one⟩ := h.exists_import registered bare bound
  exact ⟨s, one⟩

/-- An import that is not of a macro finds something, unless it is of an intrinsic root. -/
lemma LinksCleanly.resolve_import (h : d.LinksCleanly) {r : RegisteredModule} (hr : r ∈ d.modules)
    {i : Import} (hi : i ∈ r.source.imports) (plain : i.isMacro = false) :
    (∃ a, d.link.scope.resolve r.id i.symbol = .found a) ∨
      d.link.scope.resolve r.id i.symbol = .notFound ∧ (intrinsicRoot? i.symbol).isSome := by
  have one := h.hasOneSource registered bare i.symbol
  cases found : d.link.scope.resolve r.id i.symbol with
  | found a => exact .inl ⟨a, rfl⟩
  | ambiguous sources => exact absurd found (one.resolve_ne_ambiguous r.id sources)
  | notFound =>
    -- The import that counts may be an earlier one of the same symbol and source.
    have written : i ∈ r.source.imports.filter (!·.isMacro) := by simp [hi, plain]
    rcases seen_or_newImport [] written with seen | ⟨j, hj, symbol⟩
    · cases seen
    obtain ⟨sources, bound⟩ : ∃ sources, d.link.scope.bindings r.id i.symbol = some sources := by
      rw [h.bindings registered bare hr, ← Option.isSome_iff_exists, Option.isSome_map,
        List.find?_isSome]
      exact ⟨j, hj, by simpa using symbol⟩
    obtain ⟨r', hr', -, k, hk, symbol, s, hs, rfl⟩ := h.exists_import registered bare bound
    -- If the source sees the name, so does the module: its chain has only one more link.
    rcases h.visible hr' hk hs with visible | root
    · rw [symbol] at visible
      cases there : d.link.scope.resolve s i.symbol with
      | notFound => exact absurd there visible
      | ambiguous sources => exact absurd there (one.resolve_ne_ambiguous s sources)
      | found a =>
        obtain ⟨b, hb⟩ := one.exists_found bound there
        cases found.symm.trans hb
    · exact .inr ⟨rfl, symbol ▸ root⟩

end Registered

/-- Calls that only register modules amount to a step of registration. -/
lemma registers_after (policy : Policy) {calls : List PhaseCall}
    (registers : ∀ c ∈ calls, c.phase = .registration) (r : Recorder) :
    Registers (.new policy) ((Draft.new policy).after calls r) := by
  have step : ∀ dr : Draft × Recorder, ∀ c ∈ calls, Registers dr.1 (c.apply dr.1 dr.2).1 := by
    intro dr c hc
    cases c with
    | register files => exact registers_register dr.1 files dr.2
    | link | resolveTypes | resolveOids | finalize => cases registers _ hc
  exact registers_foldl (f := fun dr (c : PhaseCall) => c.apply dr.1 dr.2) calls step
    (.new policy, r)

/-- Nothing is imported and all is registered as long as only modules are registered. -/
lemma registered_after (policy : Policy) {calls : List PhaseCall}
    (registers : ∀ c ∈ calls, c.phase = .registration) (r : Recorder) :
    ((Draft.new policy).after calls r).Registered ∧
      ((Draft.new policy).after calls r).scope.imports = .empty := by
  have all := registers_after policy registers r
  exact ⟨all.registered (registered_new policy), congrArg Prospects.imports all.prospects⟩

/-- If linking a registered corpus reports no missing source, nothing unresolved and nothing
ambiguous, each symbol that a module imports stands for an assignment of that name as seen from the
module, macros aside, or it is an intrinsic root that nothing defines. -/
theorem resolve_imports_link (policy : Policy) {calls : List PhaseCall}
    (registers : ∀ c ∈ calls, c.phase = .registration) (r : Recorder)
    (clean : ((Draft.new policy).after calls r).LinksCleanly) :
    let linked := ((Draft.new policy).after calls r).link
    ∀ m ∈ linked.modules, ∀ i ∈ m.source.imports, i.isMacro = false →
      (∃ a entry, linked.scope.resolve m.id i.symbol = .found a ∧
        linked.mib.assignment? a = some entry ∧ linked.mib.str entry.name = i.symbol) ∨
      linked.scope.resolve m.id i.symbol = .notFound ∧ (intrinsicRoot? i.symbol).isSome := by
  intro linked m hm i hi plain
  obtain ⟨registered, bare⟩ := registered_after policy registers r
  have continues := (linked_link ((Draft.new policy).after calls r)).links.continues
  rw [modules_of_registry continues.registry] at hm
  rcases clean.resolve_import registered bare hm hi plain with ⟨a, found⟩ | root
  · obtain ⟨s, defined⟩ := Scope.exists_lookup?_of_resolve found
    have definitions := (registered.of_continues continues).definitions
    obtain ⟨x, hx, name⟩ := definitions.owner_of_lookup? defined
    obtain ⟨entry, ha, -⟩ := definitions.exists_assignment hx
    have named := definitions.nameOf_eq hx
    rw [Mib.nameOf, ha] at named
    exact .inl ⟨a, entry, found, ha, named.trans name⟩
  · exact .inr root

/-- A module that imports a name through a second one from a third. -/
def firstOfChain : Module :=
  ⟨"A-MIB", [⟨"B-MIB", "x", .synthetic⟩, ⟨"B-MIB", "iso", .synthetic⟩], [], .synthetic⟩

/-- A file with the three modules. The last defines the name and imports it back from the first. -/
def chainFile : ParsedFile :=
  ⟨"a.mib", .ok [firstOfChain, ⟨"B-MIB", [⟨"C-MIB", "x", .synthetic⟩], [], .synthetic⟩,
    ⟨"C-MIB", [⟨"A-MIB", "x", .synthetic⟩], [⟨"x", .value [.arc 1], .synthetic⟩], .synthetic⟩]⟩

/-- The three modules registered. -/
def chainDraft : Draft := (Draft.new .usual).after [.register [chainFile]] (.new .info)

/-- The modules of the file are in the order of their names, so they are registered as given. -/
lemma chainDraft_eq {ms : List Module} (given : chainFile.result = .ok ms)
    (sorted : ms.Pairwise fun a b => decide (a.name ≤ b.name)) :
    chainDraft = (generateLacking BaseModule.all (ms.foldl (registerModule (some ⟨0⟩))
      ({ new .usual with mib := ((new .usual).mib.addFile chainFile.path).2 }, .new .info))).1 := by
  have same : byName ms = ms := List.mergeSort_of_pairwise sorted
  rw [← same]
  cases given
  rfl

/-- The name is found from the first module of the chain. -/
theorem resolve_imports_link_chain :
    chainDraft.LinksCleanly ∧ ⟨⟨0⟩, some ⟨0⟩, firstOfChain⟩ ∈ chainDraft.link.modules ∧
      ∃ a entry, chainDraft.link.scope.resolve ⟨0⟩ "x" = .found a ∧
        chainDraft.link.mib.assignment? a = some entry ∧
        chainDraft.link.mib.str entry.name = "x" := by
  have registers : ∀ c ∈ [PhaseCall.register [chainFile]], c.phase = .registration := by
    intro c hc
    rw [List.mem_singleton.1 hc]
    rfl
  have silent : chainDraft.link.mib.problems.since chainDraft.mib.problems.length = [] := by
    rw [chainDraft_eq rfl (by decide)]
    decide +kernel
  have clean : chainDraft.LinksCleanly := by
    intro p hp
    rw [silent] at hp
    cases hp
  have first : chainDraft.link.modules[0]? = some ⟨⟨0⟩, some ⟨0⟩, firstOfChain⟩ := by
    rw [chainDraft_eq rfl (by decide)]
    with_unfolding_all rfl
  have listed := Array.mem_of_getElem? first
  refine ⟨clean, listed, ?_⟩
  rcases resolve_imports_link .usual registers (.new .info) clean _ listed
    ⟨"B-MIB", "x", .synthetic⟩ (List.mem_cons_self ..) (by decide) with found | ⟨-, root⟩
  · exact found
  · exact absurd root (by decide)

end Draft

end MibCorpus
