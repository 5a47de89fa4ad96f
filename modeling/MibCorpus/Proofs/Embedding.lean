import MibCorpus.Proofs.BoundImports
import MibCorpus.Proofs.Mentions

/-!
# Embedded drafts

A draft is embedded in another one if a renaming takes its modules and the definitions that it keeps
to modules and definitions of the other, where the modules that it mentions are the same. The other
draft may have more modules, and it may refuse more definitions. What the smaller draft sees, the
larger one shows it.
-/

namespace MibCorpus

/-- The entries of a list stand somewhere among those of a list that has them all. -/
lemma exists_positions {α : Type} [DecidableEq α] {xs ys : List α} (nodup : xs.Nodup)
    (nodup' : ys.Nodup) (sub : xs ⊆ ys) :
    ∃ f : Equiv.Perm Nat, ∀ (i : Nat) (x : α), xs[i]? = some x → ys[f i]? = some x := by
  have perm : (xs ++ ys.filter (· ∉ xs)).Perm ys := by
    have apart : (xs ++ ys.filter (· ∉ xs)).Nodup := by
      refine List.nodup_append.2 ⟨nodup, nodup'.filter _, ?_⟩
      rintro x hx _ hy rfl
      simpa [hx] using (List.mem_filter.1 hy).2
    refine (List.perm_ext_iff_of_nodup apart nodup').2 fun x => ?_
    by_cases hx : x ∈ xs
    · simp [hx, sub hx]
    · simp [hx]
  obtain ⟨f, hf⟩ := exists_moves perm
  refine ⟨f, fun i x hx => ?_⟩
  rw [hf i, List.getElem?_append_left (List.getElem?_eq_some_iff.1 hx).1, hx]

/-! ## Scopes -/

/-- The sources of a name are those of the imports that bind it. -/
lemma Scope.mem_boundSources {source? : String → Option ModuleId} {name : String}
    {is : List Import} {xs : List (Option ModuleId)}
    (h : boundSources source? name none is = some xs) {s : Option ModuleId} (hs : s ∈ xs) :
    ∃ i ∈ is, source? i.source = s := by
  -- The induction is on the imports for any list of sources that has been built so far.
  have all : ∀ (is : List Import) (old : Option (List (Option ModuleId))),
      boundSources source? name old is = some xs →
        (∃ ys, old = some ys ∧ s ∈ ys) ∨ ∃ i ∈ is, source? i.source = s := by
    intro is
    induction is with
    | nil => exact fun old h => .inl ⟨xs, h, hs⟩
    | cons i is ih =>
      intro old h
      rcases ih _ h with ⟨ys, e, hs⟩ | ⟨j, hj, e⟩
      · simp only at e
        split at e
        · obtain rfl := Option.some.inj e
          have cases : s ∈ old.getD [] ∨ s = source? i.source := by
            unfold addSource at hs
            split at hs
            · exact .inl hs
            · simpa using hs
          rcases cases with hs | rfl
          · cases old with
            | none => cases hs
            | some zs => exact .inl ⟨zs, rfl, hs⟩
          · exact .inr ⟨i, List.mem_cons_self .., rfl⟩
        · exact .inl ⟨ys, e, hs⟩
      · exact .inr ⟨j, List.mem_cons_of_mem _ hj, e⟩
  rcases all is none h with ⟨ys, e, -⟩ | found
  · cases e
  · exact found

/-- What the modules of a part of the first scope see, renaming takes to what they see in the second
scope. -/
structure Scope.Embeds (σ : Renaming) (part : ModuleId → Prop) (t t' : Scope) : Prop where
  lookup? : ∀ m, part m → ∀ name,
    t'.lookup? (σ.module m) name = (t.lookup? m name).map σ.assignment
  bindings : ∀ m, part m → ∀ name,
    t'.bindings (σ.module m) name = (t.bindings m name).map (List.map (Option.map σ.module))
  closed : ∀ m, part m → ∀ name sources s, t.bindings m name = some sources → some s ∈ sources →
    part s

namespace Scope.Embeds

variable {σ : Renaming} {part : ModuleId → Prop} {t t' : Scope}

/-- The only real source of a name is among its sources. -/
lemma mem_of_realSources {sources : List (Option ModuleId)} {hint : Option ModuleId} {s : ModuleId}
    (h : realSources sources hint = [s]) : some s ∈ sources := by
  have mem : s ∈ realSources sources hint := h ▸ List.mem_singleton_self s
  obtain ⟨x, hx, e⟩ := List.mem_filterMap.1 (List.mem_filter.1 mem).1
  rw [show x = some s from e] at hx
  exact hx

/-- Following imports stays in the part and ends alike. -/
lemma follow (h : Scope.Embeds σ part t t') (name : String) (visited : List ModuleId)
    {m : ModuleId} (hm : part m) (hint : Option ModuleId) :
    t'.follow name (visited.map σ.module) (σ.module m) (hint.map σ.module) =
      σ.lookup (t.follow name visited m hint) := by
  -- A module that is visited has its image among the images, and no other has.
  have outside : ∀ {visited : List ModuleId} {m : ModuleId}, m ∉ visited →
      σ.module m ∉ visited.map σ.module := fun hm => by
    rwa [List.mem_map_of_injective σ.module.injective]
  fun_induction t.follow name visited m hint with
  | case1 visited m hint seen =>
    rw [follow_eq, if_pos (List.mem_map_of_mem seen)]
    rfl
  | case2 visited m hint new hb =>
    rw [follow_eq, if_neg (outside new), h.bindings m hm, hb]
    rfl
  | case3 visited m hint new sources hb hr =>
    rw [follow_eq, if_neg (outside new), h.bindings m hm, hb]
    simp only [Option.map_some, realSources_map, hr]
    rfl
  | case4 visited m hint new sources hb source hr a ha =>
    have there := h.closed m hm name sources source hb (mem_of_realSources hr)
    rw [follow_eq, if_neg (outside new), h.bindings m hm, hb]
    simp only [Option.map_some, realSources_map, hr, List.map_cons, List.map_nil,
      h.lookup? source there, ha]
    rfl
  | case5 visited m hint new sources hb source hr ha ih =>
    have there := h.closed m hm name sources source hb (mem_of_realSources hr)
    rw [follow_eq, if_neg (outside new), h.bindings m hm, hb]
    simp only [Option.map_some, realSources_map, hr, List.map_cons, List.map_nil,
      h.lookup? source there, ha, Option.map_none]
    exact ih there
  | case6 visited m hint new sources hb none one =>
    rw [follow_eq, if_neg (outside new), h.bindings m hm, hb]
    simp only [Option.map_some, realSources_map]
    cases hr : realSources sources hint with
    | nil => exact absurd hr none
    | cons source others =>
      cases others with
      | nil => exact absurd hr (one source)
      | cons other others => rfl

/-- Names are found alike as seen from a module of the part. -/
lemma resolve (h : Scope.Embeds σ part t t') {m : ModuleId} (hm : part m) (name : String) :
    t'.resolve (σ.module m) name = σ.lookup (t.resolve m name) := by
  unfold Scope.resolve
  rw [h.lookup? m hm]
  cases t.lookup? m name with
  | some a => rfl
  | none => exact h.follow name [] hm none

end Scope.Embeds

namespace Draft

/-! ## Drafts -/

/-- Assignment `i` stands for definition `x` of module `m` and was not refused. -/
def Keeps (d : Draft) (i : AssignmentId) (m : ModuleId) (x : Definition) : Prop :=
  d.owner? i = some (m, x) ∧ d.isRefused i = false

/-- Module `m` is registered. -/
def HasModule (d : Draft) (m : ModuleId) : Prop := m.index < d.sources.length

/-- Renaming takes the modules of the first draft to modules of the second and the definitions that
are kept in them to those that are kept there, and what they mention is found alike. -/
structure Embeds (σ : Renaming) (d d' : Draft) : Prop where
  registered : d.Registered
  registered' : d'.Registered
  policy : d'.policy = d.policy
  modules : ∀ m s, d.sources[m.index]? = some s →
    ∃ s', d'.sources[(σ.module m).index]? = some s' ∧ s'.name = s.name ∧ s'.imports = s.imports
  keeps : ∀ m, d.HasModule m → ∀ j x,
    d'.Keeps j (σ.module m) x ↔ ∃ i, j = σ.assignment i ∧ d.Keeps i m x
  mentioned : ∀ s ∈ d.sources, ∀ name ∈ s.mentions,
    d'.scope.module? name = (d.scope.module? name).map σ.module

section Registered

variable {d : Draft}

/-- A draft has a module exactly if there is a source at its index. -/
lemma hasModule_iff {m : ModuleId} : d.HasModule m ↔ ∃ s, d.sources[m.index]? = some s := by
  simp only [HasModule, List.getElem?_eq_some_iff]
  exact ⟨fun lt => ⟨_, lt, rfl⟩, fun ⟨_, lt, _⟩ => lt⟩

/-- A module that is found is registered. -/
lemma Registered.hasModule_of_module? (h : d.Registered) {name : String} {m : ModuleId}
    (hm : d.scope.module? name = some m) : d.HasModule m := by
  obtain ⟨s, hs, -⟩ := h.exists_source_of_module? hm
  exact hasModule_iff.2 ⟨s, hs⟩

/-- A definition stands in a registered module. -/
lemma Registered.hasModule_of_origin (h : d.Registered) {i : AssignmentId} {m : ModuleId}
    {x : Definition} (hx : d.owner? i = some (m, x)) : d.HasModule m := by
  obtain ⟨s, hs, -⟩ := h.mem_owners.1 (mem_owners_of_owner? hx)
  exact hasModule_iff.2 ⟨s, hs⟩

/-- A name stands for the definition of a module that is kept under it. -/
lemma DefinitionsRegistered.lookup?_eq_some_iff_keeps (h : d.DefinitionsRegistered) {m : ModuleId}
    {name : String} {i : AssignmentId} :
    d.scope.lookup? m name = some i ↔ ∃ x, d.Keeps i m x ∧ x.name = name := by
  constructor
  · intro hi
    obtain ⟨x, hx, name⟩ := h.owner_of_lookup? hi
    exact ⟨x, ⟨hx, h.not_isRefused_of_lookup? hi⟩, name⟩
  · rintro ⟨x, ⟨hx, kept⟩, rfl⟩
    simpa [isRefused, hx] using kept

end Registered

variable {σ : Renaming} {d d' : Draft}

/-- Mirrored drafts are embedded in each other. -/
lemma Mirrors.embeds (h : Mirrors σ d d') : Embeds σ d d' where
  registered := h.registered
  registered' := h.registered'
  policy := h.policy
  modules m s hs := by
    have e := h.modules m
    rw [hs, Option.map_some] at e
    obtain ⟨s', hs', same⟩ := Option.map_eq_some_iff.1 e
    obtain ⟨name, imports⟩ := Prod.mk.inj same
    exact ⟨s', hs', name, imports⟩
  keeps m _ j x := by
    -- Nothing is refused, so the definitions that are kept are all definitions.
    obtain ⟨i, rfl⟩ := σ.assignment.surjective j
    have all := h.registered.isRefused_eq_false h.distinct
    have all' := h.registered'.isRefused_eq_false h.distinct'
    simp [Keeps, all, all', h.owners]
  mentioned _ _ name _ := h.module? name

/-- Definitions are found alike by name. -/
lemma Embeds.lookup? (h : Embeds σ d d') {m : ModuleId} (hm : d.HasModule m) (name : String) :
    d'.scope.lookup? (σ.module m) name = (d.scope.lookup? m name).map σ.assignment := by
  refine Option.ext fun j => ?_
  rw [h.registered'.definitions.lookup?_eq_some_iff_keeps, Option.map_eq_some_iff]
  simp only [h.registered.definitions.lookup?_eq_some_iff_keeps, h.keeps m hm]
  constructor
  · rintro ⟨x, ⟨i, rfl, hx⟩, name⟩
    exact ⟨i, ⟨x, hx, name⟩, rfl⟩
  · rintro ⟨i, ⟨x, hx, name⟩, rfl⟩
    exact ⟨x, ⟨i, rfl, hx⟩, name⟩

/-- Drafts that continue embedded ones are embedded. -/
lemma Embeds.of_continues (h : Embeds σ d d') {e e' : Draft} (c : Continues d e)
    (c' : Continues d' e') : Embeds σ e e' where
  registered := h.registered.of_continues c
  registered' := h.registered'.of_continues c'
  policy := by rw [policy_of_registry c.registry, policy_of_registry c'.registry, h.policy]
  modules m s hs := by
    rw [sources_of_registry c.registry] at hs
    rw [sources_of_registry c'.registry]
    exact h.modules m s hs
  keeps m hm j x := by
    rw [HasModule, sources_of_registry c.registry] at hm
    simp only [Keeps, owner?_of_registry c.registry, owner?_of_registry c'.registry,
      isRefused_of_registry c.registry, isRefused_of_registry c'.registry]
    exact h.keeps m hm j x
  mentioned s hs name hn := by
    rw [sources_of_registry c.registry] at hs
    rw [module?_of_registry c.registry, module?_of_registry c'.registry]
    exact h.mentioned s hs name hn

/-! ## Linking -/

/-- Linking keeps the embedding. -/
lemma Embeds.link (h : Embeds σ d d') : Embeds σ d.link d'.link :=
  h.of_continues (linked_link d).links.continues (linked_link d').links.continues

/-- The imports that a module written so binds are among those it is written with. -/
lemma mem_of_mem_writtenImports {is : List Import} {i : Import} (h : i ∈ writtenImports is) :
    i ∈ is := by
  have all : ∀ (is : List Import) (seen : List (String × String)), newImports seen is ⊆ is := by
    intro is
    induction is with
    | nil => exact fun _ => List.Subset.refl _
    | cons j is ih =>
      intro seen
      rw [newImports]
      split
      · exact List.subset_cons_of_subset _ (ih _)
      · exact List.cons_subset_cons _ (ih _)
  exact (List.mem_filter.1 (all _ _ h)).1

/-- A module mentions the sources of its imports. -/
lemma mem_mentions_of_import {s : Module} {i : Import} (h : i ∈ s.imports) :
    i.source ∈ s.mentions :=
  List.mem_append_left _ (List.mem_map_of_mem h)

/-- What linking binds for a name in a module. -/
lemma Registered.bindings_link (h : d.Registered) (bare : d.scope.imports = .empty) (m : ModuleId)
    (name : String) :
    d.link.scope.bindings m name = Scope.boundSources d.scope.module? name none
      ((d.sources[m.index]?).elim [] fun s => writtenImports s.imports) := by
  have unbound : d.scope.bindings m name = none := by
    rw [Scope.bindings, bare]
    rfl
  rw [(linked_link d).scope, bindings_bindModules, flatMap_boundImports h.modules, unbound]

/-- Linking embeds scopes without imports. -/
lemma Embeds.scope_link (h : Embeds σ d d') (bare : d.scope.imports = .empty)
    (bare' : d'.scope.imports = .empty) :
    Scope.Embeds σ d.HasModule d.link.scope d'.link.scope where
  lookup? m hm name := by
    have registry := (linked_link d).links.continues.registry
    refine h.link.lookup? ?_ name
    rwa [HasModule, sources_of_registry registry]
  bindings m hm name := by
    obtain ⟨s, hs⟩ := hasModule_iff.1 hm
    obtain ⟨s', hs', -, imports⟩ := h.modules m s hs
    rw [h.registered.bindings_link bare, h.registered'.bindings_link bare', hs, hs']
    simp only [Option.elim_some, imports]
    refine Scope.boundSources_map name none _ fun i hi => ?_
    exact h.mentioned s (List.mem_of_getElem? hs) _
      (mem_mentions_of_import (mem_of_mem_writtenImports hi))
  closed m hm name sources s hb hs := by
    rw [h.registered.bindings_link bare] at hb
    obtain ⟨i, -, e⟩ := Scope.mem_boundSources hb hs
    exact h.registered.hasModule_of_module? e

/-- What is found about the imports of a module while they are linked. -/
def importContents (d : Draft) (s : Module) : List (ProblemKind × Severity × String) :=
  (moduleImportProblems d.policy d.scope.module? ⟨⟨0⟩, none, s⟩).map (·.content)

/-- What linking reports, module by module. -/
lemma contents_link (d : Draft) : d.link.contents = d.contents ++
    (d.sources.flatMap d.importContents ++
      d.sources.flatMap fun s => d.link.checkContents s.imports) := by
  have l := linked_link d
  have same : d.link.scope.module? = d.scope.module? :=
    funext (module?_of_registry l.links.continues.registry)
  have imports : (d.modules.toList.flatMap (moduleImportProblems d.policy d.scope.module?)).map
      (·.content) = d.sources.flatMap d.importContents := by
    rw [sources, List.flatMap_map, List.map_flatMap]
    congr 1
    funext r
    exact contents_importProblems _ _ _ _ _ _ fun _ _ => rfl
  rw [contents, contents, l.problems, List.map_append, List.map_append, imports,
    contents_checks same]

/-- The imports of a module have the same problems in both drafts. -/
lemma Embeds.importContents (h : Embeds σ d d') {s s' : Module} (hs : s ∈ d.sources)
    (imports : s'.imports = s.imports) : d'.importContents s' = d.importContents s := by
  rw [Draft.importContents, Draft.importContents, moduleImportProblems, moduleImportProblems,
    h.policy]
  simp only [imports]
  refine contents_importProblems _ _ _ _ _ _ fun i hi => ?_
  rw [h.mentioned s hs _ (mem_mentions_of_import (List.mem_filter.1 hi).1)]
  exact Option.isNone_map

/-- A registered module has one name in both drafts. -/
lemma Embeds.moduleName (h : Embeds σ d d') {m : ModuleId} (hm : d.HasModule m) :
    d'.mib.moduleName (σ.module m) = d.mib.moduleName m := by
  obtain ⟨s, hs⟩ := hasModule_iff.1 hm
  obtain ⟨s', hs', name, -⟩ := h.modules m s hs
  rw [h.registered.moduleName_eq hs, h.registered'.moduleName_eq hs', name]

/-- The imports of a module fail the same checks in both drafts. -/
lemma Embeds.checkContents (h : Embeds σ d d')
    (scope : Scope.Embeds σ d.HasModule d.scope d'.scope) {s : Module} (hs : s ∈ d.sources) :
    d'.checkContents s.imports = d.checkContents s.imports := by
  refine List.filterMap_congr fun i hi => ?_
  rw [h.mentioned s hs _ (mem_mentions_of_import (mem_of_mem_writtenImports hi))]
  cases hm : d.scope.module? i.source with
  | none => rfl
  | some m =>
    have there := h.registered.hasModule_of_module? hm
    simp only [Option.map_some, Option.bind_some, scope.resolve there, h.moduleName there]
    cases d.scope.resolve m i.symbol <;> rfl

/-! ## What is kept -/

/-- Assignment `i` stands for a definition that was not refused. -/
def Kept (d : Draft) (i : AssignmentId) : Prop := ∃ m x, d.Keeps i m x

/-- Which definitions are kept depends on the registry only. -/
lemma keeps_of_registry {e : Draft} (c : e.registry = d.registry) {i : AssignmentId} {m : ModuleId}
    {x : Definition} : e.Keeps i m x ↔ d.Keeps i m x := by
  rw [Keeps, Keeps, owner?_of_registry c, isRefused_of_registry c]

/-- Which entries are kept depends on the registry only. -/
lemma kept_of_registry {e : Draft} (c : e.registry = d.registry) {i : AssignmentId} :
    e.Kept i ↔ d.Kept i := by
  simp only [Kept, keeps_of_registry c]

/-- Which modules there are depends on the registry only. -/
lemma hasModule_of_registry {e : Draft} (c : e.registry = d.registry) :
    e.HasModule = d.HasModule := by
  funext m
  rw [HasModule, HasModule, sources_of_registry c]

/-- A kept definition is kept in the larger draft, under its new identifiers. -/
lemma Embeds.keeps_renamed (h : Embeds σ d d') {i : AssignmentId} {m : ModuleId} {x : Definition}
    (hx : d.Keeps i m x) : d'.Keeps (σ.assignment i) (σ.module m) x :=
  (h.keeps m (h.registered.hasModule_of_origin hx.1) _ _).2 ⟨i, rfl, hx⟩

/-- A definition that is kept has one name in both drafts. -/
lemma Embeds.nameOf (h : Embeds σ d d') {i : AssignmentId} (hi : d.Kept i) :
    d'.mib.nameOf (σ.assignment i) = d.mib.nameOf i := by
  obtain ⟨m, x, hx⟩ := hi
  rw [h.registered.definitions.nameOf_eq hx.1,
    h.registered'.definitions.nameOf_eq (h.keeps_renamed hx).1]

/-- What is found is kept. -/
lemma DefinitionsRegistered.kept_of_resolveFrom (h : d.DefinitionsRegistered) {m : ModuleId}
    {qualifier : Option String} {name : String} {i : AssignmentId}
    (found : d.scope.resolveFrom m qualifier name = .found i) : d.Kept i := by
  obtain ⟨s, hs⟩ := Scope.exists_lookup?_of_resolveFrom found
  obtain ⟨x, hx, -⟩ := h.lookup?_eq_some_iff_keeps.1 hs
  exact ⟨s, x, hx⟩

/-- The name of a module in front of a name is one that the module of the name mentions. -/
def Mentioned (d : Draft) (m : ModuleId) (qualifier : Option String) : Prop :=
  ∃ s, d.sources[m.index]? = some s ∧ ∀ name, qualifier = some name → name ∈ s.mentions

/-- What is written in a definition is mentioned in its module. -/
lemma Registered.mentioned_of_origin (h : d.Registered) {i : AssignmentId} {m : ModuleId}
    {x : Definition} (hx : d.owner? i = some (m, x)) {qualifier : Option String}
    (written : ∀ name, qualifier = some name → name ∈ x.qualifiers) : d.Mentioned m qualifier := by
  obtain ⟨s, hs, hx⟩ := h.mem_owners.1 (mem_owners_of_owner? hx)
  refine ⟨s, hs, fun name hn => List.mem_append_right _ ?_⟩
  exact List.mem_flatMap.2 ⟨x, hx, written name hn⟩

/-- Names are found alike with or without a module in front that is mentioned. -/
lemma Embeds.resolveFrom (h : Embeds σ d d') (scope : Scope.Embeds σ d.HasModule d.scope d'.scope)
    {m : ModuleId} {qualifier : Option String} (hq : d.Mentioned m qualifier) (name : String) :
    d'.scope.resolveFrom (σ.module m) qualifier name =
      σ.lookup (d.scope.resolveFrom m qualifier name) := by
  obtain ⟨s, hs, mentioned⟩ := hq
  cases qualifier with
  | none => exact scope.resolve (hasModule_iff.2 ⟨s, hs⟩) name
  | some q =>
    simp only [Scope.resolveFrom, Scope.resolveQualified,
      h.mentioned s (List.mem_of_getElem? hs) q (mentioned q rfl)]
    cases hm : d.scope.module? q with
    | none => rfl
    | some n => exact scope.resolve (h.registered.hasModule_of_module? hm) name

end Draft

end MibCorpus
