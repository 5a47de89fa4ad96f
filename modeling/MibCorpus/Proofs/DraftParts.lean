import MibCorpus.Proofs.EmbeddedClaims

/-!
# Parts of a draft

A draft is part of another one if its modules are among those of the other and what they mention is
the same in both. A renaming takes all assignments of a module, kept or refused, to those of the
same module in the larger draft. What becomes of some modules and what is said about them can be
told module by module, so it does not matter what other modules there are.
-/

namespace MibCorpus

namespace Mib

/-- What became of the assignments of the modules of some names, in order. -/
def resultsIn (mib : Mib) (names : List String) : List AssignmentResult :=
  mib.results.filter (·.module ∈ names)

/-- What a notice says about an assignment of the modules of some names, unless it is about a
conflict: the names of the module and of the assignment, and the notice as rendered. -/
def remark? (mib : Mib) (names : List String)
    (n : Option AssignmentId × ProblemKind × Severity × String) :
    Option (String × String × String) :=
  if n.2.1 = .multipleValueConflict then none
  else ((n.1.bind mib.result?).filter (·.module ∈ names)).map fun r =>
    (r.module, r.name, renderContent n.2)

/-- What the problems say about the assignments of the modules of some names, in order, apart from
conflicts. -/
def remarksIn (mib : Mib) (names : List String) : List (String × String × String) :=
  mib.problems.toList.filterMap fun p => mib.remark? names p.notice

end Mib

namespace Draft

variable {σ : Renaming} {d d' e e' : Draft}

/-! ## The definitions of some modules -/

/-- The assignments of the module of a name. -/
def definitionsNamed (d : Draft) (name : String) : List OwnedDefinition :=
  (d.scope.module? name).elim [] d.ownDefinitions

/-- The assignments of all modules, name by name. -/
lemma Registered.definitions_eq_named (h : d.Registered) (nodup : (d.sources.map (·.name)).Nodup) :
    d.definitions = (d.sources.map (·.name)).flatMap d.definitionsNamed := by
  have names : d.sources.map (·.name) =
      (List.range d.sources.length).map fun k => d.sourceName ⟨k⟩ := by
    refine List.ext_getElem (by simp) fun k hk _ => ?_
    rw [List.length_map] at hk
    simp [sourceName, List.getElem?_eq_getElem hk]
  rw [names, List.flatMap_map, h.definitions_eq]
  refine List.flatMap_congr fun k hk => ?_
  have hs := List.getElem?_eq_getElem (List.mem_range.1 hk)
  have found : d.scope.module? (d.sourceName ⟨k⟩) = some ⟨k⟩ := by
    refine (h.module?_eq_some_iff nodup).2 ⟨_, hs, ?_⟩
    rw [sourceName, hs]
    rfl
  rw [definitionsNamed, found]
  rfl

/-- The assignments of some modules, name by name. -/
lemma Registered.filter_definitions (h : d.Registered) (nodup : (d.sources.map (·.name)).Nodup)
    (p : String → Bool) : d.definitions.filter (fun x => p (d.sourceName x.2.1)) =
      ((d.sources.map (·.name)).filter p).flatMap d.definitionsNamed := by
  rw [h.definitions_eq_named nodup]
  refine filter_flatMap_groups fun name _ x hx => ?_
  rw [definitionsNamed] at hx
  cases hm : d.scope.module? name with
  | none => simp [hm] at hx
  | some m =>
    rw [hm] at hx
    obtain ⟨s, hs, rfl⟩ := h.exists_source_of_module? hm
    rw [sourceName, (mem_ownDefinitions.1 hx).2, hs]
    rfl

/-! ## Parts -/

/-- The first draft is part of the second: its modules are found there, written the same, with the
same assignments. -/
structure PartOf (σ : Renaming) (d d' : Draft) : Prop where
  embeds : Embeds σ d d'
  nodup : (d.sources.map (·.name)).Nodup
  nodup' : (d'.sources.map (·.name)).Nodup
  written : ∀ m s, d.sources[m.index]? = some s → d'.sources[(σ.module m).index]? = some s
  own : ∀ m, d.HasModule m → d'.ownDefinitions (σ.module m) = (d.ownDefinitions m).map (renamed σ)

/-- What is refused is told by the definitions of the module. -/
lemma isRefused_renamed (h : d.Registered) (h' : d'.Registered) {m : ModuleId}
    (own : d'.ownDefinitions (σ.module m) = (d.ownDefinitions m).map (renamed σ))
    {x : OwnedDefinition} (hx : x ∈ d.ownDefinitions m) :
    d'.isRefused (σ.assignment x.1) = d.isRefused x.1 := by
  obtain ⟨as, bs, split⟩ := List.append_of_mem hx
  have split' : d'.ownDefinitions (σ.module m) =
      as.map (renamed σ) ++ renamed σ x :: bs.map (renamed σ) := by
    rw [own, split, List.map_append, List.map_cons]
  have names : (as.map (renamed σ)).map (·.2.2.name) = as.map (·.2.2.name) := by
    rw [List.map_map]
    rfl
  have there := h'.isRefused_iff split'
  rw [names] at there
  exact Bool.eq_iff_iff.2 (there.trans (h.isRefused_iff split).symm)

/-- A draft whose modules are among those of another one is part of it if no other module of that
has a name that they mention. -/
theorem exists_partOf (h : d.Registered) (h' : d'.Registered) (policy : d'.policy = d.policy)
    (nodup : (d.sources.map (·.name)).Nodup) (nodup' : (d'.sources.map (·.name)).Nodup)
    (sub : d.sources ⊆ d'.sources)
    (apart : ∀ s ∈ d.sources, ∀ name ∈ s.mentions,
      name ∈ d'.sources.map (·.name) → name ∈ d.sources.map (·.name)) : ∃ σ, PartOf σ d d' := by
  classical
  obtain ⟨f, places⟩ := exists_positions nodup.of_map nodup'.of_map sub
  let μ : Equiv.Perm ModuleId := Ident.permute f
  have written : ∀ m s, d.sources[m.index]? = some s → d'.sources[(μ m).index]? = some s :=
    fun m s => places m.index s
  have alike : ∀ m, d.HasModule m →
      (d'.ownDefinitions (μ m)).map (·.2.2) = (d.ownDefinitions m).map (·.2.2) := fun m hm => by
    obtain ⟨s, hs⟩ := hasModule_iff.1 hm
    have here := congrArg (List.map Prod.snd) (h.map_ownDefinitions hs)
    have there := congrArg (List.map Prod.snd) (h'.map_ownDefinitions (written m s hs))
    simp only [List.map_map, Function.comp_def, List.map_id'] at here there
    rw [here, there]
  obtain ⟨α, own⟩ := exists_renaming μ (fun _ => .refl _) (fun _ => .refl _) alike
  refine ⟨⟨μ, α⟩, embeds_of_kept h h' policy (fun m s hs => ⟨s, written m s hs, rfl, rfl⟩)
    (fun s hs name mentioned => Option.ext fun n => ?_) (fun m hm => ?_), nodup, nodup', written,
      own⟩
  · rw [h'.module?_eq_some_iff nodup', Option.map_eq_some_iff]
    simp only [h.module?_eq_some_iff nodup]
    constructor
    · rintro ⟨t, ht, rfl⟩
      -- A module of this name is also in the smaller draft, and its place there is renamed to `n`.
      have shared := apart s hs _ mentioned (List.mem_map_of_mem (List.mem_of_getElem? ht))
      obtain ⟨u, hu, name⟩ := List.mem_map.1 shared
      obtain ⟨k, hk⟩ := List.mem_iff_getElem?.1 hu
      refine ⟨⟨k⟩, ⟨u, hk, name⟩, ?_⟩
      exact Option.some.inj
        (((h'.module?_eq_some_iff nodup').2 ⟨u, written ⟨k⟩ u hk, name⟩).symm.trans
        ((h'.module?_eq_some_iff nodup').2 ⟨t, ht, rfl⟩))
    · rintro ⟨m, ⟨t, ht, rfl⟩, rfl⟩
      exact ⟨t, written m t ht, rfl⟩
  · rw [own m hm, List.filter_map]
    refine congrArg (List.map _) (List.filter_congr fun x hx => ?_)
    exact congrArg (!·) (isRefused_renamed (σ := ⟨μ, α⟩) h h' (own m hm) hx)

namespace PartOf

/-- A part stays a part in drafts that continue both. -/
lemma of_continues (h : PartOf σ d d') (c : Continues d e) (c' : Continues d' e') :
    PartOf σ e e' where
  embeds := h.embeds.of_continues c c'
  nodup := by
    rw [sources_of_registry c.registry]
    exact h.nodup
  nodup' := by
    rw [sources_of_registry c'.registry]
    exact h.nodup'
  written := by
    rw [sources_of_registry c.registry, sources_of_registry c'.registry]
    exact h.written
  own := by
    rw [hasModule_of_registry c.registry]
    unfold ownDefinitions
    rw [definitions_of_registry c.registry, definitions_of_registry c'.registry]
    exact h.own

/-- A definition of the part is refused exactly if it is refused in the whole. -/
lemma isRefused (h : PartOf σ d d') {x : OwnedDefinition} (hx : x ∈ d.definitions) :
    d'.isRefused (σ.assignment x.1) = d.isRefused x.1 := by
  have hx := Draft.mem_definitions.1 hx
  exact isRefused_renamed h.embeds.registered h.embeds.registered'
    (h.own _ (h.embeds.registered.hasModule_of_origin hx)) (mem_ownDefinitions.2 ⟨hx, rfl⟩)

/-- The definitions of the part, renamed, are definitions of the whole. -/
lemma mem_definitions (h : PartOf σ d d') {x : OwnedDefinition} (hx : x ∈ d.definitions) :
    renamed σ x ∈ d'.definitions := by
  have here := Draft.mem_definitions.1 hx
  have own := h.own _ (h.embeds.registered.hasModule_of_origin here)
  have there : renamed σ x ∈ d'.ownDefinitions (σ.module x.2.1) :=
    own ▸ List.mem_map_of_mem (mem_ownDefinitions.2 ⟨here, rfl⟩)
  exact (List.mem_filter.1 there).1

/-- A module has the same name in both drafts. -/
lemma sourceName (h : PartOf σ d d') {x : OwnedDefinition} (hx : x ∈ d.definitions) :
    d'.sourceName (σ.module x.2.1) = d.sourceName x.2.1 := by
  obtain ⟨s, hs⟩ :=
    hasModule_iff.1 (h.embeds.registered.hasModule_of_origin (Draft.mem_definitions.1 hx))
  rw [Draft.sourceName, Draft.sourceName, hs, h.written _ s hs]

/-- Modules that come in the same order in both drafts have the same assignments in order. -/
lemma filter_definitions (h : PartOf σ d d') {p : String → Bool}
    (order : (d'.sources.map (·.name)).filter p = (d.sources.map (·.name)).filter p) :
    d'.definitions.filter (fun x => p (d'.sourceName x.2.1)) =
      (d.definitions.filter fun x => p (d.sourceName x.2.1)).map (renamed σ) := by
  have small := h.embeds.registered
  have large := h.embeds.registered'
  rw [large.filter_definitions h.nodup', small.filter_definitions h.nodup, order, List.map_flatMap]
  refine List.flatMap_congr fun name hn => ?_
  obtain ⟨s, hs, rfl⟩ := List.mem_map.1 (List.mem_filter.1 hn).1
  obtain ⟨k, hk⟩ := List.mem_iff_getElem?.1 hs
  have here := (small.module?_eq_some_iff h.nodup (m := ⟨k⟩)).2 ⟨s, hk, rfl⟩
  have there := (large.module?_eq_some_iff h.nodup').2 ⟨s, h.written _ s hk, rfl⟩
  rw [definitionsNamed, definitionsNamed, here, there]
  exact h.own ⟨k⟩ (hasModule_iff.2 ⟨s, hk⟩)

end PartOf

/-! ## What is told of some modules -/

/-- The results in some modules are those of their definitions, in order. -/
lemma Registered.resultsIn_eq (h : d.Registered) (names : List String) : d.mib.resultsIn names =
    (d.definitions.filter fun x => d.sourceName x.2.1 ∈ names).filterMap fun x =>
      d.mib.result? x.1 := by
  rw [Mib.resultsIn, h.definitions.results_eq, List.filter_filterMap, List.filterMap_filter]
  refine List.filterMap_congr fun x hx => ?_
  obtain ⟨a, -, e⟩ := h.exists_result hx
  rw [e, Option.filter_some]

/-- Finalizing keeps the results in some modules. -/
lemma Finalizes.resultsIn (h : Finalizes d d') (names : List String) :
    d'.mib.resultsIn names = d.mib.resultsIn names := by
  rw [Mib.resultsIn, h.results, Mib.resultsIn]

/-- What is said about definitions of other modules does not count. -/
lemma Registered.remarks_eq (h : d.Registered) {xs : List OwnedDefinition}
    (sub : xs ⊆ d.definitions) (names : List String)
    (s : OwnedDefinition → List (ProblemKind × Severity × String)) :
    (noticesAbout xs s).filterMap (d.mib.remark? names) =
      (noticesAbout (xs.filter fun x => d.sourceName x.2.1 ∈ names) s).filterMap
        (d.mib.remark? names) := by
  rw [noticesAbout, noticesAbout, List.filterMap_flatMap, List.filterMap_flatMap]
  refine (flatMap_filter_eq fun x hx other => ?_).symm
  obtain ⟨a, -, e⟩ := h.exists_result (sub hx)
  rw [List.filterMap_map]
  refine List.filterMap_eq_nil_iff.2 fun c _ => ?_
  have none : (d.mib.result? x.1).filter (·.module ∈ names) = none := by
    rw [e, Option.filter_some, if_neg (by simpa using other)]
  rw [Function.comp_apply, Mib.remark?, Option.bind_some, none, Option.map_none, ite_self]

namespace PartOf

/-- The same became of modules of which the same became definition by definition. -/
lemma resultsIn (h : PartOf σ d d') {names : List String}
    (order : (d'.sources.map (·.name)).filter (· ∈ names) =
      (d.sources.map (·.name)).filter (· ∈ names))
    (results : ∀ x ∈ d.definitions, d'.mib.result? (σ.assignment x.1) = d.mib.result? x.1) :
    d'.mib.resultsIn names = d.mib.resultsIn names := by
  rw [h.embeds.registered'.resultsIn_eq, h.embeds.registered.resultsIn_eq,
    h.filter_definitions (p := (· ∈ names)) order, List.filterMap_map]
  exact List.filterMap_congr fun x hx => results x (List.mem_filter.1 hx).1

/-- The same is said about modules about which the same is said definition by definition. -/
lemma remarks (h : PartOf σ d d') {names : List String}
    (order : (d'.sources.map (·.name)).filter (· ∈ names) =
      (d.sources.map (·.name)).filter (· ∈ names))
    (results : ∀ x ∈ d.definitions, d'.mib.result? (σ.assignment x.1) = d.mib.result? x.1)
    {q q' : OwnedDefinition → Bool} (same : ∀ x ∈ d.definitions, q' (renamed σ x) = q x)
    {s s' : OwnedDefinition → List (ProblemKind × Severity × String)}
    (said : ∀ x ∈ d.definitions.filter q, s' (renamed σ x) = s x) :
    (noticesAbout (d'.definitions.filter q') s').filterMap (d'.mib.remark? names) =
      (noticesAbout (d.definitions.filter q) s).filterMap (d.mib.remark? names) := by
  have about : ((d'.definitions.filter q').filter fun x => d'.sourceName x.2.1 ∈ names) =
      ((d.definitions.filter q).filter fun x => d.sourceName x.2.1 ∈ names).map (renamed σ) := by
    rw [List.filter_comm, h.filter_definitions (p := (· ∈ names)) order, List.filter_map,
      List.filter_comm _ q]
    exact congrArg (List.map _) (List.filter_congr fun x hx => same x (List.mem_filter.1 hx).1)
  rw [h.embeds.registered'.remarks_eq List.filter_sublist.subset, about,
    h.embeds.registered.remarks_eq List.filter_sublist.subset, noticesAbout, noticesAbout,
    List.flatMap_map, List.filterMap_flatMap, List.filterMap_flatMap]
  refine List.flatMap_congr fun x hx => ?_
  obtain ⟨hx, -⟩ := List.mem_filter.1 hx
  rw [said x hx, List.filterMap_map, List.filterMap_map]
  refine List.filterMap_congr fun c _ => ?_
  have there := results x (List.mem_filter.1 hx).1
  simp only [Function.comp_apply, Mib.remark?, Option.bind_some, renamed, there]

end PartOf

end Draft

end MibCorpus
