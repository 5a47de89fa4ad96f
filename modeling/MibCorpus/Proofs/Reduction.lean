import MibCorpus.Proofs.EmbeddedClaims
import MibCorpus.Proofs.OwnDefinitions

/-!
# Corpora without what is ignored

A run ignores the files that could not be parsed, the modules whose name comes up before, and the
definitions whose name comes up before in their module. A corpus can be reduced to the rest. What is
registered for the reduced corpus is embedded in what is registered for the whole one, which keeps
nothing else.
-/

namespace MibCorpus

/-- The module without the definitions whose name comes up before. -/
def Module.withoutRepeats (m : Module) : Module :=
  { m with definitions := firstsBy (·.name) [] m.definitions }

/-- The files that could be parsed, without the modules whose name is in `seen` or comes up before;
the other modules lose the definitions whose name comes up before. -/
def reducedCorpus (seen : List String) : List ParsedFile → List ParsedFile
  | [] => []
  | ⟨_, .error _⟩ :: fs => reducedCorpus seen fs
  | ⟨path, .ok ms⟩ :: fs =>
    ⟨path, .ok ((firstsBy (·.name) seen ms).map (·.withoutRepeats))⟩ ::
      reducedCorpus (ms.map (·.name) ++ seen) fs

/-- Striking repeated definitions keeps a module's name. -/
@[simp]
lemma Module.name_withoutRepeats (m : Module) : m.withoutRepeats.name = m.name := rfl

/-- Striking repeated definitions keeps a module's imports. -/
@[simp]
lemma Module.imports_withoutRepeats (m : Module) : m.withoutRepeats.imports = m.imports := rfl

/-- No generated module defines a symbol twice, so striking repeats leaves it alone. -/
lemma BaseModule.withoutRepeats_source (b : BaseModule) : b.source.withoutRepeats = b.source := by
  rw [Module.withoutRepeats, firstsBy_eq_self b.nodup_definitions fun _ _ => List.not_mem_nil]

/-- Striking repeats leaves any list of generated modules alone. -/
lemma BaseModule.map_withoutRepeats (bs : List BaseModule) :
    (bs.map (·.source)).map (·.withoutRepeats) = bs.map (·.source) := by
  rw [List.map_map]
  exact List.map_congr_left fun b _ => b.withoutRepeats_source

/-- Striking repeats keeps the names of a list of modules, in order. -/
lemma map_name_withoutRepeats (ms : List Module) :
    (ms.map (·.withoutRepeats)).map (·.name) = ms.map (·.name) := by
  rw [List.map_map]
  rfl

namespace Draft

/-! ## The reduced corpus -/

/-- Sorting by name commutes with a map that keeps names. -/
lemma byName_map {f : Module → Module} (same : ∀ m, (f m).name = m.name) (ms : List Module) :
    byName (ms.map f) = (byName ms).map f :=
  (List.map_mergeSort fun a _ b _ => by rw [same, same]).symm

/-- The reduced corpus offers the modules that are registered for the whole one. -/
lemma offered_reducedCorpus (seen : List String) (fs : List ParsedFile) :
    offered (reducedCorpus seen fs) =
      (firstsBy (·.name) seen (offered fs)).map (·.withoutRepeats) := by
  induction fs generalizing seen with
  | nil => rfl
  | cons f fs ih =>
    obtain ⟨path, failure | ms⟩ := f
    · have whole : offered (⟨path, .error failure⟩ :: fs) = offered fs := by
        simp [offered, ParsedFile.modules, byName]
      rw [whole]
      exact ih seen
    · have names : firstsBy (·.name) ((byName ms).map (·.name) ++ seen) (offered fs) =
          firstsBy (·.name) (ms.map (·.name) ++ seen) (offered fs) :=
        firstsBy_congr (fun name => by
          rw [List.mem_append, List.mem_append, ((perm_byName ms).map _).mem_iff]) _
      have whole : offered (⟨path, .ok ms⟩ :: fs) = byName ms ++ offered fs := rfl
      have reduced : offered (reducedCorpus seen (⟨path, .ok ms⟩ :: fs)) =
          byName ((firstsBy (·.name) seen ms).map (·.withoutRepeats)) ++
            offered (reducedCorpus (ms.map (·.name) ++ seen) fs) := rfl
      rw [reduced, ih, whole, firstsBy_append, names, List.map_append,
        byName_map Module.name_withoutRepeats, byName_firstsBy]

/-- The reduced corpus offers no module twice, so registering it finds nothing. -/
lemma filterMap_finding?_reducedCorpus (seen : List String) (fs : List ParsedFile) :
    (reducedCorpus seen fs).filterMap (·.finding?) = [] := by
  induction fs generalizing seen with
  | nil => rfl
  | cons f fs ih =>
    obtain ⟨path, failure | ms⟩ := f
    · exact ih seen
    · exact ih _

/-- Files disappear where they could not be parsed. -/
lemma length_reducedCorpus (seen : List String) (fs : List ParsedFile) :
    (reducedCorpus seen fs).length + (fs.filterMap (·.finding?)).length = fs.length := by
  induction fs generalizing seen with
  | nil => rfl
  | cons f fs ih =>
    obtain ⟨path, failure | ms⟩ := f
    · exact congrArg Nat.succ (ih seen)
    · exact (Nat.add_right_comm ..).trans (congrArg Nat.succ (ih _))

/-- Modules of distinct names without repeated definitions have distinct names throughout. -/
lemma distinctNames_withoutRepeats {ms : List Module} (nodup : (ms.map (·.name)).Nodup) :
    DistinctNames (ms.map (·.withoutRepeats)) where
  modules := by rwa [map_name_withoutRepeats]
  definitions m hm := by
    obtain ⟨s, -, rfl⟩ := List.mem_map.1 hm
    exact nodup_keys_firstsBy _ _ _

/-- In the reduced corpus all names are distinct. -/
lemma distinctNames_reducedCorpus (fs : List ParsedFile) :
    DistinctNames ((reducedCorpus [] fs).flatMap (·.modules)) := by
  refine DistinctNames.perm ?_ (perm_offered _)
  rw [offered_reducedCorpus]
  exact distinctNames_withoutRepeats (nodup_keys_firstsBy _ _ _)

/-- For the reduced corpus the same modules are registered, without repeated definitions. -/
lemma registeredSources_reducedCorpus (policy : Policy) (fs : List ParsedFile) :
    registeredSources policy (reducedCorpus [] fs) =
      (registeredSources policy fs).map (·.withoutRepeats) := by
  have nodup := nodup_keys_firstsBy Module.name [] (offered fs)
  rw [registeredSources, registeredSources, offered_reducedCorpus, firstsBy_eq_self
    (distinctNames_withoutRepeats nodup).modules fun _ _ => List.not_mem_nil, completed, completed]
  split
  · rw [List.map_append, BaseModule.map_withoutRepeats, generated_map Module.name_withoutRepeats
      Module.imports_withoutRepeats BaseModule.withoutRepeats_source]
  · rfl

/-! ## Registered drafts -/

/-- The first draft is the second without what it refuses. -/
structure Reduces (σ : Renaming) (d d' : Draft) : Prop where
  embeds : Embeds σ d d'
  sources : d.sources = d'.sources.map (·.withoutRepeats)
  kept : d'.keptDefinitions = d.keptDefinitions.map (renamed σ)
  whole : d.keptDefinitions = d.definitions

variable {d d' : Draft}

/-- Which module a name stands for depends on the names of the modules. -/
lemma Registered.module?_eq_findIdx? (h : d.Registered) (name : String) :
    d.scope.module? name = ((d.sources.map (·.name)).findIdx? (· = name)).map Ident.mk := by
  rw [h.modules.module?, sources, List.findIdx?_map, List.findIdx?_map]
  rfl

/-- The kept definitions, module by module, are those of its own that no refusal struck. -/
lemma Registered.keptDefinitions_eq (h : d.Registered) :
    d.keptDefinitions = (List.range d.sources.length).flatMap fun k =>
      (d.ownDefinitions ⟨k⟩).filter (!d.isRefused ·.1) := by
  rw [keptDefinitions, h.definitions_eq, List.filter_flatMap]

/-- A draft is reduced by taking out repeated definitions. -/
theorem exists_reduces (h : d.Registered) (h' : d'.Registered) (policy : d'.policy = d.policy)
    (sources : d.sources = d'.sources.map (·.withoutRepeats))
    (nodup : (d'.sources.map (·.name)).Nodup) : ∃ σ, Reduces σ d d' := by
  have names : d.sources.map (·.name) = d'.sources.map (·.name) := by
    rw [sources, map_name_withoutRepeats]
  have length : d.sources.length = d'.sources.length := by rw [sources, List.length_map]
  have distinct : DistinctNames d.sources := sources ▸ distinctNames_withoutRepeats nodup
  have all : ∀ m, (d.ownDefinitions m).filter (!d.isRefused ·.1) = d.ownDefinitions m := fun m =>
    List.filter_eq_self.2 fun x _ => by rw [h.isRefused_eq_false distinct]; rfl
  -- The modules have the same places, and what is kept in one is all that there is in the other.
  have at_m : ∀ (m : ModuleId) s, d.sources[m.index]? = some s →
      ∃ s', d'.sources[m.index]? = some s' ∧ s'.withoutRepeats = s := fun m s hs => by
    rw [sources, List.getElem?_map] at hs
    exact Option.map_eq_some_iff.1 hs
  have sub : ∀ m, (d.ownDefinitions m).Sublist (d.ownDefinitions m) := fun _ => .refl _
  have sub' : ∀ m, ((d'.ownDefinitions m).filter (!d'.isRefused ·.1)).Sublist
      (d'.ownDefinitions (Equiv.refl ModuleId m)) := fun _ => List.filter_sublist
  have alike : ∀ m, d.HasModule m →
      ((d'.ownDefinitions m).filter (!d'.isRefused ·.1)).map (·.2.2) =
        (d.ownDefinitions m).map (·.2.2) := fun m hm => by
    obtain ⟨s, hs⟩ := hasModule_iff.1 hm
    obtain ⟨s', hs', rfl⟩ := at_m m s hs
    have own := congrArg (List.map Prod.snd) (h.map_ownDefinitions hs)
    have own' := congrArg (List.map Prod.snd) (h'.map_ownDefinitions hs')
    simp only [List.map_map, Function.comp_def, List.map_id'] at own own'
    rw [(h'.filter_ownDefinitions m).1, own, Module.withoutRepeats, ← own']
    exact (firstsBy_map (fun _ => rfl) [] _).symm
  obtain ⟨α, renames⟩ := exists_renaming (.refl _) sub sub' alike
  have kept : ∀ m, d.HasModule m → (d'.ownDefinitions m).filter (!d'.isRefused ·.1) =
      ((d.ownDefinitions m).filter (!d.isRefused ·.1)).map (renamed ⟨.refl _, α⟩) := fun m hm => by
    rw [all, renames m hm]
  refine ⟨⟨.refl _, α⟩, embeds_of_kept h h' policy (fun m s hs => ?_) (fun s _ name _ => ?_) kept,
    sources, ?_, ?_⟩
  · obtain ⟨s', hs', rfl⟩ := at_m m s hs
    exact ⟨s', hs', rfl, rfl⟩
  · rw [h.module?_eq_findIdx?, h'.module?_eq_findIdx?, names, Equiv.coe_refl, Option.map_id, id]
  · rw [h.keptDefinitions_eq, h'.keptDefinitions_eq, length, List.map_flatMap]
    refine List.flatMap_congr fun k hk => kept ⟨k⟩ ?_
    rw [HasModule, length]
    exact List.mem_range.1 hk
  · rw [h.keptDefinitions_eq, h.definitions_eq]
    exact List.flatMap_congr fun k _ => all ⟨k⟩

end Draft

end MibCorpus
