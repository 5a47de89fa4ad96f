import MibCorpus.Proofs.Linking
import MibCorpus.Proofs.Rearrangement
import Mathlib.Data.Prod.Basic

/-!
# Mirrored drafts

Two drafts mirror each other if a renaming of their modules and assignments takes what is registered
in one to what is registered in the other. The drafts that registration makes of rearranged corpora
do, and names are then found alike in both.
-/

namespace MibCorpus

/-- A renaming of modules and assignments. -/
structure Renaming where
  module : Equiv.Perm ModuleId
  assignment : Equiv.Perm AssignmentId

namespace Renaming

/-- What a look-up ends in, renamed. -/
def lookup (σ : Renaming) : Lookup → Lookup
  | .found i => .found (σ.assignment i)
  | .notFound => .notFound
  | .ambiguous sources => .ambiguous (sources.map σ.module)

end Renaming

namespace Draft

/-! ## Mirrored registries -/

/-- Renaming takes what is registered in the first draft to what is registered in the second. -/
structure Mirrors (σ : Renaming) (d d' : Draft) : Prop where
  registered : d.Registered
  registered' : d'.Registered
  distinct : DistinctNames d.sources
  distinct' : DistinctNames d'.sources
  policy : d'.policy = d.policy
  modules : ∀ m, (d'.sources[(σ.module m).index]?).map (fun s => (s.name, s.imports)) =
    (d.sources[m.index]?).map fun s => (s.name, s.imports)
  owners : ∀ i, d'.owner? (σ.assignment i) = (d.owner? i).map fun o => (σ.module o.1, o.2)

/-- Mirrored assignments have one name. -/
lemma Mirrors.nameOf {σ : Renaming} {d d' : Draft} (h : Mirrors σ d d') (i : AssignmentId) :
    d'.mib.nameOf (σ.assignment i) = d.mib.nameOf i := by
  have unnamed : ∀ {e : Draft} {i : AssignmentId}, e.Registered → e.owner? i = none →
      e.mib.nameOf i = "" := by
    intro e i registered none
    rw [Mib.nameOf, registered.definitions.assignment?_eq_none none]
  have e := h.owners i
  cases ho : d.owner? i with
  | none =>
    rw [ho] at e
    rw [unnamed h.registered ho, unnamed h.registered' e]
  | some o =>
    rw [ho] at e
    rw [h.registered.definitions.nameOf_eq ho, h.registered'.definitions.nameOf_eq e]

/-- Each module has a place beside which its rearrangement stands. -/
lemma exists_beside {ms ns : List Module} (h : ModulesRearranged ms ns) :
    ∃ f : Equiv.Perm Nat, ∀ i : Nat, ms[i]? = none ∧ ns[f i]? = none ∨
      ∃ s t, ms[i]? = some s ∧ ns[f i]? = some t ∧ s.Rearranged t := by
  obtain ⟨ks, hks, p⟩ := h
  obtain ⟨f, hf⟩ := exists_moves p
  have all := List.forall₂_iff_get.1 hks
  refine ⟨f, fun i => ?_⟩
  rcases Nat.lt_or_ge i ms.length with lt | ge
  · have lt' : i < ks.length := all.1 ▸ lt
    refine .inr ⟨ms[i], ks[i], List.getElem?_eq_getElem lt, ?_, all.2 i lt lt'⟩
    rw [hf i, List.getElem?_eq_getElem lt']
  · refine .inl ⟨List.getElem?_eq_none ge, ?_⟩
    rw [hf i, List.getElem?_eq_none (all.1 ▸ ge)]

/-- The drafts that registration makes of rearranged corpora mirror each other. -/
theorem exists_mirrors {d d' : Draft} (h : RegisteredApart d d') : ∃ σ, Mirrors σ d d' := by
  obtain ⟨f, beside⟩ := exists_beside h.sources
  have distinct' := h.sources.distinctNames h.distinct
  let μ : Equiv.Perm ModuleId := Ident.permute f
  -- With the modules renamed the definitions are the same, and no two of them are equal.
  have owners : (d.owners.map (Prod.map μ id)).Perm d'.owners := by
    have nodup := (h.registered.nodup_names h.distinct).of_map
    have nodup' := (h.registered'.nodup_names distinct').of_map
    have injective : Function.Injective (Prod.map μ (id : Definition → Definition)) :=
      Function.Injective.prodMap μ.injective Function.injective_id
    refine (List.perm_ext_iff_of_nodup (nodup.map injective) nodup').2 fun o => ?_
    obtain ⟨m', x⟩ := o
    obtain ⟨m, rfl⟩ := μ.surjective m'
    have there : (μ m, x) ∈ d.owners.map (Prod.map μ id) ↔ (m, x) ∈ d.owners :=
      List.mem_map_of_injective injective (a := (m, x))
    rw [there, h.registered.mem_owners, h.registered'.mem_owners]
    rcases beside m.index with ⟨e, e'⟩ | ⟨s, t, e, e', r⟩
    · simp [μ, Ident.permute, e, e']
    · simp [μ, Ident.permute, e, e', r.definitions.mem_iff]
  obtain ⟨g, hg⟩ := exists_moves owners
  refine ⟨⟨μ, Ident.permute g⟩, h.registered, h.registered', h.distinct, distinct', h.policy,
    fun m => ?_, fun i => ?_⟩
  · rcases beside m.index with ⟨e, e'⟩ | ⟨s, t, e, e', r⟩
    · simp [μ, Ident.permute, e, e']
    · simp [μ, Ident.permute, e, e', r.name, r.imports]
  · have e := hg i.index
    rwa [List.getElem?_map, h.registered.definitions.getElem?_owners,
      h.registered'.definitions.getElem?_owners] at e

/-! ## Registered names -/

/-- A module that is found by its name has this name. -/
lemma Registered.exists_source_of_module? {d : Draft} (h : d.Registered) {name : String}
    {m : ModuleId} (found : d.scope.module? name = some m) :
    ∃ s, d.sources[m.index]? = some s ∧ s.name = name := by
  rw [h.modules.module?] at found
  obtain ⟨i, hi, rfl⟩ := Option.map_eq_some_iff.1 found
  obtain ⟨lt, name, -⟩ := List.findIdx?_eq_some_iff_getElem.1 hi
  refine ⟨d.modules.toList[i].source, ?_, by simpa using name⟩
  rw [sources, List.getElem?_map, List.getElem?_eq_getElem lt]
  rfl

/-- Where names are distinct, a name stands for the module that has it. -/
lemma Registered.module?_eq_some_iff {d : Draft} (h : d.Registered)
    (nodup : (d.sources.map (·.name)).Nodup) {name : String} {m : ModuleId} :
    d.scope.module? name = some m ↔ ∃ s, d.sources[m.index]? = some s ∧ s.name = name := by
  constructor
  · exact h.exists_source_of_module?
  · rintro ⟨s, hs, rfl⟩
    rw [h.modules.module?]
    cases hf : d.modules.toList.findIdx? (·.source.name = s.name) with
    | none =>
      obtain ⟨r, hr, rfl⟩ := List.mem_map.1 (List.mem_of_getElem? hs)
      have no := List.findIdx?_eq_none_iff.1 hf r hr
      simp at no
    | some i =>
      obtain ⟨lt, name, -⟩ := List.findIdx?_eq_some_iff_getElem.1 hf
      have at_i : (d.sources.map (·.name))[i]? = some s.name := by
        have e : d.modules.toList[i].source.name = s.name := by simpa using name
        rw [sources, List.getElem?_map, List.getElem?_map, List.getElem?_eq_getElem lt, ← e]
        rfl
      have at_m : (d.sources.map (·.name))[m.index]? = some s.name := by
        rw [List.getElem?_map, hs]
        rfl
      have same := (List.getElem?_inj (List.getElem?_eq_some_iff.1 at_i).1 nodup).1
        (at_i.trans at_m.symm)
      rw [same]
      rfl

/-- Modules are found alike by name. -/
lemma Mirrors.module? {σ : Renaming} {d d' : Draft} (h : Mirrors σ d d') (name : String) :
    d'.scope.module? name = (d.scope.module? name).map σ.module := by
  refine Option.ext fun m' => ?_
  obtain ⟨m, rfl⟩ := σ.module.surjective m'
  have there : (d.scope.module? name).map σ.module = some (σ.module m) ↔
      d.scope.module? name = some m := by
    simp [Option.map_eq_some_iff]
  rw [there, h.registered.module?_eq_some_iff h.distinct.modules,
    h.registered'.module?_eq_some_iff h.distinct'.modules]
  have e := congrArg (Option.map Prod.fst) (h.modules m)
  rw [Option.map_map, Option.map_map] at e
  have names := congrArg (· = some name) e
  simpa [Option.map_eq_some_iff] using names

/-! ## Later drafts -/

section

variable {σ : Renaming} {d d' e e' : Draft}

/-- Drafts that continue mirrored ones mirror each other. -/
lemma Mirrors.of_continues (h : Mirrors σ d d') (c : Continues d e) (c' : Continues d' e') :
    Mirrors σ e e' where
  registered := h.registered.of_continues c
  registered' := h.registered'.of_continues c'
  distinct := by
    rw [sources_of_registry c.registry]
    exact h.distinct
  distinct' := by
    rw [sources_of_registry c'.registry]
    exact h.distinct'
  policy := by rw [policy_of_registry c.registry, policy_of_registry c'.registry, h.policy]
  modules m := by
    rw [sources_of_registry c.registry, sources_of_registry c'.registry]
    exact h.modules m
  owners i := by
    rw [owner?_of_registry c.registry, owner?_of_registry c'.registry]
    exact h.owners i

/-- Linking mirrored drafts keeps them mirrored. -/
lemma Mirrors.link (h : Mirrors σ d d') : Mirrors σ d.link d'.link :=
  h.of_continues (linked_link d).links.continues (linked_link d').links.continues

end

end Draft

end MibCorpus
