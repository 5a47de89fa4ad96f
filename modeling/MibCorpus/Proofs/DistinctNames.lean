import MibCorpus.Proofs.Registration
import Mathlib.Data.List.Perm.Basic

/-!
# Distinct names

The modules of a corpus may have distinct names, and so may the definitions of each module. A draft
of such modules refuses nothing, and the base modules that they lack have names of their own.
-/

namespace MibCorpus

/-- The modules of a file, if it could be parsed. -/
def ParsedFile.modules (f : ParsedFile) : List Module :=
  match f.result with
  | .ok modules => modules
  | .error _ => []

/-- What is wrong with a file, if it could not be parsed. -/
def ParsedFile.finding? (f : ParsedFile) : Option Finding :=
  f.failure?.map fun failure => .parseFailure f.path failure.message

/-- What a problem says, apart from its place and those concerned. -/
def Problem.content (p : Problem) : ProblemKind × Severity × String :=
  (p.kind, p.severity, p.message)

/-- How what a problem says is rendered. -/
def renderContent (c : ProblemKind × Severity × String) : String :=
  c.2.1.word ++ "[" ++ c.1.code ++ "]: " ++ c.2.2

/-- Whom a problem is about, and what it says. -/
def Problem.notice (p : Problem) : Option AssignmentId × ProblemKind × Severity × String :=
  (p.subject, p.content)

/-- What the problem of a finding says. -/
def Finding.content (f : Finding) : ProblemKind × Severity × String :=
  (f.kind, f.kind.defaultSeverity, f.message)

/-- No two modules have one name, and no two definitions of a module have one. -/
structure DistinctNames (ms : List Module) : Prop where
  modules : (ms.map (·.name)).Nodup
  definitions : ∀ m ∈ ms, (m.definitions.map (·.name)).Nodup

/-- No generated module defines a name twice. -/
lemma BaseModule.nodup_definitions (b : BaseModule) :
    (b.source.definitions.map (·.name)).Nodup := by
  cases b <;> decide

/-- The generated modules have distinct names. -/
lemma BaseModule.nodup_all : (BaseModule.all.map (·.name)).Nodup := by decide

/-- The list of generated modules is complete. -/
lemma BaseModule.mem_all (b : BaseModule) : b ∈ BaseModule.all := by
  cases b <;> decide

/-- A generated module is known by its name. -/
lemma BaseModule.name_injective : Function.Injective BaseModule.name := by
  intro b c same
  exact List.inj_on_of_nodup_map nodup_all b.mem_all c.mem_all same

namespace DistinctNames

variable {ms ns : List Module}

/-- Rearranged modules still have distinct names. -/
lemma perm (h : DistinctNames ms) (p : ms.Perm ns) : DistinctNames ns where
  modules := (p.map _).nodup_iff.1 h.modules
  definitions m hm := h.definitions m (p.mem_iff.2 hm)

end DistinctNames

namespace Draft

/-- The registered modules as written, in order of registration. -/
def sources (d : Draft) : List Module := d.modules.toList.map (·.source)

/-- The sources depend on the registry only. -/
lemma sources_of_registry {d d' : Draft} (h : d'.registry = d.registry) :
    d'.sources = d.sources := by
  rw [sources, sources, modules_of_registry h]

/-- What the problems say, in order. -/
def contents (d : Draft) : List (ProblemKind × Severity × String) :=
  d.mib.problems.toList.map (·.content)

/-- The problems in order, with those that they are about. -/
def notices (d : Draft) : List (Option AssignmentId × ProblemKind × Severity × String) :=
  d.mib.problems.toList.map Problem.notice

/-! ## What is registered -/

section Registered

variable {d : Draft}

/-- A name that no registered module has stands for no module. -/
lemma Registered.module?_eq_none (h : d.Registered) {name : String}
    (free : name ∉ d.sources.map (·.name)) : d.scope.module? name = none := by
  rw [h.modules.module?, Option.map_eq_none_iff, List.findIdx?_eq_none_iff]
  intro r hr
  have ne : r.source.name ≠ name := by
    rintro rfl
    exact free (List.mem_map_of_mem (List.mem_map_of_mem hr))
  simpa using ne

/-- The source at an index is that of the module registered there. -/
lemma getElem?_sources (d : Draft) (i : Nat) : d.sources[i]? = (d.modules[i]?).map (·.source) := by
  rw [sources, List.getElem?_map, Array.getElem?_toList]

/-- The definitions of a draft are those of its modules. -/
lemma Registered.mem_owners (h : d.Registered) {m : ModuleId} {x : Definition} :
    (m, x) ∈ d.owners ↔ ∃ s, d.sources[m.index]? = some s ∧ x ∈ s.definitions := by
  rw [h.modules.owners_eq]
  constructor
  · intro mem
    obtain ⟨r, hr, hx⟩ := List.mem_flatMap.1 mem
    obtain ⟨y, hy, e⟩ := List.mem_map.1 hx
    obtain ⟨rfl, rfl⟩ := Prod.mk.injEq .. ▸ e
    obtain ⟨j, hj⟩ := List.mem_iff_getElem?.1 hr
    rw [Array.getElem?_toList] at hj
    obtain ⟨id, -⟩ := h.modules.entry j r hj
    refine ⟨r.source, ?_, hy⟩
    rw [getElem?_sources, id, hj]
    rfl
  · rintro ⟨s, hs, hx⟩
    rw [getElem?_sources] at hs
    obtain ⟨r, hr, rfl⟩ := Option.map_eq_some_iff.1 hs
    obtain ⟨id, -⟩ := h.modules.entry m.index r hr
    refine List.mem_flatMap.2 ⟨r, List.mem_of_getElem? (by rwa [Array.getElem?_toList]), ?_⟩
    exact List.mem_map.2 ⟨x, hx, by rw [id]⟩

/-- With distinct names no two definitions have one module and one name. -/
lemma Registered.nodup_names (h : d.Registered) (distinct : DistinctNames d.sources) :
    (d.owners.map fun o => (o.1, o.2.name)).Nodup := by
  rw [h.modules.owners_eq, List.map_flatMap, List.nodup_flatMap]
  constructor
  · intro r hr
    have names := distinct.definitions r.source (List.mem_map_of_mem hr)
    rw [List.map_map]
    refine List.Nodup.of_map Prod.snd ?_
    rwa [List.map_map]
  · refine List.pairwise_iff_getElem.2 fun i j hi hj lt => ?_
    have at_i := h.modules.entry i _ (by rw [← Array.getElem?_toList, List.getElem?_eq_getElem hi])
    have at_j := h.modules.entry j _ (by rw [← Array.getElem?_toList, List.getElem?_eq_getElem hj])
    refine List.disjoint_left.2 fun p hp hp' => ?_
    obtain ⟨q, hq, rfl⟩ := List.mem_map.1 hp
    obtain ⟨q', hq', e⟩ := List.mem_map.1 hp'
    obtain ⟨x, -, rfl⟩ := List.mem_map.1 hq
    obtain ⟨y, -, rfl⟩ := List.mem_map.1 hq'
    have ids := congrArg Prod.fst e
    simp only [at_i.1, at_j.1, Ident.mk.injEq] at ids
    omega

/-- With distinct names nothing is refused. -/
lemma Registered.isRefused_eq_false (h : d.Registered) (distinct : DistinctNames d.sources)
    (i : AssignmentId) : d.isRefused i = false := by
  cases hi : d.owner? i with
  | none => simp [isRefused, hi]
  | some o =>
    obtain ⟨m, x⟩ := o
    obtain ⟨j, hj, -⟩ := h.definitions.lookup?_of_owner hi
    obtain ⟨y, hy, name⟩ := h.definitions.owner_of_lookup? hj
    have nodup := h.nodup_names distinct
    have at_i : (d.owners.map fun o => (o.1, o.2.name))[i.index]? = some (m, x.name) := by
      simp [h.definitions.getElem?_owners, hi]
    have at_j : (d.owners.map fun o => (o.1, o.2.name))[j]? = some (m, x.name) := by
      simp [h.definitions.getElem?_owners, hy, name]
    have lt := (List.getElem?_eq_some_iff.1 at_i).1
    have same := (List.getElem?_inj lt nodup).1 (at_i.trans at_j.symm)
    rw [← same] at hj
    simp [isRefused, hi, hj]

end Registered

/-! ## Base modules -/

/-- Whether a base module is imported from by some modules and is not one of them. -/
def lackedBy (ms : List Module) (b : BaseModule) : Bool :=
  ms.any (fun m => m.imports.any (·.source == b.name)) && !(ms.map (·.name)).contains b.name

/-- The candidates that are lacking. -/
def lacked (ms : List Module) (candidates : List BaseModule) : List BaseModule :=
  candidates.filter (lackedBy ms)

/-- The candidates that are not lacking. -/
def notLacked (ms : List Module) (candidates : List BaseModule) : List BaseModule :=
  candidates.filter (!lackedBy ms ·)

/-- The base modules among the candidates that are generated for some modules. -/
def generated (ms : List Module) (candidates : List BaseModule) : List BaseModule :=
  if (notLacked ms candidates).length < candidates.length then
    lacked ms candidates ++
      generated (ms ++ (lacked ms candidates).map (·.source)) (notLacked ms candidates)
  else []
  termination_by candidates.length

/-- A base module that is there already is not lacking. -/
lemma lackedBy_eq_false_of_mem {ms : List Module} {b : BaseModule} (h : b.source ∈ ms) :
    lackedBy ms b = false := by
  have there : (ms.map (·.name)).contains b.name := by
    rw [List.contains_iff_mem]
    exact List.mem_map_of_mem h
  rw [lackedBy, there, Bool.not_true, Bool.and_false]

/-- In the end no candidate is lacking. -/
lemma lackedBy_generated (ms : List Module) (candidates : List BaseModule) :
    ∀ b ∈ candidates, lackedBy (ms ++ (generated ms candidates).map (·.source)) b = false := by
  fun_induction generated ms candidates with
  | case1 ms candidates lt ih =>
    intro b hb
    rw [List.map_append, ← List.append_assoc]
    cases lacking : lackedBy ms b with
    | true =>
      refine lackedBy_eq_false_of_mem (List.mem_append_left _ (List.mem_append_right _ ?_))
      exact List.mem_map_of_mem (List.mem_filter.2 ⟨hb, lacking⟩)
    | false => exact ih b (List.mem_filter.2 ⟨hb, by simp [lacking]⟩)
  | case2 ms candidates lt =>
    intro b hb
    have all : notLacked ms candidates = candidates :=
      List.filter_sublist.eq_of_length
        (Nat.le_antisymm List.filter_sublist.length_le (Nat.le_of_not_lt lt))
    rw [← all] at hb
    simpa using (List.mem_filter.1 hb).2

/-- Which base modules are lacking depends on the registered modules as written. -/
lemma Registered.lacks_eq {d : Draft} (h : d.Registered) (b : BaseModule) :
    d.lacks b = lackedBy d.sources b := by
  have imports : d.importsFrom b.name =
      d.sources.any fun m => m.imports.any (·.source == b.name) := by
    simp [importsFrom, sources, ← Array.any_toList, Function.comp_def]
  have names : (d.scope.module? b.name).isNone = !(d.sources.map (·.name)).contains b.name := by
    cases free : (d.sources.map (·.name)).contains b.name with
    | false =>
      rw [h.module?_eq_none (by simpa using free)]
      rfl
    | true =>
      obtain ⟨m, hm, e⟩ := List.mem_map.1 (List.contains_iff_mem.1 free)
      obtain ⟨r, hr, rfl⟩ := List.mem_map.1 hm
      have found : d.scope.module? b.name ≠ none := by
        rw [h.modules.module?, Ne, Option.map_eq_none_iff, List.findIdx?_eq_none_iff]
        exact fun none => by simpa [e] using none r hr
      rw [Option.isNone_eq_false_iff.2 (Option.isSome_iff_ne_none.2 found)]
      rfl
  rw [lacks, lackedBy, imports, names]

/-- Names that are distinct stay so when the base modules that are lacking are added. -/
lemma nodup_names_append_lacked {ms : List Module} (nodup : (ms.map (·.name)).Nodup)
    {candidates : List BaseModule} (distinct : (candidates.map (·.name)).Nodup) :
    ((ms ++ (lacked ms candidates).map (·.source)).map (·.name)).Nodup := by
  rw [List.map_append, List.nodup_append, List.map_map]
  refine ⟨nodup, distinct.sublist (List.filter_sublist.map _), ?_⟩
  rintro _ hm _ hb rfl
  obtain ⟨b, hb, e⟩ := List.mem_map.1 hb
  have new := (Bool.and_eq_true_iff.1 (List.mem_filter.1 hb).2).2
  rw [Bool.not_eq_true', ← Bool.not_eq_true, List.contains_iff_mem] at new
  exact new (by rw [show b.name = _ from e]; exact hm)

/-! ## The phase -/

/-- The modules that a policy makes of those of a corpus: base modules may be added. -/
def completed (policy : Policy) (ms : List Module) : List Module :=
  if policy.baseModules then ms ++ (generated ms BaseModule.all).map (·.source) else ms

/-- The base modules that a policy adds to those of a corpus. -/
def generatedFor (policy : Policy) (ms : List Module) : List BaseModule :=
  if policy.baseModules then generated ms BaseModule.all else []

/-- To complete some modules is to append the generated ones that are needed. -/
lemma completed_eq (policy : Policy) (ms : List Module) :
    completed policy ms = ms ++ (generatedFor policy ms).map (·.source) := by
  unfold completed generatedFor
  split
  · rfl
  · exact (List.append_nil ms).symm

/-- Names that are distinct stay so when base modules are generated. -/
lemma nodup_names_append_generated {ms : List Module} (candidates : List BaseModule)
    (nodup : (ms.map (·.name)).Nodup) (distinct : (candidates.map (·.name)).Nodup) :
    ((ms ++ (generated ms candidates).map (·.source)).map (·.name)).Nodup := by
  fun_induction generated ms candidates with
  | case1 ms candidates lt ih =>
    have extended := ih (nodup_names_append_lacked nodup distinct)
      (distinct.sublist (List.filter_sublist.map _))
    rwa [List.append_assoc, ← List.map_append] at extended
  | case2 ms candidates lt => simpa using nodup

/-- Generated base modules have new names. -/
lemma distinctNames_append_generated (ms : List Module) (candidates : List BaseModule)
    (distinct : DistinctNames ms) (nodup : (candidates.map (·.name)).Nodup) :
    DistinctNames (ms ++ (generated ms candidates).map (·.source)) where
  modules := nodup_names_append_generated candidates distinct.modules nodup
  definitions m hm := by
    rcases List.mem_append.1 hm with hm | hm
    · exact distinct.definitions m hm
    · obtain ⟨b, -, rfl⟩ := List.mem_map.1 hm
      exact b.nodup_definitions

/-- Completing modules keeps their names distinct. -/
lemma distinctNames_completed (policy : Policy) {ms : List Module} (distinct : DistinctNames ms) :
    DistinctNames (completed policy ms) := by
  unfold completed
  split
  · exact distinctNames_append_generated ms BaseModule.all distinct BaseModule.nodup_all
  · exact distinct

end Draft

end MibCorpus
