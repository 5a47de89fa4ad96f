import MibCorpus.Proofs.Claims
import MibCorpus.Proofs.EmbeddedRuns
import MibCorpus.Proofs.Settled

/-!
# The results of embedded runs

What becomes of an assignment is told by names. Of a definition that two embedded drafts keep, the
same is told in both; of one that is refused, it is only told that it was left out.
-/

namespace MibCorpus

/-- What became of an assignment. -/
structure AssignmentResult where
  module : String
  name : String
  kind : AssignmentKind
  oid : Option Oid
  state : ResolutionState
  deriving DecidableEq

namespace Mib

/-- What became of an assignment of the model. -/
def resultOf (mib : Mib) (a : Assignment) : AssignmentResult :=
  ⟨mib.moduleName a.module, mib.str a.name, a.kind, a.oid, a.state⟩

/-- What became of all assignments, in order. -/
def results (mib : Mib) : List AssignmentResult := mib.assignments.toList.map mib.resultOf

/-- What became of assignment `i`. -/
def result? (mib : Mib) (i : AssignmentId) : Option AssignmentResult :=
  (mib.assignment? i).map mib.resultOf

end Mib

namespace Draft

variable {σ : Renaming} {d d' : Draft} {types types' oids oids' : Recorder}

/-- The assignments of a draft are those behind its definitions. -/
lemma DefinitionsRegistered.toList_assignments (h : d.DefinitionsRegistered) :
    d.mib.assignments.toList = d.definitions.filterMap fun x => d.mib.assignment? x.1 := by
  have each : d.definitions.map (fun x => d.mib.assignment? x.1) =
      d.mib.assignments.toList.map some := by
    refine List.ext_getElem? fun i => ?_
    rw [List.getElem?_map, h.getElem?_definitions, List.getElem?_map, Array.getElem?_toList,
      Option.map_map]
    cases ho : d.owner? ⟨i⟩ with
    | none =>
      rw [show d.mib.assignments[i]? = none from h.assignment?_eq_none (i := ⟨i⟩) ho]
      rfl
    | some o =>
      obtain ⟨a, ha, -⟩ := h.exists_assignment (i := ⟨i⟩) ho
      rw [show d.mib.assignments[i]? = some a from ha]
      exact congrArg some ha
  have both := congrArg (List.filterMap id) each
  rw [List.filterMap_map, List.filterMap_map] at both
  simpa using both.symm

/-- The results are those of the definitions, in order. -/
lemma DefinitionsRegistered.results_eq (h : d.DefinitionsRegistered) :
    d.mib.results = d.definitions.filterMap fun x => d.mib.result? x.1 := by
  rw [Mib.results, h.toList_assignments, List.map_filterMap]
  rfl

/-- What is told of a definition has its name and kind and the name of its module. -/
lemma Registered.exists_result (h : d.Registered) {x : OwnedDefinition} (hx : x ∈ d.definitions) :
    ∃ a, d.mib.assignment? x.1 = some a ∧ d.mib.result? x.1 =
      some ⟨d.sourceName x.2.1, x.2.2.name, x.2.2.kind, a.oid, a.state⟩ := by
  obtain ⟨i, m, x⟩ := x
  have hx := mem_definitions.1 hx
  obtain ⟨a, ha, rfl, kind⟩ := h.definitions.exists_assignment hx
  obtain ⟨s, hs⟩ := hasModule_iff.1 (h.hasModule_of_origin hx)
  have name : d.mib.str a.name = x.name := by
    simpa only [Mib.nameOf, ha] using h.definitions.nameOf_eq hx
  refine ⟨a, ha, ?_⟩
  rw [Mib.result?, ha, Option.map_some, Mib.resultOf, h.moduleName_eq hs, sourceName, hs, name,
    kind]
  rfl

/-- What is told of a definition bears its name and that of its module. -/
lemma Registered.result?_of_mem (h : d.Registered) {x : OwnedDefinition} (hx : x ∈ d.definitions) :
    (d.mib.result? x.1).map (fun r => (r.module, r.name)) =
      some (d.sourceName x.2.1, x.2.2.name) := by
  obtain ⟨a, -, e⟩ := h.exists_result hx
  rw [e]
  rfl

/-- If the same is decided about a definition that is kept, the same is told of it. -/
lemma Embeds.result?_of_view (h : Embeds σ d d') {τ : TypeId → TypeId} {i : AssignmentId}
    (hi : d.Kept i) (view : (d'.mib.assignment? (σ.assignment i)).map Assignment.view =
      (d.mib.assignment? i).map fun a => σ.view τ a.view) :
    d'.mib.result? (σ.assignment i) = d.mib.result? i := by
  have named := h.nameOf hi
  rw [Mib.nameOf, Mib.nameOf] at named
  rw [Mib.result?, Mib.result?]
  cases ha : d.mib.assignment? i with
  | none =>
    rw [ha, Option.map_none, Option.map_eq_none_iff] at view
    rw [view, Option.map_none, Option.map_none]
  | some a =>
    rw [ha] at view named
    obtain ⟨a', ha', view⟩ := Option.map_eq_some_iff.1 view
    rw [ha'] at named ⊢
    have module : a'.module = σ.module a.module := congrArg AssignmentView.module view
    have kind : a'.kind = a.kind := congrArg AssignmentView.kind view
    have oid : a'.oid = a.oid := congrArg AssignmentView.oid view
    have state : a'.state = a.state := congrArg AssignmentView.state view
    have there : d.HasModule a.module := by
      obtain ⟨x, hx, -⟩ := h.registered.definitions.owner ha
      exact h.registered.hasModule_of_origin hx
    simp only [Option.map_some, Mib.resultOf, module, h.moduleName there, named, kind, oid, state]

/-- The same becomes of a definition that is kept. -/
theorem EmbedsLinked.result? (h : EmbedsLinked σ d d') {i : AssignmentId} (hi : d.Kept i) :
    (d'.settled types' oids').mib.result? (σ.assignment i) =
      (d.settled types oids).mib.result? i := by
  have c := h.untyped.continues_settled types oids
  have settled := h.embeds.of_continues c (h.untyped'.continues_settled types' oids')
  obtain ⟨τ, view⟩ := h.exists_view types types' oids oids'
  exact settled.result?_of_view ((kept_of_registry c.registry).2 hi) (view i hi)

/-- What is refused is left out, without an OID. -/
lemma Stages.leftOut {linked final : Draft} (s : Stages linked types oids final) {i : AssignmentId}
    {a : Assignment} (refused : linked.isRefused i) (ha : final.mib.assignment? i = some a) :
    a.state = .excluded ∧ a.oid = none := by
  obtain ⟨b, -, typed, outcome⟩ := s.history ha
  have state := typed.refused refused
  rw [← s.isRefused_resolveTypes] at refused
  cases outcome with
  | untouched =>
    rw [degradeByType_of_ne (by simp [state])]
    exact ⟨state, typed.oid⟩
  | broken _ kept => simp [kept] at refused
  | assigned _ kept => simp [kept] at refused

end Draft

end MibCorpus
