import MibCorpus.Proofs.EmbeddedResults

/-!
# Independence of order

Runs on rearranged corpora of distinct names end alike: they assign the same OIDs, leave the same
states, report the same problems, and succeed or fail together. Only the conflicts between claimants
of an OID tell the order, and even these are equally bad at worst.
-/

namespace MibCorpus

/-! ## The worst severity -/

/-- The worst severity is known from how bad problems are. -/
lemma Problems.worstIn_eq {ps qs : List Problem}
    (h : ∀ s, (∃ p ∈ ps, p.severity.atLeast s) ↔ ∃ q ∈ qs, q.severity.atLeast s) :
    worstIn ps = worstIn qs := by
  simp only [exists_atLeast_iff] at h
  cases hp : worstIn ps with
  | none =>
    cases hq : worstIn qs with
    | none => rfl
    | some v =>
      obtain ⟨w, hw, -⟩ := (h v).2 ⟨v, hq, by simp [Severity.atLeast]⟩
      cases hp.symm.trans hw
  | some w =>
    obtain ⟨v, hv, le⟩ := (h w).1 ⟨w, hp, by simp [Severity.atLeast]⟩
    obtain ⟨u, hu, le'⟩ := (h v).2 ⟨v, hv, by simp [Severity.atLeast]⟩
    obtain rfl : w = u := by simpa using hp.symm.trans hu
    rw [hv]
    revert le le'
    cases w <;> cases v <;> decide

namespace Mib

/-! ## What does not depend on the order -/

/-- What became of each assignment: its module, its name, its OID and its state. -/
def outcomes (mib : Mib) : List (String × String × Option Oid × ResolutionState) :=
  mib.assignments.toList.map fun a => (mib.moduleName a.module, mib.str a.name, a.oid, a.state)

/-- The rendered problems without the conflicts between claimants of an OID. -/
def orderlyProblems (mib : Mib) : List String :=
  (mib.problems.toList.filter (·.kind ≠ .multipleValueConflict)).map toString

/-- More than one assignment claims the OID. -/
def IsContested (mib : Mib) (o : Oid) : Prop :=
  1 < mib.assignments.toList.countP (·.claim? = some o)

/-- The models do not differ but in order. -/
structure EndsLike (mib mib' : Mib) : Prop where
  outcomes : mib'.outcomes.Perm mib.outcomes
  problems : mib'.orderlyProblems.Perm mib.orderlyProblems
  contested : ∀ o, mib'.IsContested o ↔ mib.IsContested o
  worst : mib'.problems.worst? = mib.problems.worst?

end Mib

namespace Draft

/-! ## Mirrored runs -/

section Mirrors

variable {σ : Renaming} {d d' : Draft}

/-- Mirrored drafts have the same definitions in another order. -/
lemma Mirrors.definitions_perm (h : Mirrors σ d d') :
    d'.definitions.Perm (d.definitions.map (renamed σ)) := by
  refine Moves.perm (f := Ident.positions σ.assignment) fun i => ?_
  have e := h.owners ⟨i⟩
  rw [h.registered'.definitions.getElem?_definitions, List.getElem?_map,
    h.registered.definitions.getElem?_definitions,
    show d'.owner? ⟨Ident.positions σ.assignment i⟩ = _ from e, Option.map_map, Option.map_map]
  rfl

/-- With distinct names nothing is left out. -/
lemma Registered.included_eq (h : d.Registered) (distinct : DistinctNames d.sources)
    (fresh : d.Fresh) : d.included = d.definitions := by
  refine List.filter_eq_self.2 fun x hx => ?_
  rw [isIncluded_iff h.definitions fresh (mem_definitions.1 hx), h.isRefused_eq_false distinct]
  rfl

/-- What is said of the modules one by one is the same if it depends on their imports. -/
lemma Mirrors.flatMap_sources {α : Type} (h : Mirrors σ d d') {f f' : Module → List α}
    (same : ∀ s ∈ d.sources, ∀ s' : Module, s'.imports = s.imports → f' s' = f s) :
    (d'.sources.flatMap f').Perm (d.sources.flatMap f) := by
  have moved : (d'.sources.map f').Perm (d.sources.map f) := by
    refine Moves.perm (f := Ident.positions σ.module) fun i => ?_
    have e := h.modules ⟨i⟩
    rw [List.getElem?_map, List.getElem?_map]
    change (d'.sources[(σ.module ⟨i⟩).index]?).map f' = _
    cases hs : d.sources[i]? with
    | none =>
      rw [hs, Option.map_none, Option.map_eq_none_iff] at e
      rw [e]
      rfl
    | some s =>
      obtain ⟨s', hs', -, imports⟩ := h.embeds.modules ⟨i⟩ s hs
      rw [hs', Option.map_some, Option.map_some, same s (List.mem_of_getElem? hs) s' imports]
  rw [List.flatMap_def, List.flatMap_def]
  exact moved.flatten

/-- Linking says the same of mirrored modules. -/
lemma Mirrors.contents_link (h : Mirrors σ d d') (linked : EmbedsLinked σ d.link d'.link)
    (contents : d'.contents.Perm d.contents) : d'.link.contents.Perm d.link.contents := by
  have sources : d.link.sources = d.sources :=
    sources_of_registry (linked_link d).links.continues.registry
  rw [Draft.contents_link, Draft.contents_link]
  refine contents.append ((h.flatMap_sources fun s hs s' imports => ?_).append
    (h.flatMap_sources fun s hs s' imports => ?_))
  · exact h.embeds.importContents hs imports
  · rw [imports]
    exact linked.embeds.checkContents linked.scope (sources ▸ hs)

/-- Typing and OID values say the same of mirrored definitions. -/
lemma Mirrors.contents_settled (h : Mirrors σ d d') (linked : EmbedsLinked σ d d')
    (contents : d'.contents.Perm d.contents) (types types' oids oids' : Recorder) :
    (d'.settled types' oids').contents.Perm (d.settled types oids).contents := by
  have included : d'.included.Perm (d.included.map (renamed σ)) := by
    rw [h.registered.included_eq h.distinct linked.untyped.fresh,
      h.registered'.included_eq h.distinct' linked.untyped'.fresh]
    exact h.definitions_perm
  rw [linked.untyped.contents_settled, linked.untyped'.contents_settled,
    ← linked.contents_said types types' oids oids']
  exact contents.append ((List.Perm.flatMap_left _ fun _ _ => included.flatMap_right _).map _)

/-- Typing and OID values decide the same about mirrored assignments. -/
lemma Mirrors.exists_assignmentsMirror (h : Mirrors σ d d') (linked : EmbedsLinked σ d d')
    (types types' oids oids' : Recorder) : ∃ τ : Equiv.Perm TypeId,
      Mib.AssignmentsMirror σ τ (d.settled types oids).mib (d'.settled types' oids').mib := by
  obtain ⟨τ, view⟩ := linked.exists_view types types' oids oids'
  refine ⟨τ, fun i => ?_⟩
  cases ho : d.owner? i with
  | some o => exact view i ⟨o.1, o.2, ho, h.registered.isRefused_eq_false h.distinct i⟩
  | none =>
    have c := linked.untyped.continues_settled types oids
    have c' := linked.untyped'.continues_settled types' oids'
    have none := h.owners i
    rw [ho, Option.map_none, ← owner?_of_registry c'.registry] at none
    rw [← owner?_of_registry c.registry] at ho
    rw [(h.registered.of_continues c).definitions.assignment?_eq_none ho,
      (h.registered'.of_continues c').definitions.assignment?_eq_none none]
    rfl

end Mirrors

/-- Two drafts before finalizing that mirror each other. -/
structure DecidedAlike (σ : Renaming) (τ : Equiv.Perm TypeId) (e e' : Draft) : Prop where
  mirrors : Mirrors σ e e'
  assignments : Mib.AssignmentsMirror σ τ e.mib e'.mib
  contents : e'.contents.Perm e.contents

/-- Runs on rearranged corpora of distinct names decide alike. -/
theorem exists_decidedAlike (policy : Policy) {files files' : List ParsedFile}
    (distinct : DistinctNames (files.flatMap (·.modules)))
    (h : CorpusRearranged files files') (r r' types types' oids oids' : Recorder) :
    ∃ σ τ, DecidedAlike σ τ (decided policy files r types oids)
      (decided policy files' r' types' oids') := by
  have apart := registeredApart_register policy h distinct r r'
  obtain ⟨σ, mirrors⟩ := exists_mirrors apart
  have linked := mirrors.embeds.embedsLinked (imports_register policy files r)
    (imports_register policy files' r') (stages_of_register policy files r types oids).untyped
    (stages_of_register policy files' r' types' oids').untyped
  obtain ⟨τ, assignments⟩ :=
    mirrors.link.exists_assignmentsMirror linked types types' oids oids'
  refine ⟨σ, τ, ?_, assignments, ?_⟩
  · exact mirrors.of_continues (continues_decided policy files r types oids)
      (continues_decided policy files' r' types' oids')
  · exact mirrors.link.contents_settled linked (mirrors.contents_link linked apart.contents) types
      types' oids oids'

section DecidedAlike

variable {σ : Renaming} {τ : Equiv.Perm TypeId} {e e' : Draft}

/-- The same became of mirrored assignments. -/
lemma Mirrors.outcomes_perm (h : Mirrors σ e e')
    (decided : Mib.AssignmentsMirror σ τ e.mib e'.mib) :
    e'.mib.outcomes.Perm e.mib.outcomes := by
  have told : ∀ mib : Mib, mib.outcomes =
      mib.results.map fun r => (r.module, r.name, r.oid, r.state) := by
    intro mib
    rw [Mib.results, List.map_map]
    rfl
  rw [told, told]
  refine (Moves.perm (f := Ident.positions σ.assignment) fun i => ?_).map _
  have same : e'.mib.result? (σ.assignment ⟨i⟩) = e.mib.result? ⟨i⟩ := by
    have view := decided ⟨i⟩
    cases ha : e.mib.assignment? ⟨i⟩ with
    | none =>
      rw [ha, Option.map_none, Option.map_eq_none_iff] at view
      rw [Mib.result?, Mib.result?, view, ha, Option.map_none, Option.map_none]
    | some a =>
      obtain ⟨x, hx, -⟩ := h.registered.definitions.owner ha
      exact h.embeds.result?_of_view
        ⟨_, x, hx, h.registered.isRefused_eq_false h.distinct _⟩ view
  rw [Mib.results, Mib.results, List.getElem?_map, List.getElem?_map, Array.getElem?_toList,
    Array.getElem?_toList]
  exact same

/-- The same OIDs are claimed by mirrored assignments. -/
lemma DecidedAlike.claimsOid (h : DecidedAlike σ τ e e') (o : Oid) (i : AssignmentId) :
    e'.ClaimsOid o (σ.assignment i) ↔ e.ClaimsOid o i := by
  have read : ∀ (d : Draft) (i : AssignmentId), d.ClaimsOid o i ↔ ∃ v,
      (d.mib.assignment? i).map Assignment.view = some v ∧ v.state.claimed? v.oid = some o := by
    intro d i
    simp only [ClaimsOid, Option.map_eq_some_iff, exists_exists_and_eq_and]
    rfl
  rw [read, read, h.assignments]
  simp only [Option.map_eq_some_iff, exists_exists_and_eq_and]
  rfl

/-- The same conflicts are possible. -/
lemma DecidedAlike.exists_conflict_iff (h : DecidedAlike σ τ e e') (s : Severity) :
    (∃ p ∈ e'.claims.flatMap e'.claimProblems, p.severity.atLeast s) ↔
      ∃ p ∈ e.claims.flatMap e.claimProblems, p.severity.atLeast s := by
  rw [h.mirrors.registered.definitions.exists_conflict_iff,
    h.mirrors.registered'.definitions.exists_conflict_iff]
  have severity : ∀ i j, e'.conflictSeverity (σ.assignment i) (σ.assignment j) =
      e.conflictSeverity i j := by
    intro i j
    simp only [conflictSeverity, h.mirrors.nameOf]
  constructor
  · rintro ⟨o, i', j', ne, hi, hj, bad⟩
    obtain ⟨i, rfl⟩ := σ.assignment.surjective i'
    obtain ⟨j, rfl⟩ := σ.assignment.surjective j'
    rw [h.claimsOid] at hi hj
    rw [severity] at bad
    exact ⟨o, i, j, fun e => ne (congrArg _ e), hi, hj, bad⟩
  · rintro ⟨o, i, j, ne, hi, hj, bad⟩
    exact ⟨o, σ.assignment i, σ.assignment j, σ.assignment.injective.ne ne, (h.claimsOid o i).2 hi,
      (h.claimsOid o j).2 hj, severity i j ▸ bad⟩

/-- What comes of drafts that decided alike differs in nothing but order. -/
theorem DecidedAlike.endsLike_finalize (h : DecidedAlike σ τ e e') :
    e.finalize.mib.EndsLike e'.finalize.mib := by
  have f := finalizes_finalize e
  have f' := finalizes_finalize e'
  have decided : Mib.AssignmentsMirror σ τ e.finalize.mib e'.finalize.mib := by
    intro i
    rw [Mib.assignment?, Mib.assignment?, f.assignments, f'.assignments]
    exact h.assignments i
  have outcomes := (h.mirrors.of_continues f.continues f'.continues).outcomes_perm decided
  refine ⟨outcomes, ?_, fun o => ?_, Problems.worstIn_eq fun s => ?_⟩
  · -- The conflicts are all that finalizing reports.
    have orderly : ∀ d : Draft, d.finalize.mib.orderlyProblems =
        (d.contents.filter (·.1 ≠ .multipleValueConflict)).map renderContent := by
      intro d
      have conflicts : (d.claims.flatMap d.claimProblems).filter
          (·.kind ≠ .multipleValueConflict) = [] := by
        refine List.filter_eq_nil_iff.2 fun p hp => ?_
        obtain ⟨⟨o, as⟩, -, hp⟩ := List.mem_flatMap.1 hp
        cases as with
        | nil => simp [claimProblems] at hp
        | cons kept others =>
          obtain ⟨a, -, rfl⟩ := List.mem_map.1 hp
          simp [conflictProblem, Finding.toProblem, Problem.ofKind, Finding.kind]
      rw [Mib.orderlyProblems, (finalizes_finalize d).problems, List.filter_append, conflicts,
        List.append_nil, Draft.contents, List.filter_map, List.map_map]
      rfl
    rw [orderly, orderly]
    exact (h.contents.filter _).map renderContent
  · have count : ∀ mib : Mib, mib.assignments.toList.countP (·.claim? = some o) =
        mib.outcomes.countP fun x => x.2.2.2.claimed? x.2.2.1 = some o := by
      intro mib
      rw [Mib.outcomes, List.countP_map]
      rfl
    rw [Mib.IsContested, Mib.IsContested, count, count, outcomes.countP_eq]
  · have some_bad : ∀ d : Draft, (∃ p ∈ d.finalize.mib.problems.toList, p.severity.atLeast s) ↔
        (∃ c ∈ d.contents, c.2.1.atLeast s) ∨
          ∃ p ∈ d.claims.flatMap d.claimProblems, p.severity.atLeast s := by
      intro d
      simp only [(finalizes_finalize d).problems, List.mem_append, or_and_right, exists_or,
        Draft.contents, List.mem_map, exists_exists_and_eq_and]
      rfl
    rw [some_bad, some_bad, h.exists_conflict_iff]
    simp only [h.contents.mem_iff]

end DecidedAlike

end Draft

namespace Pipeline

/-- Runs on corpora that differ only in the order of the files, of the modules of a file and of the
definitions of a module end alike if all names are distinct: the same became of all assignments, the
same problems are reported but for conflicts between claimants of an OID, the same OIDs have several
claimants, the worst problems are equally bad, and both runs succeed or both fail. -/
theorem endsLike_runParsed (p : Pipeline) {files files' : List ParsedFile}
    (distinct : DistinctNames (files.flatMap (·.modules)))
    (rearranged : CorpusRearranged files files') :
    ∃ mib mib', modelOf (p.runParsed files).1 = some mib ∧
      modelOf (p.runParsed files').1 = some mib' ∧ mib.EndsLike mib' ∧
        (p.runParsed files').1.isOk = (p.runParsed files).1.isOk := by
  obtain ⟨r, types, oids, e⟩ : ∃ r types oids,
      (p.resolve files).1 = (Draft.decided p.policy files r types oids).finalize := ⟨_, _, _, rfl⟩
  obtain ⟨r', types', oids', e'⟩ : ∃ r types oids,
      (p.resolve files').1 = (Draft.decided p.policy files' r types oids).finalize :=
    ⟨_, _, _, rfl⟩
  obtain ⟨σ, τ, decided⟩ :=
    Draft.exists_decidedAlike p.policy distinct rearranged r r' types types' oids oids'
  have ends := decided.endsLike_finalize
  rw [← e, ← e'] at ends
  refine ⟨_, _, modelOf_runParsed p files, modelOf_runParsed p files', ends, ?_⟩
  rw [isOk_runParsed, isOk_runParsed, ends.worst]

/-- A value with OID 1.5. -/
def topValue : Definition := ⟨"top", .value [.arc 1, .arc 5], .synthetic⟩

/-- A value below the other. -/
def lowerValue : Definition := ⟨"lower", .value [.name "top", .arc 2], .synthetic⟩

/-- A file with two modules that both define an OID, and one that could not be parsed. -/
def twoFiles : List ParsedFile :=
  [⟨"a.mib", .ok [⟨"A-MIB", [], [topValue, lowerValue], .synthetic⟩,
    ⟨"B-MIB", [], [topValue], .synthetic⟩]⟩, ⟨"c.mib", .error ⟨"no module", .synthetic⟩⟩]

/-- The same with files, modules and definitions in another order. -/
def twoFilesRearranged : List ParsedFile :=
  [⟨"c.mib", .error ⟨"no module", .synthetic⟩⟩,
    ⟨"a.mib", .ok [⟨"B-MIB", [], [topValue], .synthetic⟩,
      ⟨"A-MIB", [], [lowerValue, topValue], .synthetic⟩]⟩]

/-- The order of two files makes no difference. -/
theorem endsLike_runParsed_twoFiles :
    DistinctNames (twoFiles.flatMap (·.modules)) ∧ CorpusRearranged twoFiles twoFilesRearranged ∧
      ∃ mib mib', modelOf ((new .usual .info).runParsed twoFiles).1 = some mib ∧
        modelOf ((new .usual .info).runParsed twoFilesRearranged).1 = some mib' ∧
        mib.EndsLike mib' ∧ ((new .usual .info).runParsed twoFilesRearranged).1.isOk =
          ((new .usual .info).runParsed twoFiles).1.isOk := by
  have distinct : DistinctNames (twoFiles.flatMap (·.modules)) := by
    refine ⟨by decide, fun m hm => ?_⟩
    have cases : m = ⟨"A-MIB", [], [topValue, lowerValue], .synthetic⟩ ∨
        m = ⟨"B-MIB", [], [topValue], .synthetic⟩ := by
      simpa [twoFiles, ParsedFile.modules] using hm
    rcases cases with rfl | rfl <;> decide
  have definitions : Module.Rearranged ⟨"A-MIB", [], [topValue, lowerValue], .synthetic⟩
      ⟨"A-MIB", [], [lowerValue, topValue], .synthetic⟩ := ⟨rfl, rfl, rfl, .swap ..⟩
  have modules : ModulesRearranged [⟨"A-MIB", [], [topValue, lowerValue], .synthetic⟩,
      ⟨"B-MIB", [], [topValue], .synthetic⟩] [⟨"B-MIB", [], [topValue], .synthetic⟩,
      ⟨"A-MIB", [], [lowerValue, topValue], .synthetic⟩] :=
    ⟨_, .cons definitions (.cons (.refl _) .nil), .swap ..⟩
  have rearranged : CorpusRearranged twoFiles twoFilesRearranged :=
    ⟨_, .cons (.ok modules) (.cons .error .nil), .swap ..⟩
  exact ⟨distinct, rearranged, endsLike_runParsed _ distinct rearranged⟩

end Pipeline

end MibCorpus
