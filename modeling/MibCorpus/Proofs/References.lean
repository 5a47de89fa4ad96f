import MibCorpus.Proofs.Run
import Mathlib.Data.Set.Card

/-!
# Bound and unbound references

After a run every reference node is bound to what its name stands for, or it is unbound and there is
one problem about it, whose subject is the assignment in whose SYNTAX the node stands.
-/

namespace MibCorpus

open TypeStates

namespace Draft

variable {d : Draft} {r : Recorder}

/-! ## Which references stay unbound -/

/-- A bound node is no longer an unbound reference. -/
lemma isUnbound_bindTo (n : TypeNode) (p : PendingReference) (target : TypeTarget) :
    (n.bindTo p target).shape.isUnbound = false := by
  unfold TypeNode.bindTo
  cases hs : n.shape <;> simp [hs, TypeShape.isUnbound]

/-- Unbound references are references. -/
lemma isReference_of_isUnbound {s : TypeShape} (h : s.isUnbound) : s.isReference := by
  cases s <;> simp_all [TypeShape.isUnbound, TypeShape.isReference]

/-- The nodes without a target are those of the references that stay unbound. -/
lemma Untyped.unbound_iff (h : d.Untyped) {t : TypeId} :
    Unbound (d.resolveTypes r).1.mib.types t ↔ ∃ p ∈ d.unboundReferences r, p.node = t := by
  constructor
  · rintro ⟨n, hn, unbound⟩
    cases nodeTyped h.definitions h.bare hn with
    | laid m hm e waits =>
      rw [e] at unbound
      exact waits (isReference_of_isUnbound unbound)
    | bound m hm p hp node target ht e =>
      rw [e] at unbound
      exact absurd unbound (by simp [isUnbound_bindTo])
  · rintro ⟨p, hp, rfl⟩
    have b := h.binds r
    obtain ⟨m, hm, -, shape⟩ := h.exists_noted_node (b.pending.subset hp)
    have same := type?_resolveTypes (d := d) (r := r) p.node
    rw [b.waiting p hp, hm] at same
    exact ⟨_, same, by rw [shape]; rfl⟩

/-- The node that was noted as a reference belongs to the syntax of its referrer. -/
lemma Untyped.inSyntax_referrer (h : d.Untyped) {p : PendingReference} (hp : p ∈ d.noted) :
    (d.resolveTypes r).1.mib.InSyntax p.referrer p.node := by
  obtain ⟨b, hb, covers, referrer, -⟩ := type?_of_mem_noted h.definitions h.bare hp
  exact (inSyntax_iff h.definitions h.fresh h.bare).2 ⟨b, hb, referrer.symm, covers⟩

/-- Each type belongs to the syntax of one assignment at most. -/
lemma Untyped.inSyntax_unique (h : d.Untyped) {a b : AssignmentId} {t : TypeId}
    (ha : (d.resolveTypes r).1.mib.InSyntax a t) (hb : (d.resolveTypes r).1.mib.InSyntax b t) :
    a = b := by
  obtain ⟨x, hx, rfl, cx⟩ := (inSyntax_iff h.definitions h.fresh h.bare).1 ha
  obtain ⟨y, hy, rfl, cy⟩ := (inSyntax_iff h.definitions h.fresh h.bare).1 hb
  rw [eq_of_covers hx hy cx cy]

/-- Every node stands in the SYNTAX of some assignment. -/
lemma Untyped.exists_inSyntax (h : d.Untyped) {t : TypeId} {n : TypeNode}
    (hn : (d.resolveTypes r).1.mib.type? t = some n) :
    ∃ a, (d.resolveTypes r).1.mib.InSyntax a t := by
  have parts := parts_resolveTypes (r := r) h.definitions h.bare t
  rw [hn] at parts
  obtain ⟨m, hm, -⟩ := Option.map_eq_some_iff.1 parts.symm
  obtain ⟨id, mem⟩ := core_of_type?_lowered h.definitions h.bare hm
  obtain ⟨b, hb, hc⟩ := List.mem_flatMap.1 mem
  have covers := covers_of_mem_cores hb hc
  rw [show m.core.id = t from id] at covers
  exact ⟨_, (inSyntax_iff h.definitions h.fresh h.bare).2 ⟨b, hb, rfl, covers⟩⟩

/-! ## The problems about references -/

/-- What can be reported about a reference that stays unbound, in the SYNTAX of `referrer`. -/
inductive ReferenceFinding (referrer text : String) : Finding → Prop where
  | undefined : ReferenceFinding referrer text (.undefinedType referrer text)
  | ambiguous (sources : Nat) :
    ReferenceFinding referrer text (.ambiguousType referrer text sources)
  | value : ReferenceFinding referrer text (.valueAsType referrer text)
  | circular : ReferenceFinding referrer text (.circularType referrer text)

/-- Whether the problem is about a reference that stays unbound. -/
def isReferenceProblem (p : Problem) : Bool :=
  p.kind = .unresolvedType || p.kind = .circularTypeReference

/-- What is judged about a reference that cannot be bound. -/
lemma referenceFinding_of_judgeReference {pending : List PendingReference} {p : PendingReference}
    {f : Finding} (h : d.judgeReference pending p = .error f) :
    ReferenceFinding (d.mib.nameOf p.referrer) p.text f := by
  unfold judgeReference at h
  simp only at h
  split at h
  · cases h
    exact .undefined
  · cases h
    exact .ambiguous _
  · split at h
    · cases h
      exact .value
    · split at h <;> cases h
      exact .circular

/-- The references that stay unbound, each with the problem about it. -/
def referenceProblems (d : Draft) (r : Recorder) : List (PendingReference × Problem) :=
  (d.swept r).1.filterMap fun p => (d.leftProblem? r p).map (p, ·)

/-- Every reference that stays unbound has its problem. -/
lemma map_fst_referenceProblems (d : Draft) (r : Recorder) :
    (d.referenceProblems r).map Prod.fst = d.unboundReferences r := by
  have each : ∀ ps : List PendingReference,
      (ps.filterMap fun p => (d.leftProblem? r p).map (p, ·)).map Prod.fst =
        ps.filter fun p => !((d.swept r).2.1.judgeReference (d.swept r).1 p).isOk := by
    intro ps
    induction ps with
    | nil => rfl
    | cons p ps ih =>
      rw [List.filterMap_cons, List.filter_cons]
      unfold leftProblem? problemOf? at ih ⊢
      cases (d.swept r).2.1.judgeReference (d.swept r).1 p with
      | ok target => simpa [Except.isOk, Except.toBool] using ih
      | error f => simpa [Except.isOk, Except.toBool] using ih
  exact each _

/-- What the problem about a reference is like. -/
lemma Untyped.of_mem_referenceProblems (h : d.Untyped) {p : PendingReference} {q : Problem}
    (hq : (p, q) ∈ d.referenceProblems r) :
    ∃ f, ReferenceFinding (d.mib.nameOf p.referrer) p.text f ∧ q = d.problemAbout f p.referrer := by
  obtain ⟨p', -, e⟩ := List.mem_filterMap.1 hq
  obtain ⟨q', hq', e⟩ := Option.map_eq_some_iff.1 e
  obtain ⟨rfl, rfl⟩ : p' = p ∧ q' = q := by simpa using e
  unfold leftProblem? problemOf? at hq'
  split at hq'
  · cases hq'
  next f hf =>
    cases hq'
    have registry := registry_swept (r := r) h.definitions h.bare
    have strings := (h.binds_swept r).strings
    have c : Continues d (d.swept r).2.1 := by
      refine ⟨registry, ?_⟩
      rw [show (d.swept r).2.1.mib.strings = _ from strings]
      exact (continues_lowered h.definitions).strings
    refine ⟨f, ?_, problemAbout_of_registry registry f _⟩
    rw [← h.definitions.nameOf_of_continues c]
    exact referenceFinding_of_judgeReference hf

/-- A finding about a reference becomes a problem about references. -/
lemma isReferenceProblem_of_finding {referrer text : String} {f : Finding} {i : AssignmentId}
    (h : ReferenceFinding referrer text f) : isReferenceProblem (d.problemAbout f i) = true := by
  cases h <;> rfl

/-- Problems about references are problems of the phase of types. -/
lemma phase_of_isReferenceProblem (p : Problem) (h : isReferenceProblem p = true) :
    p.kind.phase = .types := by
  simp only [isReferenceProblem, Bool.or_eq_true, decide_eq_true_eq] at h
  rcases h with e | e <;> rw [e] <;> rfl

/-- What lowering finds wrong with a definition is about ranges. -/
lemma kind_of_mem_defects {b : LaidBlock} (hb : b ∈ d.blocks) {f : Finding}
    (hf : f ∈ b.block.defects) : f.kind = .rangeConstraintViolation := by
  obtain ⟨x, -, e⟩ := mem_of_mem_layout hb
  have mem : f ∈ (definitionBlock d.stringId b.owner x b.start).2.defects := by
    rw [← e]
    exact hf
  exact kind_of_mem_definitionBlock mem

/-- Typing reports what lowering finds wrong with ranges and then every reference that stays
unbound. -/
lemma Untyped.problems (h : d.Untyped) : (d.resolveTypes r).1.mib.problems.toList =
    d.mib.problems.toList ++
      ((d.blocks.flatMap fun b => b.block.defects.map (d.problemAbout · b.owner.assignment)) ++
        (d.referenceProblems r).map Prod.snd) := by
  have left : (d.swept r).1.filterMap (d.leftProblem? r) =
      (d.referenceProblems r).map Prod.snd := by
    simp [referenceProblems, List.map_filterMap, Function.comp_def]
  rw [← left]
  exact problems_boundDraft h.definitions h.bare

/-- Everything that typing reports is about types. -/
lemma Untyped.reports (h : d.Untyped) : Reports .types d (d.resolveTypes r).1 := by
  refine ⟨_, h.problems, fun p hp => ?_⟩
  rcases List.mem_append.1 hp with hp | hp
  · obtain ⟨b, hb, hp⟩ := List.mem_flatMap.1 hp
    obtain ⟨f, hf, rfl⟩ := List.mem_map.1 hp
    rw [show (d.problemAbout f b.owner.assignment).kind = f.kind from rfl,
      kind_of_mem_defects hb hf]
    rfl
  · obtain ⟨⟨q, p⟩, hq, rfl⟩ := List.mem_map.1 hp
    obtain ⟨f, hf, rfl⟩ := h.of_mem_referenceProblems hq
    exact phase_of_isReferenceProblem _ (isReferenceProblem_of_finding hf)

/-- The problem about an unbound reference is recorded. -/
lemma Untyped.exists_problem_of_unbound (h : d.Untyped) {t : TypeId} {a : AssignmentId}
    (unbound : Unbound (d.resolveTypes r).1.mib.types t)
    (ht : (d.resolveTypes r).1.mib.InSyntax a t) :
    ∃ q ∈ (d.resolveTypes r).1.mib.problems.toList, q.subject = some a := by
  obtain ⟨p, hp, rfl⟩ := h.unbound_iff.1 unbound
  have mem := hp
  rw [← map_fst_referenceProblems] at mem
  obtain ⟨⟨p, q⟩, hq, rfl⟩ := List.mem_map.1 mem
  have b := h.binds r
  have same := h.inSyntax_unique ht (h.inSyntax_referrer (b.pending.subset hp))
  obtain ⟨f, -, e⟩ := h.of_mem_referenceProblems hq
  refine ⟨q, ?_, by rw [e, same]; rfl⟩
  rw [h.problems]
  exact List.mem_append_right _ (List.mem_append_right _ (List.mem_map.2 ⟨_, hq, rfl⟩))

/-! ## The problems of a run by phases -/

section Stages

variable {linked final : Draft} {types oids : Recorder}

/-- Before the last phase nothing is reported that belongs to it. -/
lemma Stages.phase_of_mem_problems (s : Stages linked types oids final) {p : Problem}
    (hp : p ∈ ((linked.resolveTypes types).1.resolveOids oids).1.mib.problems.toList) :
    p.kind.phase ≠ .finalizing := by
  obtain ⟨middle, hmiddle, inTypes⟩ := s.untyped.reports (r := types)
  obtain ⟨late, hlate, inOids⟩ := (s.untyped.oidsPending types).reports (r := oids)
  rw [hlate, hmiddle] at hp
  rcases List.mem_append.1 hp with hp | hp
  · rcases List.mem_append.1 hp with hp | hp
    · rcases s.earlier p hp with e | e <;> rw [e] <;> decide
    · rw [inTypes p hp]
      decide
  · rw [inOids p hp]
    decide

/-- A test that only problems of one phase pass picks none where there are none of that phase. -/
lemma filter_eq_nil_of_phase {test : Problem → Bool} {phase : Phase}
    (only : ∀ p, test p = true → p.kind.phase = phase) {ps : List Problem}
    (away : ∀ p ∈ ps, p.kind.phase ≠ phase) : ps.filter test = [] :=
  List.filter_eq_nil_iff.2 fun p hp passed => away p hp (only p passed)

/-- Before typing only problems of registration and linking are reported. -/
lemma Stages.filter_linked (s : Stages linked types oids final) {test : Problem → Bool}
    {phase : Phase} (only : ∀ p, test p = true → p.kind.phase = phase)
    (late : phase ≠ .registration ∧ phase ≠ .linking) :
    linked.mib.problems.toList.filter test = [] := by
  refine filter_eq_nil_of_phase only fun p hp => ?_
  rcases s.earlier p hp with e | e <;> rw [e]
  · exact late.1.symm
  · exact late.2.symm

/-- What only problems of typing pass is passed by what typing reports. -/
lemma Stages.filter_of_types (s : Stages linked types oids final) {test : Problem → Bool}
    (only : ∀ p, test p = true → p.kind.phase = .types) :
    final.mib.problems.toList.filter test =
      ((linked.blocks.flatMap fun b =>
        b.block.defects.map (linked.problemAbout · b.owner.assignment)) ++
          (linked.referenceProblems types).map Prod.snd).filter test := by
  obtain ⟨late, numbered, inOids⟩ := (s.untyped.oidsPending types).reports (r := oids)
  obtain ⟨last, finalized, inEnd⟩ := s.finalizes.reports
  have first := s.filter_linked only (by decide)
  have later : late.filter test = [] :=
    filter_eq_nil_of_phase only fun p hp => by rw [inOids p hp]; decide
  have atEnd : last.filter test = [] :=
    filter_eq_nil_of_phase only fun p hp => by rw [inEnd p hp]; decide
  rw [finalized, numbered, s.untyped.problems, List.filter_append, List.filter_append,
    List.filter_append, first, later, atEnd, List.nil_append, List.append_nil, List.append_nil]

/-- What only problems of the OID phase pass is passed by what that phase reports. -/
lemma Stages.filter_of_oids (s : Stages linked types oids final) {test : Problem → Bool}
    (only : ∀ p, test p = true → p.kind.phase = .oids) :
    let d := (linked.resolveTypes types).1
    final.mib.problems.toList.filter test =
      ((d.defectConclusions ++ (d.sweptOids oids).2.1.leftConclusions (d.sweptOids oids).1).map
        fun c => d.problemAbout c.finding c.assignment).filter test := by
  intro d
  obtain ⟨middle, typed, inTypes⟩ := s.untyped.reports (r := types)
  obtain ⟨last, finalized, inEnd⟩ := s.finalizes.reports
  have first := s.filter_linked only (by decide)
  have before : middle.filter test = [] :=
    filter_eq_nil_of_phase only fun p hp => by rw [inTypes p hp]; decide
  have atEnd : last.filter test = [] :=
    filter_eq_nil_of_phase only fun p hp => by rw [inEnd p hp]; decide
  rw [finalized, (s.untyped.oidsPending types).problems, typed, List.filter_append,
    List.filter_append, List.filter_append, first, before, atEnd, List.nil_append, List.nil_append,
    List.append_nil]

/-- What only problems of the last phase pass is passed by the conflicts. -/
lemma Stages.filter_of_finalizing (s : Stages linked types oids final) {test : Problem → Bool}
    (only : ∀ p, test p = true → p.kind.phase = .finalizing) :
    final.mib.problems.toList.filter test =
      (((linked.resolveTypes types).1.resolveOids oids).1.claims.flatMap
        ((linked.resolveTypes types).1.resolveOids oids).1.claimProblems).filter test := by
  rw [s.finalizes.problems, List.filter_append,
    filter_eq_nil_of_phase only fun _ hp => s.phase_of_mem_problems hp, List.nil_append]

/-- The problems about references are those of the references that stay unbound, in order. -/
lemma Stages.filter_isReferenceProblem (s : Stages linked types oids final) :
    final.mib.problems.toList.filter isReferenceProblem =
      (linked.referenceProblems types).map Prod.snd := by
  have ranges : (linked.blocks.flatMap fun b => b.block.defects.map
      (linked.problemAbout · b.owner.assignment)).filter isReferenceProblem = [] := by
    refine List.filter_eq_nil_iff.2 fun p hp => ?_
    obtain ⟨b, hb, hp⟩ := List.mem_flatMap.1 hp
    obtain ⟨f, hf, rfl⟩ := List.mem_map.1 hp
    simp [isReferenceProblem, problemAbout, Finding.toProblem, Problem.ofKind,
      kind_of_mem_defects hb hf]
  rw [s.filter_of_types phase_of_isReferenceProblem, List.filter_append, ranges, List.nil_append]
  refine List.filter_eq_self.2 fun q hq => ?_
  obtain ⟨⟨p, q⟩, hpq, rfl⟩ := List.mem_map.1 hq
  obtain ⟨f, hf, rfl⟩ := s.untyped.of_mem_referenceProblems hpq
  exact isReferenceProblem_of_finding hf

end Stages

end Draft

end MibCorpus
