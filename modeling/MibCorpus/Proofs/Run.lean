import MibCorpus.Pipeline
import MibCorpus.Proofs.Finalization
import MibCorpus.Proofs.Linking
import MibCorpus.Proofs.OidPhase
import MibCorpus.Proofs.Typing

/-!
# Runs

A run hands over the model of its last draft, whether it counts as failed or not. Each phase starts
from a draft in which the phases before have left everything in the form that it needs.
-/

namespace MibCorpus

/-- Some problem is at least as bad as `s` if the worst is. -/
lemma Problems.exists_atLeast_iff (ps : List Problem) (s : Severity) :
    (∃ p ∈ ps, p.severity.atLeast s) ↔ ∃ w, worstIn ps = some w ∧ w.atLeast s := by
  induction ps with
  | nil => simp [worstIn]
  | cons p ps ih =>
    rw [List.exists_mem_cons_iff, ih, worstIn]
    cases worstIn ps with
    | none => simp
    | some w =>
      simp only [Option.some.injEq, exists_eq_left', Severity.worse, Severity.atLeast,
        decide_eq_true_eq]
      split <;> omega

namespace Pipeline

/-- The model that comes out of a run, if there is one. -/
def modelOf : Except RunError Mib → Option Mib
  | .ok mib => some mib
  | .error e => e.mib?

/-- A pipeline keeps its policy when it enters a stage. -/
@[simp]
lemma policy_enter (p : Pipeline) (stage : Stage) : (p.enter stage).policy = p.policy := rfl

/-- It keeps its policy in a phase. -/
@[simp]
lemma policy_phase (dp : Draft × Pipeline) (c : PhaseCall) :
    (phase dp c).2.policy = dp.2.policy := rfl

/-- It keeps its policy in a run. -/
lemma policy_resolve (p : Pipeline) (files : List ParsedFile) :
    (p.resolve files).2.policy = p.policy := by
  simp [resolve]

/-- A run ends with the verdict on the model of its last draft. -/
lemma fst_runParsed (p : Pipeline) (files : List ParsedFile) :
    (p.runParsed files).1 = verdict p.policy (p.resolve files).1.mib := by
  have policy := policy_resolve p files
  unfold runParsed
  generalize p.resolve files = out at policy ⊢
  obtain ⟨d, p'⟩ := out
  rw [← policy]
  cases h : verdict p'.policy d.mib with
  | ok mib => simp only [h]
  | error e => simp only [h]

/-- Whatever the verdict, the model is the one that was judged. -/
lemma modelOf_verdict (policy : Policy) (mib : Mib) : modelOf (verdict policy mib) = some mib := by
  unfold verdict
  cases mib.problems.worst? with
  | none => rfl
  | some worst => cases h : policy.failsAt (some worst) <;> simp [h, modelOf, RunError.mib?]

/-- A run succeeds unless the policy fails at the worst problem. -/
lemma isOk_verdict (policy : Policy) (mib : Mib) :
    (verdict policy mib).isOk = !policy.failsAt mib.problems.worst? := by
  unfold verdict
  cases h : mib.problems.worst? with
  | none => rfl
  | some worst => cases h : policy.failsAt (some worst) <;> simp [h, Except.isOk, Except.toBool]

/-- Every run hands over the model of its last draft. -/
theorem modelOf_runParsed (p : Pipeline) (files : List ParsedFile) :
    modelOf (p.runParsed files).1 = some (p.resolve files).1.mib := by
  rw [fst_runParsed, modelOf_verdict]

/-- Whether a run succeeds depends on the worst severity. -/
lemma isOk_runParsed (p : Pipeline) (files : List ParsedFile) :
    (p.runParsed files).1.isOk = !p.policy.failsAt (p.resolve files).1.mib.problems.worst? := by
  rw [fst_runParsed, isOk_verdict]

end Pipeline

namespace Draft

/-- Linking decides nothing about assignments. -/
lemma Linked.fresh {d d' : Draft} (h : Linked d d') (f : d.Fresh) : d'.Fresh where
  undecided i a ha := by
    rw [Mib.assignment?, h.links.assignments] at ha
    rw [isRefused_of_registry h.links.continues.registry]
    exact f.undecided i a ha
  reported i hi := by
    rw [isRefused_of_registry h.links.continues.registry] at hi
    obtain ⟨p, hp, hk, hs⟩ := f.reported i hi
    exact ⟨p, by rw [h.problems]; exact List.mem_append_left _ hp, hk, hs⟩

/-- A draft whose modules are registered and linked and in which nothing is typed. -/
structure Untyped (d : Draft) : Prop where
  definitions : d.DefinitionsRegistered
  fresh : d.Fresh
  bare : d.mib.types = #[]

/-- A reference that lowering notes has a node, which is not bound yet. -/
lemma Untyped.exists_noted_node {d : Draft} (h : d.Untyped) {r : PendingReference}
    (hr : r ∈ d.noted) : ∃ n, d.lowered.mib.type? r.node = some n ∧ n.module = r.module ∧
      n.shape = .reference (d.stringId r.symbol) (r.qualifier.map d.stringId) none none := by
  obtain ⟨-, -, -, -, node⟩ := type?_of_mem_noted h.definitions h.bare hr
  exact node

/-- References are noted for nodes that are references. -/
lemma Untyped.isReference_of_noted {d : Draft} (h : d.Untyped) {r : PendingReference}
    (hr : r ∈ d.noted) {n : TypeNode} (hn : d.lowered.mib.type? r.node = some n) :
    n.shape.isReference = true := by
  obtain ⟨m, hm, -, shape⟩ := h.exists_noted_node hr
  rw [Option.some.inj (hn.symm.trans hm), shape]
  rfl

/-- No node is noted twice. -/
lemma Untyped.nodup_noted {d : Draft} (h : d.Untyped) : (d.noted.map (·.node)).Nodup :=
  Draft.nodup_noted h.definitions h.bare

/-- The sweeps bind references. -/
lemma Untyped.binds_swept {d : Draft} (h : d.Untyped) (r : Recorder) :
    Binds d.lowered d.noted (d.swept r).1 (d.swept r).2.1 :=
  (binds_run d.lowered d.noted h.nodup_noted r).1

/-- In the end the references that are not bound are those that stay unbound. -/
lemma Untyped.binds {d : Draft} (h : d.Untyped) (r : Recorder) :
    Binds d.lowered d.noted (d.unboundReferences r) (d.boundDraft r) :=
  binds_boundDraft h.definitions h.bare

/-- Typing goes on from the draft without registering anything. -/
lemma Untyped.continues {d : Draft} (h : d.Untyped) (r : Recorder) :
    Continues d (d.resolveTypes r).1 :=
  continues_resolveTypes h.definitions h.bare

/-- The state that the type of an assignment gives it never leaves it out or pending. -/
lemma typeState_settled {d : Draft} (r : Recorder) (a : Assignment) :
    typeState (d.resolveTypes r).1.mib a ≠ .excluded ∧
      typeState (d.resolveTypes r).1.mib a ≠ .pending := by
  unfold typeState
  cases ht : a.type.bind (d.resolveTypes r).1.mib.type? with
  | none => simp
  | some n =>
    obtain ⟨t, -, hn⟩ := Option.bind_eq_some_iff.1 ht
    rw [type?_resolveTypes] at hn
    obtain ⟨m, -, rfl⟩ := Option.map_eq_some_iff.1 hn
    simp only [TypeStates.stateOf]
    split
    · simp
    · split <;> simp

/-- After typing the OID phase can start. -/
lemma Untyped.oidsPending {d : Draft} (h : d.Untyped) (r : Recorder) :
    (d.resolveTypes r).1.OidsPending := by
  have c := h.continues r
  -- What typing makes of an assignment is known from what registration made of it.
  have known : ∀ i b, (d.resolveTypes r).1.mib.assignment? i = some b →
      ∃ a, d.mib.assignment? i = some a ∧ b.oid = none ∧ b.kind = a.kind ∧
        (a.state = if d.isRefused i then .excluded else .pending) ∧
        (b.state = a.state ∨ a.kind.isType ∧ a.state = .pending ∧
          b.state ≠ .excluded ∧ b.state ≠ .pending) := by
    intro i b hb
    rw [assignment?_resolveTypes h.definitions h.bare,
      assignment?_lowered h.definitions h.fresh h.bare, Option.map_map] at hb
    obtain ⟨a, ha, rfl⟩ := Option.map_eq_some_iff.1 hb
    obtain ⟨-, oid, state⟩ := h.fresh.undecided i a ha
    refine ⟨a, ha, ?_⟩
    simp only [Function.comp_apply]
    split
    next hp =>
      simp only [Bool.and_eq_true, beq_iff_eq] at hp
      exact ⟨oid, rfl, state, .inr ⟨hp.1, hp.2, typeState_settled r _⟩⟩
    next => exact ⟨oid, rfl, state, .inl rfl⟩
  refine ⟨h.definitions.of_registry c.registry c.strings, fun i b hb => ?_, fun i b hb => ?_,
    fun i b hb hasOid kept => ?_⟩
  · obtain ⟨a, -, oid, -⟩ := known i b hb
    exact oid
  · rw [isRefused_of_registry c.registry]
    obtain ⟨a, -, -, -, state, same | ⟨-, pending, ne, -⟩⟩ := known i b hb
    · rw [same, state]
      cases d.isRefused i <;> simp
    · rw [pending] at state
      cases hr : d.isRefused i with
      | false => simp [ne]
      | true => simp [hr] at state
  · rw [isRefused_of_registry c.registry] at kept
    obtain ⟨a, -, -, kind, state, same | ⟨isType, -⟩⟩ := known i b hb
    · rw [same, state, kept]
      rfl
    · rw [kind, AssignmentKind.hasOid, isType] at hasOid
      cases hasOid

/-- The draft after typing and OID values. -/
def settled (d : Draft) (types oids : Recorder) : Draft :=
  ((d.resolveTypes types).1.resolveOids oids).1

/-- The draft of a run before finalizing. -/
def decided (policy : Policy) (files : List ParsedFile) (r types oids : Recorder) : Draft :=
  ((Draft.new policy).register files r).1.link.settled types oids

/-- Every run finalizes such a draft. -/
lemma exists_decided (p : Pipeline) (files : List ParsedFile) : ∃ r types oids,
    (p.resolve files).1 = (decided p.policy files r types oids).finalize :=
  ⟨_, _, _, rfl⟩

/-- The drafts that the last phases of a run start from: the linked one, the typed one, and the one
with all OIDs. -/
structure Stages (linked : Draft) (types oids : Recorder) (final : Draft) : Prop where
  registered : linked.Registered
  untyped : linked.Untyped
  earlier : ∀ p ∈ linked.mib.problems.toList,
    p.kind.phase = .registration ∨ p.kind.phase = .linking
  finalizes : Finalizes ((linked.resolveTypes types).1.resolveOids oids).1 final

/-- Registering into a draft without modules and linking prepares the phases that follow. -/
lemma stages_of_register (policy : Policy) (files : List ParsedFile) (r types oids : Recorder) :
    let linked := ((Draft.new policy).register files r).1.link
    Stages linked types oids ((linked.resolveTypes types).1.resolveOids oids).1.finalize := by
  intro linked
  have registers := registers_register (Draft.new policy) files r
  have links := linked_link ((Draft.new policy).register files r).1
  have registered := registers.registered (registered_new policy)
  have registered' := registered.of_continues links.links.continues
  refine ⟨registered', ⟨registered'.definitions, ?_, ?_⟩, fun p hp => ?_, finalizes_finalize _⟩
  · exact links.fresh (registers.fresh (registered_new policy) (fresh_new policy))
  · rw [links.links.types]
    exact congrArg Prospects.types registers.prospects
  · obtain ⟨first, e, hfirst⟩ := registers.reports
    obtain ⟨second, e', hsecond⟩ := links.reports
    rw [e', e] at hp
    rcases List.mem_append.1 hp with hp | hp
    · refine .inl (hfirst p ?_)
      simpa [Draft.new, Mib.empty, MibParts.empty] using hp
    · exact .inr (hsecond p hp)

/-- Every run goes through these stages. -/
theorem exists_stages (p : Pipeline) (files : List ParsedFile) :
    ∃ linked types oids, Stages linked types oids (p.resolve files).1 :=
  ⟨_, _, _, stages_of_register p.policy files _ _ _⟩

section Stages

variable {linked final : Draft} {types oids : Recorder}

/-- The final draft continues the linked one. -/
lemma Stages.continues (s : Stages linked types oids final) : Continues linked final :=
  ((s.untyped.continues _).trans
    (s.untyped.oidsPending types).continues).trans s.finalizes.continues

/-- The types are final after the typing phase. -/
lemma Stages.types_eq (s : Stages linked types oids final) :
    final.mib.types = (linked.resolveTypes types).1.mib.types :=
  s.finalizes.types.trans (s.untyped.oidsPending types).types

/-- The duplicates of the model are the refused definitions of the linked draft. -/
lemma Stages.isDuplicate_iff (s : Stages linked types oids final) (i : AssignmentId) :
    final.mib.IsDuplicate i ↔ linked.isRefused i = true := by
  have c := s.continues
  rw [← isRefused_of_registry c.registry]
  exact ((s.untyped.definitions.of_registry c.registry c.strings).isRefused_iff i).symm

/-- What is refused stays so in the typing phase. -/
lemma Stages.isRefused_resolveTypes (s : Stages linked types oids final) (i : AssignmentId) :
    (linked.resolveTypes types).1.isRefused i = linked.isRefused i :=
  isRefused_of_registry (s.untyped.continues _).registry i

/-- Problems reported up to the phase of OID values are among those of the model. -/
lemma Stages.mem_problems (s : Stages linked types oids final) {p : Problem}
    (hp : p ∈ ((linked.resolveTypes types).1.resolveOids oids).1.mib.problems.toList) :
    p ∈ final.mib.problems.toList := by
  rw [s.finalizes.problems]
  exact List.mem_append_left _ hp

/-- So are those reported up to the typing phase. -/
lemma Stages.mem_problems_of_typed (s : Stages linked types oids final) {p : Problem}
    (hp : p ∈ (linked.resolveTypes types).1.mib.problems.toList) :
    p ∈ final.mib.problems.toList := by
  refine s.mem_problems ?_
  rw [(s.untyped.oidsPending types).problems]
  exact List.mem_append_left _ hp

/-- The assignments are final after the phase of OID values. -/
lemma Stages.assignment?_eq (s : Stages linked types oids final) (i : AssignmentId) :
    final.mib.assignment? i =
      ((linked.resolveTypes types).1.resolveOids oids).1.mib.assignment? i := by
  rw [Mib.assignment?, s.finalizes.assignments]
  rfl

/-- The scope is final after linking. -/
lemma Stages.scope_eq (s : Stages linked types oids final) : final.scope = linked.scope :=
  (s.finalizes.scope.trans (s.untyped.oidsPending types).scope).trans
    (scope_resolveTypes s.untyped.definitions s.untyped.bare)

/-- What became of an assignment of the last draft in the OID phase. -/
lemma Stages.outcome (s : Stages linked types oids final) {i : AssignmentId} {a' : Assignment}
    (h : final.mib.assignment? i = some a') :
    ∃ a, (linked.resolveTypes types).1.mib.assignment? i = some a ∧
      OidOutcome (linked.resolveTypes types).1
        ((linked.resolveTypes types).1.resolveOids oids).1 i a a' := by
  have pending := s.untyped.oidsPending types
  have same := s.assignment?_eq i
  have headings := heading_of_registry (pending.continues (r := oids)).registry i
  rw [← same, h, Option.map_some] at headings
  obtain ⟨a, ha, -⟩ := Option.map_eq_some_iff.1 headings.symm
  obtain ⟨b, hb, outcome⟩ := pending.outcome (r := oids) ha
  obtain rfl : a' = b := by simpa using h.symm.trans (same.trans hb)
  exact ⟨a, ha, outcome⟩

/-- The assignments of the last draft have the types that typing gave them. -/
lemma Stages.type_eq (s : Stages linked types oids final) (i : AssignmentId) :
    (final.mib.assignment? i).map (·.type) =
      ((linked.resolveTypes types).1.mib.assignment? i).map (·.type) := by
  have c := (s.untyped.oidsPending types).continues (r := oids)
  cases ha : final.mib.assignment? i with
  | none =>
    have headings := heading_of_registry c.registry i
    rw [← s.assignment?_eq, ha, Option.map_none] at headings
    rw [Option.map_eq_none_iff.1 headings.symm]
  | some a =>
    obtain ⟨b, hb, outcome⟩ := s.outcome ha
    rw [hb]
    cases outcome with
    | untouched => rw [Option.map_some, type_degradeByType]; rfl
    | broken => rfl
    | assigned => rw [Option.map_some, type_degradeByType]; rfl

/-- What belongs to the SYNTAX of an assignment is settled by the typing phase. -/
lemma Stages.inSyntax_iff (s : Stages linked types oids final) {a : AssignmentId} {t : TypeId} :
    final.mib.InSyntax a t ↔ (linked.resolveTypes types).1.mib.InSyntax a t :=
  ⟨.congr s.types_eq.symm fun i => (s.type_eq i).symm, .congr s.types_eq s.type_eq⟩

end Stages

end Draft

end MibCorpus
