import MibCorpus.Proofs.Run

/-!
# Assigned OIDs

The sweeps of the OID phase find exactly what the rules derive: after a run an assignment that was
not refused has the OID that the rules give it, and none if they give it none.
-/

namespace MibCorpus

namespace Draft

/-- What holds of the OIDs of a draft after a run. -/
structure OidsDerived (d : Draft) : Prop where
  /-- What should have an OID and was not refused has the one that the rules derive, if any. -/
  assigned : ∀ i a, d.mib.assignment? i = some a → a.kind.hasOid → ¬d.mib.IsDuplicate i →
    ∀ o, a.oid = some o ↔ d.OidDerivable i o
  /-- The rules derive at most one. -/
  functional : ∀ i o o', d.OidDerivable i o → d.OidDerivable i o' → o = o'

variable {linked final : Draft} {types oids : Recorder} {i : AssignmentId}

/-- The rules derive in the typed draft what they derive in the last one. -/
lemma Stages.oidDerivable_iff (s : Stages linked types oids final) {o : Oid} :
    (linked.resolveTypes types).1.OidDerivable i o ↔ final.OidDerivable i o := by
  have pending := s.untyped.oidsPending types
  have owners : final.owner? = (linked.resolveTypes types).1.owner? :=
    owner?_of_registry (pending.continues.trans s.finalizes.continues).registry
  have scope : final.scope = (linked.resolveTypes types).1.scope :=
    s.finalizes.scope.trans pending.scope
  exact ⟨.congr owners scope, .congr owners.symm scope.symm⟩

/-- What the rules derive is what has been assigned. -/
lemma Stages.oid_iff (s : Stages linked types oids final) {a : Assignment}
    (ha : final.mib.assignment? i = some a) (hasOid : a.kind.hasOid)
    (kept : linked.isRefused i = false) {o : Oid} : a.oid = some o ↔ final.OidDerivable i o := by
  rw [← s.oidDerivable_iff]
  have pending := s.untyped.oidsPending types
  constructor
  · intro ho
    obtain ⟨b, hb, outcome⟩ := s.outcome ha
    have bare := pending.bare i b hb
    cases outcome with
    | untouched =>
      rw [oid_degradeByType, bare] at ho
      cases ho
    | broken =>
      rw [bare] at ho
      cases ho
    | assigned _ _ o' derivable =>
      rw [oid_degradeByType] at ho
      cases ho
      exact derivable
  · intro derivable
    have kept' : (linked.resolveTypes types).1.isRefused i = false := by
      rw [s.isRefused_resolveTypes, kept]
    obtain ⟨b, hb, ho⟩ := pending.exists_oid (r := oids) derivable kept'
    rw [← s.assignment?_eq, ha] at hb
    cases hb
    exact ho

end Draft

/-- After every run, what should have an OID and was not refused has the OID that the rules derive
from what is written and what is visible, and the rules derive at most one. -/
theorem Pipeline.oidsDerived_runParsed (p : Pipeline) (files : List ParsedFile) :
    modelOf (p.runParsed files).1 = some (p.resolve files).1.mib ∧
      (p.resolve files).1.OidsDerived := by
  obtain ⟨linked, types, oids, s⟩ := Draft.exists_stages p files
  refine ⟨modelOf_runParsed p files, fun i a ha hasOid notDuplicate o => ?_,
    fun i o o' => Draft.OidDerivable.functional⟩
  rw [s.isDuplicate_iff, Bool.not_eq_true] at notDuplicate
  exact s.oid_iff ha hasOid notDuplicate

end MibCorpus
