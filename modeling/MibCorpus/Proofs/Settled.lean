import MibCorpus.Proofs.References

/-!
# Settled models

In the model of a run nothing is pending. The state of a type tells whether its topmost node lacks
its target or reaches a reference that does; the state of anything else tells whether it has an OID
and whether its SYNTAX reaches such a reference. What could not be resolved has been reported.
-/

namespace MibCorpus

open TypeStates

/-- Assignment `i`, in which type `t` stands, has the state that the references below `t` give
it. -/
structure StateOfType (mib : Mib) (a : Assignment) (t : TypeId) : Prop where
  node : (mib.type? t).isSome
  unresolved : a.state = .unresolved ↔ Unbound mib.types t
  degraded : a.state = .degraded ↔ ¬Unbound mib.types t ∧ ReachesUnbound mib.types t
  resolved : a.state = .resolved ↔ ¬ReachesUnbound mib.types t

/-- Every assignment has the state that it should have, and there is a reason for the bad ones. -/
structure Mib.Settled (mib : Mib) : Prop where
  /-- Nothing is pending. -/
  decided : ∀ i a, mib.assignment? i = some a → a.state ≠ .pending
  /-- The state of a type that was not refused follows from its node. -/
  type : ∀ i a, mib.assignment? i = some a → a.kind.isType → ¬mib.IsDuplicate i →
    ∃ t, a.type = some t ∧ StateOfType mib a t
  /-- What should have an OID and was not refused is resolved, in full or degraded, if it has. -/
  oid : ∀ i a, mib.assignment? i = some a → a.kind.hasOid → ¬mib.IsDuplicate i →
    (a.state = .resolved ∨ a.state = .degraded ↔ a.oid.isSome)
  /-- What has an OID is degraded if its SYNTAX reaches an unbound reference. -/
  degraded : ∀ i a, mib.assignment? i = some a → a.kind.hasOid → ¬mib.IsDuplicate i →
    a.oid.isSome → (a.state = .degraded ↔ ∃ t, a.type = some t ∧ ReachesUnbound mib.types t)
  /-- What is unresolved or left out is the subject of a problem. -/
  reported : ∀ i a, mib.assignment? i = some a → a.state = .unresolved ∨ a.state = .excluded →
    ∃ p ∈ mib.problems.toList, p.subject = some i

namespace Draft

variable {d : Draft} {r : Recorder}

/-- An unbound reference reaches one, namely itself. -/
lemma reachesUnbound_of_unbound {types : Array TypeNode} {t : TypeId} (h : Unbound types t) :
    ReachesUnbound types t :=
  ⟨t, .refl, h⟩

/-- The state of a node tells how it stands to the unbound references. -/
lemma stateOf_iff (types : Array TypeNode) (t : TypeId) :
    (stateOf types t = .unresolved ↔ Unbound types t) ∧
      (stateOf types t = .degraded ↔ ¬Unbound types t ∧ ReachesUnbound types t) ∧
      (stateOf types t = .resolved ↔ ¬ReachesUnbound types t) ∧ stateOf types t ≠ .excluded := by
  have unbound := @reachesUnbound_of_unbound types t
  by_cases h : Unbound types t
  · simp [stateOf, h, unbound h]
  · by_cases h' : ReachesUnbound types t
    · simp [stateOf, h, h']
    · simp [stateOf, h, h']

/-- The states of the nodes after typing follow from their own shapes. -/
lemma state_of_type?_resolveTypes {t : TypeId} {n : TypeNode}
    (hn : (d.resolveTypes r).1.mib.type? t = some n) :
    n.state = stateOf (d.resolveTypes r).1.mib.types t := by
  have shapes : SameShapes (d.boundDraft r).mib.types (d.resolveTypes r).1.mib.types := by
    intro i
    have e := type?_resolveTypes (d := d) (r := r) ⟨i⟩
    simp only [Mib.type?] at e
    rw [e, Option.map_map]
    rfl
  rw [shapes.stateOf_eq]
  rw [type?_resolveTypes] at hn
  obtain ⟨m, -, rfl⟩ := Option.map_eq_some_iff.1 hn
  rfl

/-- A node in the SYNTAX of a definition is there after typing. -/
lemma Untyped.exists_type? (h : d.Untyped) {i : AssignmentId} {t : TypeId}
    (ht : d.syntaxType? i = some t) : ∃ n, (d.resolveTypes r).1.mib.type? t = some n := by
  obtain ⟨b, hb, -, top⟩ := exists_block_of_syntaxType? ht
  obtain ⟨c, hc, rfl⟩ := exists_mem_cores_of_covers hb (covers_top hb top)
  obtain ⟨n, hn, -⟩ := exists_type?_lowered h.definitions h.bare
    (List.mem_flatMap.2 ⟨b, hb, hc⟩)
  have parts := parts_resolveTypes (r := r) h.definitions h.bare c.id
  rw [hn] at parts
  obtain ⟨m, hm, -⟩ := Option.map_eq_some_iff.1 parts
  exact ⟨m, hm⟩

/-- What an assignment is after typing. -/
structure TypedAssignment (d : Draft) (d' : Draft) (i : AssignmentId) (a : Assignment) : Prop where
  oid : a.oid = none
  refused : d.isRefused i = true → a.state = .excluded
  state : d.isRefused i = false → a.kind.isType → ∃ t n, a.type = some t ∧
    d'.mib.type? t = some n ∧ a.state = n.state
  type : ∀ t, a.type = some t → ∃ n, d'.mib.type? t = some n

/-- What every assignment is after typing. -/
lemma Untyped.typedAssignment (h : d.Untyped) {i : AssignmentId} {a : Assignment}
    (ha : (d.resolveTypes r).1.mib.assignment? i = some a) :
    TypedAssignment d (d.resolveTypes r).1 i a := by
  have pending := h.oidsPending r
  have c := h.continues r
  have type := type_of_assignment?_resolveTypes (r := r) h.definitions h.fresh h.bare i
  rw [ha] at type
  obtain ⟨b, hb, type⟩ := Option.map_eq_some_iff.1 type.symm
  refine ⟨pending.bare i a ha, fun hr => ?_, fun kept isType => ?_, fun t ht => ?_⟩
  · rw [pending.excluded i a ha, isRefused_of_registry c.registry]
    exact hr
  · obtain ⟨x, hx, -, kind, -⟩ := h.definitions.owner hb
    rw [assignment?_resolveTypes h.definitions h.bare,
      assignment?_lowered h.definitions h.fresh h.bare, Option.map_map, hb] at ha
    simp only [Option.map_some, Function.comp_apply, Option.some.injEq] at ha
    have same : a.kind = b.kind := by
      rw [← ha]
      split <;> rfl
    have some := isSome_syntaxType? h.definitions h.fresh hx
    rw [body?_of_isType (by rw [← kind, ← same, isType]), kept] at some
    obtain ⟨t, ht⟩ := Option.isSome_iff_exists.1 some
    obtain ⟨n, hn⟩ := h.exists_type? (r := r) ht
    refine ⟨t, n, type.symm.trans ht, hn, ?_⟩
    have state := (h.fresh.undecided i b hb).2.2
    rw [kept] at state
    rw [if_pos (by simp [← same, isType, state])] at ha
    rw [← ha]
    simp [typeState, ht, hn]
  · exact h.exists_type? (type.trans ht)

/-- Degrading by types changes the state alone. -/
lemma degradeByType_eq (mib : Mib) (a : Assignment) :
    degradeByType mib a = { a with state := (degradeByType mib a).state } := by
  unfold degradeByType
  split
  · split <;> rfl
  · rfl

/-- What is resolved is degraded if its type reaches an unbound reference. -/
lemma state_degradeByType {m : Mib} {a : Assignment} (resolved : a.state = .resolved)
    (nodes : ∀ t, a.type = some t → ∃ n, m.type? t = some n ∧ n.state = stateOf m.types t) :
    (degradeByType m a).state = .degraded ∧
        (∃ t, a.type = some t ∧ ReachesUnbound m.types t) ∨
      (degradeByType m a).state = .resolved ∧
        ¬∃ t, a.type = some t ∧ ReachesUnbound m.types t := by
  cases ht : a.type with
  | none => exact .inr ⟨by simp [degradeByType, ht, resolved], by simp⟩
  | some t =>
    obtain ⟨n, hn, state⟩ := nodes t ht
    have e : (degradeByType m a).state = ResolutionState.degradeBy .resolved n.state := by
      simp [degradeByType, ht, hn, resolved]
    rw [e, state]
    by_cases reaches : ReachesUnbound m.types t
    · refine .inl ⟨?_, t, rfl, reaches⟩
      by_cases unbound : Unbound m.types t
      · simp [stateOf, unbound, ResolutionState.degradeBy]
      · simp [stateOf, unbound, reaches, ResolutionState.degradeBy]
    · have bound : ¬Unbound m.types t := fun h => reaches (reachesUnbound_of_unbound h)
      refine .inr ⟨by simp [stateOf, bound, reaches, ResolutionState.degradeBy], ?_⟩
      rintro ⟨u, hu, h⟩
      cases hu
      exact reaches h

/-- An assignment with the state of its type keeps it. -/
lemma state_degradeByType_of_type {mib : Mib} {a : Assignment} {t : TypeId} {n : TypeNode}
    (ht : a.type = some t) (hn : mib.type? t = some n) (same : a.state = n.state) :
    (degradeByType mib a).state = a.state := by
  by_cases resolved : a.state = .resolved
  · rw [resolved] at same
    simp [degradeByType, ht, hn, resolved, ← same, ResolutionState.degradeBy]
  · rw [degradeByType_of_ne resolved]

section Stages

variable {linked final : Draft} {types oids : Recorder}

/-- Every assignment of the final model has a history: it was typed, and its OID came out. -/
lemma Stages.history (s : Stages linked types oids final) {i : AssignmentId} {a' : Assignment}
    (h : final.mib.assignment? i = some a') :
    ∃ a, (linked.resolveTypes types).1.mib.assignment? i = some a ∧
      TypedAssignment linked (linked.resolveTypes types).1 i a ∧
      OidOutcome (linked.resolveTypes types).1
        ((linked.resolveTypes types).1.resolveOids oids).1 i a a' := by
  obtain ⟨a, ha, outcome⟩ := s.outcome h
  exact ⟨a, ha, s.untyped.typedAssignment ha, outcome⟩

/-- What has been refused is reported to the end. -/
lemma Stages.exists_problem_of_refused (s : Stages linked types oids final) {i : AssignmentId}
    (h : linked.isRefused i = true) :
    ∃ p ∈ final.mib.problems.toList, p.subject = some i := by
  obtain ⟨p, hp, -, subject⟩ := s.untyped.fresh.reported i h
  refine ⟨p, s.mem_problems_of_typed ?_, subject⟩
  rw [s.untyped.problems]
  exact List.mem_append_left _ hp

/-- The type of a typed assignment is a node with the state that the types give it. -/
lemma Stages.nodes (_ : Stages linked types oids final) {i : AssignmentId} {a : Assignment}
    (h : TypedAssignment linked (linked.resolveTypes types).1 i a) (t : TypeId)
    (ht : a.type = some t) : ∃ n, (linked.resolveTypes types).1.mib.type? t = some n ∧
      n.state = stateOf (linked.resolveTypes types).1.mib.types t := by
  obtain ⟨n, hn⟩ := h.type t ht
  exact ⟨n, hn, state_of_type?_resolveTypes hn⟩

/-- The state of a type that was not refused follows from its node. -/
lemma Stages.stateOfType (s : Stages linked types oids final) {i : AssignmentId} {a : Assignment}
    (ha : final.mib.assignment? i = some a) (isType : a.kind.isType)
    (kept : linked.isRefused i = false) : ∃ t, a.type = some t ∧ StateOfType final.mib a t := by
  obtain ⟨b, -, typed, outcome⟩ := s.history ha
  cases outcome with
  | untouched none =>
    have e := degradeByType_eq (linked.resolveTypes types).1.mib b
    have kind : b.kind.isType := by
      rw [e] at isType
      exact isType
    obtain ⟨t, n, ht, hn, state⟩ := typed.state kept kind
    have same := state_degradeByType_of_type ht hn state
    rw [e, same]
    refine ⟨t, ht, ?_⟩
    obtain ⟨unresolved, degraded, resolved, -⟩ :=
      stateOf_iff (linked.resolveTypes types).1.mib.types t
    rw [← state_of_type?_resolveTypes hn, ← state, ← s.types_eq] at unresolved degraded resolved
    refine ⟨?_, unresolved, degraded, resolved⟩
    rw [Mib.type?, s.types_eq]
    exact Option.isSome_iff_exists.2 ⟨n, hn⟩
  | broken hasOid =>
    simp [AssignmentKind.hasOid, isType] at hasOid
  | assigned hasOid =>
    rw [degradeByType_eq] at isType
    simp [AssignmentKind.hasOid, isType] at hasOid

/-- What got an OID is degraded if its type reaches an unbound reference, and resolved otherwise. -/
lemma Stages.state_assigned (s : Stages linked types oids final) {i : AssignmentId}
    {b : Assignment} (typed : TypedAssignment linked (linked.resolveTypes types).1 i b) (o : Oid) :
    let a := degradeByType (linked.resolveTypes types).1.mib
      { b with oid := some o, state := .resolved }
    a.state = .degraded ∧ (∃ t, b.type = some t ∧ ReachesUnbound final.mib.types t) ∨
      a.state = .resolved ∧ ¬∃ t, b.type = some t ∧ ReachesUnbound final.mib.types t := by
  have nodes := s.nodes typed
  rw [s.types_eq]
  exact state_degradeByType (a := { b with oid := some o, state := .resolved }) rfl nodes

/-- What has an OID value and was not refused has an OID or a bad state that has been reported. -/
lemma Stages.stateOfOid (s : Stages linked types oids final) {i : AssignmentId} {a : Assignment}
    (ha : final.mib.assignment? i = some a) (hasOid : a.kind.hasOid)
    (kept : linked.isRefused i = false) :
    a.oid = none ∧ (a.state = .unresolved ∨ a.state = .excluded) ∨
      a.oid.isSome ∧
        (a.state = .degraded ∧ (∃ t, a.type = some t ∧ ReachesUnbound final.mib.types t) ∨
          a.state = .resolved ∧ ¬∃ t, a.type = some t ∧ ReachesUnbound final.mib.types t) := by
  obtain ⟨b, -, typed, outcome⟩ := s.history ha
  cases outcome with
  | untouched none =>
    rw [degradeByType_eq] at hasOid
    rw [s.isRefused_resolveTypes, kept] at none
    rcases none with none | none
    · cases none.symm.trans hasOid
    · cases none
  | broken _ _ state which _ => exact .inl ⟨typed.oid, which⟩
  | assigned _ _ o _ =>
    refine .inr ⟨by rw [oid_degradeByType]; rfl, ?_⟩
    rw [degradeByType_eq]
    exact s.state_assigned typed o

/-- What is unresolved or left out has been reported. -/
lemma Stages.reported (s : Stages linked types oids final) {i : AssignmentId} {a : Assignment}
    (ha : final.mib.assignment? i = some a)
    (bad : a.state = .unresolved ∨ a.state = .excluded) :
    ∃ p ∈ final.mib.problems.toList, p.subject = some i := by
  cases kept : linked.isRefused i with
  | true => exact s.exists_problem_of_refused kept
  | false =>
    obtain ⟨b, hb, typed, outcome⟩ := s.history ha
    cases outcome with
    | untouched none =>
      rw [s.isRefused_resolveTypes, kept] at none
      obtain ⟨t, n, ht, hn, state⟩ := typed.state kept (by simpa [AssignmentKind.hasOid] using none)
      obtain ⟨unresolved, -, -, included⟩ := stateOf_iff (linked.resolveTypes types).1.mib.types t
      rw [← state_of_type?_resolveTypes hn, ← state] at unresolved included
      rw [state_degradeByType_of_type ht hn state] at bad
      have unbound := unresolved.1 (bad.resolve_right included)
      obtain ⟨p, hp, subject⟩ := s.untyped.exists_problem_of_unbound unbound (.top hb ht)
      exact ⟨p, s.mem_problems_of_typed hp, subject⟩
    | broken _ _ _ _ reported =>
      obtain ⟨p, hp, subject⟩ := reported
      exact ⟨p, s.mem_problems hp, subject⟩
    | assigned hasOid _ o _ =>
      rcases s.state_assigned typed o with ⟨state, -⟩ | ⟨state, -⟩ <;> simp [state] at bad

/-- No assignment of the last draft is pending. -/
lemma Stages.decided (s : Stages linked types oids final) {i : AssignmentId} {a : Assignment}
    (ha : final.mib.assignment? i = some a) : a.state ≠ .pending := by
  obtain ⟨b, hb, typed, outcome⟩ := s.history ha
  cases outcome with
  | untouched none =>
    cases kept : linked.isRefused i with
    | true =>
      rw [degradeByType_of_ne (by simp [typed.refused kept]), typed.refused kept]
      simp
    | false =>
      rw [s.isRefused_resolveTypes, kept] at none
      obtain ⟨t, n, ht, hn, state⟩ := typed.state kept (by simpa [AssignmentKind.hasOid] using none)
      rw [state_degradeByType_of_type ht hn state, state, state_of_type?_resolveTypes hn]
      unfold stateOf
      split_ifs <;> simp
  | broken _ _ _ which _ => rcases which with e | e <;> simp [e]
  | assigned hasOid _ o _ =>
    rcases s.state_assigned typed o with ⟨state, -⟩ | ⟨state, -⟩ <;> simp [state]

end Stages

end Draft

/-- Every run ends in a settled model. -/
theorem Pipeline.settled_runParsed (p : Pipeline) (files : List ParsedFile) :
    ∃ mib, modelOf (p.runParsed files).1 = some mib ∧ mib.Settled := by
  obtain ⟨linked, types, oids, s⟩ := Draft.exists_stages p files
  have kept : ∀ {i}, ¬(p.resolve files).1.mib.IsDuplicate i → linked.isRefused i = false := by
    intro i h
    rwa [s.isDuplicate_iff, Bool.not_eq_true] at h
  refine ⟨_, modelOf_runParsed p files, fun i a ha => s.decided ha, fun i a ha isType h => ?_,
    fun i a ha hasOid h => ?_, fun i a ha hasOid h some => ?_, fun i a ha bad => ?_⟩
  · exact s.stateOfType ha isType (kept h)
  · rcases s.stateOfOid ha hasOid (kept h) with ⟨none, bad⟩ | ⟨some, ⟨state, -⟩ | ⟨state, -⟩⟩
    · rcases bad with bad | bad <;> simp [none, bad]
    · simp [some, state]
    · simp [some, state]
  · rcases s.stateOfOid ha hasOid (kept h) with ⟨none, -⟩ | ⟨-, ⟨state, reaches⟩ | ⟨state, not⟩⟩
    · simp [none] at some
    · simp [state, reaches]
    · simpa [state] using not
  · exact s.reported ha bad

end MibCorpus
