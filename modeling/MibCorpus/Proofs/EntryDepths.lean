import MibCorpus.Proofs.GroundedTypes
import MibCorpus.Proofs.SweepLevels

/-!
# Which sweep resolves what

How deep a type reference or an OID value lies can be read off the definitions: it is the number of
names to be followed until a type or an OID stands there without one. Both phases resolve their
entries by this depth, so what is written decides how many sweeps a run takes.
-/

namespace MibCorpus

namespace Draft

/-! ## OID values -/

section Oids

variable {d : Draft}

/-- An OID value starts with a number, or with the name of a topmost arc that nothing else has. -/
inductive StartsAtArc (d : Draft) (e : OidEntry) : Prop where
  | number {a : Arc} (anchor : e.value.anchor = .arc a) : d.StartsAtArc e
  | root {name : String} {a : Arc} (anchor : e.value.anchor = .name none name)
    (notFound : d.scope.resolveFrom e.module none name = .notFound)
    (intrinsic : intrinsicRoot? name = some a) : d.StartsAtArc e

/-- The OID value of entry `e` starts with the name of what entry `f` is about. -/
def AnchoredOn (d : Draft) (e f : OidEntry) : Prop :=
  f ∈ d.oidEntries ∧ ∃ qualifier name, e.value.anchor = .name qualifier name ∧
    d.scope.resolveFrom e.module qualifier name = .found f.assignment

/-- An OID value starts with the name of one entry at most. -/
lemma AnchoredOn.unique {e f g : OidEntry} (h : d.AnchoredOn e f) (h' : d.AnchoredOn e g) :
    f = g := by
  obtain ⟨hf, qualifier, name, anchor, found⟩ := h
  obtain ⟨hg, qualifier', name', anchor', found'⟩ := h'
  cases anchor.symm.trans anchor'
  have same := Lookup.found.inj (found.symm.trans found')
  exact List.inj_on_of_nodup_map d.nodup_oidEntries hf hg same

/-- An OID value that starts at an arc starts with no entry's name. -/
lemma StartsAtArc.not_anchoredOn {e f : OidEntry} (h : d.StartsAtArc e) : ¬d.AnchoredOn e f := by
  rintro ⟨-, qualifier, name, anchor', found⟩
  cases h with
  | number anchor => cases anchor.symm.trans anchor'
  | root anchor notFound =>
    cases anchor.symm.trans anchor'
    cases notFound.symm.trans found

/-- An assignment has an OID if it is that of an entry that is no longer pending. -/
lemma OidsPending.exists_baseOfAssignment_iff (h : d.OidsPending) {xs : List OidEntry}
    {d' : Draft} (a : Assigns d.reportOidDefects d.oidEntries xs d') {y : AssignmentId} :
    (∃ o, d'.baseOfAssignment y = .ready o) ↔ ∃ f ∈ d.oidEntries, f ∉ xs ∧ f.assignment = y := by
  have w := h.entriesOpen
  constructor
  · rintro ⟨o, ready⟩
    unfold baseOfAssignment at ready
    split at ready
    · cases ready
    next b hb =>
      split at ready
      next p hp => exact a.exists_entry_of_oid w hb hp
      next => split at ready <;> cases ready
  · rintro ⟨f, hf, away, rfl⟩
    obtain ⟨o, -, assigned⟩ := a.assigned f hf away
    obtain ⟨c, -, x, cs, hx, -, -⟩ := w.written f hf
    obtain ⟨b, hb, -, -⟩ := w.definitions.exists_assignment hx
    rw [hb, Option.map_some] at assigned
    exact ⟨o, by rw [baseOfAssignment, assigned]⟩

/-- The OID of an entry is ready if the entry starts at an arc or what it is anchored on has one. -/
lemma OidsPending.isSome_readyOid?_iff (h : d.OidsPending) {xs : List OidEntry} {d' : Draft}
    (a : Assigns d.reportOidDefects d.oidEntries xs d') {e : OidEntry} :
    (d'.readyOid? e).isSome ↔ d.StartsAtArc e ∨ ∃ f, d.AnchoredOn e f ∧ f ∉ xs := by
  have scope : d'.scope = d.scope := a.scope.trans (concludes_reportOidDefects d).scope
  have ready : (d'.readyOid? e).isSome ↔ ∃ o, d'.baseOf e.module e.value.anchor = .ready o := by
    unfold readyOid?
    split <;> simp_all
  rw [ready]
  -- An anchor is ready as a number, as a root, or through the entry of its own that is decided.
  constructor
  · rintro ⟨o, base⟩
    unfold baseOf at base
    split at base
    next arc anchor => exact .inl (.number anchor)
    next qualifier name anchor =>
      rw [scope] at base
      split at base
      next y found =>
        obtain ⟨f, hf, away, rfl⟩ := (h.exists_baseOfAssignment_iff a).1 ⟨o, base⟩
        exact .inr ⟨f, ⟨hf, qualifier, name, anchor, found⟩, away⟩
      next => cases base
      next notFound =>
        split at base
        next intrinsic => exact .inl (.root anchor notFound intrinsic)
        next => cases base
  · rintro ((anchor | ⟨anchor, notFound, intrinsic⟩) |
      ⟨f, ⟨hf, qualifier, name, anchor, found⟩, away⟩)
    · rw [anchor]
      exact ⟨_, rfl⟩
    · simp only [anchor, baseOf, scope, notFound, intrinsic]
      exact ⟨_, rfl⟩
    · simp only [anchor, baseOf, scope, found]
      exact (h.exists_baseOfAssignment_iff a).2 ⟨f, hf, away, rfl⟩

/-- OID values wait for what they are anchored on. -/
lemma OidsPending.awaits (h : d.OidsPending) :
    oidRule.Awaits d.oidEntries d.StartsAtArc d.AnchoredOn
      (Assigns d.reportOidDefects d.oidEntries) where
  step _ _ a := a.sweep h.entriesOpen
  ready _ _ a _ _ := h.isSome_readyOid?_iff a
  needed _ _ needs := needs.1
  single _ _ _ needs needs' := needs.unique needs'
  apart _ _ starts := starts.not_anchoredOn

end Oids

/-! ## Type references -/

section References

variable {d e : Draft} {p q : PendingReference} {xs : List PendingReference}

/-- The type that a reference names notes one reference at most. -/
lemma NamesReference.unique (h : d.Untyped) {q' : PendingReference} (names : d.NamesReference p q)
    (names' : d.NamesReference p q') : q = q' := by
  obtain ⟨hq, x, refers, kept, -, head⟩ := names
  obtain ⟨hq', x', refers', kept', -, head'⟩ := names'
  have own : q.referrer = q'.referrer := Lookup.found.inj (refers.symm.trans refers')
  obtain ⟨r, -, -, only⟩ := h.exists_noted kept (by rw [head]; rfl)
  rw [only q hq rfl, only q' hq' own.symm]

/-- A reference to a type without names in it names no other reference. -/
lemma NamesPlain.not_namesReference (plain : d.NamesPlain p) : ¬d.NamesReference p q := by
  rintro ⟨-, x', refers', kept', -, head⟩
  obtain ⟨j, m, x, refers, kept, -, plain⟩ := plain
  obtain rfl := Lookup.found.inj (refers.symm.trans refers')
  obtain ⟨-, rfl⟩ : m = _ ∧ x = x' := by simpa using kept.1.symm.trans kept'.1
  cases plain.symm.trans head

/-- Only bound references stand between `p` and a type without a name. -/
def SettledBelow (d : Draft) (xs : List PendingReference) (p : PendingReference) : Prop :=
  ∃ k, Depth d.NamesPlain (fun p q => d.NamesReference p q ∧ q ∉ xs) p k

/-- What is settled names a type, the chain of which is bound. -/
lemma Untyped.exists_target_of_settledBelow (h : d.Untyped) (b : Binds d.lowered d.noted xs e)
    (settled : d.SettledBelow xs p) : ∃ target, d.lowered.targetOf? p = some target ∧
      (e.mib.typeChain target.node).find? (·.shape.isUnbound) = none := by
  obtain ⟨k, depth⟩ := settled
  induction depth with
  | zero plain =>
    obtain ⟨j, m, x, refers, kept, isType, plain⟩ := plain
    obtain ⟨t, ht, target⟩ := h.exists_target refers kept isType
    obtain ⟨n, ends⟩ := h.exists_endsAt kept ht
    exact ⟨_, target, ends.find?_of_plain h b plain⟩
  | succ step _ ih =>
    obtain ⟨⟨hq, x, refers, kept, isType, head⟩, away⟩ := step
    obtain ⟨t, ht, target⟩ := h.exists_target refers kept isType
    obtain ⟨n, ends⟩ := h.exists_endsAt kept ht
    obtain ⟨u, hu, bound⟩ := ih
    obtain ⟨u', hu', chain⟩ := ends.find?_of_bound h b (by rw [head]; rfl) hq rfl away
    obtain rfl : u = u' := Option.some.inj (hu.symm.trans hu')
    exact ⟨_, target, chain.trans bound⟩

/-- What is settled stays so. -/
lemma SettledBelow.mono {xs' : List PendingReference} (sub : xs' ⊆ xs)
    (settled : d.SettledBelow xs p) : d.SettledBelow xs' p := by
  obtain ⟨k, depth⟩ := settled
  refine ⟨k, ?_⟩
  induction depth with
  | zero plain => exact .zero plain
  | succ step _ ih => exact .succ ⟨step.1, fun hq => step.2 (sub hq)⟩ ih

/-- References are bound as far as they are not pending, and what is bound is settled: without the
latter a bound reference could lead to an unbound one, and nothing that names it would be ready. -/
structure BindsSettled (d : Draft) (xs : List PendingReference) (e : Draft) : Prop where
  binds : Binds d.lowered d.noted xs e
  settled : ∀ q ∈ d.noted, q ∉ xs → d.SettledBelow xs q

/-- What could be bound is settled. -/
lemma BindsSettled.settledBelow (b : d.BindsSettled xs e)
    (names : d.NamesPlain p ∨ ∃ q, d.NamesReference p q ∧ q ∉ xs) : d.SettledBelow xs p := by
  rcases names with plain | ⟨q, names, away⟩
  · exact ⟨0, .zero plain⟩
  · obtain ⟨k, depth⟩ := b.settled q names.1 away
    exact ⟨k + 1, .succ ⟨names, away⟩ depth⟩

/-- A reference is ready if it names a type without a name or one whose name is bound. -/
lemma BindsSettled.isSome_readyTarget?_iff (b : d.BindsSettled xs e) (h : d.Untyped) :
    (e.readyTarget? p).isSome ↔ d.NamesPlain p ∨ ∃ q, d.NamesReference p q ∧ q ∉ xs := by
  constructor
  · intro ready
    obtain ⟨target, ready⟩ := Option.isSome_iff_exists.1 ready
    exact h.namesPlain_or_namesReference b.binds ready
  · intro names
    obtain ⟨target, ht, chain⟩ :=
      h.exists_target_of_settledBelow b.binds (b.settledBelow names)
    rw [readyTarget?, targetOf?_congr b.binds.scope b.binds.assignments, ht, Option.filter_some,
      if_pos]
    · rfl
    · rw [isChainBound_eq, chain]
      rfl

/-- A sweep binds what is ready, and what it binds is settled. -/
lemma BindsSettled.sweep (b : d.BindsSettled xs e) (h : d.Untyped) :
    d.BindsSettled (referenceRule.undecided e xs) (referenceRule.sweep e xs) := by
  have sub : referenceRule.undecided e xs ⊆ xs := fun _ hq => (referenceRule.mem_undecided.1 hq).1
  refine ⟨(b.binds.sweep h.nodup_noted).1, fun q hq decided => ?_⟩
  by_cases pending : q ∈ xs
  · obtain ⟨target, ready⟩ := referenceRule.exists_decide? pending decided
    exact (b.settledBelow (h.namesPlain_or_namesReference b.binds ready)).mono sub
  · exact (b.settled q hq pending).mono sub

/-- When lowering ends, every reference is pending. -/
lemma BindsSettled.refl (d : Draft) : d.BindsSettled d.noted d.lowered :=
  ⟨.refl _ _, fun _ hq away => absurd hq away⟩

/-- References wait for the reference that the type they name comes down to. -/
lemma Untyped.awaits (h : d.Untyped) :
    referenceRule.Awaits d.noted d.NamesPlain d.NamesReference d.BindsSettled where
  step _ _ b := b.sweep h
  ready _ _ b _ _ := b.isSome_readyTarget?_iff h
  needed _ _ needs := needs.1
  single _ _ _ needs needs' := needs.unique h needs'
  apart _ _ plain := plain.not_namesReference

end References

/-! ## Runs -/

section Runs

variable {linked final : Draft} {types oids : Recorder}

/-- What is given an OID in a sweep has it in the end. -/
lemma Stages.oid_of_resolved (s : Stages linked types oids final) {w : Sweep OidEntry Oid}
    (hw : w ∈ oidRule.sweeps (linked.resolveTypes types).1.oidEntries
      (linked.resolveTypes types).1.reportOidDefects) {x : OidEntry × Oid} (hx : x ∈ w.resolved) :
    ∃ a, final.mib.assignment? x.1.assignment = some a ∧ a.oid = some x.2 := by
  have pending := s.untyped.oidsPending types
  obtain ⟨d, hd⟩ := oidRule.exists_decision_of_resolved hw hx
  obtain ⟨derivable, kept, -⟩ := pending.derivable_of_mem_decisions hd
  obtain ⟨a, ha, ho⟩ := pending.exists_oid (r := oids) derivable kept
  exact ⟨a, by rw [s.assignment?_eq, ha], ho⟩

/-- The OID phase tells its sweeps, with the names that there are in the end. -/
lemma Stages.oidsTold_eq (s : Stages linked types oids final) :
    (linked.resolveTypes types).1.oidsTold =
      sweepsTold .oids (fun e oid => .oidResolved (final.mib.nameOf e.assignment) oid)
        (oidRule.sweeps (linked.resolveTypes types).1.oidEntries
          (linked.resolveTypes types).1.reportOidDefects) := by
  have pending := s.untyped.oidsPending types
  refine oidRule.told_eq_sweepsTold fun t ht x hx => ?_
  obtain ⟨-, -, name⟩ :=
    pending.derivable_of_mem_decisions (oidRule.mem_decisions_of_mem_starts ht hx)
  have c := (pending.continues (r := oids)).trans s.finalizes.continues
  rw [pending.definitions.nameOf_of_continues c, ← name]
  rfl

/-- Typing tells its sweeps and then what it binds of the references left over. -/
lemma typesTold_eq (d : Draft) : d.typesTold =
    sweepsTold .types (fun p _ => bindingEvent p) (referenceRule.sweeps d.noted d.lowered) ++
      leftTold (d.swept (.new .error)).1 (d.swept (.new .error)).2.1 := by
  rw [typesTold, referenceRule.told_eq_sweepsTold fun _ _ _ _ => rfl]
  rfl

/-- What is bound in a sweep refines its target in the end. -/
lemma Stages.refined?_of_resolved (s : Stages linked types oids final)
    {w : Sweep PendingReference TypeTarget}
    (hw : w ∈ referenceRule.sweeps linked.noted linked.lowered)
    {x : PendingReference × TypeTarget} (hx : x ∈ w.resolved) :
    final.mib.refined? x.1.node = some x.2.node := by
  have h := s.untyped
  obtain ⟨d, hd⟩ := referenceRule.exists_decision_of_resolved hw hx
  obtain ⟨t, ht, -, pending, decided⟩ := referenceRule.mem_decisions hd
  have b := (referenceRule.starts_invariant (P := linked.BindsSettled) h.awaits.step
    (.refl _) t ht).binds
  have target := (Option.filter_eq_some_iff.1 decided).1
  rw [targetOf?_congr b.scope b.assignments] at target
  have bound : x.1 ∉ linked.unboundReferences types := by
    intro unbound
    have left := List.mem_of_mem_filter unbound
    rw [swept, ← referenceRule.leftOver_sweeps] at left
    exact (h.awaits.byDepth (.refl _)).not_mem_leftOver hw hx left
  obtain ⟨target', n, ht', node, -, shape⟩ := s.exists_boundTo (b.pending.subset pending) bound
  obtain rfl : x.2 = target' := Option.some.inj (target.symm.trans ht')
  rw [Mib.refined?, node, Option.bind_some, shape]
  rfl

end Runs

end Draft

/-- What a run tells of its sweeps and what becomes of their decisions: in both phases that sweep
over entries, these are resolved by depth. -/
structure SweepsByDepth (linked typed : Draft) (mib : Mib) (story : Phase → Transcript) : Prop where
  /-- Typing tells its sweeps, then the references that it binds of those left over, and then its
  problems. -/
  types : ∃ (sweeps : List (Sweep PendingReference Draft.TypeTarget)) (late : List _)
      (ps : List Problem),
    story .types = sweepsTold .types (fun p _ => Draft.bindingEvent p) sweeps ++
      (late.map (fun p => (.trace, Draft.bindingEvent p)) ++ ps.map Problem.told) ∧
    late ⊆ leftOver sweeps ∧
    ByDepth linked.noted (Depth linked.NamesPlain linked.NamesReference) sweeps ∧
    ∀ s ∈ sweeps, ∀ x ∈ s.resolved, mib.refined? x.1.node = some x.2.node
  /-- The OID phase tells its sweeps and then its problems. -/
  oids : ∃ (sweeps : List (Sweep OidEntry Oid)) (ps : List Problem),
    story .oids = sweepsTold .oids (fun e oid => .oidResolved (mib.nameOf e.assignment) oid)
      sweeps ++ ps.map Problem.told ∧
    ByDepth typed.oidEntries (Depth typed.StartsAtArc typed.AnchoredOn) sweeps ∧
    ∀ s ∈ sweeps, ∀ x ∈ s.resolved,
      ∃ a, mib.assignment? x.1.assignment = some a ∧ a.oid = some x.2

namespace Pipeline

/-- A run resolves type references and OID values by depth, one depth in each sweep, and tells of
every sweep. -/
theorem sweepsByDepth_runParsed (policy : Policy) (stage : Stage) (files : List ParsedFile) :
    ∃ mib story, modelOf ((Pipeline.mk policy (.new .trace) stage).runParsed files).1 = some mib ∧
      ((Pipeline.mk policy (.new .trace) stage).runParsed files).2.recorder.events.toList =
        arrange story ++
          [stageTold ((Pipeline.mk policy (.new .trace) stage).runParsed files).2.stage] ∧
      SweepsByDepth (.linked policy files) (.typed policy files) mib story := by
  have s := Draft.stages_built policy files
  have h := s.untyped
  have pending := h.oidsPending (.new .error)
  set left := (Draft.linked policy files).swept (.new .error)
  obtain ⟨-, -, ps, qs, -, -, -, types, oids, -, -⟩ := exists_phaseTells policy files
  rw [events_runParsed, runParsed_eq_told]
  refine ⟨_, _, modelOf_verdict policy _, rfl, ⟨?types, ?oids⟩⟩
  case types =>
    refine ⟨_, Draft.boundBy (left.2.1.verdicts left.1), ps, ?_, ?_, h.awaits.byDepth (.refl _),
      fun _ hs _ hx => s.refined?_of_resolved hs hx⟩
    · rw [types.eq, Draft.typesTold_eq, List.append_assoc]
      rfl
    · rw [Draft.boundBy_verdicts, Draft.referenceRule.leftOver_sweeps]
      exact List.filter_subset_self _
  case oids =>
    refine ⟨_, qs, ?_, pending.awaits.byDepth (.refl _ _),
      fun _ hs _ hx => s.oid_of_resolved hs hx⟩
    rw [oids.eq]
    exact congrArg (· ++ _) s.oidsTold_eq

/-- A chain of three values takes three sweeps, and what hangs off nothing takes another one. -/
example :
    let under (name parent : String) (arc : Arc) : Definition :=
      ⟨name, .value [.name parent, .arc arc], .synthetic⟩
    let chain := [under "c" "iso" 1, under "b" "c" 2, under "a" "b" 3, under "lost" "nowhere" 1]
    let run := (new .usual .trace).runParsed [⟨"a.mib", .ok [⟨"A-MIB", [], chain, .synthetic⟩]⟩]
    (run.2.recorder.events.toList.filter fun e => e.2 matches .sweepEnd .oids ..) =
      [(.debug, .sweepEnd .oids 0 1 3), (.debug, .sweepEnd .oids 1 1 2),
        (.debug, .sweepEnd .oids 2 1 1), (.debug, .sweepEnd .oids 3 0 1)] := by
  decide +kernel

end Pipeline

end MibCorpus
