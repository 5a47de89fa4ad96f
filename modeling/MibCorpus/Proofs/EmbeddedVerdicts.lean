import MibCorpus.Proofs.EmbeddedTyping

/-!
# Embedded typed drafts

Typing reports something about a definition for its ranges that cannot hold and for its references
that stay unbound. Both are the same for a definition that embedded drafts keep, and so is what
typing decides about it.
-/

namespace MibCorpus

/-- Of a list without repetition, a part in the same order is known from its members. -/
lemma eq_filter_of_sublist {α : Type} {xs ys : List α} {p : α → Bool} (sub : xs.Sublist ys)
    (nodup : ys.Nodup) (mem : ∀ y ∈ ys, y ∈ xs ↔ p y = true) : xs = ys.filter p := by
  induction sub with
  | slnil => rfl
  | @cons xs ys y sub ih =>
    rw [List.nodup_cons] at nodup
    have out : ¬p y = true :=
      fun hy => nodup.1 (sub.subset ((mem y (List.mem_cons_self ..)).2 hy))
    rw [List.filter_cons_of_neg out]
    exact ih nodup.2 fun z hz => mem z (List.mem_cons_of_mem _ hz)
  | @cons_cons xs ys y sub ih =>
    rw [List.nodup_cons] at nodup
    rw [List.filter_cons_of_pos ((mem y (List.mem_cons_self ..)).1 (List.mem_cons_self ..))]
    refine congrArg (y :: ·) (ih nodup.2 fun z hz => ?_)
    have ne : z ≠ y := fun same => nodup.1 (same ▸ hz)
    rw [← mem z (List.mem_cons_of_mem _ hz), List.mem_cons, or_iff_right ne]

namespace Draft

variable {σ : Renaming} {τ : Equiv.Perm TypeId} {d d' : Draft}

/-! ## What typing reports -/

/-- What is said about some definitions, definition by definition. -/
def noticesAbout (xs : List OwnedDefinition)
    (said : OwnedDefinition → List (ProblemKind × Severity × String)) :
    List (Option AssignmentId × ProblemKind × Severity × String) :=
  xs.flatMap fun x => (said x).map (some x.1, ·)

/-- What typing says about the ranges of a definition that cannot hold. -/
def saidOfRanges (x : OwnedDefinition) : List (ProblemKind × Severity × String) :=
  x.2.2.block.defects.map Finding.content

/-- What a verdict reports. -/
def reportedBy? : Except Finding TypeTarget → Option Finding
  | .ok _ => none
  | .error f => some f

/-- What typing says about the references of a definition that stay unbound. -/
def saidOfReferences (d : Draft) (r : Recorder) (x : OwnedDefinition) :
    List (ProblemKind × Severity × String) :=
  ((d.swept r).1.filter (·.referrer = x.1)).filterMap fun q =>
    (reportedBy? ((d.swept r).2.1.judgeReference (d.swept r).1 q)).map Finding.content

/-- What typing reports, definition by definition. -/
lemma Untyped.notices_resolveTypes (h : d.Untyped) (r : Recorder) :
    (d.resolveTypes r).1.notices = d.notices ++ (noticesAbout d.included saidOfRanges ++
      noticesAbout d.included (d.saidOfReferences r)) := by
  have ranges : (d.blocks.flatMap fun b => b.block.defects.map
      (d.problemAbout · b.owner.assignment)).map Problem.notice =
        noticesAbout d.included saidOfRanges := by
    rw [List.map_flatMap]
    refine flatMap_layout (fun x k => ?_) d.included 0
    rw [saidOfRanges, List.map_map, List.map_map, (definitionBlock_eq ..).2]
    rfl
  have left : (d.swept r).1.Sublist (referencesOf d.blocks) := by
    rw [← noted_eq h.definitions h.bare]
    exact (h.binds_swept r).pending
  have references : ((d.swept r).1.filterMap (d.leftProblem? r)).map Problem.notice =
      noticesAbout d.included (d.saidOfReferences r) := by
    have owners : d.blocks.map (·.owner.assignment) = d.included.map Prod.fst :=
      map_owner_layout ..
    -- What is left is in the order of the blocks, so it falls into one group for each.
    have groups := eq_flatMap_filter (fun b hb q hq => (exists_notes hb hq).choose_spec.referrer)
      (owners ▸ d.nodup_included) left
    have each : ∀ i, (((d.swept r).1.filter (·.referrer = i)).filterMap (d.leftProblem? r)).map
        Problem.notice = (((d.swept r).1.filter (·.referrer = i)).filterMap fun q =>
          (reportedBy? ((d.swept r).2.1.judgeReference (d.swept r).1 q)).map Finding.content).map
            (some i, ·) := by
      intro i
      rw [List.map_filterMap, List.map_filterMap]
      refine List.filterMap_congr fun q hq => ?_
      have referrer : q.referrer = i := by simpa using (List.mem_filter.1 hq).2
      rw [leftProblem?, problemOf?]
      cases (d.swept r).2.1.judgeReference (d.swept r).1 q with
      | ok => rfl
      | error f => simp [reportedBy?, problemAbout, Problem.notice, Problem.content, referrer,
          Finding.content, Finding.toProblem, Problem.ofKind]
    have listed := congrArg (·.flatMap fun i => (((d.swept r).1.filter (·.referrer = i)).filterMap
      (d.leftProblem? r)).map Problem.notice) owners
    simp only [List.flatMap_map, each] at listed
    conv_lhs => rw [groups]
    rw [List.filterMap_flatMap, List.map_flatMap]
    simp only [each]
    exact listed
  rw [notices, notices, show (d.resolveTypes r).1.mib.problems.toList = _ from
    problems_boundDraft h.definitions h.bare, List.map_append, List.map_append, ranges, references]

section EmbedsNodes

/-- The ranges of a definition are judged without regard to others. -/
lemma saidOfRanges_renamed (x : OwnedDefinition) : saidOfRanges (renamed σ x) = saidOfRanges x :=
  rfl

/-- The same is said about the references of a definition that is kept. -/
lemma EmbedsNodes.saidOfReferences (h : EmbedsNodes σ τ d d') (r r' : Recorder)
    {x : OwnedDefinition} (hx : x ∈ d.included) :
    d'.saidOfReferences r' (renamed σ x) = d.saidOfReferences r x := by
  have swept := h.swept r r'
  have kept : d.Kept x.1 := ⟨_, _, h.untyped.mem_included_iff.1 hx⟩
  -- What is left over of the references of the definition is the same, in the same order.
  have left : ∀ {e : Draft} (r : Recorder), e.Untyped → ∀ i,
      (e.swept r).1.filter (·.referrer = i) =
        (e.noted.filter (·.referrer = i)).filter (· ∈ (e.swept r).1) := by
    intro e r he i
    have distinct := he.nodup_noted
    have sub : (e.swept r).1.Sublist e.noted :=
      (binds_run e.lowered e.noted distinct r).1.pending
    refine eq_filter_of_sublist (sub.filter _) (distinct.of_map.filter _) fun q hq => ?_
    simp [List.mem_filter, (List.mem_filter.1 hq).2]
  have same : (d'.swept r').1.filter (·.referrer = σ.assignment x.1) =
      ((d.swept r).1.filter (·.referrer = x.1)).map (σ.reference τ) := by
    rw [left r' h.untyped', left r h.untyped, h.filter_noted kept, List.filter_map]
    refine congrArg (List.map _) (List.filter_congr fun q hq => ?_)
    simpa using swept.pending q (List.mem_filter.1 hq).1
  rw [Draft.saidOfReferences, Draft.saidOfReferences,
    show (renamed σ x).1 = σ.assignment x.1 from rfl, same, List.filterMap_map]
  refine List.filterMap_congr fun q hq => ?_
  have noted := swept.binds.pending.subset (List.mem_filter.1 hq).1
  rw [Function.comp_apply, swept.judgeReference noted]
  cases (d.swept r).2.1.judgeReference (d.swept r).1 q <;> rfl

/-! ## What typing decides -/

/-- The references that stay unbound are the same. -/
lemma EmbedsNodes.settled (h : EmbedsNodes σ τ d d') (r r' : Recorder) :
    EmbedsBound σ τ d d' (d.unboundReferences r) (d.boundDraft r) (d'.unboundReferences r')
      (d'.boundDraft r') where
  toEmbedsNodes := h
  binds := h.untyped.binds _
  binds' := h.untyped'.binds _
  pending q hq := by
    have swept := h.swept r r'
    rw [unboundReferences, unboundReferences, unbindable, unbindable, List.mem_filter,
      List.mem_filter, swept.pending q hq, swept.judgeReference hq]
    cases (d.swept r).2.1.judgeReference (d.swept r).1 q <;> exact Iff.rfl

end EmbedsNodes

/-- Renaming takes what typing makes of the first draft to a part of what it makes of the second. -/
structure EmbedsTyped (σ : Renaming) (τ : Equiv.Perm TypeId) (e e' : Draft) : Prop where
  embeds : Embeds σ e e'
  scope : Scope.Embeds σ e.HasModule e.scope e'.scope
  pending : e.OidsPending
  pending' : e'.OidsPending
  assignment? : ∀ i, e.Kept i → (e'.mib.assignment? (σ.assignment i)).map Assignment.view =
    (e.mib.assignment? i).map fun a => σ.view τ a.view
  states : ∀ {i a t}, e.mib.assignment? i = some a → a.type = some t →
    (e'.mib.type? (τ t)).map (·.state) = (e.mib.type? t).map (·.state)

/-- The type of a definition that is kept has one state in both drafts. -/
lemma stateOfType_eq {mib mib' : Mib} {a a' : Assignment} (view : a'.view = σ.view τ a.view)
    (states : ∀ t, a.type = some t →
      (mib'.type? (τ t)).map (·.state) = (mib.type? t).map (·.state)) :
    (a'.type.bind mib'.type?).map (·.state) = (a.type.bind mib.type?).map (·.state) := by
  rw [show a'.type = a.type.map τ from congrArg AssignmentView.type view]
  cases type : a.type with
  | none => rfl
  | some t => exact states t type

/-- A type of the first draft has one state after typing. -/
lemma EmbedsNodes.states_resolveTypes (h : EmbedsNodes σ τ d d') (r r' : Recorder) {t : TypeId}
    (ht : d.lowered.mib.HasType t) :
    ((d'.resolveTypes r').1.mib.type? (τ t)).map (·.state) =
      ((d.resolveTypes r).1.mib.type? t).map (·.state) := by
  have settled := h.settled r r'
  have there := settled.binds.hasType_iff.2 ht
  have same := settled.nodes.stateOf there
  obtain ⟨n, hn⟩ := there
  obtain ⟨n', hn', -⟩ := settled.nodes.exists_type? hn
  rw [type?_resolveTypes, type?_resolveTypes, hn, hn']
  exact congrArg some same

/-- Typing keeps drafts embedded. -/
theorem EmbedsNodes.embedsTyped (h : EmbedsNodes σ τ d d') (r r' : Recorder) :
    EmbedsTyped σ τ (d.resolveTypes r).1 (d'.resolveTypes r').1 := by
  have c := h.untyped.continues r
  have c' := h.untyped'.continues r'
  have assigned := assignment?_resolveTypes (r := r) h.untyped.definitions h.untyped.bare
  have states : ∀ {i a t}, d.lowered.mib.assignment? i = some a → a.type = some t →
      ((d'.resolveTypes r').1.mib.type? (τ t)).map (·.state) =
        ((d.resolveTypes r).1.mib.type? t).map (·.state) := fun ha ht =>
    h.states_resolveTypes r r' (h.untyped.hasType_of_assignment? ha ht)
  refine ⟨h.embeds.of_continues c c', ?_, h.untyped.oidsPending r, h.untyped'.oidsPending r',
    fun i hi => ?_, fun {i a t} ha ht => ?_⟩
  · rw [scope_resolveTypes h.untyped.definitions h.untyped.bare,
      scope_resolveTypes h.untyped'.definitions h.untyped'.bare, hasModule_of_registry c.registry]
    exact h.scope
  · rw [assigned, assignment?_resolveTypes h.untyped'.definitions h.untyped'.bare]
    rw [kept_of_registry c.registry] at hi
    refine view_map (h.assignment?_lowered hi) fun a a' ha view => ?_
    rw [typeState_eq, typeState_eq, stateOfType_eq view fun t => states ha]
    exact view_settle view _
  · rw [assigned] at ha
    obtain ⟨b, hb, rfl⟩ := Option.map_eq_some_iff.1 ha
    refine states hb ?_
    rw [← ht]
    split <;> rfl

end Draft

end MibCorpus
