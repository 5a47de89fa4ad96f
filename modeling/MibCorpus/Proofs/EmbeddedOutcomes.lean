import MibCorpus.Proofs.EmbeddedOids

/-!
# Embedded outcomes

An entry that the sweeps leave over is left over for the same reason in a larger draft: the way of
its anchors stays among the entries that both drafts have. So the phase decides and reports the same
about the definitions that both keep.
-/

namespace MibCorpus.Draft

variable {σ : Renaming} {τ : Equiv.Perm TypeId} {d d' : Draft}

/-! ## Assignments after the sweeps -/

/-- An assignment after the defects have been reported. -/
lemma assignment?_reportOidDefects {x : OwnedDefinition} (hx : x ∈ d.included) :
    d.reportOidDefects.mib.assignment? x.1 = (d.mib.assignment? x.1).map fun a =>
      if (oidDefect? x).isSome then { a with state := .unresolved } else a := by
  have reported := concludes_reportOidDefects d
  cases hf : oidDefect? x with
  | some f =>
    have mem : (x.1, f) ∈ d.oidDefects := by
      rw [oidDefects_eq]
      exact List.mem_filterMap.2 ⟨x, hx, by rw [hf]; rfl⟩
    exact reported.concluded ⟨x.1, f, .unresolved⟩ (List.mem_map.2 ⟨_, mem, rfl⟩)
  | none =>
    rw [reported.others]
    · exact Option.map_id'.symm
    · intro c hc same
      obtain ⟨y, hy, rfl⟩ := List.mem_map.1 hc
      rw [oidDefects_eq] at hy
      obtain ⟨z, hz, defect⟩ := List.mem_filterMap.1 hy
      obtain ⟨f, hf', rfl⟩ := Option.map_eq_some_iff.1 defect
      obtain rfl := List.inj_on_of_nodup_map d.nodup_included hz hx same
      cases hf.symm.trans hf'

/-- Reporting the defects decides the same about a definition that is kept. -/
lemma EmbedsTyped.assignment?_reportOidDefects (h : EmbedsTyped σ τ d d') {i : AssignmentId}
    (hi : d.Kept i) :
    (d'.reportOidDefects.mib.assignment? (σ.assignment i)).map Assignment.view =
      (d.reportOidDefects.mib.assignment? i).map fun a => σ.view τ a.view := by
  obtain ⟨m, x, included, included'⟩ := h.included hi
  rw [Draft.assignment?_reportOidDefects included,
    show d'.reportOidDefects.mib.assignment? (σ.assignment i) = _ from
      Draft.assignment?_reportOidDefects included', oidDefect?_renamed]
  refine view_map (h.assignment? i hi) fun a a' _ view => ?_
  split
  · exact congrArg (fun v => { v with state := .unresolved }) view
  · exact view

/-- The sweeps decide the same about a definition that is kept. -/
lemma EmbedsTyped.assignment?_swept (h : EmbedsTyped σ τ d d') (r r' : Recorder)
    {i : AssignmentId} (hi : d.Kept i) :
    ((d'.sweptOids r').2.1.mib.assignment? (σ.assignment i)).map Assignment.view =
      ((d.sweptOids r).2.1.mib.assignment? i).map fun a => σ.view τ a.view := by
  have derivable := fun o => h.embeds.oidDerivable_iff h.scope (o := o) hi
  by_cases ho : ∃ o, d.OidDerivable i o
  · obtain ⟨o, ho⟩ := ho
    obtain ⟨m, x, hx⟩ := hi
    rw [h.pending.assignment?_swept_of_derivable r ho hx.2,
      h.pending'.assignment?_swept_of_derivable r' ((derivable o).2 ho)
        (h.embeds.keeps_renamed hx).2]
    exact view_map (h.assignment? i ⟨m, x, hx⟩) fun a a' _ view =>
      congrArg (fun v => { v with oid := some o, state := .resolved }) view
  · rw [h.pending.assignment?_swept_of_underivable r fun o hd => ho ⟨o, hd⟩,
      h.pending'.assignment?_swept_of_underivable r' fun o hd => ho ⟨o, (derivable o).1 hd⟩]
    exact h.assignment?_reportOidDefects hi

/-! ## Why entries are left over -/

/-- Drafts in which the same OIDs are known of the definitions that both keep; `xs` and `xs'` are
left over. -/
structure EmbedsSwept (σ : Renaming) (τ : Equiv.Perm TypeId) (xs : List OidEntry) (e : Draft)
    (xs' : List OidEntry) (e' : Draft) : Prop where
  embeds : Embeds σ e e'
  scope : Scope.Embeds σ e.HasModule e.scope e'.scope
  assignment? : ∀ i, e.Kept i → (e'.mib.assignment? (σ.assignment i)).map Assignment.view =
    (e.mib.assignment? i).map fun a => σ.view τ a.view
  kept : ∀ x ∈ xs, e.Kept x.assignment
  mentioned : ∀ x ∈ xs, e.Mentioned x.module x.value.anchor.qualifier?
  left : ∀ i, e.Kept i → xs'.filter (·.assignment = σ.assignment i) =
    (xs.filter (·.assignment = i)).map σ.entry

/-- An entry belongs to a definition that is kept, and its anchor is mentioned there. -/
lemma OidsPending.mentioned_of_mem_oidEntries (h : d.OidsPending) (registered : d.Registered)
    {e : OidEntry} (he : e ∈ d.oidEntries) :
    d.Kept e.assignment ∧ d.Mentioned e.module e.value.anchor.qualifier? := by
  obtain ⟨name, cs, hw, hv⟩ := mem_oidEntries.1 he
  obtain ⟨kept, x, hx, oid⟩ := h.of_mem_writtenOids hw
  obtain ⟨c, rest, rfl, anchor, -⟩ := OidValue.ofComponents_eq_ok.1 hv
  refine ⟨⟨_, x, hx, kept⟩, registered.mentioned_of_origin hx fun q hq => ?_⟩
  rw [anchor, OidValue.qualifier?_anchorOf] at hq
  exact x.mem_qualifiers_of_oid oid (List.mem_cons_self ..) hq

/-- The sweeps end alike. -/
lemma EmbedsTyped.embedsSwept (h : EmbedsTyped σ τ d d') (r r' : Recorder) :
    EmbedsSwept σ τ (d.sweptOids r).1 (d.sweptOids r).2.1 (d'.sweptOids r').1
      (d'.sweptOids r').2.1 := by
  have reported := concludes_reportOidDefects d
  have reported' := concludes_reportOidDefects d'
  have a := h.pending.assigns (r := r)
  have a' := h.pending'.assigns (r := r')
  have c := reported.continues.trans a.continues
  have written : ∀ x ∈ (d.sweptOids r).1, d.Kept x.assignment ∧
      d.Mentioned x.module x.value.anchor.qualifier? := fun x hx =>
    h.pending.mentioned_of_mem_oidEntries h.embeds.registered (a.pending.subset hx)
  refine ⟨h.embeds.of_continues c (reported'.continues.trans a'.continues), ?_, fun i hi => ?_,
    fun x hx => ?_, fun x hx => ?_, fun i hi => ?_⟩
  · rw [a.scope, a'.scope, reported.scope, reported'.scope, hasModule_of_registry c.registry]
    exact h.scope
  · exact h.assignment?_swept r r' ((kept_of_registry c.registry).1 hi)
  · exact (kept_of_registry c.registry).2 (written x hx).1
  · rw [Mentioned, sources_of_registry c.registry]
    exact (written x hx).2
  · exact h.filter_swept r r' ((kept_of_registry c.registry).1 hi)

section EmbedsSwept

variable {xs xs' : List OidEntry} {e e' : Draft}

/-- What is found stands for the same. -/
lemma EmbedsSwept.baseOfAssignment (h : EmbedsSwept σ τ xs e xs' e') {i : AssignmentId}
    (hi : e.Kept i) :
    e'.baseOfAssignment (σ.assignment i) = σ.base (e.baseOfAssignment i) := by
  have same := h.assignment? i hi
  rw [Draft.baseOfAssignment, Draft.baseOfAssignment]
  cases ha : e.mib.assignment? i with
  | none =>
    rw [ha, Option.map_none, Option.map_eq_none_iff] at same
    rw [same]
    rfl
  | some a =>
    rw [ha] at same
    obtain ⟨a', ha', view⟩ := Option.map_eq_some_iff.1 same
    have oid : a'.oid = a.oid := congrArg AssignmentView.oid view
    have kind : a'.kind = a.kind := congrArg AssignmentView.kind view
    have state : a'.state = a.state := congrArg AssignmentView.state view
    rw [ha']
    simp only [oid, kind, state]
    cases a.oid with
    | some o => rfl
    | none =>
      simp only
      split <;> rfl

/-- An anchor that is mentioned stands for the same. -/
lemma EmbedsSwept.baseOf (h : EmbedsSwept σ τ xs e xs' e') {m : ModuleId} {anchor : Anchor}
    (mentioned : e.Mentioned m anchor.qualifier?) :
    e'.baseOf (σ.module m) anchor = σ.base (e.baseOf m anchor) := by
  cases anchor with
  | arc a => rfl
  | name qualifier name =>
    have found : e'.scope.resolveFrom (σ.module m) qualifier name =
        σ.lookup (e.scope.resolveFrom m qualifier name) :=
      h.embeds.resolveFrom h.scope mentioned name
    simp only [Draft.baseOf, found]
    cases hf : e.scope.resolveFrom m qualifier name with
    | ambiguous => rfl
    | notFound =>
      simp only [Renaming.lookup]
      cases qualifier <;> cases intrinsicRoot? name <;> rfl
    | found i =>
      exact h.baseOfAssignment (h.embeds.registered.definitions.kept_of_resolveFrom hf)

/-- A base that has to wait waits for its own assignment. -/
lemma eq_of_baseOfAssignment {i j : AssignmentId} (waits : d.baseOfAssignment j = .waiting i) :
    j = i := by
  unfold Draft.baseOfAssignment at waits
  split at waits
  · cases waits
  · split at waits
    · cases waits
    · split at waits <;> cases waits
      rfl

/-- What an anchor waits for is kept. -/
lemma DefinitionsRegistered.kept_of_baseOf (h : d.DefinitionsRegistered) {m : ModuleId}
    {anchor : Anchor} {i : AssignmentId} (waits : d.baseOf m anchor = .waiting i) : d.Kept i := by
  unfold Draft.baseOf at waits
  split at waits
  · cases waits
  · split at waits
    next hf =>
      obtain rfl := eq_of_baseOfAssignment waits
      exact h.kept_of_resolveFrom hf
    next => cases waits
    next => split at waits <;> cases waits

/-- The same entry is left over for a definition that is kept. -/
lemma EmbedsSwept.find?_assignment (h : EmbedsSwept σ τ xs e xs' e') {i : AssignmentId}
    (hi : e.Kept i) :
    xs'.find? (·.assignment = σ.assignment i) = (xs.find? (·.assignment = i)).map σ.entry := by
  rw [← List.head?_filter, ← List.head?_filter, h.left i hi, List.head?_map]

/-- The entries that have not been visited. -/
def unvisited (xs : List OidEntry) (visited : List AssignmentId) : List OidEntry :=
  xs.filter (!visited.contains ·.assignment)

/-- Visiting one more entry leaves fewer. -/
lemma length_unvisited_lt {x : OidEntry} (hx : x ∈ xs) {visited : List AssignmentId}
    (new : x.assignment ∉ visited) :
    (unvisited xs (x.assignment :: visited)).length < (unvisited xs visited).length := by
  have fewer : unvisited xs (x.assignment :: visited) =
      (unvisited xs visited).filter (·.assignment ≠ x.assignment) := by
    rw [unvisited, unvisited, List.filter_filter]
    refine List.filter_congr fun y _ => ?_
    simp
  rw [fewer, List.length_filter_lt_length_iff_exists]
  exact ⟨x, List.mem_filter.2 ⟨hx, by simpa using new⟩, by simp⟩

/-- Failures are traced alike, in as many steps as there are entries left to visit, or more. -/
lemma EmbedsSwept.traceFailure (h : EmbedsSwept σ τ xs e xs' e') (start : AssignmentId)
    {steps steps' : Nat} (visited : List AssignmentId) {current : OidEntry} (hc : current ∈ xs)
    (hc' : σ.entry current ∈ xs')
    (enough : (unvisited xs (current.assignment :: visited)).length < steps)
    (enough' : (unvisited xs' ((current.assignment :: visited).map σ.assignment)).length < steps') :
    e'.traceFailure xs' (σ.assignment start) steps' (visited.map σ.assignment) (σ.entry current) =
      σ.failure (e.traceFailure xs start steps visited current) := by
  -- Either bound is enough to visit every entry, so the induction can be on the first of them.
  induction steps generalizing steps' visited current with
  | zero => cases enough
  | succ steps ih =>
    obtain ⟨steps', rfl⟩ : ∃ k, steps' = k + 1 := ⟨steps' - 1, by omega⟩
    have base : e'.baseOf (σ.entry current).module (σ.entry current).value.anchor =
        σ.base (e.baseOf current.module current.value.anchor) := h.baseOf (h.mentioned current hc)
    rw [Draft.traceFailure, Draft.traceFailure, base]
    cases hb : e.baseOf current.module current.value.anchor with
    | ready | missing => rfl
    | waiting parent =>
      have seen : σ.assignment parent ∈
          (σ.entry current).assignment :: visited.map σ.assignment ↔
            parent ∈ current.assignment :: visited :=
        List.mem_map_of_injective (l := current.assignment :: visited) σ.assignment.injective
      have found := h.find?_assignment
        (h.embeds.registered.definitions.kept_of_baseOf hb)
      simp only [Renaming.base, EmbeddingLike.apply_eq_iff_eq, seen, found]
      split
      · rfl
      · split
        · rfl
        next new =>
          cases hn : xs.find? (·.assignment = parent) with
          | none => rfl
          | some next =>
            rw [hn] at found
            have hx := List.mem_of_find?_eq_some hn
            have hx' : σ.entry next ∈ xs' := List.mem_of_find?_eq_some found
            obtain rfl : next.assignment = parent := by simpa using List.find?_some hn
            -- The entry that is visited next is one less to visit, on both sides.
            have fewer := length_unvisited_lt hx new
            have fewer' := length_unvisited_lt hx' (mt seen.1 new)
            exact ih (current.assignment :: visited) hx hx'
              (Nat.lt_of_lt_of_le fewer (Nat.le_of_lt_succ enough))
              (Nat.lt_of_lt_of_le fewer' (Nat.le_of_lt_succ enough'))

/-- An entry is left over for the same reason. -/
lemma EmbedsSwept.failureOf (h : EmbedsSwept σ τ xs e xs' e') {x : OidEntry} (hx : x ∈ xs) :
    e'.failureOf xs' (σ.entry x) = σ.failure (e.failureOf xs x) := by
  have hx' : σ.entry x ∈ xs' := by
    have mem : σ.entry x ∈ (xs.filter (·.assignment = x.assignment)).map σ.entry :=
      List.mem_map_of_mem (List.mem_filter.2 ⟨hx, by simp⟩)
    rw [← h.left _ (h.kept x hx)] at mem
    exact (List.mem_filter.1 mem).1
  exact h.traceFailure x.assignment [] hx hx' (Nat.lt_succ_of_le (List.length_filter_le ..))
    (Nat.lt_succ_of_le (List.length_filter_le ..))

/-- The assignment that a failure is put down to. -/
def OidFailure.culprit? : OidFailure → Option AssignmentId
  | cycle => none
  | behindCycle i | missing i => some i

/-- What a failure is put down to is kept. -/
lemma EmbedsSwept.kept_of_traceFailure (h : EmbedsSwept σ τ xs e xs' e') (start : AssignmentId)
    {steps : Nat} {visited : List AssignmentId} {current : OidEntry} (hc : current ∈ xs)
    {i : AssignmentId} (hi : (e.traceFailure xs start steps visited current).culprit? = some i) :
    e.Kept i := by
  induction steps generalizing visited current with
  | zero =>
    obtain rfl := Option.some.inj hi
    exact h.kept current hc
  | succ steps ih =>
    rw [Draft.traceFailure] at hi
    cases hb : e.baseOf current.module current.value.anchor with
    | ready | missing =>
      rw [hb] at hi
      obtain rfl := Option.some.inj hi
      exact h.kept current hc
    | waiting parent =>
      have there := h.embeds.registered.definitions.kept_of_baseOf hb
      simp only [hb] at hi
      split at hi
      · cases hi
      · split at hi
        · obtain rfl := Option.some.inj hi
          exact there
        · cases hn : xs.find? (·.assignment = parent) with
          | none =>
            simp only [hn] at hi
            obtain rfl := Option.some.inj hi
            exact there
          | some next =>
            simp only [hn] at hi
            exact ih (List.mem_of_find?_eq_some hn) hi

/-- What is left over is reported alike. -/
lemma EmbedsSwept.failureFinding (h : EmbedsSwept σ τ xs e xs' e') {x : OidEntry} (hx : x ∈ xs) :
    e'.failureFinding (σ.entry x) (e'.failureOf xs' (σ.entry x)) =
      e.failureFinding x (e.failureOf xs x) := by
  have own : e'.mib.nameOf (σ.assignment x.assignment) = e.mib.nameOf x.assignment :=
    h.embeds.nameOf (h.kept x hx)
  have culprit : ∀ i, (e.failureOf xs x).culprit? = some i →
      e'.mib.nameOf (σ.assignment i) = e.mib.nameOf i :=
    fun i hi => h.embeds.nameOf (h.kept_of_traceFailure _ hx hi)
  rw [h.failureOf hx]
  cases hf : e.failureOf xs x with
  | cycle => simp [Draft.failureFinding, Renaming.failure, Renaming.entry, own]
  | behindCycle member =>
    have name := culprit member (by rw [hf]; rfl)
    simp [Draft.failureFinding, Renaming.failure, Renaming.entry, own, name]
  | missing last =>
    have name := culprit last (by rw [hf]; rfl)
    simp only [Draft.failureFinding, Renaming.failure, Renaming.entry,
      EmbeddingLike.apply_eq_iff_eq, own, name]

end EmbedsSwept

/-! ## The phase -/

/-- A renamed failure leaves the same state. -/
lemma state_failure (f : OidFailure) : (σ.failure f).state = f.state := by
  cases f <;> rfl

/-- An assignment after what is left over has been settled. -/
lemma OidsPending.assignment?_settledOids (h : d.OidsPending) (r : Recorder) (i : AssignmentId) :
    (d.settledOids r).mib.assignment? i = ((d.sweptOids r).2.1.mib.assignment? i).map fun a =>
      ((d.sweptOids r).1.find? (·.assignment = i)).elim a fun e =>
        { a with state := ((d.sweptOids r).2.1.failureOf (d.sweptOids r).1 e).state } := by
  have c := h.concludes (r := r)
  cases hf : (d.sweptOids r).1.find? (·.assignment = i) with
  | some e =>
    obtain rfl : e.assignment = i := by simpa using List.find?_some hf
    exact c.concluded ⟨e.assignment, _, _⟩
      (List.mem_map.2 ⟨e, List.mem_of_find?_eq_some hf, rfl⟩)
  | none =>
    rw [c.others]
    · exact Option.map_id'.symm
    · intro x hx same
      obtain ⟨e, he, rfl⟩ := List.mem_map.1 hx
      have none := List.find?_eq_none.1 hf e he
      simp [show e.assignment = i from same] at none

/-- The state of a definition that is kept is settled alike. -/
lemma EmbedsTyped.assignment?_settledOids (h : EmbedsTyped σ τ d d') (r r' : Recorder)
    {i : AssignmentId} (hi : d.Kept i) :
    ((d'.settledOids r').mib.assignment? (σ.assignment i)).map Assignment.view =
      ((d.settledOids r).mib.assignment? i).map fun a => σ.view τ a.view := by
  have swept := h.embedsSwept r r'
  have kept : (d.sweptOids r).2.1.Kept i := by
    have c := (concludes_reportOidDefects d).continues.trans (h.pending.assigns (r := r)).continues
    exact (kept_of_registry c.registry).2 hi
  rw [h.pending.assignment?_settledOids r, h.pending'.assignment?_settledOids r',
    swept.find?_assignment kept]
  refine view_map (h.assignment?_swept r r' hi) fun a a' _ view => ?_
  cases hf : (d.sweptOids r).1.find? (·.assignment = i) with
  | none => exact view
  | some e =>
    simp only [Option.map_some, Option.elim_some, swept.failureOf (List.mem_of_find?_eq_some hf),
      state_failure]
    exact congrArg (fun v => { v with
      state := ((d.sweptOids r).2.1.failureOf (d.sweptOids r).1 e).state }) view

/-- The phase keeps types. -/
lemma OidOutcome.type_eq {i : AssignmentId} {a a' : Assignment} (h : OidOutcome d d' i a a') :
    a'.type = a.type := by
  cases h with
  | untouched => exact type_degradeByType _ _
  | broken => rfl
  | assigned => exact type_degradeByType _ _

/-- What is settled has the type that it had before the phase. -/
lemma OidsPending.exists_type_of_settledOids (h : d.OidsPending) {r : Recorder} {i : AssignmentId}
    (hi : d.Kept i) {a : Assignment} (ha : (d.settledOids r).mib.assignment? i = some a) :
    ∃ b, d.mib.assignment? i = some b ∧ a.type = b.type := by
  obtain ⟨m, x, hx⟩ := hi
  obtain ⟨b, hb, -, -⟩ := h.definitions.exists_assignment hx.1
  obtain ⟨a', ha', outcome⟩ := h.outcome (r := r) hb
  rw [h.assignment?_resolveOids, ha] at ha'
  obtain rfl := Option.some.inj ha'
  exact ⟨b, hb, (type_degradeByType d.mib a).symm.trans outcome.type_eq⟩

/-- What degrading makes of an assignment depends on what is decided about it. -/
lemma view_degradeByType (mib : Mib) (a : Assignment) : (degradeByType mib a).view = { a.view with
    state := (((a.type.bind mib.type?).map (·.state)).filter fun _ => a.state = .resolved).elim
      a.state a.state.degradeBy } := by
  unfold degradeByType
  cases a.type.bind mib.type? with
  | none => rfl
  | some t =>
    simp only [Option.map_some, Option.filter_some]
    by_cases hs : a.state = .resolved <;> simp [hs, Assignment.view]

/-- The phase decides the same about a definition that is kept. -/
theorem EmbedsTyped.assignment?_resolveOids (h : EmbedsTyped σ τ d d') (r r' : Recorder)
    {i : AssignmentId} (hi : d.Kept i) :
    ((d'.resolveOids r').1.mib.assignment? (σ.assignment i)).map Assignment.view =
      ((d.resolveOids r).1.mib.assignment? i).map fun a => σ.view τ a.view := by
  rw [h.pending.assignment?_resolveOids, h.pending'.assignment?_resolveOids]
  refine view_map (h.assignment?_settledOids r r' hi) fun a a' ha view => ?_
  have states : ∀ t, a.type = some t →
      (d'.mib.type? (τ t)).map (·.state) = (d.mib.type? t).map (·.state) := by
    intro t ht
    -- Settling keeps the type that the assignment has had since typing.
    obtain ⟨b, hb, type⟩ := h.pending.exists_type_of_settledOids hi ha
    exact h.states hb (type.symm.trans ht)
  rw [view_degradeByType, view_degradeByType, stateOfType_eq view states,
    show a'.state = a.state from congrArg AssignmentView.state view, view]
  rfl

/-! ## What the phase reports -/

/-- What the phase says about a defect in the OID value of a definition. -/
def saidOfOidDefect (x : OwnedDefinition) : List (ProblemKind × Severity × String) :=
  (oidDefect? x).toList.map Finding.content

/-- What the phase says about a definition that gets no OID though its OID value has no defect. -/
def saidOfLeftOid (d : Draft) (r : Recorder) (x : OwnedDefinition) :
    List (ProblemKind × Severity × String) :=
  ((d.sweptOids r).1.filter (·.assignment = x.1)).map fun e =>
    ((d.sweptOids r).2.1.failureFinding e
      ((d.sweptOids r).2.1.failureOf (d.sweptOids r).1 e)).content

/-- What the phase reports, definition by definition. -/
lemma OidsPending.notices_resolveOids (h : d.OidsPending) (r : Recorder) :
    (d.resolveOids r).1.notices = d.notices ++ (noticesAbout d.included saidOfOidDefect ++
      noticesAbout d.included (d.saidOfLeftOid r)) := by
  have defects : d.defectConclusions.map (fun c => (some c.assignment, c.finding.content)) =
      noticesAbout d.included saidOfOidDefect := by
    rw [defectConclusions, oidDefects_eq, List.filterMap_eq_flatMap_toList, List.map_flatMap,
      List.map_flatMap]
    refine List.flatMap_congr fun x _ => ?_
    rw [saidOfOidDefect]
    cases oidDefect? x <;> rfl
  have left : ((d.sweptOids r).2.1.leftConclusions (d.sweptOids r).1).map
      (fun c => (some c.assignment, c.finding.content)) =
        noticesAbout d.included (d.saidOfLeftOid r) := by
    rw [leftConclusions, List.map_map]
    refine (congrArg (List.map _) (h.swept_eq r)).trans ?_
    rw [List.map_flatMap]
    refine List.flatMap_congr fun x _ => ?_
    rw [saidOfLeftOid, List.map_map]
    refine List.map_congr_left fun e he => ?_
    have own : e.assignment = x.1 := by simpa using (List.mem_filter.1 he).2
    simp only [Function.comp_apply, own]
  rw [notices, notices, h.problems, List.map_append, List.map_append, List.map_append,
    List.map_map, List.map_map]
  exact congrArg _ (congrArg₂ _ defects left)

/-- The defects of a definition are judged without regard to others. -/
lemma saidOfOidDefect_renamed (x : OwnedDefinition) :
    saidOfOidDefect (renamed σ x) = saidOfOidDefect x := rfl

/-- The same is said about the OID value of a definition that is kept. -/
lemma EmbedsTyped.saidOfLeftOid (h : EmbedsTyped σ τ d d') (r r' : Recorder) {x : OwnedDefinition}
    (hx : x ∈ d.included) : d'.saidOfLeftOid r' (renamed σ x) = d.saidOfLeftOid r x := by
  have left := h.filter_swept r r' ⟨_, _, h.pending.mem_included_iff.1 hx⟩
  have swept := h.embedsSwept r r'
  rw [Draft.saidOfLeftOid, Draft.saidOfLeftOid,
    show (renamed σ x).1 = σ.assignment x.1 from rfl, left, List.map_map]
  refine List.map_congr_left fun e he => ?_
  rw [Function.comp_apply, swept.failureFinding (List.mem_filter.1 he).1]

end MibCorpus.Draft
