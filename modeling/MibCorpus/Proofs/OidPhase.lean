import MibCorpus.Proofs.OidResolution

/-!
# The OID phase

What becomes of an assignment in the phase: one that has no OID value to resolve is left as it is,
one with a defect is unresolved, and of the others those that the rules derive an OID for get it and
the rest are unresolved or left out. Whatever gets no OID is reported.
-/

namespace MibCorpus.Draft

/-- A draft that the phase can start from: nothing has an OID, what is left out has been refused,
and what should have an OID is pending. -/
structure OidsPending (d : Draft) : Prop where
  definitions : d.DefinitionsRegistered
  bare : ∀ i a, d.mib.assignment? i = some a → a.oid = none
  excluded : ∀ i a, d.mib.assignment? i = some a → (a.state = .excluded ↔ d.isRefused i = true)
  pending : ∀ i a, d.mib.assignment? i = some a → a.kind.hasOid → d.isRefused i = false →
    a.state = .pending

section

variable {d : Draft} {r : Recorder}

/-- What has been refused is left out, and nothing else is. -/
lemma OidsPending.isIncluded_iff (h : d.OidsPending) {i : AssignmentId} {m : ModuleId}
    {x : Definition} (hx : d.owner? i = some (m, x)) :
    d.isIncluded i = !d.isRefused i := by
  obtain ⟨a, ha, -, -⟩ := h.definitions.exists_assignment hx
  have excluded := h.excluded i a ha
  simp only [isIncluded, ha, Option.any_some]
  cases hr : d.isRefused i <;> simp_all

/-- The entries are the values that the sweeps have to work on. -/
lemma OidsPending.entriesOpen (h : d.OidsPending) :
    EntriesOpen d.reportOidDefects d.oidEntries := by
  have reported := concludes_reportOidDefects d
  have owners := owner?_of_registry reported.continues.registry
  have refused := isRefused_of_registry reported.continues.registry
  refine ⟨h.definitions.of_registry reported.continues.registry reported.continues.strings,
    d.nodup_oidEntries, fun i a ha => ?_, fun e he => ?_, fun i m c arcs written kept => ?_⟩
  · by_cases hi : ∃ x ∈ d.defectConclusions, x.assignment = i
    · obtain ⟨x, hx, rfl⟩ := hi
      rw [reported.concluded x hx] at ha
      obtain ⟨b, hb, rfl⟩ := Option.map_eq_some_iff.1 ha
      exact h.bare _ b hb
    · rw [reported.others i fun x hx e => hi ⟨x, hx, e⟩] at ha
      exact h.bare i a ha
  · obtain ⟨name, cs, hw, hv⟩ := mem_oidEntries.1 he
    obtain ⟨c, rest, rfl, anchor, arcs⟩ := OidValue.ofComponents_eq_ok.1 hv
    obtain ⟨-, x, hx, -, ho⟩ := mem_writtenOids.1 hw
    exact ⟨c, anchor, x, rest, by rw [owners]; exact hx, ho, arcs⟩
  · obtain ⟨x, cs, hx, ho, ha⟩ := written
    rw [owners] at hx
    rw [refused] at kept
    have included : d.isIncluded i := by rw [h.isIncluded_iff hx, kept]; rfl
    refine ⟨_, mem_oidEntries.2 ⟨x.name, c :: cs, ?_, ?_⟩, rfl⟩
    · exact mem_writtenOids.2 ⟨included, x, hx, rfl, ho⟩
    · exact OidValue.ofComponents_eq_ok.2 ⟨c, cs, rfl, rfl, ha⟩

/-- The entries that the sweeps leave over, with the draft and the recorder after them. -/
def sweptOids (d : Draft) (r : Recorder) : List OidEntry × Draft × Recorder :=
  oidRule.run 0 d.oidEntries d.reportOidDefects r

/-- The draft with all OID values settled. -/
def settledOids (d : Draft) (r : Recorder) : Draft :=
  settleLeftOids (d.sweptOids r).1 (d.sweptOids r).2.1

/-- Resolving OIDs is the sweep, then settling the objects. -/
lemma resolveOids_eq (d : Draft) (r : Recorder) :
    (d.resolveOids r).1 = (d.settledOids r).settleObjects := rfl

/-- The sweep assigns OIDs to the entries as far as it can. -/
lemma OidsPending.assigns (h : d.OidsPending) :
    Assigns d.reportOidDefects d.oidEntries (d.sweptOids r).1 (d.sweptOids r).2.1 :=
  assigns_run h.entriesOpen r

/-- What the phase concludes about the entries left over. -/
lemma OidsPending.concludes (h : d.OidsPending) :
    Concludes ((d.sweptOids r).2.1.leftConclusions (d.sweptOids r).1) (d.sweptOids r).2.1
      (d.settledOids r) := by
  have a := h.assigns (r := r)
  have w := h.entriesOpen
  exact concludes_settleLeftOids
    (w.definitions.of_registry a.continues.registry a.continues.strings) _
    (w.nodup.sublist (a.pending.map _))

/-- Degrading by types keeps the headings. -/
lemma heading_degradeByType (mib : Mib) (a : Assignment) :
    (degradeByType mib a).heading = a.heading := by
  unfold degradeByType
  split
  · split <;> rfl
  · rfl

/-- The phase keeps what is registered. -/
lemma OidsPending.continues (h : d.OidsPending) : Continues d (d.resolveOids r).1 := by
  have c := ((concludes_reportOidDefects d).continues.trans h.assigns.continues).trans
    (h.concludes (r := r)).continues
  rw [resolveOids_eq]
  refine c.trans ⟨?_, .refl _⟩
  have e : (d.settledOids r).settleObjects.mib.assignments.map Assignment.heading =
      (d.settledOids r).mib.assignments.map Assignment.heading := by
    simp only [settleObjects, Array.map_map]
    exact Array.map_congr_left fun a _ => heading_degradeByType _ a
  simp only [registry, e]
  rfl

/-- Resolving OIDs keeps the scope. -/
lemma OidsPending.scope (h : d.OidsPending) : (d.resolveOids r).1.scope = d.scope :=
  (h.concludes (r := r)).scope.trans
    (h.assigns.scope.trans (concludes_reportOidDefects d).scope)

/-- Resolving OIDs keeps the types. -/
lemma OidsPending.types (h : d.OidsPending) : (d.resolveOids r).1.mib.types = d.mib.types :=
  (h.concludes (r := r)).types.trans
    (h.assigns.types.trans (concludes_reportOidDefects d).types)

/-- The problems of the phase: the defects, and what was left over. -/
lemma OidsPending.problems (h : d.OidsPending) :
    (d.resolveOids r).1.mib.problems.toList = d.mib.problems.toList ++
      ((d.defectConclusions ++ (d.sweptOids r).2.1.leftConclusions (d.sweptOids r).1).map
        fun c => d.problemAbout c.finding c.assignment) := by
  have reported := concludes_reportOidDefects d
  have a := h.assigns (r := r)
  have left := h.concludes (r := r)
  have same : ∀ f i, (d.sweptOids r).2.1.problemAbout f i = d.problemAbout f i :=
    problemAbout_of_registry (reported.continues.trans a.continues).registry
  rw [resolveOids_eq, show (d.settledOids r).settleObjects.mib.problems.toList = _ from
    left.problems, a.problems, reported.problems, List.map_append, List.append_assoc]
  simp only [same]

/-- Everything that the phase reports is about OIDs. -/
lemma OidsPending.reports (h : d.OidsPending) : Reports .oids d (d.resolveOids r).1 := by
  refine ⟨_, h.problems, fun p hp => ?_⟩
  obtain ⟨c, hc, rfl⟩ := List.mem_map.1 hp
  rcases List.mem_append.1 hc with hc | hc
  · obtain ⟨x, hx, rfl⟩ := List.mem_map.1 hc
    obtain ⟨m, name, cs, defect, -, -, e⟩ := mem_oidDefects.1 hx
    simp only [problemAbout, Finding.toProblem, Problem.ofKind, e]
    cases defect <;> rfl
  · obtain ⟨e, -, rfl⟩ := List.mem_map.1 hc
    simp only [problemAbout, Finding.toProblem, Problem.ofKind]
    cases (d.sweptOids r).2.1.failureOf (d.sweptOids r).1 e with
    | cycle => rfl
    | behindCycle => rfl
    | missing =>
      simp only [failureFinding]
      split <;> rfl

/-- What becomes of an assignment. -/
inductive OidOutcome (d d' : Draft) (i : AssignmentId) (a : Assignment) : Assignment → Prop where
  /-- There is no OID value to resolve. -/
  | untouched (none : a.kind.hasOid = false ∨ d.isRefused i = true) :
    OidOutcome d d' i a (degradeByType d.mib a)
  /-- The OID value has a defect, or its anchor leads nowhere. -/
  | broken (hasOid : a.kind.hasOid) (kept : d.isRefused i = false) (s : ResolutionState)
    (state : s = .unresolved ∨ s = .excluded)
    (reported : ∃ p ∈ d'.mib.problems.toList, p.subject = some i) :
    OidOutcome d d' i a { a with state := s }
  /-- The rules derive an OID. -/
  | assigned (hasOid : a.kind.hasOid) (kept : d.isRefused i = false) (o : Oid)
      (derivable : d.OidDerivable i o) :
    OidOutcome d d' i a (degradeByType d.mib { a with oid := some o, state := .resolved })

/-- Degrading by types depends on the type nodes alone. -/
lemma degradeByType_congr {mib mib' : Mib} (h : mib'.types = mib.types) (a : Assignment) :
    degradeByType mib' a = degradeByType mib a := by
  have e : mib'.type? = mib.type? := by
    funext t
    simp only [Mib.type?, h]
  simp only [degradeByType, e]

/-- Only what is resolved is degraded. -/
lemma degradeByType_of_ne {mib : Mib} {a : Assignment} (h : a.state ≠ .resolved) :
    degradeByType mib a = a := by
  unfold degradeByType
  split
  · rw [if_neg h]
  · rfl

/-- An assignment after the phase is degraded by its type. -/
lemma OidsPending.assignment?_resolveOids (h : d.OidsPending) (i : AssignmentId) :
    (d.resolveOids r).1.mib.assignment? i =
      ((d.settledOids r).mib.assignment? i).map (degradeByType d.mib) := by
  have types : (d.settledOids r).mib.types = d.mib.types := h.types
  have same := funext (degradeByType_congr types)
  rw [resolveOids_eq, settleObjects]
  simp only [Mib.assignment?, Array.getElem?_map, same]

/-- A written OID belongs to an assignment that is not refused, and is the OID of its definition. -/
lemma OidsPending.of_mem_writtenOids (h : d.OidsPending) {i : AssignmentId} {m : ModuleId}
    {name : String} {cs : List OidComponent} (hw : (i, m, name, cs) ∈ d.writtenOids) :
    d.isRefused i = false ∧ ∃ x, d.owner? i = some (m, x) ∧ x.oid? = some cs := by
  obtain ⟨included, x, hx, -, ho⟩ := mem_writtenOids.1 hw
  rw [h.isIncluded_iff hx] at included
  exact ⟨by simpa using included, x, hx, ho⟩

/-- An assignment without an OID value to resolve is left alone until the end of the phase. -/
lemma OidsPending.assignment?_of_not_written (h : d.OidsPending) {i : AssignmentId}
    (none : ∀ m name cs, (i, m, name, cs) ∉ d.writtenOids) :
    (d.settledOids r).mib.assignment? i = d.mib.assignment? i := by
  have a := h.assigns (r := r)
  have entry : ∀ e ∈ d.oidEntries, e.assignment ≠ i := by
    rintro e he rfl
    obtain ⟨name, cs, hw, -⟩ := mem_oidEntries.1 he
    exact none _ _ _ hw
  rw [(h.concludes (r := r)).others, a.others, (concludes_reportOidDefects d).others]
  · rintro c hc rfl
    obtain ⟨x, hx, rfl⟩ := List.mem_map.1 hc
    obtain ⟨m, name, cs, -, hw, -⟩ := mem_oidDefects.1 hx
    exact none _ _ _ hw
  · exact fun e he _ => entry e he
  · intro c hc
    obtain ⟨e, he, rfl⟩ := List.mem_map.1 hc
    exact entry e (a.pending.subset he)

/-- An assignment whose OID value has a defect is unresolved. -/
lemma OidsPending.assignment?_of_defect (h : d.OidsPending) {i : AssignmentId} {f : Finding}
    (hd : (i, f) ∈ d.oidDefects) :
    (d.settledOids r).mib.assignment? i =
      (d.mib.assignment? i).map fun a => { a with state := .unresolved } := by
  have a := h.assigns (r := r)
  obtain ⟨m, name, cs, defect, hw, bad, -⟩ := mem_oidDefects.1 hd
  have entry : ∀ e ∈ d.oidEntries, e.assignment ≠ i := by
    rintro e he rfl
    obtain ⟨name', cs', hw', good⟩ := mem_oidEntries.1 he
    have same := List.inj_on_of_nodup_map d.nodup_writtenOids hw hw' rfl
    obtain rfl : cs = cs' := congrArg (fun w => w.2.2.2) same
    cases good.symm.trans bad
  rw [(h.concludes (r := r)).others, a.others]
  · exact (concludes_reportOidDefects d).concluded ⟨i, f, .unresolved⟩
      (List.mem_map.2 ⟨_, hd, rfl⟩)
  · exact fun e he _ => entry e he
  · intro c hc
    obtain ⟨e, he, rfl⟩ := List.mem_map.1 hc
    exact entry e (a.pending.subset he)

/-- Reporting the defects leaves the entries alone. -/
lemma assignment?_reportOidDefects_of_mem {e : OidEntry} (he : e ∈ d.oidEntries) :
    d.reportOidDefects.mib.assignment? e.assignment = d.mib.assignment? e.assignment := by
  refine (concludes_reportOidDefects d).others _ fun c hc eq => ?_
  obtain ⟨x, hx, rfl⟩ := List.mem_map.1 hc
  obtain ⟨m, name, cs, defect, hw, bad, -⟩ := mem_oidDefects.1 hx
  obtain ⟨name', cs', hw', good⟩ := mem_oidEntries.1 he
  have same := List.inj_on_of_nodup_map d.nodup_writtenOids hw hw' eq
  obtain rfl : cs = cs' := congrArg (fun w => w.2.2.2) same
  cases good.symm.trans bad

/-- An entry that is left over gets the state that its failure has. -/
lemma OidsPending.assignment?_of_left (h : d.OidsPending) {e : OidEntry}
    (he : e ∈ (d.sweptOids r).1) :
    (d.settledOids r).mib.assignment? e.assignment = (d.mib.assignment? e.assignment).map fun a =>
      { a with state := ((d.sweptOids r).2.1.failureOf (d.sweptOids r).1 e).state } := by
  have a := h.assigns (r := r)
  have hes := a.pending.subset he
  have others : (d.sweptOids r).2.1.mib.assignment? e.assignment =
      d.mib.assignment? e.assignment := by
    rw [a.others, assignment?_reportOidDefects_of_mem hes]
    intro e' he' hx eq
    rw [List.inj_on_of_nodup_map d.nodup_oidEntries he' hes eq] at hx
    exact hx he
  rw [← others]
  exact (h.concludes (r := r)).concluded
    ⟨e.assignment, _, ((d.sweptOids r).2.1.failureOf (d.sweptOids r).1 e).state⟩
    (List.mem_map.2 ⟨e, he, rfl⟩)

/-- An entry that is not left over gets an OID that the rules derive. -/
lemma OidsPending.assignment?_of_assigned (h : d.OidsPending) {e : OidEntry}
    (he : e ∈ d.oidEntries) (hx : e ∉ (d.sweptOids r).1) :
    ∃ o, d.OidDerivable e.assignment o ∧ (d.settledOids r).mib.assignment? e.assignment =
      (d.mib.assignment? e.assignment).map fun a =>
        { a with oid := some o, state := .resolved } := by
  have a := h.assigns (r := r)
  have reported := concludes_reportOidDefects d
  obtain ⟨o, ho, eq⟩ := a.assigned e he hx
  refine ⟨o, ho.congr (owner?_of_registry reported.continues.registry).symm reported.scope.symm,
    ?_⟩
  rw [(h.concludes (r := r)).others, eq, assignment?_reportOidDefects_of_mem he]
  intro c hc eq
  obtain ⟨e', he', rfl⟩ := List.mem_map.1 hc
  rw [List.inj_on_of_nodup_map d.nodup_oidEntries (a.pending.subset he') he eq] at he'
  exact hx he'

/-- Every conclusion about a defect or an entry left over becomes a problem of its assignment. -/
lemma OidsPending.exists_problem (h : d.OidsPending) {c : Conclusion}
    (hc : c ∈ d.defectConclusions ++ (d.sweptOids r).2.1.leftConclusions (d.sweptOids r).1) :
    ∃ p ∈ (d.resolveOids r).1.mib.problems.toList, p.subject = some c.assignment := by
  refine ⟨d.problemAbout c.finding c.assignment, ?_, rfl⟩
  rw [h.problems]
  exact List.mem_append_right _ (List.mem_map_of_mem hc)

/-- What fails is unresolved or left out. -/
lemma OidFailure.state_cases (f : OidFailure) : f.state = .unresolved ∨ f.state = .excluded := by
  cases f
  · exact .inr rfl
  · exact .inl rfl
  · exact .inl rfl

/-- What becomes of every assignment in the phase. -/
theorem OidsPending.outcome (h : d.OidsPending) {i : AssignmentId} {a : Assignment}
    (ha : d.mib.assignment? i = some a) :
    ∃ a', (d.resolveOids r).1.mib.assignment? i = some a' ∧
      OidOutcome d (d.resolveOids r).1 i a a' := by
  rw [h.assignment?_resolveOids]
  obtain ⟨x, hx, -, kind, -⟩ := h.definitions.owner ha
  by_cases hn : a.kind.hasOid = false ∨ d.isRefused i = true
  -- The phase works on values that were kept, so this assignment has written nothing.
  · have none : ∀ m name cs, (i, m, name, cs) ∉ d.writtenOids := by
      intro m name cs hw
      obtain ⟨kept, y, hy, ho⟩ := h.of_mem_writtenOids hw
      obtain ⟨-, rfl⟩ : m = a.module ∧ y = x := by simpa using hy.symm.trans hx
      have hasOid := Definition.isSome_oid? y
      rw [ho, ← kind] at hasOid
      rcases hn with hn | hn
      · rw [hn] at hasOid
        cases hasOid
      · rw [hn] at kept
        cases kept
    rw [h.assignment?_of_not_written none, ha]
    exact ⟨_, rfl, .untouched hn⟩
  · obtain ⟨hasOid, kept⟩ : a.kind.hasOid = true ∧ d.isRefused i = false := by
      simpa [not_or] using hn
    obtain ⟨cs, ho⟩ : ∃ cs, x.oid? = some cs := by
      rw [← Option.isSome_iff_exists, Definition.isSome_oid?, ← kind, hasOid]
    have included : d.isIncluded i = true := by rw [h.isIncluded_iff hx, kept]; rfl
    -- A value that was kept is malformed, left over by the sweeps, or assigned in one of them.
    have hw : (i, a.module, x.name, cs) ∈ d.writtenOids :=
      mem_writtenOids.2 ⟨included, x, hx, rfl, ho⟩
    cases hv : OidValue.ofComponents cs with
    | error defect =>
      have hd : (i, defect.finding x.name) ∈ d.oidDefects :=
        mem_oidDefects.2 ⟨_, _, _, defect, hw, hv, rfl⟩
      refine ⟨_, by rw [h.assignment?_of_defect hd, ha]; rfl, ?_⟩
      rw [degradeByType_of_ne (by simp)]
      exact .broken hasOid kept _ (.inl rfl)
        (h.exists_problem (c := ⟨i, _, .unresolved⟩)
          (List.mem_append_left _ (List.mem_map.2 ⟨_, hd, rfl⟩)))
    | ok v =>
      have he : ⟨i, a.module, v⟩ ∈ d.oidEntries := mem_oidEntries.2 ⟨_, _, hw, hv⟩
      by_cases hl : ⟨i, a.module, v⟩ ∈ (d.sweptOids r).1
      · have state := ((d.sweptOids r).2.1.failureOf (d.sweptOids r).1 ⟨i, a.module, v⟩).state_cases
        refine ⟨_, by rw [h.assignment?_of_left hl, ha]; rfl, ?_⟩
        rw [degradeByType_of_ne (by rcases state with e | e <;> simp [e])]
        exact .broken hasOid kept _ state
          (h.exists_problem (List.mem_append_right _ (List.mem_map.2 ⟨_, hl, rfl⟩)))
      · obtain ⟨o, derivable, e⟩ := h.assignment?_of_assigned he hl
        exact ⟨_, by rw [e, ha]; rfl, .assigned hasOid kept o derivable⟩

/-- Degrading by types keeps OIDs. -/
lemma oid_degradeByType (mib : Mib) (a : Assignment) : (degradeByType mib a).oid = a.oid := by
  unfold degradeByType
  split
  · split <;> rfl
  · rfl

/-- Degrading by types keeps types. -/
lemma type_degradeByType (mib : Mib) (a : Assignment) : (degradeByType mib a).type = a.type := by
  unfold degradeByType
  split
  · split <;> rfl
  · rfl

/-- Whatever the rules derive an OID for gets it. -/
theorem OidsPending.exists_oid (h : d.OidsPending) {i : AssignmentId} {o : Oid}
    (derivable : d.OidDerivable i o) (kept : d.isRefused i = false) :
    ∃ a', (d.resolveOids r).1.mib.assignment? i = some a' ∧ a'.oid = some o := by
  have reported := concludes_reportOidDefects d
  have owners := owner?_of_registry reported.continues.registry
  have derivable' : d.reportOidDefects.OidDerivable i o := derivable.congr owners reported.scope
  obtain ⟨e, he, hx, rfl, -⟩ := exists_oid_of_derivable h.entriesOpen r derivable'
    (by rw [isRefused_of_registry reported.continues.registry, kept])
  obtain ⟨o', ho', eq⟩ := h.assignment?_of_assigned (r := r) he hx
  obtain ⟨m, x, hm, -⟩ := derivable.hasOid
  obtain ⟨a, ha, -, -⟩ := h.definitions.exists_assignment hm
  rw [h.assignment?_resolveOids, eq, ha]
  refine ⟨_, rfl, ?_⟩
  rw [oid_degradeByType]
  exact congrArg some (ho'.functional derivable)

end

/-! ## What the sweeps leave over -/

section

variable {d : Draft}

/-- An entry is left over if the rules derive no OID for it. -/
lemma OidsPending.mem_swept_iff (h : d.OidsPending) {r : Recorder} {e : OidEntry} :
    e ∈ (d.sweptOids r).1 ↔ e ∈ d.oidEntries ∧ ∀ o, ¬d.OidDerivable e.assignment o := by
  have a := h.assigns (r := r)
  have reported := concludes_reportOidDefects d
  have owners := owner?_of_registry reported.continues.registry
  constructor
  · intro he
    refine ⟨a.pending.subset he, fun o ho => ?_⟩
    obtain ⟨name, cs, hw, -⟩ := mem_oidEntries.1 (a.pending.subset he)
    obtain ⟨f, hf, hx, same, -⟩ := exists_oid_of_derivable h.entriesOpen r
      (ho.congr owners reported.scope) (by
        rw [isRefused_of_registry reported.continues.registry]
        exact (h.of_mem_writtenOids hw).1)
    rw [List.inj_on_of_nodup_map d.nodup_oidEntries hf (a.pending.subset he) same] at hx
    exact hx he
  · rintro ⟨he, none⟩
    by_contra hx
    obtain ⟨o, ho, -⟩ := a.assigned e he hx
    exact none o (ho.congr owners.symm reported.scope.symm)

/-- What the rules derive an OID for has it after the sweeps. -/
lemma OidsPending.assignment?_swept_of_derivable (h : d.OidsPending) (r : Recorder)
    {i : AssignmentId} {o : Oid} (derivable : d.OidDerivable i o) (kept : d.isRefused i = false) :
    (d.sweptOids r).2.1.mib.assignment? i =
      (d.mib.assignment? i).map fun a => { a with oid := some o, state := .resolved } := by
  have reported := concludes_reportOidDefects d
  have owners := owner?_of_registry reported.continues.registry
  obtain ⟨e, he, hx, rfl, -⟩ := exists_oid_of_derivable h.entriesOpen r
    (derivable.congr owners reported.scope)
    (by rw [isRefused_of_registry reported.continues.registry, kept])
  obtain ⟨o', ho', eq⟩ := h.assigns.assigned e he hx
  have same := (ho'.congr owners.symm reported.scope.symm).functional derivable
  rw [eq, same, assignment?_reportOidDefects_of_mem he]

/-- The sweeps change nothing about what the rules derive no OID for. -/
lemma OidsPending.assignment?_swept_of_underivable (h : d.OidsPending) (r : Recorder)
    {i : AssignmentId} (none : ∀ o, ¬d.OidDerivable i o) :
    (d.sweptOids r).2.1.mib.assignment? i = d.reportOidDefects.mib.assignment? i := by
  have reported := concludes_reportOidDefects d
  refine h.assigns.others i ?_
  rintro e he hx rfl
  obtain ⟨o, ho, -⟩ := h.assigns.assigned e he hx
  exact none o
    (ho.congr (owner?_of_registry reported.continues.registry).symm reported.scope.symm)

end

end MibCorpus.Draft
