import MibCorpus.Proofs.OidEntries
import MibCorpus.Proofs.Scope
import MibCorpus.Proofs.Sweep

/-!
# What resolving OID values does

The sweeps give entries the OIDs that the rules derive, and leave none over that the rules derive
an OID for: an entry whose anchor has its OID could still be decided. What has a defect or is left
over is reported and gets its state.
-/

namespace MibCorpus.Draft

/-! ## Concluding -/

/-- What is concluded about an assignment: what to report and its state. -/
structure Conclusion where
  assignment : AssignmentId
  finding : Finding
  state : ResolutionState

/-- The draft after a conclusion. -/
def conclude (d : Draft) (c : Conclusion) : Draft :=
  (d.reportAbout c.finding c.assignment).setState c.assignment c.state

/-- What some conclusions about distinct assignments do to a draft. -/
structure Concludes (cs : List Conclusion) (d d' : Draft) : Prop where
  continues : Continues d d'
  scope : d'.scope = d.scope
  types : d'.mib.types = d.mib.types
  problems : d'.mib.problems.toList = d.mib.problems.toList ++
    cs.map fun c => d.problemAbout c.finding c.assignment
  concluded : ∀ c ∈ cs, d'.mib.assignment? c.assignment =
    (d.mib.assignment? c.assignment).map fun a => { a with state := c.state }
  others : ∀ i, (∀ c ∈ cs, c.assignment ≠ i) → d'.mib.assignment? i = d.mib.assignment? i

/-- An assignment after the state of one has been decided. -/
lemma assignment?_setState (d : Draft) (a i : AssignmentId) (s : ResolutionState) :
    (d.setState a s).mib.assignment? i =
      if a = i then (d.mib.assignment? i).map fun x => { x with state := s }
      else d.mib.assignment? i :=
  d.mib.assignment?_modifyAssignment ..

/-- Conclusions are drawn one by one. -/
lemma concludes_foldl (cs : List Conclusion) (d : Draft)
    (nodup : (cs.map (·.assignment)).Nodup) : Concludes cs d (cs.foldl conclude d) := by
  induction cs generalizing d with
  | nil => exact ⟨.refl d, rfl, rfl, by simp, by simp, fun _ _ => rfl⟩
  | cons c cs ih =>
    simp only [List.map_cons, List.nodup_cons] at nodup
    have head : Continues d (d.conclude c) := ⟨by simp [conclude], .refl _⟩
    have at_i : ∀ i, (d.conclude c).mib.assignment? i =
        if c.assignment = i then (d.mib.assignment? i).map fun a => { a with state := c.state }
        else d.mib.assignment? i :=
      fun i => assignment?_setState _ _ _ _
    have tail := ih (d.conclude c) nodup.2
    -- No assignment is concluded about twice, so the first conclusion survives the others.
    refine ⟨head.trans tail.continues, tail.scope, tail.types, ?_, ?_, ?_⟩
    · have same : ∀ f a, (d.conclude c).problemAbout f a = d.problemAbout f a :=
        fun f a => problemAbout_of_registry head.registry f a
      rw [List.foldl_cons, tail.problems]
      simp only [same, List.map_cons]
      simp [conclude, setState, Mib.setState, Mib.modifyAssignment, reportAbout_eq_record, record,
        Mib.record]
    · intro e he
      rcases List.mem_cons.1 he with rfl | he
      · have apart : ∀ c' ∈ cs, c'.assignment ≠ e.assignment :=
          fun c' hc' same => nodup.1 (same ▸ List.mem_map_of_mem hc')
        rw [List.foldl_cons, tail.others _ apart, at_i, if_pos rfl]
      · have ne : c.assignment ≠ e.assignment :=
          fun same => nodup.1 (same ▸ List.mem_map_of_mem he)
        rw [List.foldl_cons, tail.concluded e he, at_i, if_neg ne]
    · intro i hi
      have apart : ∀ c' ∈ cs, c'.assignment ≠ i :=
        fun c' hc' => hi c' (List.mem_cons_of_mem _ hc')
      rw [List.foldl_cons, tail.others i apart, at_i, if_neg (hi c (List.mem_cons_self ..))]

/-- The conclusions from the defects of written OID values. -/
def defectConclusions (d : Draft) : List Conclusion :=
  d.oidDefects.map fun x => ⟨x.1, x.2, .unresolved⟩

/-- Reporting the defects is drawing the conclusions from them. -/
lemma concludes_reportOidDefects (d : Draft) :
    Concludes d.defectConclusions d d.reportOidDefects := by
  have nodup : (d.defectConclusions.map (·.assignment)).Nodup := by
    rw [defectConclusions, List.map_map]
    exact d.nodup_oidDefects
  have h := concludes_foldl d.defectConclusions d nodup
  rw [defectConclusions, List.foldl_map] at h
  exact h

/-- The conclusions about the entries that the sweeps leave over. -/
def leftConclusions (d : Draft) (remaining : List OidEntry) : List Conclusion :=
  remaining.map fun e =>
    let failure := d.failureOf remaining e
    ⟨e.assignment, d.failureFinding e failure, failure.state⟩

/-- Settling what is left over is drawing the conclusions about it. -/
lemma concludes_settleLeftOids {d : Draft} (h : d.DefinitionsRegistered)
    (remaining : List OidEntry) (nodup : (remaining.map (·.assignment)).Nodup) :
    Concludes (d.leftConclusions remaining) d (settleLeftOids remaining d) := by
  have each : ∀ (xs : List (OidEntry × OidFailure)) (d' : Draft), Continues d d' →
      xs.foldl (fun d x => (d.reportAbout (d.failureFinding x.1 x.2) x.1.assignment).setState
        x.1.assignment x.2.state) d' =
      (xs.map fun x => ⟨x.1.assignment, d.failureFinding x.1 x.2, x.2.state⟩).foldl conclude
        d' := by
    intro xs
    induction xs with
    | nil => exact fun _ _ => rfl
    | cons x xs ih =>
      intro d' c
      -- A finding names assignments only, and these keep their names.
      have named : d'.failureFinding x.1 x.2 = d.failureFinding x.1 x.2 := by
        unfold failureFinding
        simp only [h.nameOf_of_continues c]
      rw [List.map_cons, List.foldl_cons, List.foldl_cons, named]
      exact ih _ (c.trans ⟨by simp, .refl _⟩)
  have nodup' : ((d.leftConclusions remaining).map (·.assignment)).Nodup := by
    simpa [leftConclusions, Function.comp_def] using nodup
  have drawn := concludes_foldl (d.leftConclusions remaining) d nodup'
  rw [settleLeftOids, each _ d (.refl d), List.map_map]
  exact drawn

/-! ## Sweeps -/

/-- The entries are the values written in a draft in which nothing has an OID yet. -/
structure EntriesOpen (d : Draft) (es : List OidEntry) : Prop where
  definitions : d.DefinitionsRegistered
  nodup : (es.map (·.assignment)).Nodup
  bare : ∀ i a, d.mib.assignment? i = some a → a.oid = none
  written : ∀ e ∈ es, ∃ c, e.value.anchor = OidValue.anchorOf c ∧
    d.WrittenAs e.assignment e.module c e.value.arcs
  complete : ∀ i m c arcs, d.WrittenAs i m c arcs → d.isRefused i = false →
    ∃ e ∈ es, e = ⟨i, m, OidValue.anchorOf c, arcs⟩

/-- Draft `d'` comes from `d` by giving those of the entries `es` that are not in `xs` OIDs that the
rules derive. -/
structure Assigns (d : Draft) (es xs : List OidEntry) (d' : Draft) : Prop where
  continues : Continues d d'
  scope : d'.scope = d.scope
  types : d'.mib.types = d.mib.types
  problems : d'.mib.problems = d.mib.problems
  pending : xs.Sublist es
  assigned : ∀ e ∈ es, e ∉ xs → ∃ o, d.OidDerivable e.assignment o ∧
    d'.mib.assignment? e.assignment =
      (d.mib.assignment? e.assignment).map fun a => { a with oid := some o, state := .resolved }
  others : ∀ i, (∀ e ∈ es, e ∉ xs → e.assignment ≠ i) →
    d'.mib.assignment? i = d.mib.assignment? i

section Sweeps

variable {d d' : Draft} {es xs : List OidEntry}

/-- With every entry left, nothing is assigned. -/
lemma Assigns.refl (d : Draft) (es : List OidEntry) : Assigns d es es d :=
  ⟨.refl d, rfl, rfl, rfl, .refl _, fun _ h h' => absurd h h', fun _ _ => rfl⟩

/-- An assignment after one has been given its OID. -/
lemma assignment?_assignOid (d : Draft) (e : OidEntry) (o : Oid) (i : AssignmentId) :
    (d.assignOid e o).mib.assignment? i =
      if e.assignment = i then (d.mib.assignment? i).map fun a =>
        { a with oid := some o, state := .resolved }
      else d.mib.assignment? i :=
  d.mib.assignment?_modifyAssignment ..

/-- One more entry is given an OID. -/
lemma Assigns.assign (h : Assigns d es xs d') (nodup : (es.map (·.assignment)).Nodup)
    {e : OidEntry} (he : e ∈ xs) {o : Oid} (ho : d.OidDerivable e.assignment o) :
    Assigns d es (xs.filter (· ≠ e)) (d'.assignOid e o) where
  continues := h.continues.trans ⟨registry_modifyAssignment _ _ _ fun _ => rfl, .refl _⟩
  scope := h.scope
  types := h.types
  problems := h.problems
  pending := List.filter_sublist.trans h.pending
  assigned f hf hfx := by
    rw [assignment?_assignOid]
    by_cases same : f = e
    · subst same
      have was : d'.mib.assignment? f.assignment = d.mib.assignment? f.assignment := by
        refine h.others _ fun g hg hgx eq => hgx ?_
        rw [List.inj_on_of_nodup_map nodup hg hf eq]
        exact he
      exact ⟨o, ho, by rw [if_pos rfl, was]⟩
    · have ne : e.assignment ≠ f.assignment := fun eq =>
        same (List.inj_on_of_nodup_map nodup hf (h.pending.subset he) eq.symm)
      rw [if_neg ne]
      exact h.assigned f hf fun hf' => hfx (List.mem_filter.2 ⟨hf', by simpa using same⟩)
  others i hi := by
    have ne : e.assignment ≠ i :=
      hi e (h.pending.subset he) fun he' => by simp at he'
    rw [assignment?_assignOid, if_neg ne]
    refine h.others i fun f hf hfx => hi f hf fun hf' => hfx (List.mem_filter.1 hf').1

/-- Several entries are given OIDs. -/
lemma Assigns.foldl (h : Assigns d es xs d') (nodup : (es.map (·.assignment)).Nodup)
    (ds : List (OidEntry × Oid)) (sub : ∀ x ∈ ds, x.1 ∈ xs) (distinct : (ds.map Prod.fst).Nodup)
    (derivable : ∀ x ∈ ds, d.OidDerivable x.1.assignment x.2) :
    Assigns d es (xs.filter (· ∉ ds.map Prod.fst)) (ds.foldl (fun d x => d.assignOid x.1 x.2) d')
      := by
  induction ds generalizing xs d' with
  | nil => simpa using h
  | cons x ds ih =>
    simp only [List.map_cons, List.nodup_cons] at distinct
    have first := h.assign nodup (sub x (List.mem_cons_self ..))
      (derivable x (List.mem_cons_self ..))
    have sub' : ∀ y ∈ ds, y.1 ∈ xs.filter (· ≠ x.1) := by
      intro y hy
      have ne : y.1 ≠ x.1 := fun eq => distinct.1 (eq ▸ List.mem_map_of_mem hy)
      exact List.mem_filter.2 ⟨sub y (List.mem_cons_of_mem _ hy), by simpa using ne⟩
    have rest := ih first sub' distinct.2 fun y hy => derivable y (List.mem_cons_of_mem _ hy)
    have e : (xs.filter (· ≠ x.1)).filter (· ∉ ds.map Prod.fst) =
        xs.filter (· ∉ (x :: ds).map Prod.fst) := by
      rw [List.filter_filter]
      refine List.filter_congr fun s _ => ?_
      rw [List.map_cons]
      by_cases hs : s = x.1 <;> simp [hs]
    rw [← e]
    exact rest

/-- Whatever has an OID is an entry that is no longer pending. -/
lemma Assigns.exists_entry_of_oid (h : Assigns d es xs d') (w : EntriesOpen d es)
    {y : AssignmentId} {a : Assignment} {p : Oid} (ha : d'.mib.assignment? y = some a)
    (hp : a.oid = some p) : ∃ e ∈ es, e ∉ xs ∧ e.assignment = y := by
  by_contra none
  have was := h.others y fun e he hex eq => none ⟨e, he, hex, eq⟩
  rw [ha] at was
  rw [w.bare y a was.symm] at hp
  cases hp

/-- Whatever has an OID, the rules derive it. -/
lemma Assigns.derivable (h : Assigns d es xs d') (w : EntriesOpen d es) {y : AssignmentId}
    {a : Assignment} {p : Oid} (ha : d'.mib.assignment? y = some a) (hp : a.oid = some p) :
    d.OidDerivable y p := by
  obtain ⟨e, he, hex, rfl⟩ := h.exists_entry_of_oid w ha hp
  obtain ⟨o, ho, eq⟩ := h.assigned e he hex
  rw [ha] at eq
  obtain ⟨b, -, rfl⟩ := Option.map_eq_some_iff.1 eq.symm
  cases hp
  exact ho

/-- What an entry is decided to be, the rules derive. -/
lemma Assigns.derivable_of_readyOid? (h : Assigns d es xs d') (w : EntriesOpen d es)
    {e : OidEntry} (he : e ∈ es) {o : Oid} (ho : d'.readyOid? e = some o) :
    d.OidDerivable e.assignment o := by
  obtain ⟨c, anchor, written⟩ := w.written e he
  unfold readyOid? at ho
  split at ho
  next p hp =>
    cases ho
    -- The anchor tells which rule applies, and the base is ready by the premise of that rule.
    rcases c.arc_or_reference with ⟨n, hn⟩ | ⟨q, n, hn⟩
    · rw [anchor, OidValue.anchorOf_of_arc? hn] at hp
      cases hp
      exact .arc written hn
    · rw [anchor, OidValue.anchorOf_of_reference? hn] at hp
      unfold baseOf at hp
      simp only [h.scope] at hp
      split at hp
      next y hy =>
        unfold baseOfAssignment at hp
        split at hp
        · cases hp
        next a ha =>
          split at hp
          next p' hp' =>
            cases hp
            exact .named written hn hy (h.derivable w ha hp')
          next => split at hp <;> cases hp
      next => cases hp
      next notFound =>
        split at hp
        next root hr =>
          cases hp
          exact .root written hn notFound hr
        next => cases hp
  next => cases ho
  next => cases ho

/-- A sweep gives entries OIDs that the rules derive. -/
lemma Assigns.sweep (h : Assigns d es xs d') (w : EntriesOpen d es) :
    Assigns d es (oidRule.undecided d' xs) (oidRule.sweep d' xs) := by
  have fsts : (oidRule.decided d' xs).map Prod.fst = xs.filter fun e => (d'.readyOid? e).isSome :=
    oidRule.map_fst_decided d' xs
  have sub : ∀ x ∈ oidRule.decided d' xs, x.1 ∈ xs := fun x hx => (oidRule.mem_decided.1 hx).1
  have distinct : ((oidRule.decided d' xs).map Prod.fst).Nodup := by
    rw [fsts]
    exact ((List.Nodup.of_map _ w.nodup).sublist h.pending).filter _
  have derivable : ∀ x ∈ oidRule.decided d' xs, d.OidDerivable x.1.assignment x.2 :=
    fun x hx =>
      h.derivable_of_readyOid? w (h.pending.subset (sub x hx)) (oidRule.mem_decided.1 hx).2
  have swept := h.foldl w.nodup _ sub distinct derivable
  have e : xs.filter (· ∉ (oidRule.decided d' xs).map Prod.fst) = oidRule.undecided d' xs := by
    refine List.filter_congr fun x hx => ?_
    rw [fsts]
    cases hd : d'.readyOid? x <;> simp [List.mem_filter, hx, oidRule, hd]
  rw [← e]
  exact swept

/-- A run of sweeps assigns OIDs as far as it can. -/
lemma assigns_run (w : EntriesOpen d es) (r : Recorder) :
    Assigns d es (oidRule.run 0 es d r).1 (oidRule.run 0 es d r).2.1 :=
  oidRule.run_invariant (P := fun xs d' => Assigns d es xs d') (fun _ _ h => h.sweep w) 0 r
    (.refl d es)

/-- No entry is left over that the rules derive an OID for. -/
lemma exists_oid_of_derivable (w : EntriesOpen d es) (r : Recorder) {i : AssignmentId} {o : Oid}
    (h : d.OidDerivable i o) (kept : d.isRefused i = false) :
    ∃ e ∈ es, e ∉ (oidRule.run 0 es d r).1 ∧ e.assignment = i ∧
      ∃ a, (oidRule.run 0 es d r).2.1.mib.assignment? i = some a ∧ a.oid = some o := by
  have run := assigns_run w r
  set xs := (oidRule.run 0 es d r).1 with hxs
  set d' := (oidRule.run 0 es d r).2.1 with hd'
  -- An entry whose anchor has its OID is decided, so it is none of those left over.
  have settled : ∀ {i m c arcs p}, d.WrittenAs i m c arcs → d.isRefused i = false →
      d.OidDerivable i (Oid.extend p arcs) → d'.baseOf m (OidValue.anchorOf c) = .ready p →
      ∃ e ∈ es, e ∉ xs ∧ e.assignment = i ∧
        ∃ a, d'.mib.assignment? i = some a ∧ a.oid = some (p.extend arcs) := by
    intro i m c arcs p written kept derivable base
    obtain ⟨e, he, rfl⟩ := w.complete i m c arcs written kept
    have decided : OidEntry.mk i m ⟨OidValue.anchorOf c, arcs⟩ ∉ xs := by
      intro hex
      have undecided := oidRule.decide?_of_mem_run 0 es d r hex
      rw [← hd', show oidRule.decide? = readyOid? from rfl, readyOid?, base] at undecided
      cases undecided
    refine ⟨_, he, decided, rfl, ?_⟩
    obtain ⟨o', ho', e⟩ := run.assigned _ he decided
    obtain ⟨x, cs, hx, -, -⟩ := written
    obtain ⟨b, hb, -, -⟩ := w.definitions.exists_assignment hx
    simp only [hb, Option.map_some] at e
    exact ⟨_, e, congrArg some (ho'.functional derivable)⟩
  have whole := h
  induction h with
  | arc written first =>
    exact settled written kept whole (by rw [OidValue.anchorOf_of_arc? first]; rfl)
  | named written first found parent ih =>
    refine settled written kept whole ?_
    obtain ⟨s, hs⟩ := Scope.exists_lookup?_of_resolveFrom found
    obtain ⟨-, -, -, -, a, ha, hp⟩ := ih (w.definitions.not_isRefused_of_lookup? hs) parent
    rw [OidValue.anchorOf_of_reference? first]
    unfold baseOf
    simp only [run.scope, found, baseOfAssignment, ha, hp]
  | root written first notFound intrinsic =>
    refine settled written kept whole ?_
    rw [OidValue.anchorOf_of_reference? first]
    unfold baseOf
    simp only [run.scope, notFound, intrinsic]

end Sweeps

end MibCorpus.Draft
