import MibCorpus.Proofs.Courses
import MibCorpus.Proofs.Settled
import MibCorpus.Proofs.Transcript

/-!
# Monotone runs

Typing and the OID phase write without looking at what was there: a reference is bound, and a state
or an OID is set, because it stands on a worklist. Nothing stands there twice, and what stands there
is open: a noted reference waits for its target, and an assignment with a written OID value is
pending and has no OID. So these phases are courses as well, and between any two points of a run
nothing is undone.
-/

namespace MibCorpus

namespace Draft

variable {d : Draft}

/-! ## States of all assignments -/

/-- The draft with the states of all assignments decided. -/
def restateAll (d : Draft) (s : Assignment → ResolutionState) : Draft :=
  { d with mib := { d.mib with assignments := d.mib.assignments.map (·.inState s) } }

/-- The assignments by identifier. -/
def assignmentIds (d : Draft) : List AssignmentId := (List.range d.mib.assignments.size).map .mk

/-- The points at which the states of all assignments are decided one by one. -/
def restatePoints (d : Draft) (s : Assignment → ResolutionState) : List Draft :=
  trail (fun d i => [d.restate s i]) (restate s) d.assignmentIds d

/-- Restating an assignment settles it once, and the state only goes forward. -/
lemma settling_restate (s : Assignment → ResolutionState) :
    Settling (Forward s) (fun i => i) (fun d i => [d.restate s i]) (restate s) where
  course forward := .single (.restate s _ forward)
  others {d i k} apart forward a ha := by
    rw [restate, Mib.assignment?_modifyAssignment, if_neg apart] at ha
    exact forward a ha

/-- Changing the first entries of an array one by one changes each of them once. -/
lemma getElem?_foldl_modify {α : Type} (f : α → α) (n : Nat) (as : Array α) (j : Nat) :
    ((List.range n).foldl (fun as i => as.modify i f) as)[j]? =
      if j < n then as[j]?.map f else as[j]? := by
  induction n with
  | zero => simp
  | succ n ih =>
    rw [List.range_succ, List.foldl_append, List.foldl_cons, List.foldl_nil,
      Array.getElem?_modify, ih]
    rcases Nat.lt_trichotomy j n with lt | rfl | gt
    · rw [if_neg (Nat.ne_of_gt lt), if_pos lt, if_pos (Nat.lt_succ_of_lt lt)]
    · simp
    · rw [if_neg (Nat.ne_of_lt gt), if_neg (Nat.lt_asymm gt), if_neg (by omega)]

/-- Changing the entries one by one changes them all. -/
lemma foldl_modify {α : Type} (f : α → α) (as : Array α) :
    (List.range as.size).foldl (fun as i => as.modify i f) as = as.map f := by
  refine Array.ext_getElem? fun j => ?_
  rw [getElem?_foldl_modify, Array.getElem?_map]
  split
  next => rfl
  next out => rw [Array.getElem?_eq_none (Nat.le_of_not_lt out), Option.map_none]

/-- Deciding the states one by one decides them all. -/
lemma foldl_restate (d : Draft) (s : Assignment → ResolutionState) :
    d.assignmentIds.foldl (restate s) d = d.restateAll s := by
  have each : ∀ (is : List Nat) (d : Draft), (is.map Ident.mk).foldl (restate s) d = { d with
      mib := { d.mib with
        assignments := is.foldl (fun as i => as.modify i (·.inState s)) d.mib.assignments } } := by
    intro is
    induction is with
    | nil => exact fun _ => rfl
    | cons i is ih => exact fun d => ih (d.restate s ⟨i⟩)
  rw [assignmentIds, each, foldl_modify]
  rfl

/-- Restating all assignments goes through the points after each of them. -/
lemma course_restateAll {s : Assignment → ResolutionState}
    (forward : ∀ a : Assignment, a.state.LeadsTo (s a)) :
    Course d (d.restatePoints s) (d.restateAll s) := by
  have nodup : (d.assignmentIds.map fun i => i).Nodup := by
    rw [List.map_id', assignmentIds]
    exact List.nodup_range.map fun _ _ e => congrArg Ident.index e
  rw [← foldl_restate]
  exact ((settling_restate s).foldl nodup fun _ _ a _ => forward a).1

/-! ## Typing -/

/-- Binding a reference leaves the others waiting. -/
lemma Waiting.bindReference {t : TypeId} (h : d.Waiting t) {r : PendingReference}
    (apart : r.node ≠ t) (target : TypeTarget) : (d.bindReference r target).Waiting t := by
  intro n hn
  rw [type?_bindReference, if_neg apart] at hn
  exact h n hn

/-- Binding a reference settles its node once. -/
lemma settling_referenceRule : Settling Waiting (fun x : PendingReference × TypeTarget => x.1.node)
    (fun d x => [referenceRule.apply d x.1 x.2]) fun d x => referenceRule.apply d x.1 x.2 where
  course waiting := .single (.bind _ _ waiting)
  others apart waiting := waiting.bindReference apart _

/-- Carrying out a verdict settles its node once. -/
lemma settling_carryOut :
    Settling Waiting (fun v : Judged => v.1.node) (fun d v => [d.carryOut v]) carryOut where
  course {d v} waiting := by
    obtain ⟨r, verdict⟩ := v
    cases verdict with
    | ok target => exact .single (.bind r target waiting)
    | error f => exact .single (.record _)
  others {d v k} apart waiting := by
    obtain ⟨r, verdict⟩ := v
    cases verdict with
    | ok target => exact waiting.bindReference apart target
    | error f => exact waiting

/-- The state that the end of typing gives an assignment. -/
def typedState (mib : Mib) (a : Assignment) : ResolutionState :=
  if a.kind.isType && a.state == .pending then typeState mib a else a.state

/-- The points of typing: what is lowered, bound in a sweep, settled behind the sweeps, and
decided about nodes and assignments. -/
def typingPoints (d : Draft) (r : Recorder) : List Draft :=
  let nodesSettled := (d.boundDraft r).settleTypes
  Lowering.lowerAllPoints d ++ referenceRule.points d.noted d.lowered ++
    trail (fun d v => [d.carryOut v]) carryOut ((d.swept r).2.1.verdicts (d.swept r).1)
      (d.swept r).2.1 ++
    nodesSettled :: nodesSettled.restatePoints (typedState nodesSettled.mib)

/-- Settling the states of types disturbs nothing that a point shows. -/
lemma undisturbed_settleTypes (d : Draft) : d.mib.Undisturbed d.settleTypes.mib := by
  have same : d.settleTypes.mib.shapes = d.mib.shapes := by
    refine congrArg Array.toList (Array.ext_getElem? fun i => ?_)
    rw [Array.getElem?_map, Array.getElem?_map,
      show d.settleTypes.mib.types[i]? = _ from TypeStates.getElem?_settle d.mib.types i,
      Option.map_map]
    rfl
  exact ⟨rfl, same ▸ List.prefix_refl _, rfl⟩

/-- Assignments take states from their types by being restated one by one. -/
lemma settleTypeAssignments_eq (d : Draft) :
    d.settleTypeAssignments = d.restateAll (typedState d.mib) := by
  have same : ∀ a : Assignment, (if a.kind.isType && a.state == .pending
      then { a with state := typeState d.mib a } else a) = a.inState (typedState d.mib) := by
    intro a
    unfold Assignment.inState typedState
    split <;> rfl
  simp only [settleTypeAssignments, same]
  rfl

/-- The state that an assignment takes from its type does not go back. -/
lemma leadsTo_typedState (mib : Mib) (a : Assignment) : a.state.LeadsTo (typedState mib a) := by
  unfold typedState
  split
  next pending =>
    simp only [Bool.and_eq_true, beq_iff_eq] at pending
    exact .of_pending pending.2 _
  next => exact .refl _

/-- Typing is a course. -/
lemma course_resolveTypes (h : d.DefinitionsRegistered) (bare : d.mib.types = #[]) (r : Recorder) :
    Course d (d.typingPoints r) (d.resolveTypes r).1 := by
  have waiting : ∀ p ∈ d.noted, d.lowered.Waiting p.node := by
    intro p hp n hn
    obtain ⟨-, -, -, -, m, hm, -, shape⟩ := type?_of_mem_noted h bare hp
    obtain rfl := Option.some.inj (hm.symm.trans hn)
    rw [shape]
    rfl
  have distinct := nodup_noted h bare
  obtain ⟨swept, left, still⟩ :=
    referenceRule.course_run settling_referenceRule 0 r distinct waiting
  have judged := settling_carryOut.foldl_judged
    ((d.swept r).2.1.judgeReference (d.swept r).1) (distinct.sublist (left.map _)) still
  have settled : Course (d.swept r).2.1 (trail (fun d v => [d.carryOut v]) carryOut
      ((d.swept r).2.1.verdicts (d.swept r).1) (d.swept r).2.1) (d.boundDraft r) := by
    rw [boundDraft, settleLeftReferences_eq]
    exact judged
  have bound := ((Lowering.course_lowerAll d).append swept).append settled
  rw [resolveTypes_eq, settleTypeAssignments_eq]
  exact bound.append (.cons (.aside (undisturbed_settleTypes _))
    (course_restateAll (leadsTo_typedState _)))

/-! ## OIDs -/

/-- The points at which something about an assignment is concluded: it is reported, and the state is
decided. -/
def concludePoints {α : Type} (finding : Draft → α → Finding) (subject : α → AssignmentId)
    (state : α → ResolutionState) (d : Draft) (x : α) : List Draft :=
  let reported := d.reportAbout (finding d x) (subject x)
  [reported, reported.setState (subject x) (state x)]

/-- Reporting something about an assignment and setting its state settles it once. -/
lemma settling_conclude {α : Type} (finding : Draft → α → Finding) (subject : α → AssignmentId)
    (state : α → ResolutionState) :
    Settling Undecided subject (concludePoints finding subject state) fun d x =>
      (d.reportAbout (finding d x) (subject x)).setState (subject x) (state x) where
  course {d x} undecided := by
    refine .cons (.record _) (.single (.restate (fun _ => state x) (subject x) fun a ha => ?_))
    exact .of_pending (undecided a ha).1 _
  others {d x k} apart undecided a ha := by
    rw [assignment?_setState, if_neg apart] at ha
    exact undecided a ha

/-- Deciding about an entry settles its assignment once. -/
lemma settling_oidRule : Settling Undecided (fun x : OidEntry × Oid => x.1.assignment)
    (fun d x => [oidRule.apply d x.1 x.2]) fun d x => oidRule.apply d x.1 x.2 where
  course undecided := .single (.assign _ _ undecided)
  others {d x k} apart undecided a ha := by
    rw [show oidRule.apply d x.1 x.2 = d.assignOid x.1 x.2 from rfl, assignment?_assignOid,
      if_neg apart] at ha
    exact undecided a ha

/-- The points of the OID phase: the defects, the sweeps, what they leave over, and the objects. -/
def numberingPoints (d : Draft) (r : Recorder) : List Draft :=
  let (left, swept, _) := d.sweptOids r
  trail (concludePoints (fun _ x => x.2) Prod.fst fun _ => .unresolved)
      (fun d x => (d.reportAbout x.2 x.1).setState x.1 .unresolved) d.oidDefects d ++
    oidRule.points d.oidEntries d.reportOidDefects ++
    trail (concludePoints (fun d x => d.failureFinding x.1 x.2) (·.1.assignment) (·.2.state))
      (fun d x => (d.reportAbout (d.failureFinding x.1 x.2) x.1.assignment).setState
        x.1.assignment x.2.state) (left.map fun e => (e, swept.failureOf left e)) swept ++
    (d.settledOids r).restatePoints fun a => (degradeByType (d.settledOids r).mib a).state

/-- What has a written OID value is pending and has no OID. -/
lemma OidsPending.undecided (h : d.OidsPending) {i : AssignmentId} {m : ModuleId} {name : String}
    {cs : List OidComponent} (hw : (i, m, name, cs) ∈ d.writtenOids) : d.Undecided i := by
  intro a ha
  obtain ⟨kept, x, hx, ho⟩ := h.of_mem_writtenOids hw
  obtain ⟨b, hb, -, kind⟩ := h.definitions.exists_assignment hx
  obtain rfl := Option.some.inj (hb.symm.trans ha)
  have hasOid : b.kind.hasOid := by
    rw [kind, ← Definition.isSome_oid?, ho]
    rfl
  exact ⟨h.pending i b hb hasOid kept, h.bare i b hb⟩

/-- Degrading an assignment by its type does not go back. -/
lemma leadsTo_degradeByType (mib : Mib) (a : Assignment) :
    a.state.LeadsTo (degradeByType mib a).state := by
  unfold degradeByType
  split
  · split
    · exact ResolutionState.leadsTo_degradeBy _ _
    · exact .refl _
  · exact .refl _

/-- Assignments with a type are degraded by being restated one by one. -/
lemma settleObjects_eq (d : Draft) :
    d.settleObjects = d.restateAll fun a => (degradeByType d.mib a).state := by
  rw [settleObjects, funext (degradeByType_eq d.mib)]
  rfl

/-- The OID phase is a course. -/
lemma OidsPending.course (h : d.OidsPending) (r : Recorder) :
    Course d (d.numberingPoints r) (d.resolveOids r).1 := by
  have defective : ∀ x ∈ d.oidDefects, d.Undecided x.1 := by
    rintro ⟨i, f⟩ hx
    obtain ⟨m, name, cs, -, hw, -⟩ := mem_oidDefects.1 hx
    exact h.undecided hw
  have reported := ((settling_conclude (fun _ (x : AssignmentId × Finding) => x.2) Prod.fst
    fun _ => .unresolved).foldl d.nodup_oidDefects defective).1
  have entries : ∀ e ∈ d.oidEntries, d.reportOidDefects.Undecided e.assignment := by
    intro e he a ha
    rw [assignment?_reportOidDefects_of_mem he] at ha
    obtain ⟨name, cs, hw, -⟩ := mem_oidEntries.1 he
    exact h.undecided hw a ha
  obtain ⟨swept, left, still⟩ :=
    oidRule.course_run settling_oidRule 0 r d.nodup_oidEntries entries
  have settled := (settling_conclude
    (fun d (x : OidEntry × OidFailure) => d.failureFinding x.1 x.2) (·.1.assignment)
    (·.2.state)).foldl_judged ((d.sweptOids r).2.1.failureOf (d.sweptOids r).1)
    (d.nodup_oidEntries.sublist (left.map _)) still
  rw [resolveOids_eq, settleObjects_eq]
  exact ((reported.append swept).append settled).append
    (course_restateAll (leadsTo_degradeByType _))

/-! ## The tree -/

/-- The points of the last phase: the conflicts, and the tree. -/
def finalizationPoints (d : Draft) : List Draft :=
  trail (fun e c => e.recordPoints (e.claimProblems c)) reportClaim d.claims d ++ [d.finalize]

/-- The last phase is a course. -/
lemma course_finalize (d : Draft) : Course d d.finalizationPoints d.finalize := by
  have reported := course_trail id d.claims d (f := reportClaim) fun t c => by
    rw [reportClaim_eq]
    exact course_recordAll t _
  have built := TreeBuilder.foliage_build (d.claims.foldl reportClaim d).mib d.claims
  refine reported.concat (.aside (.of_eq ?_ ?_ ?_))
  · exact congrArg Foliage.assignments built
  · exact congrArg Foliage.types built
  · exact congrArg Foliage.problems built

/-! ## Runs -/

section Runs

variable (policy : Policy) (files : List ParsedFile)

/-- The points of a run, phase by phase, from the draft without modules. -/
def runPoints : List Draft :=
  .new policy :: (registrationPoints (.new policy) files (.new .error) ++
    ((registered policy files).linkPoints ++ ((linked policy files).typingPoints (.new .error) ++
      ((typed policy files).numberingPoints (.new .error) ++
        (numbered policy files).finalizationPoints))))

/-- The registration phase goes through its points. -/
lemma course_registered : Course (.new policy)
    (registrationPoints (.new policy) files (.new .error)) (registered policy files) :=
  course_register (.new policy) files (.new .error)

/-- The typing phase goes through its points. -/
lemma course_typed : Course (linked policy files)
    ((linked policy files).typingPoints (.new .error)) (typed policy files) := by
  have s := stages_built policy files
  exact course_resolveTypes s.untyped.definitions s.untyped.bare (.new .error)

/-- The phase of OID values goes through its points. -/
lemma course_numbered : Course (typed policy files)
    ((typed policy files).numberingPoints (.new .error)) (numbered policy files) :=
  ((stages_built policy files).untyped.oidsPending (.new .error)).course (.new .error)

end Runs

end Draft

namespace Pipeline

/-- A run leads through these points: it starts from a draft without modules, passes the ends of its
phases by single writes, and hands over the model of the last point. Between any two points nothing
is undone. -/
structure LeadsThrough (p : Pipeline) (files : List ParsedFile) (points : List Draft) : Prop where
  start : points.head? = some (.new p.policy)
  passes : [.registered p.policy files, .linked p.policy files, .typed p.policy files,
    .numbered p.policy files] ⊆ points
  last : points.getLast?.map Draft.mib = modelOf (p.runParsed files).1
  writes : points.IsChain Draft.Write
  advances : (points.map Draft.mib).Pairwise Mib.AdvancesTo

/-- Every run is monotone: from one of its points to any later one, states only go forward, an OID
that is set and the target of a reference that is bound stay, and problems are only added at the
end. -/
theorem leadsThrough_runParsed (p : Pipeline) (files : List ParsedFile) :
    LeadsThrough p files (Draft.runPoints p.policy files) := by
  have registered := Draft.course_registered p.policy files
  have linked := Draft.course_link (.registered p.policy files)
  have typed := Draft.course_typed p.policy files
  have numbered := Draft.course_numbered p.policy files
  have finalized := Draft.course_finalize (.numbered p.policy files)
  have whole := registered.append (linked.append (typed.append (numbered.append finalized)))
  refine ⟨rfl, ?_, ?_, whole.isChain, whole.pairwise⟩
  · exact registered.subset_append (linked.subset_append (typed.subset_append
      (numbered.subset_append (List.nil_subset _))))
  · rw [modelOf_runParsed, resolve_eq_told, Draft.runPoints, whole.getLast?]
    rfl

end Pipeline

end MibCorpus
