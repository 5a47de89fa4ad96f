import MibCorpus.Proofs.ModuleRecords

/-!
# Transcripts

What a run tells depends on its files and its policy alone: every part of it has a transcript, the
list of all its events with their levels, and a recorder keeps those that are within its own level.
So recorders of two levels see the same run, one of them in less detail.
-/

namespace MibCorpus

/-- Events with their levels, in order. -/
abbrev Transcript := List (TraceLevel × Event)

namespace TraceLevel

/-- What is kept at a level is kept at those that keep more. -/
lemma within_trans {l m n : TraceLevel} (h : l.within m = true) (h' : m.within n = true) :
    l.within n = true := by
  simp only [within, decide_eq_true_eq] at *
  omega

/-- Every event is within the most detailed level. -/
lemma within_trace (l : TraceLevel) : l.within .trace = true := by
  cases l <;> rfl

end TraceLevel

namespace Recorder

/-- The recorder with the events of a transcript that are within its level. -/
def tell (r : Recorder) (t : Transcript) : Recorder := t.foldl (fun r e => r.emit e.1 e.2) r

/-- Telling nothing changes nothing. -/
@[simp]
lemma tell_nil (r : Recorder) : r.tell [] = r := rfl

/-- Events are told one after another. -/
lemma tell_append (r : Recorder) (t t' : Transcript) : r.tell (t ++ t') = (r.tell t).tell t' :=
  List.foldl_append

/-- A recorder keeps the events that are within its level, in order. -/
theorem toList_events_tell (r : Recorder) (t : Transcript) :
    (r.tell t).events.toList = r.events.toList ++ t.filter (·.1.within r.level) := by
  induction t generalizing r with
  | nil => simp
  | cons e t ih =>
    rw [show r.tell (e :: t) = (r.emit e.1 e.2).tell t from rfl, ih, level_emit]
    cases h : e.1.within r.level <;> simp [emit, h]

/-- Emitting an event is telling it alone. -/
lemma emit_eq_tell (r : Recorder) (level : TraceLevel) (e : Event) :
    r.emit level e = r.tell [(level, e)] := rfl

/-- Emitting events of one level is telling each with the level. -/
lemma emitAll_eq_tell (r : Recorder) (level : TraceLevel) (es : List Event) :
    r.emitAll level es = r.tell (es.map (level, ·)) := by
  rw [tell, List.foldl_map]
  rfl

end Recorder

/-- The event of a recorded problem. -/
def Problem.told (p : Problem) : TraceLevel × Event := (.ofSeverity p.severity, .problem p)

/-- Emitting problems is telling each with the level of its severity. -/
lemma Recorder.emitProblems_eq_tell (r : Recorder) (ps : List Problem) :
    r.emitProblems ps = r.tell (ps.map Problem.told) := by
  rw [tell, List.foldl_map]
  rfl

/-- Whatever has been recorded before, `f` comes to `a` and tells `t`. -/
def Tells {α : Type} (f : Recorder → α × Recorder) (a : α) (t : Transcript) : Prop :=
  ∀ r, f r = (a, r.tell t)

namespace Tells

variable {α β : Type} {f : Recorder → α × Recorder} {a : α} {t : Transcript}

/-- The answer does not depend on who is told. -/
lemma fst (h : Tells f a t) (r : Recorder) : (f r).1 = a := by rw [h r]

/-- One thing is done after another. -/
lemma andThen (h : Tells f a t) {g : α → Recorder → β × Recorder} {b : β} {t' : Transcript}
    (h' : Tells (g a) b t') : Tells (fun r => g (f r).1 (f r).2) b (t ++ t') := by
  intro r
  simp only [h r, h' (r.tell t), Recorder.tell_append]

end Tells

/-! ## Sweeps -/

namespace SweepRule

variable {α β : Type} (rule : SweepRule α β)

/-- What the sweeps start from one after another: the draft and the pending entries. -/
def starts (xs : List α) (d : Draft) : List (Draft × List α) :=
  if xs.isEmpty then []
  else
    (d, xs) ::
      if (rule.undecided d xs).length < xs.length then
        starts (rule.undecided d xs) (rule.sweep d xs)
      else []
  termination_by xs.length

/-- What the decisions of a sweep tell. -/
def decisionsTold (d : Draft) (xs : List α) : Transcript :=
  (rule.decided d xs).map fun x => (.trace, rule.event d x.1 x.2)

/-- What sweep `pass` tells. -/
def sweepTold (pass : Nat) (d : Draft) (xs : List α) : Transcript :=
  (.debug, .stage (.resolving pass)) :: (.debug, .sweepStart rule.phase pass xs.length) ::
    (rule.decisionsTold d xs ++ [(.debug, .sweepEnd rule.phase pass (rule.decided d xs).length
      (rule.undecided d xs).length)])

/-- What a loop of sweeps tells, the first of them numbered `pass`. -/
def told (pass : Nat) (xs : List α) (d : Draft) : Transcript :=
  ((rule.starts xs d).zipIdx pass).flatMap fun s => rule.sweepTold s.2 s.1.1 s.1.2

/-- Without anything pending there is no sweep to tell about. -/
lemma told_nil (pass : Nat) (d : Draft) : rule.told pass [] d = [] := by
  rw [told, starts]
  rfl

/-- A sweep is told about first, and then, if it decided something, those on what it left. -/
lemma told_of_ne_nil {xs : List α} (h : xs ≠ []) (pass : Nat) (d : Draft) :
    rule.told pass xs d = rule.sweepTold pass d xs ++
      if (rule.undecided d xs).length < xs.length then
        rule.told (pass + 1) (rule.undecided d xs) (rule.sweep d xs)
      else [] := by
  rw [told, starts, if_neg (by simpa using h), List.zipIdx_cons, List.flatMap_cons]
  split
  · rfl
  · rfl

/-- A sweep is told between its start and its end. -/
lemma recorder_sweep (pass : Nat) (d : Draft) (xs : List α) (r : Recorder) :
    (((r.sweepStart rule.phase pass xs.length).emitAll .trace
      ((rule.decided d xs).map fun x => rule.event d x.1 x.2)).sweepEnd rule.phase pass
        (rule.decided d xs).length (rule.undecided d xs).length) =
      r.tell (rule.sweepTold pass d xs) := by
  rw [Recorder.emitAll_eq_tell, List.map_map]
  simp only [sweepTold, Recorder.sweepStart, Recorder.sweepEnd, Recorder.emit_eq_tell,
    ← Recorder.tell_append]
  rfl

/-- A loop that has something to do starts with a sweep and goes on if that decided something. -/
lemma run_of_ne_nil {xs : List α} (h : xs ≠ []) (pass : Nat) (d : Draft) (r : Recorder) :
    rule.run pass xs d r =
      if (rule.undecided d xs).length < xs.length then
        rule.run (pass + 1) (rule.undecided d xs) (rule.sweep d xs)
          (r.tell (rule.sweepTold pass d xs))
      else (rule.undecided d xs, rule.sweep d xs, r.tell (rule.sweepTold pass d xs)) := by
  rw [run, split_eq, if_neg (by simpa using h), ← recorder_sweep]
  rfl

/-- What a loop of sweeps leaves over and how it ends does not depend on the recorder, which is told
the sweeps one after another. -/
theorem run_eq_told (pass : Nat) (xs : List α) (d : Draft) (r r' : Recorder) :
    rule.run pass xs d r =
      ((rule.run 0 xs d r').1, (rule.run 0 xs d r').2.1, r.tell (rule.told pass xs d)) := by
  have same : (rule.run pass xs d r).1 = (rule.run 0 xs d r').1 ∧
      (rule.run pass xs d r).2.1 = (rule.run 0 xs d r').2.1 := by
    refine rule.run_simulation (R := fun xs d xs' d' => xs = xs' ∧ d = d') ?_ pass 0 r r' ⟨rfl, rfl⟩
    rintro xs d _ _ ⟨rfl, rfl⟩
    exact ⟨rfl, rfl⟩
  have recorded : (rule.run pass xs d r).2.2 = r.tell (rule.told pass xs d) := by
    clear same
    induction xs, d using rule.sweepInduction generalizing pass r with
    | nil d =>
      rw [run_nil, told_nil]
      rfl
    | sweep xs d he ih =>
      rw [rule.run_of_ne_nil he, rule.told_of_ne_nil he, Recorder.tell_append]
      split
      next lt => exact ih lt _ _
      next => rfl
  rw [← same.1, ← same.2, ← recorded]

end SweepRule

/-! ## Registration -/

/-- The event of registering a module. -/
def RegisteredModule.told (m : RegisteredModule) : TraceLevel × Event :=
  (.debug, .moduleRegistered m.source.name m.id m.file.isNone)

namespace Draft

/-- Modules `ms` come behind those of `d`, and the ones without a file are marked as generated. -/
structure Enlisted (d d' : Draft) (ms : List RegisteredModule) : Prop where
  modules : d'.modules.toList = d.modules.toList ++ ms
  flags : d'.mib.syntheticFlags = d.mib.syntheticFlags ++ ms.map (·.file.isNone)

/-- Nothing is listed where the modules stay. -/
lemma Enlisted.of_eq {d d' : Draft} (modules : d'.modules = d.modules)
    (same : d'.mib.modules = d.mib.modules) : Enlisted d d' [] :=
  ⟨by rw [modules, List.append_nil], by simp only [Mib.syntheticFlags, same, List.map_nil,
    List.append_nil]⟩

/-- Modules are listed behind those that were before. -/
lemma Enlisted.trans {d d' d'' : Draft} {ms ns : List RegisteredModule} (h : Enlisted d d' ms)
    (h' : Enlisted d' d'' ns) : Enlisted d d'' (ms ++ ns) :=
  ⟨by rw [h'.modules, h.modules, List.append_assoc],
    by rw [h'.flags, h.flags, List.map_append, List.append_assoc]⟩

/-- The modules that `f` adds to a draft are what it tells. -/
def Enlists (f : Draft × Recorder → Draft × Recorder) : Prop :=
  ∀ d, ∃ d' ms, Tells (fun r => f (d, r)) d' (ms.map RegisteredModule.told) ∧ Enlisted d d' ms

/-- Doing nothing tells nothing and lists nothing. -/
lemma enlists_id : Enlists id :=
  fun d => ⟨d, [], fun _ => rfl, .of_eq rfl rfl⟩

/-- What two actions tell comes in their order. -/
lemma Enlists.comp {f g : Draft × Recorder → Draft × Recorder} (h : Enlists f) (h' : Enlists g) :
    Enlists (g ∘ f) := by
  intro d
  obtain ⟨d₁, ms, tells, enlisted⟩ := h d
  obtain ⟨d₂, ms', tells', enlisted'⟩ := h' d₁
  refine ⟨d₂, ms ++ ms', ?_, enlisted.trans enlisted'⟩
  rw [List.map_append]
  exact tells.andThen (g := fun d r => g (d, r)) tells'

/-- What an action on each member of a list tells comes in the order of the list. -/
lemma enlists_foldl {α : Type} {f : Draft × Recorder → α → Draft × Recorder}
    (each : ∀ x, Enlists (f · x)) (xs : List α) : Enlists (xs.foldl f ·) := by
  induction xs with
  | nil => exact enlists_id
  | cons x xs ih => exact (each x).comp ih

/-- Registering a module tells about it if it is accepted. -/
lemma enlists_registerModule (file : Option FileId) (source : Module) :
    Enlists (registerModule file · source) := by
  intro d
  set named : Draft := { d with mib := (d.mib.intern source.name).2 }
  cases h : d.scope.module? source.name with
  | some existing =>
    refine ⟨named.refuseModule existing file source, [], fun r => ?_, .of_eq rfl rfl⟩
    simp only [registerModule, h]
    rfl
  | none =>
    set name := (d.mib.intern source.name).1
    set accepted := (named.acceptModule name file source).2 with ha
    refine ⟨accepted, [⟨⟨d.mib.modules.size⟩, file, source⟩], fun r => ?_, ?_, ?_⟩
    · simp only [registerModule, h]
      rfl
    · rw [ha, modules_acceptModule, Array.toList_push]
      rfl
    · rw [ha, syntheticFlags_eq, covers_acceptModule, List.map_append, ← syntheticFlags_eq]
      rfl

/-- Registering a file tells about its modules. -/
lemma enlists_registerFile (file : ParsedFile) : Enlists (registerFile · file) := by
  intro d
  set added : Draft := { d with mib := (d.mib.addFile file.path).2 }
  set f := (d.mib.addFile file.path).1
  cases h : file.result with
  | ok modules =>
    obtain ⟨d', ms, tells, enlisted⟩ :=
      enlists_foldl (enlists_registerModule (some f)) (byName modules) added
    refine ⟨d', ms, fun r => ?_, enlisted.modules, enlisted.flags⟩
    simp only [registerFile, h]
    exact tells r
  | error failure =>
    refine ⟨added.report (.parseFailure file.path failure.message) (.inFile f failure.span), [],
      fun r => ?_, .of_eq rfl rfl⟩
    simp only [registerFile, h]
    rfl

/-- Generating base modules tells about each of them. -/
lemma enlists_generateLacking (candidates : List BaseModule) :
    Enlists (generateLacking candidates) := by
  induction hn : candidates.length using Nat.strongRecOn generalizing candidates with
  | ind n ih =>
    intro d
    by_cases lt : (d.notLacking candidates).length < candidates.length
    · have each : ∀ b : BaseModule, Enlists (registerModule none · b.source) :=
        fun b => enlists_registerModule none b.source
      have generated := enlists_foldl each (d.lacking candidates)
      obtain ⟨d', ms, tells, enlisted⟩ := generated.comp (ih _ (hn ▸ lt) _ rfl) d
      refine ⟨d', ms, fun r => ?_, enlisted⟩
      change generateLacking candidates (d, r) = _
      rw [generateLacking, if_pos lt]
      exact tells r
    · refine ⟨d, [], fun r => ?_, .of_eq rfl rfl⟩
      change generateLacking candidates (d, r) = _
      rw [generateLacking, if_neg lt]
      rfl

/-- Registration tells the modules that it registers. -/
theorem exists_tells_register (d : Draft) (files : List ParsedFile) :
    ∃ d' ms, Tells (d.register files) d' (ms.map RegisteredModule.told) ∧ Enlisted d d' ms := by
  have supplied := enlists_foldl enlists_registerFile files
  by_cases base : d.policy.baseModules
  · obtain ⟨d', ms, tells, enlisted⟩ := supplied.comp (enlists_generateLacking BaseModule.all) d
    refine ⟨d', ms, fun r => ?_, enlisted⟩
    simp only [register, if_pos base]
    exact tells r
  · obtain ⟨d', ms, tells, enlisted⟩ := supplied d
    refine ⟨d', ms, fun r => ?_, enlisted⟩
    simp only [register, if_neg base]
    exact tells r

/-- The modules without a file, and no others, are marked as generated. -/
lemma flags_register (policy : Policy) (files : List ParsedFile) (r : Recorder) :
    ((Draft.new policy).register files r).1.mib.syntheticFlags =
      ((Draft.new policy).register files r).1.modules.toList.map (·.file.isNone) := by
  obtain ⟨d, ms, tells, enlisted⟩ := (Draft.new policy).exists_tells_register files
  rw [tells.fst r, enlisted.flags, enlisted.modules]
  rfl

/-! ## Types and OIDs -/

/-- What settling the references that the sweeps left over tells. -/
def leftTold (pending : List PendingReference) (d : Draft) : Transcript :=
  (boundBy (d.verdicts pending)).map fun p => (.trace, bindingEvent p)

/-- Of the references left over, those that are bound in the end are told. -/
lemma tells_settleLeftReferences (pending : List PendingReference) (d : Draft) :
    Tells (settleLeftReferences pending d) ((d.verdicts pending).foldl carryOut d)
      (leftTold pending d) := by
  have each : ∀ (vs : List Judged) (e : Draft), Tells
      (fun r => vs.foldl (fun dr v => settleReference dr v.1 v.2) (e, r)) (vs.foldl carryOut e)
      ((boundBy vs).map fun p => (.trace, bindingEvent p)) := by
    intro vs
    induction vs with
    | nil => exact fun _ _ => rfl
    | cons v vs ih =>
      intro e r
      obtain ⟨p, verdict⟩ := v
      cases verdict with
      | ok target => exact ih (e.bindReference p target) (r.emit .trace (bindingEvent p))
      | error finding => exact ih (e.reportAbout finding p.referrer) r
  exact each _ d

/-- What typing tells. -/
def typesTold (d : Draft) : Transcript :=
  referenceRule.told 0 d.noted d.lowered ++
    leftTold (d.swept (.new .error)).1 (d.swept (.new .error)).2.1

/-- What the typing phase tells does not depend on who is told. -/
lemma exists_tells_resolveTypes (d : Draft) : ∃ d', Tells d.resolveTypes d' d.typesTold := by
  set pending := (d.swept (.new .error)).1 with hp
  set left := (d.swept (.new .error)).2.1 with hl
  set bound := (left.verdicts pending).foldl carryOut left
  refine ⟨bound.settleTypes.settleTypeAssignments, fun r => ?_⟩
  have swept : d.swept r = (pending, left, r.tell (referenceRule.told 0 d.noted d.lowered)) :=
    referenceRule.run_eq_told 0 d.noted d.lowered r (.new .error)
  have settled : settleLeftReferences (d.swept r).1 (d.swept r).2.1 (d.swept r).2.2 =
      (bound, r.tell d.typesTold) := by
    rw [swept, typesTold, Recorder.tell_append]
    exact tells_settleLeftReferences pending left _
  exact congrArg (fun dr => (dr.1.settleTypes.settleTypeAssignments, dr.2)) settled

/-- What the OID phase tells. -/
def oidsTold (d : Draft) : Transcript := oidRule.told 0 d.oidEntries d.reportOidDefects

/-- What the phase of OID values tells does not depend on who is told. -/
lemma exists_tells_resolveOids (d : Draft) : ∃ d', Tells d.resolveOids d' d.oidsTold := by
  refine ⟨(d.resolveOids (.new .error)).1, fun r => ?_⟩
  have swept := oidRule.run_eq_told 0 d.oidEntries d.reportOidDefects r (.new .error)
  simp only [resolveOids, swept]
  rfl

end Draft

/-! ## Phases -/

/-- The start of a phase, what it tells, and its end. -/
def Phase.enclose (phase : Phase) (t : Transcript) : Transcript :=
  (.info, .phaseStart phase) :: (t ++ [(.info, .phaseEnd phase)])

namespace PhaseCall

/-- The draft after a phase. -/
def next (c : PhaseCall) (d : Draft) : Draft := (c.apply d (.new .error)).1

/-- What a phase tells by itself. -/
def inside (c : PhaseCall) (d : Draft) : Transcript :=
  match c with
  | register _ => ((c.next d).modules.toList.drop d.modules.size).map RegisteredModule.told
  | link | finalize => []
  | resolveTypes => d.typesTold
  | resolveOids => d.oidsTold

/-- The problems that a phase records. -/
def problems (c : PhaseCall) (d : Draft) : List Problem :=
  (c.next d).mib.problems.since d.mib.problems.length

/-- What a phase tells between its start and its end. -/
def body (c : PhaseCall) (d : Draft) : Transcript := c.inside d ++ (c.problems d).map Problem.told

/-- What a phase does to a draft does not depend on the recorder. -/
theorem tells_apply (c : PhaseCall) (d : Draft) : Tells (c.apply d) (c.next d) (c.inside d) := by
  cases c with
  | register files =>
    obtain ⟨d', ms, tells, enlisted⟩ := d.exists_tells_register files
    have next : (register files).next d = d' := tells.fst _
    have new : d'.modules.toList.drop d.modules.size = ms := by
      rw [enlisted.modules, ← Array.length_toList, List.drop_left]
    rw [inside, next, new]
    exact tells
  | link | finalize => exact fun _ => rfl
  | resolveTypes =>
    obtain ⟨d', tells⟩ := d.exists_tells_resolveTypes
    rw [show resolveTypes.next d = d' from tells.fst _]
    exact tells
  | resolveOids =>
    obtain ⟨d', tells⟩ := d.exists_tells_resolveOids
    rw [show resolveOids.next d = d' from tells.fst _]
    exact tells

/-- A phase call tells what it does between the events of its start and its end, and comes to the
same draft whoever is told. -/
theorem tells_run (c : PhaseCall) (d : Draft) :
    Tells (c.run d) (c.next d) (c.phase.enclose (c.body d)) := by
  intro r
  have applied := c.tells_apply d (r.emit .info (.phaseStart c.phase))
  simp only [run, applied]
  simp only [Recorder.emitProblems_eq_tell, Recorder.emit_eq_tell, ← Recorder.tell_append]
  simp only [Phase.enclose, body, problems, List.cons_append, List.nil_append, List.append_assoc]

end PhaseCall

/-! ## Runs -/

namespace Pipeline

/-- What moving to a stage tells. -/
def stageTold (stage : Stage) : TraceLevel × Event := (.info, .stage stage)

/-- Entering a stage is told. -/
lemma enter_eq_told (p : Pipeline) (stage : Stage) :
    p.enter stage = ⟨p.policy, p.recorder.tell [stageTold stage], stage⟩ := rfl

/-- A phase of a pipeline tells what its call does. -/
lemma phase_eq_told (d : Draft) (p : Pipeline) (c : PhaseCall) :
    phase (d, p) c =
      (c.next d, ⟨p.policy, p.recorder.tell (c.phase.enclose (c.body d)), p.stage⟩) := by
  rw [phase, c.tells_run d p.recorder]

end Pipeline

namespace Draft

variable (policy : Policy) (files : List ParsedFile)

/-- The draft of a run after registration. -/
def registered : Draft := (PhaseCall.register files).next (.new policy)

/-- The draft of a run after linking. -/
def linked : Draft := (registered policy files).link

/-- The draft of a run after typing. -/
def typed : Draft := PhaseCall.resolveTypes.next (linked policy files)

/-- The draft of a run after the OID phase. -/
def numbered : Draft := PhaseCall.resolveOids.next (typed policy files)

/-- The draft at the end of a run. -/
def built : Draft := (numbered policy files).finalize

/-- A run goes through these stages. -/
lemma stages_built :
    Stages (linked policy files) (.new .error) (.new .error) (built policy files) :=
  stages_of_register policy files (.new .error) _ _

end Draft

namespace Pipeline

/-- The phases of a run one after another, each with what it tells, in the stages they belong to. -/
def arrange (story : Phase → Transcript) : Transcript :=
  (stageTold .symbolRegistration :: Phase.registration.enclose (story .registration)) ++
    (stageTold (.resolving 0) ::
      [Phase.linking, .types, .oids].flatMap fun phase => phase.enclose (story phase)) ++
    (stageTold .finalizing :: Phase.finalizing.enclose (story .finalizing))

/-- What each phase of a run on parsed files tells. -/
def story (policy : Policy) (files : List ParsedFile) : Phase → Transcript
  | .parsing => []
  | .registration => (PhaseCall.register files).body (.new policy)
  | .linking => PhaseCall.link.body (.registered policy files)
  | .types => PhaseCall.resolveTypes.body (.linked policy files)
  | .oids => PhaseCall.resolveOids.body (.typed policy files)
  | .finalizing => PhaseCall.finalize.body (.numbered policy files)

/-- A run tells its story, phase by phase, and comes to the draft that is built. -/
lemma resolve_eq_told (p : Pipeline) (files : List ParsedFile) :
    p.resolve files = (.built p.policy files,
      ⟨p.policy, p.recorder.tell (arrange (story p.policy files)), .finalizing⟩) := by
  simp only [resolve, List.foldl_cons, List.foldl_nil, enter_eq_told, phase_eq_told,
    ← Recorder.tell_append]
  simp only [arrange, story, List.flatMap_cons, List.flatMap_nil, List.cons_append,
    List.nil_append, List.append_nil, List.append_assoc]
  rfl

/-- The stage in which a run ends. -/
def lastStage (policy : Policy) (files : List ParsedFile) : Stage :=
  if (verdict policy (Draft.built policy files).mib).isOk then .done else .failed

/-- What a run on parsed files tells. -/
def runTold (policy : Policy) (files : List ParsedFile) : Transcript :=
  arrange (story policy files) ++ [stageTold (lastStage policy files)]

/-- A run depends on the policy and the files; its recorder is told what it does. -/
theorem runParsed_eq_told (p : Pipeline) (files : List ParsedFile) :
    p.runParsed files = (verdict p.policy (Draft.built p.policy files).mib,
      ⟨p.policy, p.recorder.tell (runTold p.policy files), lastStage p.policy files⟩) := by
  simp only [runParsed, resolve_eq_told, runTold, Recorder.tell_append, lastStage]
  cases verdict p.policy (Draft.built p.policy files).mib <;> rfl

/-- What parsing tells. -/
def parsingTold (files : List ParsedFile) : Transcript :=
  stageTold .parsing :: Phase.parsing.enclose (files.map fun f => (.debug, parsedEvent f))

/-- Parsing and resolving texts tells what was parsed and then the story of the parsed files. -/
theorem run_eq_told (p : Pipeline) (parser : FileParser) (sources : List SourceText) :
    p.run parser sources =
      let files := sources.map (.parse parser)
      (verdict p.policy (Draft.built p.policy files).mib,
        ⟨p.policy, p.recorder.tell (parsingTold files ++ runTold p.policy files),
          lastStage p.policy files⟩) := by
  simp only [run, enter_eq_told, Recorder.emit_eq_tell, Recorder.emitAll_eq_tell, runParsed_eq_told,
    ← Recorder.tell_append]
  simp only [parsingTold, Phase.enclose, List.cons_append, List.nil_append, List.append_assoc,
    List.map_map]
  rfl

/-! ## Levels -/

/-- Two runs come to the same, and of what recorder `q` keeps of its run recorder `p` keeps just the
events that are within its own level. -/
structure ShowsLess (p q : Pipeline) (out out' : Except RunError Mib × Pipeline) : Prop where
  result : out.1 = out'.1
  stage : out.2.stage = out'.2.stage
  events : ∃ t, out'.2.recorder.events.toList = q.recorder.events.toList ++ t ∧
    out.2.recorder.events.toList =
      p.recorder.events.toList ++ t.filter (·.1.within p.recorder.level)

/-- Of one transcript the recorder of the lower level keeps less. -/
lemma showsLess_of_told {p q : Pipeline} (less : p.recorder.level.within q.recorder.level = true)
    (result : Except RunError Mib) (policy : Policy) (t : Transcript) (stage : Stage) :
    ShowsLess p q (result, ⟨policy, p.recorder.tell t, stage⟩)
      (result, ⟨policy, q.recorder.tell t, stage⟩) := by
  refine ⟨rfl, rfl, _, q.recorder.toList_events_tell t, ?_⟩
  rw [Recorder.toList_events_tell, List.filter_filter]
  congr 1
  refine List.filter_congr fun e _ => ?_
  -- What is within the lower level is within the higher one.
  cases low : e.1.within p.recorder.level with
  | true => rw [TraceLevel.within_trans low less]; rfl
  | false => rfl

/-- Recording does not interfere with a run, and what a recorder keeps is exactly what one of a more
detailed level keeps, less the events beyond its own level. -/
theorem showsLess_run {p q : Pipeline} (policy : p.policy = q.policy)
    (less : p.recorder.level.within q.recorder.level = true) :
    (∀ files, ShowsLess p q (p.runParsed files) (q.runParsed files)) ∧
      ∀ parser sources, ShowsLess p q (p.run parser sources) (q.run parser sources) := by
  refine ⟨fun files => ?_, fun parser sources => ?_⟩
  · rw [runParsed_eq_told, runParsed_eq_told, ← policy]
    exact showsLess_of_told less _ _ _ _
  · rw [run_eq_told, run_eq_told, ← policy]
    exact showsLess_of_told less _ _ _ _

/-- A file that could not be parsed, and one with a module. -/
def brokenCorpus : List ParsedFile :=
  [⟨"a.mib", .error ⟨"no modules", .synthetic⟩⟩,
    ⟨"b.mib", .ok [⟨"B-MIB", [], [⟨"b", .value [.arc 1], .synthetic⟩], .synthetic⟩]⟩]

/-- A recorder of warnings keeps the problem, one of everything the whole run. -/
theorem showsLess_run_brokenCorpus :
    (new .usual .warn).policy = (new .usual .trace).policy ∧
      TraceLevel.within .warn .trace = true ∧
      ShowsLess (new .usual .warn) (new .usual .trace) ((new .usual .warn).runParsed brokenCorpus)
        ((new .usual .trace).runParsed brokenCorpus) ∧
      ((new .usual .warn).runParsed brokenCorpus).2.recorder.events.toList.map Prod.fst =
        [.error] ∧
      ((new .usual .trace).runParsed brokenCorpus).2.recorder.events.size = 20 := by
  have policy : (new .usual .warn).policy = (new .usual .trace).policy := rfl
  have less : TraceLevel.within .warn .trace = true := rfl
  refine ⟨policy, less, (showsLess_run policy less).1 brokenCorpus, ?_, ?_⟩
  · decide +kernel
  · decide +kernel

end Pipeline

end MibCorpus
