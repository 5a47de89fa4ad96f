import MibCorpus.Proofs.References
import MibCorpus.Proofs.Transcript

/-!
# Change of policy

A policy is asked in three places: registration asks it whether to generate base modules, linking
how bad a repeated import is, and the last phase which claimant comes first. So up to the last phase
a run under another policy goes through the same drafts, with the repeated imports rated anew.
-/

namespace MibCorpus

/-- The problem as a policy rates it. The policy says how bad a repeated import is, and nothing
about other problems. -/
def Problem.ratedBy (p : Problem) (q : Policy) : Problem :=
  if p.kind = .duplicateImport then { p with severity := q.duplicateImports.severity } else p

/-- A policy rates only repeated imports. -/
lemma Problem.ratedBy_of_ne {p : Problem} (h : p.kind ≠ .duplicateImport) (q : Policy) :
    p.ratedBy q = p := if_neg h

/-- The draft under another policy. -/
def Draft.withPolicy (d : Draft) (q : Policy) : Draft :=
  { d with
    mib := { d.mib with problems := ⟨d.mib.problems.items.map (·.ratedBy q)⟩ }
    policy := q }

/-- What each of some steps commutes with, they all do. -/
lemma foldl_commutes {α β : Type} {u : β → β} {f : β → α → β} {xs : List α}
    (each : ∀ x ∈ xs, ∀ b, f (u b) x = u (f b x)) (b : β) :
    xs.foldl f (u b) = u (xs.foldl f b) := by
  induction xs generalizing b with
  | nil => rfl
  | cons x xs ih =>
    rw [List.foldl_cons, each x (List.mem_cons_self ..)]
    exact ih (fun y hy => each y (List.mem_cons_of_mem _ hy)) _

/-- The lowering in progress under another policy. -/
def Lowering.withPolicy (l : Lowering) (q : Policy) : Lowering :=
  { l with draft := l.draft.withPolicy q }

namespace Draft

/-- What is done to a draft while recording does not depend on the policy, but for the rating. -/
def IgnoresPolicy (q : Policy) (f : Draft × Recorder → Draft × Recorder) : Prop :=
  ∀ dr : Draft × Recorder, f (dr.1.withPolicy q, dr.2) = ((f dr).1.withPolicy q, (f dr).2)

variable {d : Draft} {q : Policy}

/-! ## Problems -/

/-- A problem that is rated by the policy is recorded under it. -/
lemma record_withPolicy (p : Problem) :
    (d.withPolicy q).record (p.ratedBy q) = (d.record p).withPolicy q := by
  simp [withPolicy, record, Mib.record, Problems.record]

/-- Recording a problem that is no repeated import is the same under every policy. -/
lemma record_withPolicy_of_ne {p : Problem} (h : p.kind ≠ .duplicateImport) (d : Draft) :
    (d.withPolicy q).record p = (d.record p).withPolicy q := by
  have recorded := record_withPolicy (d := d) (q := q) p
  rwa [Problem.ratedBy_of_ne h] at recorded

/-- So is reporting a finding at a place. -/
lemma report_withPolicy {f : Finding} (h : f.kind ≠ .duplicateImport) (location : Location) :
    (d.withPolicy q).report f location = (d.report f location).withPolicy q :=
  record_withPolicy_of_ne (p := f.toProblem location) h d

/-- So is reporting a finding about an assignment. -/
lemma reportAbout_withPolicy {f : Finding} (h : f.kind ≠ .duplicateImport) (a : AssignmentId) :
    (d.withPolicy q).reportAbout f a = (d.reportAbout f a).withPolicy q :=
  record_withPolicy_of_ne (p := d.problemAbout f a) h d

/-- So is recording several such problems. -/
lemma recordAll_withPolicy {ps : List Problem} (h : ∀ p ∈ ps, p.kind ≠ .duplicateImport)
    (d : Draft) : (d.withPolicy q).recordAll ps = (d.recordAll ps).withPolicy q :=
  foldl_commutes (u := (withPolicy · q)) (fun p hp => record_withPolicy_of_ne (h p hp)) d

/-! ## Registration -/

/-- Actions that pay no attention to the policy can be done one after another. -/
lemma IgnoresPolicy.comp {f g : Draft × Recorder → Draft × Recorder} (h : IgnoresPolicy q f)
    (h' : IgnoresPolicy q g) : IgnoresPolicy q (g ∘ f) := by
  intro dr
  rw [Function.comp_apply, h, h']
  rfl

/-- They can be repeated for the members of a list, too. -/
lemma ignoresPolicy_foldl {α : Type} {f : Draft × Recorder → α → Draft × Recorder}
    (each : ∀ x, IgnoresPolicy q (f · x)) (xs : List α) : IgnoresPolicy q (xs.foldl f ·) :=
  foldl_commutes fun x _ => each x

/-- A definition is registered alike under any policy. -/
lemma registerDefinition_withPolicy (m : RegisteredModule) (o : Origin) (x : Definition) :
    (d.withPolicy q).registerDefinition m o x = (d.registerDefinition m o x).withPolicy q := by
  cases h : d.scope.lookup? m.id x.name with
  | none =>
    rw [registerDefinition_free d m o x h, registerDefinition_free (d.withPolicy q) m o x h]
    rfl
  | some existing =>
    rw [registerDefinition_taken d m o x h, registerDefinition_taken (d.withPolicy q) m o x h]
    simp only [withPolicy, Problems.record, Array.map_push]
    rfl

/-- Accepting a module has nothing to do with the policy. -/
lemma acceptModule_withPolicy (name : StrId) (file : Option FileId) (source : Module) :
    ((d.withPolicy q).acceptModule name file source).2 =
      (d.acceptModule name file source).2.withPolicy q := by
  have defined : (d.withPolicy q).defined name file source =
      (d.defined name file source).withPolicy q :=
    foldl_commutes (u := (withPolicy · q))
      (f := fun e (x : Definition × Nat) =>
        e.registerDefinition (d.accepted file source) ⟨d.modules.size, x.2⟩ x.1)
      (fun x _ _ => registerDefinition_withPolicy _ _ x.1) (d.announced name file source)
  rw [acceptModule_eq, defined]
  rfl

/-- Neither has registering a module, which reports a refusal at most. -/
lemma ignoresPolicy_registerModule (file : Option FileId) (source : Module) :
    IgnoresPolicy q (registerModule file · source) := by
  intro (d, r)
  set named : Draft := { d with mib := (d.mib.intern source.name).2 }
  cases h : d.scope.module? source.name with
  | some existing =>
    have refused := report_withPolicy (d := named) (q := q)
      (f := .duplicateModule source.name (named.pathOf? existing)) nofun ⟨file, none, source.span⟩
    have h' : (d.withPolicy q).scope.module? source.name = some existing := h
    simp only [registerModule, h, h']
    exact congrArg (·, r) refused
  | none =>
    have accepted := acceptModule_withPolicy (d := named) (q := q) (d.mib.intern source.name).1
      file source
    have h' : (d.withPolicy q).scope.module? source.name = none := h
    simp only [registerModule, h, h']
    exact congrArg (·, r.emit .debug
      (.moduleRegistered source.name ⟨d.mib.modules.size⟩ file.isNone)) accepted

/-- Neither has registering a file, which reports a failure at most. -/
lemma ignoresPolicy_registerFile (file : ParsedFile) :
    IgnoresPolicy q (registerFile · file) := by
  intro (d, r)
  set added : Draft := { d with mib := (d.mib.addFile file.path).2 }
  set f := (d.mib.addFile file.path).1
  cases h : file.result with
  | ok modules =>
    have registered := ignoresPolicy_foldl (q := q)
      (fun m => ignoresPolicy_registerModule (some f) m) (byName modules) (added, r)
    simp only [registerFile, h]
    exact registered
  | error failure =>
    have reported := report_withPolicy (d := added) (q := q)
      (f := .parseFailure file.path failure.message) (by simp [Finding.kind])
      (.inFile f failure.span)
    simp only [registerFile, h]
    exact congrArg (·, r) reported

/-- Neither has generating base modules. -/
lemma ignoresPolicy_generateLacking (candidates : List BaseModule) :
    IgnoresPolicy q (generateLacking candidates) := by
  intro dr
  fun_induction generateLacking candidates dr with
  | case1 candidates dr others lt ih =>
    have lt' : ((dr.1.withPolicy q).notLacking candidates).length < candidates.length := lt
    have each : ∀ b : BaseModule, IgnoresPolicy q (registerModule none · b.source) :=
      fun b => ignoresPolicy_registerModule none b.source
    have generated := ignoresPolicy_foldl each (dr.1.lacking candidates) dr
    rw [generateLacking, if_pos lt', ← ih]
    exact congrArg (generateLacking others) generated
  | case2 candidates dr others lt =>
    have ge : ¬((dr.1.withPolicy q).notLacking candidates).length < candidates.length := lt
    rw [generateLacking, if_neg ge]

/-- Registration asks the policy for base modules only. -/
theorem register_withPolicy (base : q.baseModules = d.policy.baseModules)
    (files : List ParsedFile) (r : Recorder) :
    (d.withPolicy q).register files r =
      ((d.register files r).1.withPolicy q, (d.register files r).2) := by
  have supplied := ignoresPolicy_foldl (q := q) ignoresPolicy_registerFile files
  have generated := supplied.comp (ignoresPolicy_generateLacking BaseModule.all)
  simp only [register, show (d.withPolicy q).policy.baseModules = d.policy.baseModules from base]
  split
  · exact generated (d, r)
  · exact supplied (d, r)

/-! ## Linking -/

/-- The linking in progress under another policy. -/
def LinkState.withPolicy (st : LinkState) (q : Policy) : LinkState :=
  { st with draft := st.draft.withPolicy q }

/-- What is reported about a new import is no repetition. -/
lemma kind_of_mem_newImportProblems {source? : String → Option ModuleId} {m : RegisteredModule}
    {seen : List (String × String)} {absent : List String} {i : Import} {p : Problem}
    (hp : p ∈ newImportProblems source? m seen absent i) : p.kind ≠ .duplicateImport := by
  rcases List.mem_append.1 hp with hp | hp
  · obtain ⟨_, _, rfl⟩ := Option.map_eq_some_iff.1 (Option.mem_toList.1 hp)
    nofun
  · split at hp
    · obtain rfl := List.mem_singleton.1 hp
      nofun
    · cases hp

/-- Linking an import looks at the policy only to rate a repetition. -/
lemma linkImport_withPolicy (m : RegisteredModule) (st : LinkState) (i : Import) :
    linkImport m (st.withPolicy q) i = (linkImport m st i).withPolicy q := by
  by_cases h : (i.symbol, i.source) ∈ st.seen
  · have recorded := record_withPolicy (d := st.draft) (q := q)
      (duplicateImportProblem st.draft.policy m i)
    -- The one problem that the policy rates.
    rw [show (duplicateImportProblem st.draft.policy m i).ratedBy q =
      duplicateImportProblem q m i from if_pos rfl] at recorded
    rw [linkImport_seen m st i h, linkImport_seen m (st.withPolicy q) i h]
    exact congrArg (fun d => { st with draft := d }) recorded
  · have recorded : (st.draft.withPolicy q).recordAll
        (newImportProblems st.draft.scope.module? m st.seen st.absent i) = _ :=
      recordAll_withPolicy (fun _ => kind_of_mem_newImportProblems) st.draft
    rw [linkImport_new m st i h, linkImport_new m (st.withPolicy q) i h]
    exact congrArg (fun d => LinkState.mk (bindNewImport d m.id i) _ _ _) recorded

/-- Linking a module is linking its imports one after another. -/
lemma linkModule_withPolicy (dc : Draft × List ImportCheck) (m : RegisteredModule) :
    linkModule (dc.1.withPolicy q, dc.2) m =
      ((linkModule dc m).1.withPolicy q, (linkModule dc m).2) := by
  have imports := foldl_commutes (u := (LinkState.withPolicy · q))
    (fun i (_ : i ∈ m.source.imports.filter (!·.isMacro)) st => linkImport_withPolicy m st i)
    ⟨dc.1, [], [], dc.2⟩
  exact congrArg (fun st : LinkState => (st.draft, st.checks)) imports

/-- Checking an import reports what it would under any policy. -/
lemma checkImport_withPolicy (d : Draft) (c : ImportCheck) :
    (d.withPolicy q).checkImport c = (d.checkImport c).withPolicy q := by
  rw [checkImport_eq, checkImport_eq]
  refine recordAll_withPolicy (fun p hp => ?_) d
  have reported := Option.mem_toList.1 hp
  unfold checkProblem? at reported
  split at reported
  · cases reported
    nofun
  · cases reported

/-- Linking asks the policy how bad a repeated import is, and nothing else. -/
theorem link_withPolicy (d : Draft) (q : Policy) : (d.withPolicy q).link = d.link.withPolicy q := by
  set linkedAll := d.modules.toList.foldl linkModule (d, [])
  have linked := foldl_commutes
    (fun m (_ : m ∈ d.modules.toList) dc => linkModule_withPolicy (q := q) dc m) (d, [])
  have checked := foldl_commutes (u := (withPolicy · q))
    (fun c (_ : c ∈ linkedAll.2) e => checkImport_withPolicy e c) linkedAll.1
  simp only [link, ← Array.foldl_toList]
  rw [← checked]
  exact congrArg (fun dc : Draft × List ImportCheck => dc.2.foldl checkImport dc.1) linked

end Draft

/-! ## Lowering -/

namespace Lowering

variable {q : Policy}

/-- Interning does not look at the policy. -/
@[simp]
lemma intern_withPolicy (l : Lowering) (s : String) :
    (l.withPolicy q).intern s = ((l.intern s).1, (l.intern s).2.withPolicy q) := rfl

/-- Adding a type node does not, either. -/
@[simp]
lemma addNode_withPolicy (l : Lowering) (o : TypeOwner) (shape : TypeShape) :
    (l.withPolicy q).addNode o shape =
      ((l.addNode o shape).1, (l.addNode o shape).2.withPolicy q) := rfl

/-- A reference is added to the model and to the list of those noted, whatever the policy. -/
@[simp]
lemma addReference_withPolicy (l : Lowering) (o : TypeOwner) (qualifier : Option String)
    (symbol : String) : (l.withPolicy q).addReference o qualifier symbol =
      ((l.addReference o qualifier symbol).1,
        (l.addReference o qualifier symbol).2.withPolicy q) := by
  cases qualifier <;> rfl

/-- The labels of values are interned, whatever the policy. -/
@[simp]
lemma nameValues_withPolicy (l : Lowering) (items : List (String × Int)) :
    (l.withPolicy q).nameValues items =
      ((l.nameValues items).1, (l.nameValues items).2.withPolicy q) := by
  induction items generalizing l with
  | nil => rfl
  | cons item items ih => simp only [nameValues, intern_withPolicy, ih]

/-- A constraint is checked and kept, or reported and dropped, whatever the policy. -/
@[simp]
lemma constrain_withPolicy (l : Lowering) (o : TypeOwner) (t : TypeId) (c : WrittenConstraint) :
    (l.withPolicy q).constrain o t c = (l.constrain o t c).withPolicy q := by
  have kinds : ∀ f ∈ (writtenRanges c).filterMap
      (rangeDefect? (l.draft.mib.nameOf o.assignment) c.isSize), f.kind ≠ .duplicateImport := by
    intro f hf
    obtain ⟨r, -, hr⟩ := List.mem_filterMap.1 hf
    unfold rangeDefect? at hr
    split at hr
    · cases hr
      nofun
    · split at hr <;> cases hr
      nofun
  have reported := foldl_commutes (u := (Draft.withPolicy · q))
    (f := (Draft.reportAbout · · o.assignment))
    (fun f hf _ => Draft.reportAbout_withPolicy (kinds f hf) o.assignment) l.draft
  exact congrArg (fun d => modifyNode { l with draft := d } t _) reported

mutual

/-- Lowering a SYNTAX does not depend on the policy. -/
lemma lower_withPolicy (o : TypeOwner) : ∀ (s : TypeSyntax) (l : Lowering),
    lower o s (l.withPolicy q) = ((lower o s l).1, (lower o s l).2.withPolicy q)
  | .named _, _ | .qualified .., _ => by simp only [lower, addReference_withPolicy]
  | .integer, _ | .octetString, _ | .objectIdentifier, _ => by simp only [lower, addNode_withPolicy]
  | .enumeration _, _ | .bits _, _ => by
    simp only [lower, addNode_withPolicy, nameValues_withPolicy]
  | .constrained base _, l => by
    simp only [lower, constrain_withPolicy, lower_withPolicy o base l]
  | .sequence fields, l | .choice fields, l => by
    simp only [lower, addNode_withPolicy, lowerFields_withPolicy o fields l]
  | .sequenceOf element, l => by
    simp only [lower, addNode_withPolicy, lower_withPolicy o element l]

/-- Lowering fields does not depend on the policy. -/
lemma lowerFields_withPolicy (o : TypeOwner) :
    ∀ (fields : List (String × TypeSyntax)) (l : Lowering), lowerFields o fields (l.withPolicy q) =
      ((lowerFields o fields l).1, (lowerFields o fields l).2.withPolicy q)
  | [], _ => rfl
  | (_, body) :: rest, l => by
    simp only [lowerFields, lowerFields_withPolicy o rest, intern_withPolicy,
      lower_withPolicy o body l]

end

/-- So a definition is lowered in the same way under every policy. -/
lemma lowerDefinition_withPolicy (l : Lowering) (o : TypeOwner) (x : Definition) :
    (l.withPolicy q).lowerDefinition o x = (l.lowerDefinition o x).withPolicy q := by
  unfold lowerDefinition
  cases x.clauses with
  | type body _ _ | objectType body _ _ _ =>
    simp only [lower_withPolicy]
    rfl
  | textualConvention body hint? status =>
    simp only [lower_withPolicy]
    cases hint? <;> rfl
  | _ => rfl

/-- Lowering does not depend on the policy. -/
lemma lowerAll_withPolicy (d : Draft) :
    lowerAll (d.withPolicy q) = (lowerAll d).withPolicy q :=
  foldl_commutes (u := (withPolicy · q))
    (f := fun l (x : AssignmentId × ModuleId × Definition) => l.lowerDefinition ⟨x.2.1, x.1⟩ x.2.2)
    (fun _ _ l => lowerDefinition_withPolicy l _ _) ⟨d, []⟩

end Lowering

/-! ## Types -/

/-- The chains of refinement are read off the type nodes. -/
lemma Mib.typeChain_congr {mib mib' : Mib} (types : mib'.types = mib.types) (t : TypeId) :
    mib'.typeChain t = mib.typeChain t := by
  have chain : ∀ n i, mib'.chainFrom n i = mib.chainFrom n i := by
    intro n
    induction n with
    | zero => exact fun _ => rfl
    | succ n ih =>
      intro i
      cases i with
      | none => rfl
      | some i => simp only [chainFrom, type?, types, ih]
  rw [typeChain, typeChain, chain, types]

namespace SweepRule

variable {α β : Type} (rule : SweepRule α β) {q : Policy}

/-- Sweeps do not depend on the policy if neither the decisions nor what they do depends on it. -/
lemma run_withPolicy (decide? : ∀ d x, rule.decide? (d.withPolicy q) x = rule.decide? d x)
    (apply : ∀ d x y, rule.apply (d.withPolicy q) x y = (rule.apply d x y).withPolicy q)
    (xs : List α) (d : Draft) (r : Recorder) :
    (rule.run 0 xs (d.withPolicy q) r).1 = (rule.run 0 xs d r).1 ∧
      (rule.run 0 xs (d.withPolicy q) r).2.1 = (rule.run 0 xs d r).2.1.withPolicy q := by
  refine rule.run_simulation (R := fun xs d xs' d' => xs = xs' ∧ d = d'.withPolicy q) ?_ 0 0 r r
    ⟨rfl, rfl⟩
  rintro xs _ _ d ⟨rfl, rfl⟩
  have decided : rule.decided (d.withPolicy q) xs = rule.decided d xs := by
    simp only [SweepRule.decided, decide?]
  refine ⟨by simp only [undecided, decide?], ?_⟩
  rw [sweep, decided]
  exact foldl_commutes (u := (Draft.withPolicy · q)) (fun x _ d => apply d x.1 x.2) _

end SweepRule

namespace Draft

variable {d : Draft} {q : Policy}

/-- The chain of a type is read off the types alone. -/
lemma typeChain_withPolicy (d : Draft) (q : Policy) :
    (d.withPolicy q).mib.typeChain = d.mib.typeChain := by
  have types : (d.withPolicy q).mib.types = d.mib.types := rfl
  exact funext (Mib.typeChain_congr types)

/-- Whether a reference is ready to be bound does not depend on the policy. -/
lemma readyTarget?_withPolicy (d : Draft) (q : Policy) :
    (d.withPolicy q).readyTarget? = d.readyTarget? := by
  have chains : (d.withPolicy q).isChainBound = d.isChainBound := by
    funext t
    rw [isChainBound, isChainBound, typeChain_withPolicy]
  funext r
  rw [readyTarget?, chains]
  rfl

/-- What an assignment waits for does not depend on the policy. -/
lemma waitsFor?_withPolicy (d : Draft) (q : Policy) :
    (d.withPolicy q).waitsFor? = d.waitsFor? := by
  funext pending a
  simp only [waitsFor?, typeChain_withPolicy]
  rfl

/-- Whether names lead from one assignment to another does not depend on the policy. -/
lemma leadsTo_withPolicy (pending : List PendingReference) (target : AssignmentId) (n : Nat)
    (current : AssignmentId) :
    (d.withPolicy q).leadsTo pending target n current = d.leadsTo pending target n current := by
  induction n generalizing current with
  | zero => rfl
  | succ n ih => simp only [leadsTo, waitsFor?_withPolicy, ih]

/-- So references that are left over are judged alike under every policy. -/
lemma judgeReference_withPolicy (d : Draft) (q : Policy) :
    (d.withPolicy q).judgeReference = d.judgeReference := by
  have leads : (d.withPolicy q).leadsTo = d.leadsTo := by
    funext pending target n current
    exact leadsTo_withPolicy pending target n current
  funext pending r
  unfold judgeReference
  rw [leads]
  rfl

/-- What is reported about a reference that stays unbound is no repeated import. -/
lemma kind_of_judgeReference {pending : List PendingReference} {r : PendingReference} {f : Finding}
    (h : d.judgeReference pending r = .error f) : f.kind ≠ .duplicateImport := by
  cases referenceFinding_of_judgeReference h <;> nofun

/-- The verdicts about references are carried out alike, since none of them is about a repeated
import. -/
lemma foldl_carryOut_withPolicy {vs : List Judged}
    (h : ∀ v ∈ vs, ∀ f, v.2 = .error f → f.kind ≠ .duplicateImport) (d : Draft) :
    vs.foldl carryOut (d.withPolicy q) = (vs.foldl carryOut d).withPolicy q := by
  refine foldl_commutes (u := (withPolicy · q)) (fun v hv e => ?_) d
  obtain ⟨r, verdict⟩ := v
  cases verdict with
  | ok target => rfl
  | error f => exact reportAbout_withPolicy (h _ hv f rfl) r.referrer

/-- Typing does not depend on the policy. -/
theorem resolveTypes_withPolicy (d : Draft) (q : Policy) (r : Recorder) :
    ((d.withPolicy q).resolveTypes r).1 = (d.resolveTypes r).1.withPolicy q := by
  have lowered := Lowering.lowerAll_withPolicy (q := q) d
  obtain ⟨pending, left⟩ : ((d.withPolicy q).swept r).1 = (d.swept r).1 ∧
      ((d.withPolicy q).swept r).2.1 = (d.swept r).2.1.withPolicy q := by
    unfold swept noted Draft.lowered
    rw [lowered]
    exact referenceRule.run_withPolicy (fun d x => congrFun (readyTarget?_withPolicy d q) x)
      (fun _ _ _ => rfl) _ _ r
  have settled : (d.withPolicy q).boundDraft r = (d.boundDraft r).withPolicy q := by
    rw [boundDraft, boundDraft, settleLeftReferences_eq, settleLeftReferences_eq, pending, left,
      verdicts, judgeReference_withPolicy]
    refine foldl_carryOut_withPolicy (fun v hv f hf => ?_) _
    obtain ⟨p, -, rfl⟩ := List.mem_map.1 hv
    exact kind_of_judgeReference hf
  rw [resolveTypes_eq, resolveTypes_eq, settled]
  rfl

/-! ## OIDs -/

/-- Defects of OID values are reported alike under every policy. -/
lemma reportOidDefects_withPolicy (d : Draft) (q : Policy) :
    (d.withPolicy q).reportOidDefects = d.reportOidDefects.withPolicy q := by
  refine foldl_commutes (u := (withPolicy · q)) (fun x hx d' => ?_) d
  obtain ⟨m, name, cs, defect, -, -, e⟩ := mem_oidDefects.1 hx
  have kind : x.2.kind ≠ .duplicateImport := by
    rw [e]
    cases defect <;> nofun
  exact congrArg (setState · x.1 .unresolved) (reportAbout_withPolicy kind x.1)

/-- The way from a left entry along its anchors does not depend on the policy. -/
lemma traceFailure_withPolicy (remaining : List OidEntry) (start : AssignmentId) (n : Nat)
    (visited : List AssignmentId) (current : OidEntry) :
    (d.withPolicy q).traceFailure remaining start n visited current =
      d.traceFailure remaining start n visited current := by
  have base : (d.withPolicy q).baseOf = d.baseOf := rfl
  induction n generalizing visited current with
  | zero => rfl
  | succ n ih => simp only [traceFailure, base, ih]

/-- So the failure of an entry is the same under every policy. -/
lemma failureOf_withPolicy (d : Draft) (q : Policy) :
    (d.withPolicy q).failureOf = d.failureOf := by
  funext remaining e
  exact traceFailure_withPolicy remaining e.assignment (remaining.length + 1) [] e

/-- Entries that are left over are settled alike under every policy. -/
lemma settleLeftOids_withPolicy (remaining : List OidEntry) (d : Draft) :
    settleLeftOids remaining (d.withPolicy q) = (settleLeftOids remaining d).withPolicy q := by
  rw [settleLeftOids, failureOf_withPolicy]
  refine foldl_commutes (u := (withPolicy · q)) (fun x hx d' => ?_) d
  have kind : (d'.failureFinding x.1 x.2).kind ≠ .duplicateImport := by
    unfold failureFinding
    split
    · simp [Finding.kind]
    · simp [Finding.kind]
    · split <;> simp [Finding.kind]
  exact congrArg (setState · x.1.assignment x.2.state) (reportAbout_withPolicy kind x.1.assignment)

/-- The OID phase does not depend on the policy. -/
theorem resolveOids_withPolicy (d : Draft) (q : Policy) (r : Recorder) :
    ((d.withPolicy q).resolveOids r).1 = (d.resolveOids r).1.withPolicy q := by
  obtain ⟨remaining, left⟩ : ((d.withPolicy q).sweptOids r).1 = (d.sweptOids r).1 ∧
      ((d.withPolicy q).sweptOids r).2.1 = (d.sweptOids r).2.1.withPolicy q := by
    rw [sweptOids, reportOidDefects_withPolicy]
    exact oidRule.run_withPolicy (fun _ _ => rfl) (fun _ _ _ => rfl) d.oidEntries _ r
  have settled : (d.withPolicy q).settledOids r = (d.settledOids r).withPolicy q := by
    rw [settledOids, settledOids, remaining, left, settleLeftOids_withPolicy]
  rw [resolveOids_eq, resolveOids_eq, settled]
  rfl

/-! ## Runs -/

/-- A new draft has nothing but its policy. -/
lemma new_withPolicy (p q : Policy) : (new p).withPolicy q = new q := by
  simp [withPolicy, new, Mib.empty, MibParts.empty, Problems.empty]

/-- Up to the last phase a run under another policy goes through the same drafts. -/
theorem numbered_withPolicy {p q : Policy} (base : q.baseModules = p.baseModules)
    (files : List ParsedFile) : numbered q files = (numbered p files).withPolicy q := by
  have registered : registered q files = (registered p files).withPolicy q := by
    have same := register_withPolicy (d := .new p) base files (.new .error)
    rw [new_withPolicy] at same
    exact congrArg Prod.fst same
  have linked : linked q files = (linked p files).withPolicy q := by
    rw [Draft.linked, registered, link_withPolicy]
    rfl
  have typed : typed q files = (typed p files).withPolicy q := by
    rw [Draft.typed, linked]
    exact resolveTypes_withPolicy _ q (.new .error)
  rw [numbered, typed]
  exact resolveOids_withPolicy _ q (.new .error)

end Draft

end MibCorpus
