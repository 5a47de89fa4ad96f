import MibCorpus.Proofs.BoundImports
import MibCorpus.Proofs.Claimants
import MibCorpus.Proofs.SyntaxErasure

/-!
# Drafts with the same OIDs ahead

The OID phase and the building of the tree do look at the state of an assignment, which typing may
have decided. But of an assignment that names a type they only ask whether it is left out, and of
any other not whether it is resolved in full. Drafts that agree in the rest lead to the same OIDs,
the same tree and the same problems. Where in the text the assignments stand may differ too.
-/

namespace MibCorpus

/-- Entries that look alike still do after a change that does not look closer. -/
lemma map_modify_congr {α β : Type} {as bs : Array α} {f : α → α} {g : α → β}
    (alike : ∀ a b, g a = g b → g (f a) = g (f b)) (same : bs.map g = as.map g) (i : Nat) :
    (bs.modify i f).map g = (as.modify i f).map g := by
  refine Array.ext_getElem? fun j => ?_
  have entries := congrArg (·[j]?) same
  simp only [Array.getElem?_map, Array.getElem?_modify] at entries ⊢
  split
  · cases ha : as[j]? with
    | none =>
      rw [ha, Option.map_none, Option.map_eq_none_iff] at entries
      rw [entries]
    | some a =>
      rw [ha, Option.map_some] at entries
      obtain ⟨b, hb, e⟩ := Option.map_eq_some_iff.1 entries
      rw [hb]
      exact congrArg some (alike b a e)
  · exact entries

/-! ## What is asked of an assignment -/

namespace Assignment

/-- The state of an assignment as far as its OID depends on it. What names a type is pending unless
it is left out, and what is degraded is resolved. -/
def oidState (a : Assignment) : ResolutionState :=
  if a.state = .excluded then .excluded
  else if a.kind.isType then .pending
  else if a.state = .degraded then .resolved
  else a.state

/-- The assignment as far as its OID depends on it. -/
def oidPart (a : Assignment) : Assignment :=
  { a with span := .synthetic, type := none, state := a.oidState }

/-- Assignments have the same part if the written part, the OID and the state of it are the same. -/
lemma oidPart_eq_iff {a b : Assignment} :
    a.oidPart = b.oidPart ↔ a.heading.withoutSpan = b.heading.withoutSpan ∧ a.oid = b.oid ∧
      a.oidState = b.oidState := by
  cases a
  cases b
  simp only [oidPart, heading, withoutSpan, Assignment.mk.injEq]
  tauto

/-- Of what is pending, the same is said either way, unless it is a type. -/
lemma oidState_eq_pending_iff {a : Assignment} (h : a.kind.hasOid) :
    a.oidState = .pending ↔ a.state = .pending := by
  have value : a.kind.isType = false := by simpa [AssignmentKind.hasOid] using h
  unfold oidState
  cases a.state <;> simp [value]

/-- A state counts as excluded on both sides or on neither. -/
lemma oidState_eq_excluded_iff (a : Assignment) : a.oidState = .excluded ↔ a.state = .excluded := by
  unfold oidState
  cases a.state <;> cases a.kind.isType <;> simp

/-- What claims its OID does so either way, unless a type has one. -/
lemma claim?_oidPart {a : Assignment} (bare : a.kind.isType → a.oid = none) :
    a.oidPart.claim? = a.claim? := by
  cases ht : a.kind.isType with
  | true =>
    have none := bare ht
    unfold claim? oidPart
    cases a.oidState <;> cases a.state <;> simp [none]
  | false =>
    unfold claim? oidPart oidState
    cases a.state <;> simp [ht]

end Assignment

/-- A type degrades the state of an assignment but not what its OID depends on. -/
lemma Draft.oidPart_degradeByType (mib : Mib) (a : Assignment) :
    (degradeByType mib a).oidPart = a.oidPart := by
  unfold degradeByType
  split
  next t _ =>
    split
    next resolved =>
      refine Assignment.oidPart_eq_iff.2 ⟨rfl, rfl, ?_⟩
      simp only [Assignment.oidState, resolved, ResolutionState.degradeBy]
      cases t.state <;> cases a.kind.isType <;> rfl
    next => rfl
  next => rfl

/-! ## Growing a tree elsewhere -/

/-- The model with another tree. -/
def Mib.withCanopy (mib : Mib) (c : Canopy) : Mib :=
  { mib with nodes := c.nodes, roots := c.roots, oidIndex := c.oidIndex }

namespace TreeBuilder

/-- The tree in progress in another model. -/
def replanted (b : TreeBuilder) (mib : Mib) : TreeBuilder := ⟨mib.withCanopy b.mib.canopy, b.nodes⟩

variable (mib : Mib)

/-- A node is found or made in the same way in a tree that stands in another model. -/
lemma ensure_replanted (b : TreeBuilder) (oid : Oid) (arc : Arc) (parent : Option NodeId) :
    (b.replanted mib).ensure oid arc parent =
      ((b.ensure oid arc parent).1, (b.ensure oid arc parent).2.replanted mib) := by
  unfold ensure
  rw [show (b.replanted mib).nodes = b.nodes from rfl]
  cases b.nodes.find? (parent, arc) with
  | some n => rfl
  | none => cases parent <;> rfl

/-- The way down from a node is the same in it. -/
lemma descend_replanted (b : TreeBuilder) (path : Oid) (parent : Option NodeId) (arcs : List Arc) :
    (b.replanted mib).descend path parent arcs =
      ((b.descend path parent arcs).1, (b.descend path parent arcs).2.replanted mib) := by
  induction arcs generalizing b path parent with
  | nil => rfl
  | cons arc arcs ih =>
    rw [descend, ensure_replanted]
    exact ih _ _ _

/-- A claim is added in the same way. -/
lemma addClaim_replanted (b : TreeBuilder) (claim : Claim) :
    (b.replanted mib).addClaim claim = (b.addClaim claim).replanted mib := by
  unfold addClaim
  rw [descend_replanted]
  generalize b.descend .root none claim.1.arcs = down
  obtain ⟨n?, b⟩ := down
  cases n? <;> rfl

/-- The tree that is built depends on the claims and on the tree that it is built on. -/
theorem canopy_build {mib mib' : Mib} (same : mib'.canopy = mib.canopy) (claims : List Claim) :
    (build mib' claims).canopy = (build mib claims).canopy := by
  have start : (⟨mib', .empty⟩ : TreeBuilder) = replanted ⟨mib, .empty⟩ mib' := by
    rw [replanted, ← same]
    rfl
  have grown : claims.foldl addClaim (replanted ⟨mib, .empty⟩ mib') =
      (claims.foldl addClaim ⟨mib, .empty⟩).replanted mib' :=
    List.foldl_hom (replanted · mib') (addClaim_replanted mib')
  rw [build, build, start, grown]
  rfl

end TreeBuilder

/-! ## The relation -/

/-- The kinds of problems that are about types. -/
def ProblemKind.ofTypes : List ProblemKind :=
  [.unresolvedType, .circularTypeReference, .rangeConstraintViolation]

/-- The problems about types are those of the typing phase. -/
lemma ProblemKind.mem_ofTypes_iff (k : ProblemKind) : k ∈ ofTypes ↔ k.phase = .types := by
  cases k <;> decide

namespace Mib

/-- The problems that are about other things than types, in order, but for where in the text they
are. -/
def problemsApartFromTypes (mib : Mib) : List Problem :=
  (mib.problems.toList.map (·.withoutSpan)).filter (·.kind ∉ ProblemKind.ofTypes)

/-- Of the problems that are added, those about types do not count. -/
lemma problemsApartFromTypes_append {mib mib' : Mib} {ps : List Problem}
    (h : mib'.problems.toList = mib.problems.toList ++ ps) : mib'.problemsApartFromTypes =
      mib.problemsApartFromTypes ++
        (ps.map (·.withoutSpan)).filter (·.kind ∉ ProblemKind.ofTypes) := by
  rw [problemsApartFromTypes, h, List.map_append, List.filter_append]
  rfl

/-- Where problems stand in their files does not count. -/
lemma problemsApartFromTypes_withoutSpans (mib : Mib) :
    mib.withoutSpans.problemsApartFromTypes = mib.problemsApartFromTypes := by
  simp only [problemsApartFromTypes, withoutSpans, Problems.withoutSpans, Problems.toList,
    Array.toList_map, List.map_map]
  rfl

end Mib

/-- What problems say about assignments: what they are called and where they stand, but for the
place in the text. -/
structure Captions where
  nameOf : AssignmentId → String
  qualifiedName : AssignmentId → String
  locationOf : AssignmentId → Location

namespace Draft

variable {d d' e e' : Draft}

/-- What problems say about the assignments of a draft. -/
def captions (d : Draft) : Captions :=
  ⟨d.mib.nameOf, d.mib.qualifiedName, fun i => (d.locationOf i).withoutSpan⟩

/-- Definitions are named alike without their syntax. -/
lemma captions_withoutSyntax (d : Draft) : d.withoutSyntax.captions = d.captions := by
  have locations : (fun i => (d.withoutSyntax.locationOf i).withoutSpan) =
      fun i => (d.locationOf i).withoutSpan := by
    funext i
    rw [locationOf_withoutSyntax]
    rfl
  rw [captions, locations, show d.withoutSyntax.mib = d.mib.withoutSpans from rfl,
    Mib.nameOf_withoutSpans, Mib.qualifiedName_withoutSpans]
  rfl

/-- The name of a module stays what it is. -/
lemma Registered.moduleName_of_continues (h : d.Registered) (c : Continues d d') (m : ModuleId) :
    d'.mib.moduleName m = d.mib.moduleName m := by
  cases hs : d.sources[m.index]? with
  | some s =>
    have hs' : d'.sources[m.index]? = some s := by rw [sources_of_registry c.registry, hs]
    rw [h.moduleName_eq hs, (h.of_continues c).moduleName_eq hs']
  | none =>
    have absent : d.mib.module? m = none := by
      rw [getElem?_sources, Option.map_eq_none_iff, Array.getElem?_eq_none_iff] at hs
      exact Array.getElem?_eq_none (h.modules.size ▸ hs)
    have heading := moduleHeading_of_registry c.registry m
    rw [absent, Option.map_none, Option.map_eq_none_iff] at heading
    simp only [Mib.moduleName, absent, heading]

/-- What is said about assignments stays the same. -/
lemma Registered.captions_of_continues (h : d.Registered) (c : Continues d d') :
    d'.captions = d.captions := by
  have names := funext (h.definitions.nameOf_of_continues c)
  have modules := funext (h.moduleName_of_continues c)
  have owners : ∀ i, (d'.mib.assignment? i).map (·.module) = (d.mib.assignment? i).map (·.module) :=
    assignment?_map_of_registry _ c.registry fun _ => rfl
  have read : ∀ (mib : Mib) (i : AssignmentId), mib.qualifiedName i =
      ((mib.assignment? i).map (·.module)).elim "" mib.moduleName ++ "::" ++ mib.nameOf i := by
    intro mib i
    rw [Mib.qualifiedName]
    cases mib.assignment? i <;> rfl
  have qualified : d'.mib.qualifiedName = d.mib.qualifiedName := by
    funext i
    rw [read, read, owners, names, modules]
  simp only [captions, names, qualified, funext (locationOf_of_registry c.registry)]

/-- The assignments with their modules and definitions, these without their SYNTAX. -/
def definitionsWithoutSyntax (d : Draft) : List (AssignmentId × ModuleId × Definition) :=
  d.definitions.map fun x => (x.1, x.2.1, x.2.2.withoutSyntax)

/-- Without SYNTAX the same definitions stand behind the assignments. -/
lemma definitions_withoutSyntax (d : Draft) :
    d.withoutSyntax.definitions = d.definitionsWithoutSyntax := by
  have written : ∀ o, d.withoutSyntax.written? o =
      (d.written? o).map fun x => (x.1, x.2.withoutSyntax) := by
    intro o
    rw [written?, written?, withoutSyntax, Array.getElem?_map]
    cases d.modules[o.module]? with
    | none => rfl
    | some m => simp [RegisteredModule.withoutSyntax, Module.withoutSyntax, Function.comp_def]
  rw [definitionsWithoutSyntax, definitions, definitions, List.map_filterMap]
  refine List.filterMap_congr fun o _ => ?_
  rw [written, Option.map_map, Option.map_map]
  rfl

/-- The assignments as far as their OIDs depend on them. -/
def oidParts (d : Draft) : Array Assignment := d.mib.assignments.map (·.oidPart)

/-- The parts of the assignments that OIDs are computed from have no syntax. -/
lemma oidParts_withoutSyntax (d : Draft) : d.withoutSyntax.oidParts = d.oidParts :=
  Array.map_map

/-- Drafts that agree in all that OIDs depend on. -/
structure OidsAlike (d d' : Draft) : Prop where
  registered : d.Registered
  registered' : d'.Registered
  policy : d'.policy = d.policy
  scope : d'.scope = d.scope
  definitions : d'.definitionsWithoutSyntax = d.definitionsWithoutSyntax
  captions : d'.captions = d.captions
  assignments : d'.oidParts = d.oidParts
  canopy : d'.mib.canopy = d.mib.canopy
  problems : d'.mib.problemsApartFromTypes = d.mib.problemsApartFromTypes

namespace OidsAlike

/-- Drafts are alike in both directions. -/
lemma symm (h : OidsAlike d d') : OidsAlike d' d :=
  ⟨h.registered', h.registered, h.policy.symm, h.scope.symm, h.definitions.symm, h.captions.symm,
    h.assignments.symm, h.canopy.symm, h.problems.symm⟩

/-- Drafts that are like a third one are alike. -/
lemma trans (h : OidsAlike d d') (h' : OidsAlike d' e) : OidsAlike d e :=
  ⟨h.registered, h'.registered', h'.policy.trans h.policy, h'.scope.trans h.scope,
    h'.definitions.trans h.definitions, h'.captions.trans h.captions,
    h'.assignments.trans h.assignments, h'.canopy.trans h.canopy, h'.problems.trans h.problems⟩

/-- What goes on from two drafts keeps what was registered, so only the rest is left to compare. -/
lemma of_continues (h : OidsAlike d d') (c : Continues d e) (c' : Continues d' e')
    (scope : e'.scope = e.scope) (assignments : e'.oidParts = e.oidParts)
    (canopy : e'.mib.canopy = e.mib.canopy)
    (problems : e'.mib.problemsApartFromTypes = e.mib.problemsApartFromTypes) :
    OidsAlike e e' where
  registered := h.registered.of_continues c
  registered' := h.registered'.of_continues c'
  policy := by
    rw [policy_of_registry c.registry, policy_of_registry c'.registry, h.policy]
  scope := scope
  definitions := by
    rw [definitionsWithoutSyntax, definitionsWithoutSyntax, definitions_of_registry c.registry,
      definitions_of_registry c'.registry]
    exact h.definitions
  captions := by
    rw [h.registered.captions_of_continues c, h.registered'.captions_of_continues c', h.captions]
  assignments := assignments
  canopy := canopy
  problems := problems

/-! ### What agrees with it -/

section

variable (h : OidsAlike d d')
include h

/-- Assignments have the same names in drafts that are alike. -/
lemma nameOf : d'.mib.nameOf = d.mib.nameOf := congrArg Captions.nameOf h.captions

/-- They also have the same names with those of their modules. -/
lemma qualifiedName : d'.mib.qualifiedName = d.mib.qualifiedName :=
  congrArg Captions.qualifiedName h.captions

/-- They stand at the same place but for the position in the file. -/
lemma locationOf (i : AssignmentId) :
    (d'.locationOf i).withoutSpan = (d.locationOf i).withoutSpan :=
  congrArg (fun c => c.locationOf i) h.captions

/-- The same is said about assignments of drafts that are alike. -/
lemma problemAbout (f : Finding) (i : AssignmentId) :
    (d'.problemAbout f i).withoutSpan = (d.problemAbout f i).withoutSpan :=
  congrArg (fun l : Location => { f.toProblem l with subject := some i }) (h.locationOf i)

/-- An assignment of one draft is one of the other, and its OID depends on the same. -/
lemma assignment? (i : AssignmentId) :
    (d'.mib.assignment? i).map (·.oidPart) = (d.mib.assignment? i).map (·.oidPart) := by
  have same := congrArg (·[i.index]?) h.assignments
  simpa [oidParts, Mib.assignment?] using same

/-- The same is left out. -/
lemma isIncluded : d'.isIncluded = d.isIncluded := by
  have read : ∀ (d : Draft) (i : AssignmentId), d.isIncluded i =
      ((d.mib.assignment? i).map (·.oidPart)).any (·.state != .excluded) := by
    intro d i
    unfold Draft.isIncluded
    cases d.mib.assignment? i with
    | none => rfl
    | some a =>
      have same : (a.oidState != .excluded) = (a.state != .excluded) := by
        rw [Bool.eq_iff_iff]
        simp [a.oidState_eq_excluded_iff]
      exact same.symm
  funext i
  rw [read, read, h.assignment?]

/-- The same OID values are written. -/
lemma writtenOids : d'.writtenOids = d.writtenOids := by
  have read : ∀ d : Draft, d.writtenOids =
      (d.definitionsWithoutSyntax.filter fun x => d.isIncluded x.1).filterMap
        fun x => x.2.2.oid?.map fun oid => (x.1, x.2.1, x.2.2.name, oid) := by
    intro d
    simp only [Draft.writtenOids, definitionsWithoutSyntax, List.filter_map, List.filterMap_map]
    refine List.filterMap_congr fun x _ => ?_
    simp only [Function.comp_apply, Definition.oid?_withoutSyntax]
    rfl
  rw [read, read, h.definitions, h.isIncluded]

/-- The same OID values are to be computed in drafts that are alike. -/
lemma oidEntries : d'.oidEntries = d.oidEntries := by
  rw [Draft.oidEntries, Draft.oidEntries, h.writtenOids]

/-- The same OID values have defects. -/
lemma oidDefects : d'.oidDefects = d.oidDefects := by
  rw [Draft.oidDefects, Draft.oidDefects, h.writtenOids]

/-- The OID of an assignment is the same base in both drafts. -/
lemma baseOfAssignment : d'.baseOfAssignment = d.baseOfAssignment := by
  have read : ∀ (d : Draft) (i : AssignmentId), d.baseOfAssignment i =
      ((d.mib.assignment? i).map (·.oidPart)).elim .missing fun a =>
        a.oid.elim (if a.kind.hasOid && a.state == .pending then .waiting i else .missing)
          .ready := by
    intro d i
    unfold Draft.baseOfAssignment
    cases d.mib.assignment? i with
    | none => rfl
    | some a =>
      have same : (a.kind.hasOid && a.oidState == .pending) =
          (a.kind.hasOid && a.state == .pending) := by
        cases hk : a.kind.hasOid with
        | false => rfl
        | true =>
          rw [Bool.eq_iff_iff]
          simp [Assignment.oidState_eq_pending_iff hk]
      simp only [Option.map_some, Option.elim_some, Assignment.oidPart, same]
      cases a.oid <;> rfl
  funext i
  rw [read, read, h.assignment?]

/-- Anchors stand for the same. -/
lemma baseOf : d'.baseOf = d.baseOf := by
  funext m anchor
  cases anchor with
  | arc a => rfl
  | name qualifier name =>
    simp only [Draft.baseOf, h.scope, h.baseOfAssignment]

/-- An entry is ready in both drafts or in neither. -/
lemma readyOid? : d'.readyOid? = d.readyOid? := by
  funext e
  rw [Draft.readyOid?, Draft.readyOid?, h.baseOf]

/-- An entry that is left over fails for the same reason. -/
lemma failureOf : d'.failureOf = d.failureOf := by
  have traced : ∀ (remaining : List OidEntry) (start : AssignmentId) (n : Nat)
      (visited : List AssignmentId) (current : OidEntry),
      d'.traceFailure remaining start n visited current =
        d.traceFailure remaining start n visited current := by
    intro remaining start n
    induction n with
    | zero => exact fun _ _ => rfl
    | succ n ih => simp only [traceFailure, h.baseOf, ih, implies_true]
  funext remaining e
  exact traced ..

/-- The message about a failure is the same. -/
lemma failureFinding : d'.failureFinding = d.failureFinding := by
  funext e failure
  cases failure <;> simp only [Draft.failureFinding, h.nameOf]

end

/-! ### What keeps it -/

/-- The same problem may be recorded in both drafts. -/
lemma record (h : OidsAlike d d') {p p' : Problem} (same : p'.withoutSpan = p.withoutSpan) :
    OidsAlike (d.record p) (d'.record p') := by
  refine h.of_continues ⟨rfl, .refl _⟩ ⟨rfl, .refl _⟩ h.scope h.assignments h.canopy ?_
  have recorded : ∀ (d : Draft) (p : Problem), (d.record p).mib.problemsApartFromTypes = _ :=
    fun d p => Mib.problemsApartFromTypes_append (Problems.toList_record d.mib.problems p)
  rw [recorded, recorded, h.problems, List.map_singleton, List.map_singleton, same]

/-- The same change of an assignment may be made in both drafts if it looks at no more than the
relation does. -/
lemma modifyAssignment (h : OidsAlike d d') (i : AssignmentId) (f : Assignment → Assignment)
    (heading : ∀ a, (f a).heading = a.heading)
    (alike : ∀ a b, a.oidPart = b.oidPart → (f a).oidPart = (f b).oidPart) :
    OidsAlike { d with mib := d.mib.modifyAssignment i f }
      { d' with mib := d'.mib.modifyAssignment i f } := by
  refine h.of_continues ⟨registry_modifyAssignment d i f heading, .refl _⟩
    ⟨registry_modifyAssignment d' i f heading, .refl _⟩ h.scope ?_ h.canopy h.problems
  exact map_modify_congr alike h.assignments i.index

/-- The state of an assignment may be decided in both drafts. -/
lemma setState (h : OidsAlike d d') (i : AssignmentId) (s : ResolutionState) :
    OidsAlike (d.setState i s) (d'.setState i s) := by
  refine h.modifyAssignment i _ (fun _ => rfl) fun a b same => ?_
  obtain ⟨heading, oid, -⟩ := Assignment.oidPart_eq_iff.1 same
  have kind : a.kind = b.kind := congrArg (·.kind) heading
  refine Assignment.oidPart_eq_iff.2 ⟨heading, oid, ?_⟩
  simp only [Assignment.oidState, kind]

/-- The same may be reported about an assignment, with its state decided. -/
lemma conclude (h : OidsAlike d d') (f : Finding) (i : AssignmentId) (s : ResolutionState) :
    OidsAlike ((d.reportAbout f i).setState i s) ((d'.reportAbout f i).setState i s) := by
  rw [reportAbout_eq_record, reportAbout_eq_record]
  exact (h.record (h.problemAbout f i)).setState i s

/-- The same OID may be assigned. -/
lemma assignOid (h : OidsAlike d d') (e : OidEntry) (o : Oid) :
    OidsAlike (d.assignOid e o) (d'.assignOid e o) := by
  refine h.modifyAssignment e.assignment _ (fun _ => rfl) fun a b same => ?_
  obtain ⟨heading, -, -⟩ := Assignment.oidPart_eq_iff.1 same
  have kind : a.kind = b.kind := congrArg (·.kind) heading
  refine Assignment.oidPart_eq_iff.2 ⟨heading, rfl, ?_⟩
  simp only [Assignment.oidState, kind]

/-! ### The OID phase -/

/-- After the defects are reported, the drafts are alike still. -/
lemma reportOidDefects (h : OidsAlike d d') : OidsAlike d.reportOidDefects d'.reportOidDefects := by
  unfold Draft.reportOidDefects
  rw [h.oidDefects]
  exact List.foldl_rel h fun x _ _ _ h => h.conclude x.2 x.1 .unresolved

/-- The sweeps decide the same. -/
lemma run (h : OidsAlike d d') (es : List OidEntry) (r r' : Recorder) :
    (oidRule.run 0 es d' r').1 = (oidRule.run 0 es d r).1 ∧
      OidsAlike (oidRule.run 0 es d r).2.1 (oidRule.run 0 es d' r').2.1 := by
  refine oidRule.run_simulation (R := fun xs d xs' d' => xs' = xs ∧ OidsAlike d d') ?_ 0 0 r r'
    ⟨rfl, h⟩
  rintro xs d _ d' ⟨rfl, h⟩
  have decide? : oidRule.decide? d' = oidRule.decide? d := h.readyOid?
  refine ⟨by rw [SweepRule.undecided, SweepRule.undecided, decide?], ?_⟩
  unfold SweepRule.sweep SweepRule.applyAll SweepRule.decided
  rw [decide?]
  exact List.foldl_rel h fun x _ _ _ h => h.assignOid x.1 x.2

/-- The same becomes of what the sweeps leave over. -/
lemma settleLeftOids (h : OidsAlike d d') (remaining : List OidEntry) :
    OidsAlike (settleLeftOids remaining d) (settleLeftOids remaining d') := by
  unfold Draft.settleLeftOids
  rw [h.failureOf]
  refine List.foldl_rel h fun x _ _ _ h => ?_
  rw [h.failureFinding]
  exact h.conclude _ x.1.assignment x.2.state

/-- The types degrade nothing that matters. -/
lemma settleObjects (h : OidsAlike d d') : OidsAlike d.settleObjects d'.settleObjects := by
  have continues : ∀ d : Draft, Continues d d.settleObjects := by
    intro d
    refine ⟨?_, .refl _⟩
    have headings : d.settleObjects.mib.assignments.map Assignment.heading =
        d.mib.assignments.map Assignment.heading := by
      simp only [Draft.settleObjects, Array.map_map]
      exact Array.map_congr_left fun a _ => heading_degradeByType _ a
    simp only [registry, headings]
    rfl
  have parts : ∀ d : Draft, d.settleObjects.oidParts = d.oidParts := by
    intro d
    simp only [oidParts, Draft.settleObjects, Array.map_map]
    exact Array.map_congr_left fun a _ => oidPart_degradeByType d.mib a
  refine h.of_continues (continues d) (continues d') h.scope ?_ h.canopy h.problems
  rw [parts, parts, h.assignments]

/-- Drafts that agree in all that OIDs depend on still do after the OID phase. -/
theorem resolveOids (h : OidsAlike d d') (r r' : Recorder) :
    OidsAlike (d.resolveOids r).1 (d'.resolveOids r').1 := by
  obtain ⟨remaining, swept⟩ := h.reportOidDefects.run d.oidEntries r r'
  rw [resolveOids_eq, resolveOids_eq, settledOids, settledOids, sweptOids, sweptOids, h.oidEntries,
    remaining]
  exact (swept.settleLeftOids _).settleObjects

/-! ### The tree -/

/-- The same OIDs are claimed, if no type has one. -/
lemma claims (h : OidsAlike d d')
    (bare : ∀ a ∈ d.mib.assignments, a.kind.isType → a.oid = none)
    (bare' : ∀ a ∈ d'.mib.assignments, a.kind.isType → a.oid = none) : d'.claims = d.claims := by
  have read : ∀ {d : Draft}, (∀ a ∈ d.mib.assignments, a.kind.isType → a.oid = none) →
      d.mib.assignments.toList.filterMap (fun a => a.claim?.map (a.id, ·)) =
        d.oidParts.toList.filterMap fun a => a.claim?.map (a.id, ·) := by
    intro d bare
    rw [oidParts, Array.toList_map, List.filterMap_map]
    refine List.filterMap_congr fun a ha => ?_
    rw [Function.comp_apply, Assignment.claim?_oidPart (bare a (Array.mem_toList_iff.1 ha))]
    rfl
  simp only [Draft.claims, claimants, read bare, read bare', h.assignments, h.policy]

/-- The same claimants lose. -/
lemma claimProblems (h : OidsAlike d d') (claim : Claim) :
    (d'.claimProblems claim).map (·.withoutSpan) =
      (d.claimProblems claim).map (·.withoutSpan) := by
  have conflict : ∀ oid kept refused, (d'.conflictProblem oid kept refused).withoutSpan =
      (d.conflictProblem oid kept refused).withoutSpan := by
    intro oid kept refused
    simp only [conflictProblem, conflictSeverity, h.qualifiedName, h.nameOf]
    exact congrArg (fun l : Location => Problem.mk _ _ _ l _ _) (h.locationOf refused)
  obtain ⟨oid, as⟩ := claim
  cases as with
  | nil => rfl
  | cons kept others =>
    simp only [Draft.claimProblems, List.map_map]
    exact List.map_congr_left fun refused _ => conflict oid kept refused

/-- Drafts that agree in all that OIDs depend on still do when the tree is built. -/
theorem finalize (h : OidsAlike d d')
    (bare : ∀ a ∈ d.mib.assignments, a.kind.isType → a.oid = none)
    (bare' : ∀ a ∈ d'.mib.assignments, a.kind.isType → a.oid = none) :
    OidsAlike d.finalize d'.finalize := by
  have f := finalizes_finalize d
  have f' := finalizes_finalize d'
  have claims := h.claims bare bare'
  have grown : ∀ d : Draft, d.finalize.mib.canopy =
      (TreeBuilder.build (d.recordAll (d.claims.flatMap d.claimProblems)).mib d.claims).canopy := by
    intro d
    rw [Draft.finalize, foldl_reportClaim]
  refine h.of_continues f.continues f'.continues ?_ ?_ ?_ ?_
  · rw [f.scope, f'.scope, h.scope]
  · rw [oidParts, oidParts, f.assignments, f'.assignments]
    exact h.assignments
  · rw [grown, grown, claims]
    refine TreeBuilder.canopy_build ?_ d.claims
    rw [canopy_recordAll, canopy_recordAll, h.canopy]
  · have reported : (d.claims.flatMap d'.claimProblems).map (·.withoutSpan) =
        (d.claims.flatMap d.claimProblems).map (·.withoutSpan) := by
      rw [List.map_flatMap, List.map_flatMap]
      exact congrArg (List.flatMap · d.claims) (funext h.claimProblems)
    rw [Mib.problemsApartFromTypes_append f.problems, Mib.problemsApartFromTypes_append f'.problems,
      h.problems, claims, reported]

end OidsAlike

end Draft

end MibCorpus
