import MibCorpus.Proofs.Claimants
import MibCorpus.Proofs.Enrolment
import MibCorpus.Proofs.ImportAccounts
import MibCorpus.Proofs.RefinementChains

/-!
# Subjects of problems

Problems of files, modules and imports are about no assignment. Every other problem has a subject
and stands where that was written: in the file that its module was read from, in the module, at the
span of the definition. Only two kinds set one assignment against another. A definition whose name
is taken comes behind the one that the name finds, and a claimant that lost has the OID of the one
that it lost to.
-/

namespace MibCorpus

/-- Whether problems of the kind are about an assignment. -/
def ProblemKind.hasSubject : ProblemKind → Bool
  | parseFailure | duplicateModule | missingImportSource | unresolvedImport | duplicateImport
  | ambiguousImport => false
  | duplicateDefinition | unresolvedType | circularTypeReference | rangeConstraintViolation
  | unresolvedOidParent | invalidOidComponent | circularOidReference | multipleValueConflict => true

/-- Whether problems of the kind set one assignment against another. -/
def ProblemKind.isContest : ProblemKind → Bool
  | duplicateDefinition | multipleValueConflict => true
  | _ => false

/-- What is found in the front of a list is found in the list. -/
lemma find?_of_find?_take {α : Type} {xs : List α} {p : α → Bool} {x : α} {n : Nat}
    (h : (xs.take n).find? p = some x) : xs.find? p = some x := by
  rw [← List.take_append_drop n xs, List.find?_append, h]
  rfl

namespace Draft

variable {d d' : Draft}

/-- Assignment `a` comes from a definition that was written at `l`. -/
def IsWrittenAt (d : Draft) (a : AssignmentId) (l : Location) : Prop :=
  ∃ r ∈ d.modules, ∃ x, (a, r.id, x) ∈ d.definitions ∧ l = .inModule r.file r.id x.span

/-- Assignment `a` repeats the name of `b`: both are in one module, `b` comes before, and the name
finds `b`. -/
structure Repeats (d : Draft) (a b : AssignmentId) : Prop where
  before : b.index < a.index
  named : ∃ x y, d.mib.assignment? a = some x ∧ d.mib.assignment? b = some y ∧
    y.module = x.module ∧ y.name = x.name ∧
    d.scope.lookup? x.module (d.mib.str x.name) = some b ∧
    (d.mib.lookupIn? x.module (d.mib.str x.name)).map (·.id) = some b ∧
    (d.mib.lookup? (d.mib.moduleName x.module) (d.mib.str x.name)).map (·.id) = some b

/-- What a problem says about assignments is so in the draft. -/
structure BearsOut (d : Draft) (p : Problem) : Prop where
  subject : p.subject.isSome = p.kind.hasSubject
  other : p.other.isSome = p.kind.isContest
  distinct : ∀ a, p.other = some a → p.subject ≠ some a
  location : ∀ a, p.subject = some a → p.location = d.locationOf a ∧ d.IsWrittenAt a p.location
  repeats : p.kind = .duplicateDefinition →
    ∃ a b, p.subject = some a ∧ p.other = some b ∧ d.Repeats a b
  contest : p.kind = .multipleValueConflict →
    ∃ a b o, p.subject = some a ∧ p.other = some b ∧ d.mib.Claims a o ∧ d.mib.Claims b o

/-! ## Places -/

/-- The assignment of a definition has its module, its span and its name. -/
lemma Registered.exists_entry (h : d.Registered) {x : AssignmentId × ModuleId × Definition}
    (hx : x ∈ d.definitions) : ∃ a, d.mib.assignment? x.1 = some a ∧ a.module = x.2.1 ∧
      a.span = x.2.2.span ∧ d.mib.strings.find? x.2.2.name = some a.name := by
  obtain ⟨s, hs, entry⟩ := h.definitions.entry x.1 x.2.1 x.2.2 (mem_definitions.1 hx)
  obtain ⟨a, ha, heading⟩ := Option.map_eq_some_iff.1 entry
  have name : a.name = s := congrArg Assignment.name heading
  exact ⟨a, ha, congrArg Assignment.module heading, congrArg Assignment.span heading, name ▸ hs⟩

/-- The module that a definition stands in is listed at its identifier. -/
lemma Registered.exists_module (h : d.Registered) {x : AssignmentId × ModuleId × Definition}
    (hx : x ∈ d.definitions) : ∃ r, d.modules[x.2.1.index]? = some r ∧ r.id = x.2.1 := by
  have lt := h.index_lt_of_mem_definitions hx
  rw [sources, List.length_map, Array.length_toList] at lt
  have listed := Array.getElem?_eq_getElem lt
  exact ⟨_, listed, (h.modules.entry _ _ listed).1⟩

/-- An assignment stands where its definition was written. -/
lemma Registered.locationOf_eq (h : d.Registered) {x : AssignmentId × ModuleId × Definition}
    (hx : x ∈ d.definitions) : d.locationOf x.1 =
      .inModule ((d.modules[x.2.1.index]?).bind (·.file)) x.2.1 x.2.2.span := by
  obtain ⟨a, ha, module, span, -⟩ := h.exists_entry hx
  obtain ⟨r, listed, -⟩ := h.exists_module hx
  have file : d.fileOf x.2.1 = r.file := h.modules.fileOf_eq listed
  rw [locationOf, ha, listed]
  simp only [module, span, file, Option.bind_some]

/-- Each definition is written at its location. -/
lemma Registered.isWrittenAt (h : d.Registered) {x : AssignmentId × ModuleId × Definition}
    (hx : x ∈ d.definitions) : d.IsWrittenAt x.1 (d.locationOf x.1) := by
  obtain ⟨r, listed, id⟩ := h.exists_module hx
  refine ⟨r, Array.mem_of_getElem? listed, x.2.2, ?_, ?_⟩
  · rw [id]
    exact hx
  · rw [h.locationOf_eq hx, listed, id]
    rfl

/-! ## Problems by themselves -/

/-- A problem that is about no assignment has nothing to be borne out. -/
lemma bearsOut_of_none {p : Problem} (subject : p.subject = none) (other : p.other = none)
    (kind : p.kind.hasSubject = false) : d.BearsOut p := by
  have contest : p.kind.isContest = false := by
    revert kind
    cases p.kind <;> decide
  refine ⟨by rw [subject, kind]; rfl, by rw [other, contest]; rfl, ?_, ?_, ?_, ?_⟩
  · intro a ha
    rw [other] at ha
    cases ha
  · intro a ha
    rw [subject] at ha
    cases ha
  all_goals
    intro e
    rw [e] at kind
    cases kind

/-- What is reported about a single assignment has it as its subject. -/
lemma Registered.bearsOut_problemAbout (h : d.Registered)
    {x : AssignmentId × ModuleId × Definition} (hx : x ∈ d.definitions) {f : Finding}
    (subject : f.kind.hasSubject = true) (alone : f.kind.isContest = false) :
    d.BearsOut (d.problemAbout f x.1) := by
  have kind : (d.problemAbout f x.1).kind = f.kind := rfl
  refine ⟨subject.symm, alone.symm, nofun, ?_, ?_, ?_⟩
  · rintro _ ⟨⟩
    exact ⟨rfl, h.isWrittenAt hx⟩
  all_goals
    intro e
    rw [← kind, e] at alone
    cases alone

/-- A repeated name finds the first definition that has it, whichever way it is looked up. -/
lemma Registered.repeats (h : d.Registered) (agree : QueriesAgree d.mib d.scope)
    {x first : AssignmentId × ModuleId × Definition} (hx : x ∈ d.definitions)
    (isFirst : IsFirst d.definitions x first) (before : first.1.index < x.1.index)
    (lookup : d.scope.lookup? x.2.1 x.2.2.name = some first.1)
    (module : d.scope.module? (nameIn d.modules.toList x.2.1) = some x.2.1) :
    d.Repeats x.1 first.1 := by
  obtain ⟨a, ha, am, -, an⟩ := h.exists_entry hx
  obtain ⟨b, hb, bm, -, bn⟩ := h.exists_entry isFirst.mem
  obtain ⟨owner, name⟩ := Prod.mk.inj isFirst.slot
  have string : d.mib.str a.name = x.2.2.name := Strings.get_of_find? an
  obtain ⟨r, listed, -⟩ := h.exists_module hx
  have called : d.mib.moduleName x.2.1 = nameIn d.modules.toList x.2.1 := by
    have source : d.sources[x.2.1.index]? = some r.source := by
      rw [getElem?_sources, listed]
      rfl
    rw [h.moduleName_eq source, nameIn, Array.getElem?_toList, listed]
    rfl
  refine ⟨before, a, b, ha, hb, by rw [am, bm, owner], ?name, ?lookup, ?lookupIn, ?lookupByName⟩
  case name =>
    -- The names are one string, and a string is interned once.
    rw [name, an] at bn
    exact (Option.some.inj bn).symm
  case lookup => rw [string, am, lookup]
  case lookupIn => rw [string, am, agree.definition, lookup]
  case lookupByName => rw [string, am, called, agree.lookup? module, lookup]

/-- A repeated name is reported where it is repeated, against the first definition that has it. -/
lemma Registered.bearsOut_refusal (h : d.Registered) (agree : QueriesAgree d.mib d.scope)
    {x first : AssignmentId × ModuleId × Definition} (hx : x ∈ d.definitions)
    (repeats : IsRepeat d.definitions x)
    (found : d.definitions.find? (slot · = slot x) = some first)
    (module : d.scope.module? (nameIn d.modules.toList x.2.1) = some x.2.1) :
    d.BearsOut (refusal d.modules.toList x first) := by
  obtain ⟨first', found', isFirst, lookup⟩ := h.definitions.exists_isFirst hx
  obtain rfl : first' = first := Option.some.inj (found'.symm.trans found)
  have before := (isRepeat_iff isFirst).1 repeats
  have location : (refusal d.modules.toList x first').location = d.locationOf x.1 := by
    rw [h.locationOf_eq hx, ← Array.getElem?_toList]
    rfl
  refine ⟨rfl, rfl, ?distinct, ?location, fun _ => ⟨x.1, first'.1, rfl, rfl, ?repeats⟩, nofun⟩
  case distinct =>
    rintro _ ⟨⟩ same
    exact Nat.lt_irrefl _ (Option.some.inj same ▸ before)
  case location =>
    rintro _ ⟨⟩
    exact ⟨location, location ▸ h.isWrittenAt hx⟩
  case repeats => exact h.repeats agree hx isFirst before lookup module

/-- A claimant that lost is reported where it was written, against one that has the same OID. -/
lemma Finalizes.bearsOut (fin : Finalizes d d') (h : d.Registered) {claim : Claim}
    (hc : claim ∈ d.claims) {p : Problem} (hp : p ∈ d.claimProblems claim) : d'.BearsOut p := by
  obtain ⟨o, as⟩ := claim
  obtain ⟨rfl, -⟩ := mem_claims.1 hc
  have ordered := h.definitions.ordered_claimantsOf o
  have claims : ∀ {i}, i ∈ d.claimantsOf o → d'.mib.Claims i o := by
    intro i hi
    obtain ⟨a, ha, claim⟩ := h.definitions.mem_claimantsOf.1 hi
    exact ⟨a, by rw [Mib.assignment?, fin.assignments]; exact ha, claim⟩
  have registered := h.of_continues fin.continues
  unfold claimProblems at hp
  cases listed : d.claimantsOf o with
  | nil =>
    rw [listed] at hp
    cases hp
  | cons kept others =>
    simp only [listed] at hp
    obtain ⟨i, hi, rfl⟩ := List.mem_map.1 hp
    rw [listed] at ordered claims
    have precedes := (List.pairwise_cons.1 ordered).1 i hi
    obtain ⟨a, ha, claim⟩ := claims (List.mem_cons_of_mem _ hi)
    have won := claims (List.mem_cons_self ..)
    obtain ⟨x, hx, -⟩ := registered.definitions.owner ha
    refine ⟨rfl, rfl, ?distinct, ?location, (by cases ·), fun _ => ⟨i, kept, o, rfl, rfl,
      ⟨a, ha, claim⟩, won⟩⟩
    case distinct =>
      -- Either way to order them, no assignment comes before itself.
      rintro _ ⟨⟩ same
      rw [Option.some.inj same] at precedes
      revert precedes
      cases d.policy.canonical <;> exact Nat.lt_irrefl _
    case location =>
      rintro _ ⟨⟩
      have location := locationOf_of_registry fin.continues.registry i
      refine ⟨location.symm, ?_⟩
      rw [show (d.conflictProblem o kept i).location = d.locationOf i from rfl, ← location]
      exact registered.isWrittenAt (x := (i, a.module, x)) (mem_definitions.2 hx)

/-! ## Problems of the phases -/

/-- What typing reports is about registered definitions. -/
lemma Untyped.exists_of_mem_problems (h : d.Untyped) {r : Recorder} {p : Problem}
    (hp : p ∈ (d.resolveTypes r).1.mib.problems.toList) : p ∈ d.mib.problems.toList ∨
      ∃ x ∈ d.definitions, ∃ f : Finding, f.kind.phase = .types ∧ p = d.problemAbout f x.1 := by
  have owned : ∀ b ∈ d.blocks, ∃ x ∈ d.definitions, x.1 = b.owner.assignment := by
    intro b hb
    obtain ⟨x, hx, -⟩ := mem_of_mem_layout hb
    exact ⟨_, (List.mem_filter.1 hx).1, rfl⟩
  obtain ⟨new, recorded, phase⟩ := h.reports (r := r)
  have same := List.append_cancel_left (recorded.symm.trans h.problems)
  rw [recorded] at hp
  rcases List.mem_append.1 hp with hp | hp
  · exact .inl hp
  · have kind := phase p hp
    rw [same] at hp
    rcases List.mem_append.1 hp with hp | hp
    · obtain ⟨b, hb, hp⟩ := List.mem_flatMap.1 hp
      obtain ⟨f, -, rfl⟩ := List.mem_map.1 hp
      obtain ⟨x, hx, owner⟩ := owned b hb
      exact .inr ⟨x, hx, f, kind, by rw [owner]⟩
    · obtain ⟨⟨q, p⟩, hq, rfl⟩ := List.mem_map.1 hp
      obtain ⟨f, -, rfl⟩ := h.of_mem_referenceProblems hq
      have unbound : q ∈ d.unboundReferences r := by
        rw [← map_fst_referenceProblems]
        exact List.mem_map.2 ⟨_, hq, rfl⟩
      have noted := (h.binds r).pending
      obtain ⟨b, hb, -, referrer, -⟩ :=
        type?_of_mem_noted h.definitions h.bare (noted.subset unbound)
      obtain ⟨x, hx, owner⟩ := owned b hb
      exact .inr ⟨x, hx, f, kind, by rw [owner, referrer]⟩

/-- What the OID phase reports is about registered definitions. -/
lemma OidsPending.exists_of_mem_problems (h : d.OidsPending) {r : Recorder} {p : Problem}
    (hp : p ∈ (d.resolveOids r).1.mib.problems.toList) : p ∈ d.mib.problems.toList ∨
      ∃ x ∈ d.definitions, ∃ f : Finding, f.kind.phase = .oids ∧ p = d.problemAbout f x.1 := by
  have defined : ∀ {i m name cs}, (i, m, name, cs) ∈ d.writtenOids →
      ∃ x ∈ d.definitions, x.1 = i := by
    intro i m name cs hw
    obtain ⟨-, x, hx, -⟩ := mem_writtenOids.1 hw
    exact ⟨(i, m, x), mem_definitions.2 hx, rfl⟩
  obtain ⟨new, recorded, phase⟩ := h.reports (r := r)
  have same := List.append_cancel_left (recorded.symm.trans h.problems)
  rw [recorded] at hp
  rcases List.mem_append.1 hp with hp | hp
  · exact .inl hp
  · have kind := phase p hp
    rw [same] at hp
    obtain ⟨c, hc, rfl⟩ := List.mem_map.1 hp
    obtain ⟨x, hx, subject⟩ : ∃ x ∈ d.definitions, x.1 = c.assignment := by
      rcases List.mem_append.1 hc with hc | hc
      · obtain ⟨y, hy, rfl⟩ := List.mem_map.1 hc
        obtain ⟨m, name, cs, -, hw, -⟩ := mem_oidDefects.1 hy
        exact defined hw
      · obtain ⟨e, he, rfl⟩ := List.mem_map.1 hc
        obtain ⟨name, cs, hw, -⟩ := mem_oidEntries.1 (h.assigns.pending.subset he)
        exact defined hw
    exact .inr ⟨x, hx, c.finding, kind, by rw [subject]⟩

/-- A kind of the phases of types and OIDs has a subject and no other side. -/
lemma hasSubject_of_phase {kind : ProblemKind} (phase : kind.phase = .types ∨ kind.phase = .oids) :
    kind.hasSubject = true ∧ kind.isContest = false := by
  revert phase
  cases kind <;> decide

/-- What linking reports is about imports. -/
lemma Registered.bearsOut_of_link (h : d.Registered) (bare : ∀ c ∈ d.covers, c.2 = [])
    {d' : Draft} {p : Problem} (hp : p ∈ d.link.mib.problems.toList) :
    p ∈ d.mib.problems.toList ∨ d'.BearsOut p := by
  obtain ⟨reports, problems, fits, -⟩ := h.exists_accounts bare
  rw [problems] at hp
  rcases List.mem_append.1 hp with hp | hp
  · exact .inl hp
  · obtain ⟨q, hq, rfl⟩ := List.mem_map.1 hp
    have kind : (q.problem d.policy).kind.hasSubject = false := by
      cases (fits q hq).2.2 <;> rfl
    exact .inr (bearsOut_of_none rfl rfl kind)

/-- What registration reports is about files, modules, and definitions whose names are taken. -/
lemma Enrolled.bearsOut {paths : List String} {files : List ParsedFile} {os : List Offer}
    (h : Enrolled paths (unreadable files) os d) {d' : Draft} (same : d'.registry = d.registry)
    (registered : d'.Registered) (agree : QueriesAgree d'.mib d'.scope) {p : Problem}
    (hp : p ∈ d.mib.problems.toList) (phase : p.kind.phase = .registration) : d'.BearsOut p := by
  have mem : p ∈ d.problemsOf p.kind := List.mem_filter.2 ⟨hp, decide_eq_true rfl⟩
  cases kind : p.kind with
  | parseFailure =>
    rw [kind, h.failures] at mem
    obtain ⟨f, -, unread⟩ := List.mem_filterMap.1 mem
    obtain ⟨failure, -, rfl⟩ := Option.map_eq_some_iff.1 unread
    exact bearsOut_of_none rfl rfl rfl
  | duplicateModule =>
    rw [kind, h.copies] at mem
    obtain ⟨o, -, rfl⟩ := List.mem_map.1 mem
    exact bearsOut_of_none rfl rfl rfl
  | duplicateDefinition =>
    have definitions := definitions_of_registry same
    rw [kind, h.refusals, ← definitions, ← modules_of_registry same] at mem
    obtain ⟨⟨x, first⟩, hx, rfl⟩ := List.mem_map.1 mem
    have listed := (fst_doublesBy_sublist slot d'.definitions).subset (List.mem_map_of_mem hx)
    obtain ⟨_, _, found⟩ := mem_doublesBy.1 hx
    obtain ⟨i, j, hi, hj, lt, eq⟩ := exists_lt_of_mem_doublesBy hx
    obtain ⟨-, rfl⟩ := registered.definitions.getElem?_definitions_iff.1 hi
    obtain ⟨before, rfl⟩ := registered.definitions.getElem?_definitions_iff.1 hj
    have module :=
      h.module?_nameIn (h.registered.index_lt_of_mem_definitions (definitions ▸ listed))
    refine registered.bearsOut_refusal agree listed ⟨first, before, lt, eq⟩
      (find?_of_find?_take found) ?_
    rwa [module?_of_registry same, modules_of_registry same]
  | _ =>
    rw [kind] at phase
    cases phase

section Run

variable (policy : Policy) (files : List ParsedFile)

/-- The modules of a built draft are the admitted ones, entered in order. -/
lemma modules_built : (built policy files).modules.toList = entered (admitted policy files) := by
  rw [modules_of_registry (continues_built policy files).registry, ← firstsBy_generated]
  exact (enrolled_register policy files (.new .error)).modules

/-- In a built draft the model and the scope answer alike. -/
lemma queriesAgree_built : QueriesAgree (built policy files).mib (built policy files).scope := by
  rw [built_eq_after]
  exact (namesAgree_after ..).queriesAgree (closed_after ..) (numbered_after ..)

/-- What is reported about a definition between registration and the tree is borne out. -/
lemma bearsOut_built_of_about (same : (built policy files).registry = d.registry) {p : Problem}
    (about : ∃ x ∈ d.definitions, ∃ f : Finding,
      (f.kind.phase = .types ∨ f.kind.phase = .oids) ∧ p = d.problemAbout f x.1) :
    (built policy files).BearsOut p := by
  have s := stages_built policy files
  obtain ⟨x, hx, f, phase, rfl⟩ := about
  obtain ⟨subject, alone⟩ := hasSubject_of_phase phase
  rw [← problemAbout_of_registry same]
  refine (s.registered.of_continues s.continues).bearsOut_problemAbout (x := x) ?_ subject alone
  rwa [definitions_of_registry same]

/-- A run reports nothing that its last draft does not bear out. -/
lemma bearsOut_built {p : Problem} (hp : p ∈ (built policy files).mib.problems.toList) :
    (built policy files).BearsOut p := by
  have s := stages_built policy files
  have enrolled : Enrolled _ _ _ (Draft.registered policy files) := enrolled_register policy files _
  have registered := s.registered.of_continues s.continues
  obtain ⟨new, recorded, registration⟩ :=
    (registers_register (.new policy) files (.new .error)).reports
  have untyped := s.untyped.continues (.new .error)
  have pending := s.untyped.oidsPending (.new .error)
  have numbered := untyped.trans (pending.continues (r := .new .error))
  rw [s.finalizes.problems] at hp
  rcases List.mem_append.1 hp with hp | hp
  · rcases pending.exists_of_mem_problems hp with hp | ⟨x, hx, f, phase, rfl⟩
    · rcases s.untyped.exists_of_mem_problems hp with hp | ⟨x, hx, f, phase, rfl⟩
      · rcases enrolled.registered.bearsOut_of_link (bare_after policy [files] (.new .error)) hp
          with hp | out
        · refine enrolled.bearsOut (continues_built policy files).registry registered
            (queriesAgree_built policy files) hp ?_
          · have mem : p ∈ [] ++ new := (congrArg (p ∈ ·) recorded).mp hp
            exact registration p mem
        · exact out
      · exact bearsOut_built_of_about policy files s.continues.registry ⟨x, hx, f, .inl phase, rfl⟩
    · refine bearsOut_built_of_about policy files ?_ ⟨x, hx, f, .inr phase, rfl⟩
      exact s.continues.registry.trans untyped.registry.symm
  · obtain ⟨claim, hc, hp⟩ := List.mem_flatMap.1 hp
    exact s.finalizes.bearsOut (s.registered.of_continues numbered) hc hp

end Run

end Draft

/-- After every run a problem has a subject if its kind calls for one and another side only in a
contest, stands where its subject was written, and sets it against the definition that its name
finds, or against another one of its OID. -/
theorem Pipeline.bearsOut_runParsed (p : Pipeline) (files : List ParsedFile) :
    modelOf (p.runParsed files).1 = some (Draft.built p.policy files).mib ∧
      (Draft.built p.policy files).modules.toList = Draft.entered (Draft.admitted p.policy files) ∧
      ∀ q ∈ (Draft.built p.policy files).mib.problems.toList,
        (Draft.built p.policy files).BearsOut q := by
  refine ⟨?_, Draft.modules_built p.policy files, fun q hq => Draft.bearsOut_built _ _ hq⟩
  rw [modelOf_runParsed, resolve_eq_told]

end MibCorpus
