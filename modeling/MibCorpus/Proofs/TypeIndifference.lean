import MibCorpus.Proofs.OidsAlike

/-!
# Types cost no OID

What is written as SYNTAX decides which types are broken, and typing leaves that in the states of
the assignments. The OIDs are resolved in the same model afterwards and do not depend on it: corpora
that differ only in their SYNTAX clauses, and in the spans that these move, get the same OIDs, the
same tree and the same problems, apart from those about types. An assignment with an OID is degraded
by a broken type and nothing more.
-/

namespace MibCorpus

/-- The two states are the same, or one is resolved in full and the other degraded. -/
def ResolutionState.SameButDegraded (s s' : ResolutionState) : Prop :=
  s' = s ∨ s = .resolved ∧ s' = .degraded ∨ s = .degraded ∧ s' = .resolved

/-- Models that agree in everything but types, what types do to the states, and where in the text
things are. -/
structure Mib.AgreesApartFromTypes (mib mib' : Mib) : Prop where
  /-- The same assignments are there, in the same order, … -/
  headings : mib'.assignments.map (·.heading.withoutSpan) =
    mib.assignments.map (·.heading.withoutSpan)
  /-- … of the same names … -/
  names : mib'.qualifiedName = mib.qualifiedName
  /-- … and with the same OIDs. -/
  oids : mib'.assignments.map (·.oid) = mib.assignments.map (·.oid)
  /-- Those that can have an OID are in the same states, unless a type has degraded one. -/
  states : ∀ i a a', mib.assignment? i = some a → mib'.assignment? i = some a' → a.kind.hasOid →
    a.state.SameButDegraded a'.state
  /-- The trees are the same, with all that their nodes stand for. -/
  canopy : mib'.canopy = mib.canopy
  /-- The same is reported about other things than types. -/
  problems : mib'.problemsApartFromTypes = mib.problemsApartFromTypes

/-- A rendered problem does not say where in the text it is, so the problems are rendered alike. -/
lemma Mib.AgreesApartFromTypes.rendered {mib mib' : Mib} (h : mib.AgreesApartFromTypes mib') :
    (mib'.problems.toList.filter (·.kind ∉ ProblemKind.ofTypes)).map toString =
      (mib.problems.toList.filter (·.kind ∉ ProblemKind.ofTypes)).map toString := by
  have read : ∀ mib : Mib,
      (mib.problems.toList.filter (·.kind ∉ ProblemKind.ofTypes)).map toString =
        mib.problemsApartFromTypes.map toString := by
    intro mib
    rw [problemsApartFromTypes, List.filter_map, List.map_map]
    rfl
  rw [read, read, h.problems]

/-- States that are the same as far as OIDs depend on them differ at most in degrading. -/
lemma Assignment.sameButDegraded_of_oidState {a a' : Assignment} (same : a'.oidState = a.oidState)
    (kind : a'.kind = a.kind) (hasOid : a.kind.hasOid) : a.state.SameButDegraded a'.state := by
  have value : a.kind.isType = false := by simpa [AssignmentKind.hasOid] using hasOid
  simp only [oidState, kind, value] at same
  unfold ResolutionState.SameButDegraded
  cases hs : a.state <;> cases hs' : a'.state <;> simp_all

namespace Draft

variable {d d' : Draft}

/-- Drafts that have the same OIDs have models that agree apart from types. -/
lemma OidsAlike.agreesApartFromTypes (h : OidsAlike d d') : d.mib.AgreesApartFromTypes d'.mib where
  headings := by
    have same := congrArg (·.map (·.heading.withoutSpan)) h.assignments
    simp only [oidParts, Array.map_map] at same
    exact same
  names := h.qualifiedName
  oids := by
    have same := congrArg (·.map (·.oid)) h.assignments
    simp only [oidParts, Array.map_map] at same
    exact same
  states i a a' ha ha' hasOid := by
    have same := h.assignment? i
    rw [ha, ha', Option.map_some, Option.map_some, Option.some.injEq] at same
    obtain ⟨heading, -, state⟩ := Assignment.oidPart_eq_iff.1 same
    exact Assignment.sameButDegraded_of_oidState state (congrArg (·.kind) heading) hasOid
  canopy := h.canopy
  problems := h.problems

/-- Drafts that differ in SYNTAX alone agree in all that OIDs depend on. -/
lemma OidsAlike.of_withoutSyntax (r : d.Registered) (r' : d'.Registered)
    (same : d.withoutSyntax = d'.withoutSyntax) : OidsAlike d d' where
  registered := r
  registered' := r'
  policy := congrArg (·.policy) same.symm
  scope := congrArg (·.scope) same.symm
  definitions := by rw [← definitions_withoutSyntax d, same, definitions_withoutSyntax]
  captions := by rw [← captions_withoutSyntax d, same, captions_withoutSyntax]
  assignments := by
    rw [← oidParts_withoutSyntax d, same, oidParts_withoutSyntax]
  canopy := congrArg (·.mib.canopy) same.symm
  problems := by
    have erased := congrArg (·.mib.problemsApartFromTypes) same.symm
    rwa [show d.withoutSyntax.mib = d.mib.withoutSpans from rfl,
      show d'.withoutSyntax.mib = d'.mib.withoutSpans from rfl,
      Mib.problemsApartFromTypes_withoutSpans, Mib.problemsApartFromTypes_withoutSpans] at erased

/-- Typing decides the states of types alone, and leaves none of them out. -/
lemma Untyped.oidPart_resolveTypes (h : d.Untyped) (r : Recorder) (i : AssignmentId) :
    ((d.resolveTypes r).1.mib.assignment? i).map (·.oidPart) =
      (d.mib.assignment? i).map (·.oidPart) := by
  have c := h.continues r
  have pending := h.oidsPending r
  have headings := heading_of_registry c.registry i
  cases ha : d.mib.assignment? i with
  | none =>
    rw [ha, Option.map_none, Option.map_eq_none_iff] at headings
    rw [headings]
  | some a =>
    rw [ha, Option.map_some] at headings
    obtain ⟨b, hb, heading⟩ := Option.map_eq_some_iff.1 headings
    obtain ⟨-, oid, state⟩ := h.fresh.undecided i a ha
    have kind : b.kind = a.kind := congrArg (·.kind) heading
    have excluded := pending.excluded i b hb
    have waits := pending.pending i b hb
    rw [isRefused_of_registry c.registry] at excluded waits
    rw [hb, Option.map_some, Option.map_some, Option.some.injEq]
    refine Assignment.oidPart_eq_iff.2
      ⟨congrArg (·.withoutSpan) heading, (pending.bare i b hb).trans oid.symm, ?_⟩
    -- Typing settles type assignments only, and the part shown of these does not tell how.
    cases hr : d.isRefused i with
    | true =>
      have leftOut : a.state = .excluded := by rw [state, hr]; rfl
      rw [(Assignment.oidState_eq_excluded_iff b).2 (excluded.2 hr),
        (Assignment.oidState_eq_excluded_iff a).2 leftOut]
    | false =>
      have undecided : a.state = .pending := by rw [state, hr]; rfl
      have kept : b.state ≠ .excluded := by simp [excluded, hr]
      cases ht : a.kind.isType with
      | true => simp [Assignment.oidState, kind, ht, undecided, kept]
      | false =>
        have same := waits (by rw [AssignmentKind.hasOid, kind, ht]; rfl) hr
        simp [Assignment.oidState, kind, undecided, same]

/-- Typing changes nothing that OIDs depend on. -/
lemma Untyped.oidsAlike (h : d.Untyped) (registered : d.Registered) (r : Recorder) :
    OidsAlike d (d.resolveTypes r).1 where
  registered := registered
  registered' := registered.of_continues (h.continues _)
  policy := policy_of_registry (h.continues _).registry
  scope := scope_resolveTypes h.definitions h.bare
  definitions := by
    rw [definitionsWithoutSyntax, definitionsWithoutSyntax,
      definitions_of_registry (h.continues _).registry]
  captions := registered.captions_of_continues (h.continues _)
  assignments := by
    refine Array.ext_getElem? fun i => ?_
    simp only [oidParts, Array.getElem?_map]
    exact h.oidPart_resolveTypes r ⟨i⟩
  canopy := congrArg Backdrop.canopy (backdrop_resolveTypes d r)
  problems := by
    obtain ⟨new, recorded, types⟩ := h.reports (r := r)
    have about : (new.map (·.withoutSpan)).filter (·.kind ∉ ProblemKind.ofTypes) = [] := by
      refine List.filter_eq_nil_iff.2 (List.forall_mem_map.2 fun p hp => ?_)
      simpa [ProblemKind.mem_ofTypes_iff, Problem.withoutSpan] using types p hp
    rw [Mib.problemsApartFromTypes_append recorded, about, List.append_nil]

/-- No type has an OID after the OID phase. -/
lemma OidsPending.bare_resolveOids (h : d.OidsPending) (r : Recorder) :
    ∀ a ∈ (d.resolveOids r).1.mib.assignments, a.kind.isType → a.oid = none := by
  intro a' ha' isType
  obtain ⟨i, hi⟩ := Array.mem_iff_getElem?.1 ha'
  have hi : (d.resolveOids r).1.mib.assignment? ⟨i⟩ = some a' := hi
  have headings := heading_of_registry (h.continues (r := r)).registry ⟨i⟩
  rw [hi, Option.map_some] at headings
  obtain ⟨a, ha, heading⟩ := Option.map_eq_some_iff.1 headings.symm
  have kind : a.kind = a'.kind := congrArg (·.kind) heading
  have value : a.kind.hasOid = false := by rw [AssignmentKind.hasOid, kind, isType]; rfl
  obtain ⟨b, hb, outcome⟩ := h.outcome (r := r) ha
  obtain rfl : a' = b := by simpa using hi.symm.trans hb
  cases outcome with
  | untouched => rw [oid_degradeByType, h.bare _ a ha]
  | broken hasOid => simp [value] at hasOid
  | assigned hasOid => simp [value] at hasOid

/-- Runs on corpora that differ in SYNTAX alone end in drafts that agree in all that OIDs depend
on. -/
theorem oidsAlike_built (policy : Policy) {files files' : List ParsedFile}
    (same : files.map (·.withoutSyntax) = files'.map (·.withoutSyntax)) :
    OidsAlike (built policy files) (built policy files') := by
  have s := stages_built policy files
  have s' := stages_built policy files'
  have linked : OidsAlike (linked policy files) (linked policy files') :=
    .of_withoutSyntax s.registered s'.registered (linked_withoutSyntax policy same)
  -- What the types of either corpus come to is left behind on the way from one to the other.
  have typed : OidsAlike (typed policy files) (typed policy files') :=
    ((s.untyped.oidsAlike s.registered _).symm.trans linked).trans
      (s'.untyped.oidsAlike s'.registered _)
  exact (typed.resolveOids _ _).finalize ((s.untyped.oidsPending _).bare_resolveOids _)
    ((s'.untyped.oidsPending _).bare_resolveOids _)

end Draft

namespace Pipeline

/-- Corpora that differ only in the SYNTAX of their definitions, and in the spans that this moves,
get the same OIDs, the same tree and the same problems, apart from those about types; what has an
OID differs at most in whether its type has degraded it. -/
theorem agreesApartFromTypes_runParsed (p : Pipeline) {files files' : List ParsedFile}
    (same : files.map (·.withoutSyntax) = files'.map (·.withoutSyntax)) :
    ∃ mib mib', modelOf (p.runParsed files).1 = some mib ∧
      modelOf (p.runParsed files').1 = some mib' ∧ mib.AgreesApartFromTypes mib' := by
  refine ⟨_, _, modelOf_runParsed p files, modelOf_runParsed p files', ?_⟩
  rw [resolve_eq_told, resolve_eq_told]
  exact (Draft.oidsAlike_built p.policy same).agreesApartFromTypes

/-- A file with two types of some length, an object of the first, and below it an object of the
second. -/
def twoTypes (length : Nat) (first second : TypeSyntax) : List ParsedFile :=
  [⟨"a.mib", .ok [⟨"A-MIB", [], [⟨"T", .type first none .current, ⟨0, length⟩⟩,
    ⟨"U", .textualConvention second none .current, ⟨length, 2 * length⟩⟩,
    ⟨"top", .objectType (.named "T") .readOnly .current [.arc 1, .arc 5],
      ⟨2 * length, 2 * length + 40⟩⟩,
    ⟨"lower", .objectType (.named "U") .readOnly .current [.name "top", .arc 2],
      ⟨2 * length + 40, 2 * length + 80⟩⟩],
    ⟨0, 2 * length + 80⟩⟩]⟩]

/-- A type that names nothing and one that is circular change no OID. -/
theorem agreesApartFromTypes_runParsed_twoTypes :
    (twoTypes 20 (.named "Nothing") (.named "U")).map (·.withoutSyntax) =
        (twoTypes 30 .integer .octetString).map (·.withoutSyntax) ∧
      ∃ mib mib',
        modelOf ((new .usual .info).runParsed (twoTypes 20 (.named "Nothing") (.named "U"))).1 =
          some mib ∧
        modelOf ((new .usual .info).runParsed (twoTypes 30 .integer .octetString)).1 = some mib' ∧
        mib.AgreesApartFromTypes mib' :=
  ⟨rfl, agreesApartFromTypes_runParsed (new .usual .info) rfl⟩

/-- The two objects are resolved in full in one corpus and degraded in the other. -/
example :
    let outcomes := fun files => (Draft.built .usual files).mib.assignments.toList.map fun a =>
      (a.oid.map Oid.dotted, a.state)
    outcomes (twoTypes 20 (.named "Nothing") (.named "U")) = [(none, .unresolved),
        (none, .degraded), (some "1.5", .degraded), (some "1.5.2", .degraded)] ∧
      outcomes (twoTypes 30 .integer .octetString) = [(none, .resolved), (none, .resolved),
        (some "1.5", .resolved), (some "1.5.2", .resolved)] := by
  decide +kernel

end Pipeline

end MibCorpus
