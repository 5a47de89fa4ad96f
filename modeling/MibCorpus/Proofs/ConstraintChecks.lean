import MibCorpus.Proofs.References
import MibCorpus.Proofs.RenderedBlocks

/-!
# What becomes of constraints

At the end of a run a constraint stands on its node with the ranges that pass the check, and there
is one problem about each other range. A constraint that stands directly before another one shares
its node with that and is replaced, whatever the other one leaves.
-/

namespace MibCorpus

/-! ## Complaints -/

/-- The complaints about the ranges in some constraints of `owner`. -/
def complaintsAbout (owner : String) (cs : List WrittenConstraint) : List Finding :=
  cs.flatMap fun c => c.failed.map (·.complaint owner c.isSize)

/-- The complaints about two lists of constraints are those about the one, then the other. -/
@[simp]
lemma complaintsAbout_append (owner : String) (cs cs' : List WrittenConstraint) :
    complaintsAbout owner (cs ++ cs') = complaintsAbout owner cs ++ complaintsAbout owner cs' :=
  List.flatMap_append

/-- The complaints about the ranges in a definition. -/
def Definition.complaints (x : Definition) : List Finding := complaintsAbout x.name x.constraints

section

variable (ι : String → StrId) (owner : String) (o : TypeOwner)

mutual

/-- Lowering a SYNTAX finds the ranges that fail. -/
lemma defects_syntaxBlock : ∀ (s : TypeSyntax) (k : Nat),
    (syntaxBlock ι owner o s k).2.defects = complaintsAbout owner s.constraints
  | .named _, _ | .qualified .., _ | .integer, _ | .octetString, _ | .objectIdentifier, _
  | .enumeration _, _ | .bits _, _ => rfl
  | .constrained base c, k => by
    have inner := defects_syntaxBlock base k
    have last : complaintsAbout owner [c] = c.failed.map (·.complaint owner c.isSize) :=
      List.flatMap_singleton ..
    rw [TypeSyntax.constraints, complaintsAbout_append, ← inner, last, ← c.filterMap_rangeDefect?]
    rfl
  | .sequence fields, k | .choice fields, k => by
    have inner := defects_fieldsBlock fields k
    simpa [syntaxBlock, Block.append, Block.node, TypeSyntax.constraints] using inner
  | .sequenceOf element, k => by
    have inner := defects_syntaxBlock element k
    simpa [syntaxBlock, Block.append, Block.node, TypeSyntax.constraints] using inner

/-- Lowering some fields finds the ranges that fail. -/
lemma defects_fieldsBlock : ∀ (fields : List (String × TypeSyntax)) (k : Nat),
    (fieldsBlock ι owner o fields k).2.defects =
      complaintsAbout owner (TypeSyntax.fieldConstraints fields)
  | [], _ => rfl
  | (_, body) :: rest, k => by
    have head := defects_syntaxBlock body k
    have tail := defects_fieldsBlock rest (k + (syntaxBlock ι owner o body k).2.length)
    simp only [fieldsBlock, Block.append, head, tail, TypeSyntax.fieldConstraints,
      complaintsAbout_append]

end

end

/-- Lowering a definition finds the ranges that fail. -/
lemma defects_definitionBlock (ι : String → StrId) (o : TypeOwner) (x : Definition) (k : Nat) :
    (definitionBlock ι o x k).2.defects = x.complaints := by
  obtain ⟨name, clauses, span⟩ := x
  cases clauses with
  | type body hint? status => exact defects_syntaxBlock ι name o body k
  | textualConvention body hint? status =>
    refine Eq.trans ?_ (defects_syntaxBlock ι name o body k)
    simp [definitionBlock, Block.modify, Block.append, Block.node]
  | objectType body access status oid => exact defects_syntaxBlock ι name o body k
  | value | objectIdentity | moduleIdentity | notification => rfl

/-- The blocks of a layout have the defects of their definitions. -/
lemma flatMap_defects_layout {β : Type} (f : AssignmentId → Finding → β) (ι : String → StrId)
    (xs : List OwnedDefinition) (k : Nat) :
    ((layout ι xs k).flatMap fun b => b.block.defects.map (f b.owner.assignment)) =
      xs.flatMap fun x => x.2.2.complaints.map (f x.1) := by
  induction xs generalizing k with
  | nil => rfl
  | cons x xs ih =>
    obtain ⟨a, m, x⟩ := x
    simp only [layout, List.flatMap_cons, defects_definitionBlock, ih]

/-! ## Places of constraints -/

namespace TypeSyntax

variable {s s' : TypeSyntax} {p : SyntaxPlace} {step : SyntaxStep}

/-- The constraints of a field are among those of its list. -/
lemma constraints_subset_of_getElem? {fields : List (String × TypeSyntax)} {i : Nat}
    {x : String × TypeSyntax} (h : fields[i]? = some x) :
    x.2.constraints ⊆ fieldConstraints fields := by
  induction fields generalizing i with
  | nil => cases h
  | cons y fields ih =>
    cases i with
    | zero =>
      cases h
      exact List.subset_append_left _ _
    | succ i => exact List.Subset.trans (ih h) (List.subset_append_right _ _)

/-- The constraints of a part are among those of the whole. -/
lemma constraints_subset_of_part? (h : s.part? step = some s') :
    s'.constraints ⊆ s.constraints := by
  cases s with
  | constrained base c =>
    cases step <;> cases h
    exact List.subset_append_left _ _
  | sequenceOf element =>
    cases step <;> cases h
    exact List.Subset.refl _
  | sequence fields | choice fields =>
    cases step with
    | member i =>
      obtain ⟨x, hx, rfl⟩ := Option.map_eq_some_iff.1 h
      exact constraints_subset_of_getElem? hx
    | base | element => cases h
  | _ => cases step <;> cases h

/-- The constraints at a place are among all constraints. -/
lemma constraints_subset_of_at? (h : s.at? p = some s') : s'.constraints ⊆ s.constraints := by
  induction p generalizing s with
  | nil =>
    cases h
    exact List.Subset.refl _
  | cons step p ih =>
    obtain ⟨s₁, hs₁, h⟩ := Option.bind_eq_some_iff.1 h
    exact List.Subset.trans (ih h) (constraints_subset_of_part? hs₁)

/-- A constraint written at a place is among the constraints of the whole. -/
lemma mem_constraints_of_at? {base : TypeSyntax} {c : WrittenConstraint}
    (h : s.at? p = some (.constrained base c)) : c ∈ s.constraints := by
  refine constraints_subset_of_at? h ?_
  rw [constraints]
  exact List.mem_append_right _ (List.mem_singleton_self _)

/-- The place below a place is found in two steps. -/
lemma at?_append (p q : SyntaxPlace) : s.at? (p ++ q) = (s.at? p).bind (·.at? q) := by
  induction p generalizing s with
  | nil => rfl
  | cons step p ih =>
    cases hs : s.part? step with
    | none => simp [at?, hs]
    | some s₁ => simpa [at?, hs] using ih

/-- A covered place lies under constraints, the first of which no other one covers. -/
lemma exists_uncovered (h : s.at? p = some s') (covered : p.IsCovered) :
    ∃ q n base c, p = q ++ .replicate (n + 1) .base ∧ ¬SyntaxPlace.IsCovered q ∧
      s.at? q = some (.constrained base c) := by
  induction p using List.reverseRecOn generalizing s' with
  | nil => cases covered
  | append_singleton q step ih =>
    obtain rfl : step = .base := by simpa [SyntaxPlace.IsCovered] using covered
    rw [at?_append] at h
    obtain ⟨s₁, hs₁, last⟩ := Option.bind_eq_some_iff.1 h
    cases s₁ with
    | constrained base c =>
      by_cases covered : SyntaxPlace.IsCovered q
      · obtain ⟨q', n, base', c', e, free, outer⟩ := ih hs₁ covered
        refine ⟨q', n + 1, base', c', ?_, free, outer⟩
        rw [e, List.append_assoc, List.replicate_succ' (n := n + 1)]
      · exact ⟨q, 0, base, c, rfl, covered, hs₁⟩
    | _ => cases last

end TypeSyntax

/-! ## Runs -/

/-- The SYNTAX of definition `x`, which is assignment `i`, starts at node `root`. -/
def Mib.SyntaxStarts (mib : Mib) (i : AssignmentId) (x : Definition) (root : TypeId) : Prop :=
  ∃ a t, mib.assignment? i = some a ∧ a.type = some t ∧ x.Wraps mib t root

namespace Draft

/-- The constraints of the definitions of draft `linked` have been checked: the last draft has what
passes and complains about the rest. -/
structure ConstraintsChecked (linked final : Draft) : Prop where
  /-- A constraint that no other one covers is on its node with the ranges that pass, in order. -/
  kept : ∀ i m x body, linked.Keeps i m x → x.body? = some body →
    ∃ root, final.mib.SyntaxStarts i x root ∧
      ∀ p base c, body.at? p = some (.constrained base c) → ¬p.IsCovered →
        ∃ u, final.mib.at? root p = some u ∧ final.mib.constraint? u = c.kept? ∧
          (final.mib.constraint? u = none ↔ c.passed = [])
  /-- There is one problem about each range that fails, in order, and no other of the kind. -/
  reports : final.mib.problems.ofKind .rangeConstraintViolation =
    linked.included.flatMap fun x => x.2.2.complaints.map (final.problemAbout · x.1)
  /-- What has been refused is not checked and has no type. -/
  refused : ∀ i m x, linked.owner? i = some (m, x) → linked.isRefused i = true →
    (i, m, x) ∉ linked.included ∧ ∀ a, final.mib.assignment? i = some a → a.type = none
  /-- A range of sizes on any node can hold, unless it is one from `MIN` to a number below zero. -/
  sizes : ∀ t rs, final.mib.constraint? t = some (.size rs) →
    ∀ r ∈ rs, r.CanHold true ∨ r.EndsBelowZero true
  values : ∀ t rs, final.mib.constraint? t = some (.value rs) → ∀ r ∈ rs, r.CanHold false

/-- What becomes of constraint `c` at a place in the SYNTAX of assignment `i`, which starts at node
`root`. -/
structure RangesAccounted (final : Draft) (i : AssignmentId) (owner : String) (body : TypeSyntax)
    (root : TypeId) (p : SyntaxPlace) (c : WrittenConstraint) (u : TypeId) : Prop where
  node : final.mib.at? root p = some u
  all : ∀ r ∈ Lowering.writtenRanges c, r ∈ c.passed ∨ r ∈ c.failed
  reported : ∀ r ∈ c.failed,
    final.problemAbout (r.complaint owner c.isSize) i ∈ final.mib.problems.toList
  present : ¬p.IsCovered → ∀ r ∈ c.passed, ∃ k, final.mib.constraint? u = some k ∧ r ∈ k.ranges
  /-- Under other constraints the node has what the outermost of them leaves. -/
  replaced : p.IsCovered → ∃ q n base' c', p = q ++ .replicate (n + 1) .base ∧
    ¬SyntaxPlace.IsCovered q ∧ body.at? q = some (.constrained base' c') ∧
    final.mib.at? root q = some u ∧ final.mib.constraint? u = c'.kept?

/-- Every range of the constraints in draft `linked` is accounted for in the last draft. -/
structure ConstraintsAccounted (linked final : Draft) : Prop where
  each : ∀ i m x body, linked.Keeps i m x → x.body? = some body →
    ∃ root, final.mib.SyntaxStarts i x root ∧
      ∀ p base c, body.at? p = some (.constrained base c) →
        ∃ u, final.RangesAccounted i x.name body root p c u

section Stages

variable {linked final : Draft} {types oids : Recorder}

/-- The problems about ranges are those that lowering reports. -/
lemma Stages.ofKind_rangeConstraintViolation (s : Stages linked types oids final) :
    final.mib.problems.ofKind .rangeConstraintViolation =
      linked.included.flatMap fun x => x.2.2.complaints.map (final.problemAbout · x.1) := by
  have unbound : ((linked.referenceProblems types).map Prod.snd).filter
      (·.kind == .rangeConstraintViolation) = [] := by
    refine List.filter_eq_nil_iff.2 fun q hq e => ?_
    obtain ⟨⟨p, q⟩, hpq, rfl⟩ := List.mem_map.1 hq
    obtain ⟨f, hf, rfl⟩ := s.untyped.of_mem_referenceProblems hpq
    have kind := beq_iff_eq.1 e
    cases hf <;> cases kind
  have ranges : (linked.blocks.flatMap fun b =>
      b.block.defects.map (linked.problemAbout · b.owner.assignment)) =
      linked.included.flatMap fun x => x.2.2.complaints.map (final.problemAbout · x.1) := by
    have same : ∀ f a, final.problemAbout f a = linked.problemAbout f a :=
      fun f a => problemAbout_of_registry s.continues.registry f a
    simp only [same]
    exact flatMap_defects_layout (fun a f => linked.problemAbout f a) _ _ _
  rw [Problems.ofKind, s.filter_of_types fun p range => by rw [beq_iff_eq.1 range]; rfl,
    List.filter_append, unbound, List.append_nil, ranges]
  refine List.filter_eq_self.2 fun p hp => ?_
  obtain ⟨y, -, hp⟩ := List.mem_flatMap.1 hp
  obtain ⟨f, hf, rfl⟩ := List.mem_map.1 hp
  obtain ⟨c, -, hf⟩ := List.mem_flatMap.1 hf
  obtain ⟨r, -, rfl⟩ := List.mem_map.1 hf
  exact beq_iff_eq.2 (r.kind_complaint _ _)

/-- A constraint on a node is what the check leaves of one that is written. -/
lemma Stages.exists_kept?_of_constraint? (s : Stages linked types oids final) {t : TypeId}
    {k : Constraint} (h : final.mib.constraint? t = some k) :
    ∃ c : WrittenConstraint, c.kept? = some k := by
  obtain ⟨n, hn, hk⟩ := Option.bind_eq_some_iff.1 h
  obtain ⟨b, hb, m, hm, -, constraint, -⟩ := s.exists_laid hn
  obtain ⟨x, -, e⟩ := mem_of_mem_layout hb
  rw [show b.block = _ from congrArg Prod.snd e] at hm
  obtain ⟨plain, isPlain, -, e⟩ := exists_isPlain_of_mem_definitionBlock hm
  rw [constraint, e] at hk
  obtain ⟨c, -, hc⟩ := isPlain.constraint k hk
  exact ⟨c, hc⟩

/-- In each run with a closed model the constraints are checked as stated. -/
lemma Stages.constraintsChecked (s : Stages linked types oids final)
    (closed : final.mib.Closed) : ConstraintsChecked linked final where
  kept i m x body kept hx := by
    obtain ⟨a, t, root, ha, ht, wraps, shows⟩ := s.exists_shows closed kept hx
    refine ⟨root, ⟨a, t, ha, ht, wraps⟩, fun p base c hp free => ?_⟩
    obtain ⟨u, hu, -, constraint⟩ := shows.at? hp
    refine ⟨u, hu, constraint free, ?_⟩
    rw [constraint free]
    exact c.kept?_eq_none_iff
  reports := s.ofKind_rangeConstraintViolation
  refused i m x hx refused :=
    ⟨s.untyped.not_mem_included_of_isRefused refused,
      fun _ => s.type_eq_none_of_isRefused hx refused⟩
  sizes t rs h r hr := by
    obtain ⟨c, hc⟩ := s.exists_kept?_of_constraint? h
    exact c.passes_of_mem_kept? hc hr
  values t rs h r hr := by
    obtain ⟨c, hc⟩ := s.exists_kept?_of_constraint? h
    rcases c.passes_of_mem_kept? hc hr with holds | ⟨size, -⟩
    · exact holds
    · cases size

/-- In each run with a closed model the constraints are accounted for as stated. -/
lemma Stages.constraintsAccounted (s : Stages linked types oids final)
    (closed : final.mib.Closed) : ConstraintsAccounted linked final := by
  refine ⟨fun i m x body kept hx => ?_⟩
  obtain ⟨a, t, root, ha, ht, wraps, shows⟩ := s.exists_shows closed kept hx
  refine ⟨root, ⟨a, t, ha, ht, wraps⟩, fun p base c hp => ?_⟩
  obtain ⟨u, hu, -, constraint⟩ := shows.at? hp
  refine ⟨u, hu, fun r hr => c.mem_passed_or_mem_failed hr, fun r hr => ?_, fun free r hr => ?_,
    fun covered => ?_⟩
  · have written : c ∈ x.constraints := by
      rw [Definition.constraints, hx]
      exact body.mem_constraints_of_at? hp
    have complaint : r.complaint x.name c.isSize ∈ x.complaints :=
      List.mem_flatMap.2 ⟨c, written, List.mem_map_of_mem hr⟩
    refine (List.mem_filter (p := (·.kind == .rangeConstraintViolation))).1 ?_ |>.1
    rw [← Problems.ofKind, s.ofKind_rangeConstraintViolation]
    exact List.mem_flatMap.2 ⟨(i, m, x), s.untyped.mem_included_iff.2 kept,
      List.mem_map_of_mem (f := (final.problemAbout · i)) complaint⟩
  · obtain ⟨k, hk, mem⟩ := c.exists_kept?_of_mem_passed hr
    exact ⟨k, (constraint free).trans hk, mem⟩
  · obtain ⟨q, n, base', c', rfl, free, outer⟩ := TypeSyntax.exists_uncovered hp covered
    obtain ⟨v, hv, -, constraint'⟩ := shows.at? outer
    obtain rfl : v = u := by
      rw [Mib.at?_append, hv, Option.bind_some, Mib.at?_replicate_base] at hu
      exact Option.some.inj hu
    exact ⟨q, n, base', c', rfl, free, outer, hv, constraint' free⟩

end Stages

end Draft

/-! ## Outcomes -/

/-- In every run, a constraint that no other one covers keeps exactly the ranges that pass the
check, in order, there is one problem about each other range, and what passes can hold unless it is
a range of sizes from `MIN` to a number below zero. -/
theorem Pipeline.constraintsChecked_runParsed (p : Pipeline) (files : List ParsedFile) :
    modelOf (p.runParsed files).1 = some (Draft.built p.policy files).mib ∧
      Draft.ConstraintsChecked (Draft.linked p.policy files) (Draft.built p.policy files) := by
  refine ⟨?_, (Draft.stages_built p.policy files).constraintsChecked (Draft.closed_built _ _)⟩
  rw [modelOf_runParsed, resolve_eq_told]

/-- A type with the constraint `c` on sizes or values behind `base`. -/
def constrainedType (base : TypeSyntax) (c : WrittenConstraint) : List ParsedFile :=
  [⟨"a.mib", .ok [⟨"A-MIB", [],
    [⟨"N", .type (.constrained base c) none .current, .synthetic⟩], .synthetic⟩]⟩]

/-- A range of sizes from `MIN` to a number below zero cannot hold, but it is kept and nothing is
reported. -/
theorem Pipeline.kept_sizeBelowZero :
    let files := constrainedType .octetString (.size [⟨.min, some (.signed (-1))⟩])
    let range : ConstraintRange := ⟨.min, .value (-1)⟩
    modelOf ((Pipeline.new .usual .error).runParsed files).1 = some (Draft.built .usual files).mib ∧
      ¬range.CanHold true ∧
      (Draft.built .usual files).mib.constraint? ⟨0⟩ = some (.size [range]) ∧
      (Draft.built .usual files).mib.problems.toList = [] := by
  refine ⟨?_, ?_, by decide +kernel, by decide +kernel⟩
  · rw [modelOf_runParsed, resolve_eq_told]
    rfl
  · exact ConstraintRange.EndsBelowZero.not_canHold ⟨rfl, rfl, rfl⟩

/-- In every run, every range of every constraint is reported or, if no other constraint covers its
constraint, on the node; a constraint that is covered gives way to what the outermost leaves. -/
theorem Pipeline.constraintsAccounted_runParsed (p : Pipeline) (files : List ParsedFile) :
    modelOf (p.runParsed files).1 = some (Draft.built p.policy files).mib ∧
      Draft.ConstraintsAccounted (Draft.linked p.policy files) (Draft.built p.policy files) := by
  refine ⟨?_, (Draft.stages_built p.policy files).constraintsAccounted (Draft.closed_built _ _)⟩
  rw [modelOf_runParsed, resolve_eq_told]

/-- The range of an inner constraint can hold and is not reported, but is lost with the only range
of the constraint behind it. -/
theorem Pipeline.lost_innerRange :
    let inner : WrittenConstraint := .value [⟨.signed 1, some (.signed 5)⟩]
    let outer : WrittenConstraint := .value [⟨.signed 3, some (.signed 2)⟩]
    let files := constrainedType (.constrained .integer inner) outer
    let final := Draft.built .usual files
    modelOf ((Pipeline.new .usual .error).runParsed files).1 = some final.mib ∧
      Lowering.writtenRanges inner = [⟨.value 1, .value 5⟩] ∧
      ConstraintRange.CanHold false ⟨.value 1, .value 5⟩ ∧
      final.mib.type? ⟨0⟩ ≠ none ∧ final.mib.constraint? ⟨0⟩ = none ∧
      final.mib.problems.toList = [final.problemAbout (.unorderedRange "3" "2" "N") ⟨0⟩] := by
  refine ⟨?_, by decide +kernel, ?_, by decide +kernel, by decide +kernel, by decide +kernel⟩
  · rw [modelOf_runParsed, resolve_eq_told]
    rfl
  · refine ⟨?_, nofun⟩
    decide +kernel

end MibCorpus
