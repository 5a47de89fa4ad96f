import MibCorpus.Proofs.EmbeddedVerdicts
import MibCorpus.Proofs.OidPhase

/-!
# Embedded OID values

The rules derive the same OIDs for the definitions that embedded drafts keep, so the sweeps leave
the same entries of those over, whatever else they work on.
-/

namespace MibCorpus

/-- The module in front of the name that an anchor is. -/
def Anchor.qualifier? : Anchor → Option String
  | arc _ => none
  | name qualifier _ => qualifier

/-- The qualifier of a component is that of its reference. -/
lemma OidComponent.qualifier?_of_reference? {c : OidComponent} {q : Option String} {n : String}
    (h : c.reference? = some (q, n)) : c.qualifier? = q := by
  cases c <;> simp_all [reference?, qualifier?]

/-- The anchor of a value has the qualifier of its first component. -/
lemma OidValue.qualifier?_anchorOf (c : OidComponent) : (anchorOf c).qualifier? = c.qualifier? := by
  cases c <;> rfl

/-- The module in front of a name of an OID value is written in the definition. -/
lemma Definition.mem_qualifiers_of_oid {x : Definition} {cs : List OidComponent} {c : OidComponent}
    (written : x.oid? = some cs) (hc : c ∈ cs) {q : String} (hq : c.qualifier? = some q) :
    q ∈ x.qualifiers := by
  refine List.mem_append_right _ (List.mem_filterMap.2 ⟨c, ?_, hq⟩)
  rw [written]
  exact hc

namespace Renaming

/-- An entry, renamed. -/
def entry (σ : Renaming) (e : OidEntry) : OidEntry :=
  ⟨σ.assignment e.assignment, σ.module e.module, e.value⟩

/-- What an anchor stands for, renamed. -/
def base (σ : Renaming) : OidBase → OidBase
  | .ready o => .ready o
  | .waiting a => .waiting (σ.assignment a)
  | .missing => .missing

/-- Why an entry got no OID, renamed. -/
def failure (σ : Renaming) : Draft.OidFailure → Draft.OidFailure
  | .cycle => .cycle
  | .behindCycle member => .behindCycle (σ.assignment member)
  | .missing last => .missing (σ.assignment last)

end Renaming

namespace Draft

variable {σ : Renaming} {τ : Equiv.Perm TypeId} {d d' : Draft}

/-! ## What the rules derive -/

/-- An OID value that is kept is written alike. -/
lemma Embeds.writtenAs_iff (h : Embeds σ d d') {i : AssignmentId} {m : ModuleId} {x : Definition}
    (hx : d.Keeps i m x) {m' : ModuleId} {c : OidComponent} {arcs : List Arc} :
    d'.WrittenAs (σ.assignment i) m' c arcs ↔ m' = σ.module m ∧ d.WrittenAs i m c arcs := by
  have hx' := h.keeps_renamed hx
  constructor
  · rintro ⟨y, cs, hy, rest⟩
    obtain ⟨rfl, rfl⟩ : σ.module m = m' ∧ x = y := by simpa using hx'.1.symm.trans hy
    exact ⟨rfl, x, cs, hx.1, rest⟩
  · rintro ⟨rfl, y, cs, hy, rest⟩
    obtain rfl : x = y := by simpa using hx.1.symm.trans hy
    exact ⟨x, cs, hx'.1, rest⟩

/-- The module in front of the first name of an OID value is mentioned. -/
lemma Registered.mentioned_of_writtenAs (h : d.Registered) {i : AssignmentId} {m : ModuleId}
    {c : OidComponent} {arcs : List Arc} (written : d.WrittenAs i m c arcs) {q : Option String}
    {name : String} (first : c.reference? = some (q, name)) : d.Mentioned m q := by
  obtain ⟨x, cs, hx, oid, -⟩ := written
  refine h.mentioned_of_origin hx fun n hn => ?_
  refine x.mem_qualifiers_of_oid oid (List.mem_cons_self ..) ?_
  rw [OidComponent.qualifier?_of_reference? first, hn]

/-- An entry is written in the module it is kept in. -/
lemma WrittenAs.module_eq {i : AssignmentId} {m m' : ModuleId} {c : OidComponent} {arcs : List Arc}
    {x : Definition} (written : d.WrittenAs i m c arcs) (hx : d.Keeps i m' x) : m = m' := by
  obtain ⟨y, cs, hy, -⟩ := written
  have same : m = m' ∧ y = x := by simpa using hy.symm.trans hx.1
  exact same.1

/-- What the rules derive for a definition that is kept, they derive in the larger draft. -/
lemma Embeds.oidDerivable (h : Embeds σ d d') (scope : Scope.Embeds σ d.HasModule d.scope d'.scope)
    {i : AssignmentId} {o : Oid} (derivable : d.OidDerivable i o) (kept : d.Kept i) :
    d'.OidDerivable (σ.assignment i) o := by
  induction derivable with
  | arc written first =>
    obtain ⟨m, x, hx⟩ := kept
    obtain rfl := written.module_eq hx
    exact .arc ((h.writtenAs_iff hx).2 ⟨rfl, written⟩) first
  | named written first found _ ih =>
    obtain ⟨m, x, hx⟩ := kept
    obtain rfl := written.module_eq hx
    have mentioned := h.registered.mentioned_of_writtenAs written first
    refine .named ((h.writtenAs_iff hx).2 ⟨rfl, written⟩) first ?_
      (ih (h.registered.definitions.kept_of_resolveFrom found))
    rw [h.resolveFrom scope mentioned, found]
    rfl
  | root written first notFound intrinsic =>
    obtain ⟨m, x, hx⟩ := kept
    obtain rfl := written.module_eq hx
    have mentioned := h.registered.mentioned_of_writtenAs written first
    refine .root ((h.writtenAs_iff hx).2 ⟨rfl, written⟩) first ?_ intrinsic
    rw [h.resolveFrom scope mentioned, notFound]
    rfl

/-- The larger draft derives nothing else for a definition that is kept. -/
lemma Embeds.of_oidDerivable (h : Embeds σ d d')
    (scope : Scope.Embeds σ d.HasModule d.scope d'.scope) {j : AssignmentId} {o : Oid}
    (derivable : d'.OidDerivable j o) {i : AssignmentId} (hj : j = σ.assignment i)
    (kept : d.Kept i) : d.OidDerivable i o := by
  induction derivable generalizing i with
  | arc written first =>
    obtain ⟨m, x, hx⟩ := kept
    subst hj
    exact .arc ((h.writtenAs_iff hx).1 written).2 first
  | named written first found _ ih =>
    obtain ⟨m, x, hx⟩ := kept
    subst hj
    obtain ⟨rfl, here⟩ := (h.writtenAs_iff hx).1 written
    rw [h.resolveFrom scope (h.registered.mentioned_of_writtenAs here first)] at found
    -- What is found in the larger draft is the counterpart of what is found in the smaller one.
    cases hf : d.scope.resolveFrom m _ _ with
    | notFound | ambiguous =>
      rw [hf] at found
      cases found
    | found y =>
      rw [hf] at found
      refine .named here first hf (ih ?_ (h.registered.definitions.kept_of_resolveFrom hf))
      exact (Lookup.found.inj found).symm
  | root written first notFound intrinsic =>
    obtain ⟨m, x, hx⟩ := kept
    subst hj
    obtain ⟨rfl, here⟩ := (h.writtenAs_iff hx).1 written
    rw [h.resolveFrom scope (h.registered.mentioned_of_writtenAs here first)] at notFound
    refine .root here first ?_ intrinsic
    cases hf : d.scope.resolveFrom m none _ with
    | notFound => rfl
    | found | ambiguous =>
      rw [hf] at notFound
      cases notFound

/-- The rules derive the same OIDs for a definition that is kept. -/
theorem Embeds.oidDerivable_iff (h : Embeds σ d d')
    (scope : Scope.Embeds σ d.HasModule d.scope d'.scope) {i : AssignmentId} {o : Oid}
    (kept : d.Kept i) : d'.OidDerivable (σ.assignment i) o ↔ d.OidDerivable i o :=
  ⟨fun derivable => h.of_oidDerivable scope derivable rfl kept,
    fun derivable => h.oidDerivable scope derivable kept⟩

/-! ## Written OID values -/

/-- The entry of a definition, if its OID value has no defect. -/
def entryOf (x : OwnedDefinition) : Option OidEntry :=
  x.2.2.oid?.bind fun cs =>
    match OidValue.ofComponents cs with
    | .ok value => some ⟨x.1, x.2.1, value⟩
    | .error _ => none

/-- What is wrong with the OID value of a definition. -/
def oidDefect? (x : OwnedDefinition) : Option Finding :=
  x.2.2.oid?.bind fun cs =>
    match OidValue.ofComponents cs with
    | .ok _ => none
    | .error defect => some (defect.finding x.2.2.name)

/-- The OID entries are those of the included definitions, in order. -/
lemma oidEntries_eq (d : Draft) : d.oidEntries = d.included.filterMap entryOf := by
  rw [oidEntries, writtenOids_eq, List.filterMap_filterMap]
  refine List.filterMap_congr fun x _ => ?_
  rw [entryOf]
  cases x.2.2.oid? <;> rfl

/-- The defects of OIDs are those of the included definitions, in order. -/
lemma oidDefects_eq (d : Draft) :
    d.oidDefects = d.included.filterMap fun x => (oidDefect? x).map (x.1, ·) := by
  rw [oidDefects, writtenOids_eq, List.filterMap_filterMap]
  refine List.filterMap_congr fun x _ => ?_
  rw [oidDefect?]
  cases x.2.2.oid? with
  | none => rfl
  | some cs =>
    simp only [Option.map_some, Option.bind_some]
    cases OidValue.ofComponents cs <;> rfl

/-- The OID entry of a renamed definition is the renamed entry. -/
lemma entryOf_renamed (x : OwnedDefinition) : entryOf (renamed σ x) = (entryOf x).map σ.entry := by
  rw [entryOf, entryOf, Option.map_bind]
  refine Option.bind_congr fun cs _ => ?_
  rw [Function.comp_apply]
  cases OidValue.ofComponents cs <;> rfl

/-- Renaming a definition keeps the defect of its OID. -/
lemma oidDefect?_renamed (x : OwnedDefinition) : oidDefect? (renamed σ x) = oidDefect? x := rfl

/-- A definition's OID entry is that of its own assignment. -/
lemma assignment_of_entryOf {x : OwnedDefinition} {e : OidEntry} (h : entryOf x = some e) :
    e.assignment = x.1 := by
  obtain ⟨cs, -, h⟩ := Option.bind_eq_some_iff.1 h
  split at h <;> cases h
  rfl

/-- The entry of an included definition is the one that the sweeps work on for it. -/
lemma filter_oidEntries {x : OwnedDefinition} (hx : x ∈ d.included) :
    d.oidEntries.filter (·.assignment = x.1) = (entryOf x).toList := by
  rw [oidEntries_eq, List.filterMap_eq_flatMap_toList]
  refine filter_flatMap_eq (fun y _ e he => ?_) d.nodup_included hx
  exact assignment_of_entryOf (Option.mem_toList.1 he)

/-- The entries that the sweeps leave over come definition by definition. -/
lemma OidsPending.swept_eq (h : d.OidsPending) (r : Recorder) :
    (d.sweptOids r).1 =
      d.included.flatMap fun x => (d.sweptOids r).1.filter (·.assignment = x.1) := by
  have sub := (h.assigns (r := r)).pending
  rw [oidEntries_eq, List.filterMap_eq_flatMap_toList] at sub
  refine eq_flatMap_filter (fun y _ e he => ?_) d.nodup_included sub
  exact assignment_of_entryOf (Option.mem_toList.1 he)

/-- What the sweeps leave over of the entries of a definition is known from the rules. -/
lemma OidsPending.filter_swept (h : d.OidsPending) (r : Recorder) {x : OwnedDefinition}
    (hx : x ∈ d.included) [Decidable (∃ o, d.OidDerivable x.1 o)] :
    (d.sweptOids r).1.filter (·.assignment = x.1) =
      if ∃ o, d.OidDerivable x.1 o then [] else (entryOf x).toList := by
  have sub : ((d.sweptOids r).1.filter (·.assignment = x.1)).Sublist (entryOf x).toList := by
    rw [← filter_oidEntries hx]
    exact (h.assigns (r := r)).pending.filter _
  have nodup : (entryOf x).toList.Nodup := by
    cases entryOf x <;> simp
  have left := eq_filter_of_sublist (p := fun _ => !decide (∃ o, d.OidDerivable x.1 o)) sub nodup
    fun e he => by
      have own := assignment_of_entryOf (Option.mem_toList.1 he)
      have entry : e ∈ d.oidEntries := by
        rw [oidEntries_eq]
        exact List.mem_filterMap.2 ⟨x, hx, Option.mem_toList.1 he⟩
      simp [h.mem_swept_iff, entry, own]
  rw [left]
  split
  next derivable => simp [derivable]
  next none => simp [none]

section EmbedsTyped

/-- Before the OIDs are resolved the included definitions are exactly the kept ones. -/
lemma OidsPending.mem_included_iff (h : d.OidsPending) {x : OwnedDefinition} :
    x ∈ d.included ↔ d.Keeps x.1 x.2.1 x.2.2 := by
  rw [included, List.mem_filter, mem_definitions, Keeps]
  refine and_congr_right fun hx => ?_
  rw [h.isIncluded_iff hx]
  simp

/-- A definition that is kept is included, and so is its counterpart. -/
lemma EmbedsTyped.included (h : EmbedsTyped σ τ d d') {i : AssignmentId} (hi : d.Kept i) :
    ∃ m x, (i, m, x) ∈ d.included ∧ renamed σ (i, m, x) ∈ d'.included := by
  obtain ⟨m, x, hx⟩ := hi
  exact ⟨m, x, h.pending.mem_included_iff.2 hx,
    h.pending'.mem_included_iff.2 (h.embeds.keeps_renamed hx)⟩

/-- The sweeps leave the same entries over for a definition that is kept. -/
lemma EmbedsTyped.filter_swept (h : EmbedsTyped σ τ d d') (r r' : Recorder) {i : AssignmentId}
    (hi : d.Kept i) : (d'.sweptOids r').1.filter (·.assignment = σ.assignment i) =
      ((d.sweptOids r).1.filter (·.assignment = i)).map σ.entry := by
  classical
  have derivable : (∃ o, d'.OidDerivable (σ.assignment i) o) ↔ ∃ o, d.OidDerivable i o :=
    exists_congr fun o => h.embeds.oidDerivable_iff h.scope hi
  obtain ⟨m, x, included, included'⟩ := h.included hi
  have here := h.pending.filter_swept r included
  have there := h.pending'.filter_swept r' included'
  rw [entryOf_renamed] at there
  simp only [renamed, derivable] at here there
  rw [here]
  refine there.trans ?_
  split
  · rfl
  · cases entryOf (i, m, x) <;> rfl

end EmbedsTyped

end Draft

end MibCorpus
