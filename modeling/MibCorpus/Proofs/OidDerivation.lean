import MibCorpus.OidValue.Resolution
import MibCorpus.Proofs.Registration

/-!
# Which OIDs there are

Which OID an assignment should have is a matter of rules, not of sweeps: a written arc is where an
OID starts, a name that stands for something with an OID goes on from there, and a name that stands
for nothing may be one of the roots of the notation. The rules give an assignment at most one OID.
-/

namespace MibCorpus

/-- The name that a component is, with the module in front if there is one. -/
def OidComponent.reference? : OidComponent → Option (Option String × String)
  | name n => some (none, n)
  | qualified module n => some (some module, n)
  | arc _ | namedArc _ _ => none

namespace Draft

/-- Assignment `i` is written in module `m` with first component `c` and the arcs behind it. -/
def WrittenAs (d : Draft) (i : AssignmentId) (m : ModuleId) (c : OidComponent) (arcs : List Arc) :
    Prop :=
  ∃ (x : Definition) (cs : List OidComponent), d.owner? i = some (m, x) ∧
    x.oid? = some (c :: cs) ∧ cs.map (·.arc?) = arcs.map some

/-- The OIDs that follow from what is written. -/
inductive OidDerivable (d : Draft) : AssignmentId → Oid → Prop where
  /-- The first component spells out an arc. -/
  | arc {i : AssignmentId} {m : ModuleId} {c : OidComponent} {n : Arc} {arcs : List Arc}
      (written : d.WrittenAs i m c arcs) (first : c.arc? = some n) :
      d.OidDerivable i (Oid.extend ⟨[n]⟩ arcs)
  /-- The first component is a name that is found, and what it stands for has an OID. -/
  | named {i y : AssignmentId} {m : ModuleId} {c : OidComponent} {qualifier : Option String}
      {name : String} {arcs : List Arc} {p : Oid} (written : d.WrittenAs i m c arcs)
      (first : c.reference? = some (qualifier, name))
      (found : d.scope.resolveFrom m qualifier name = .found y) (parent : d.OidDerivable y p) :
      d.OidDerivable i (p.extend arcs)
  /-- The first component is a name that is not found and names a topmost arc. -/
  | root {i : AssignmentId} {m : ModuleId} {c : OidComponent} {name : String} {arcs : List Arc}
      {r : Arc} (written : d.WrittenAs i m c arcs) (first : c.reference? = some (none, name))
      (notFound : d.scope.resolveFrom m none name = .notFound)
      (intrinsic : intrinsicRoot? name = some r) : d.OidDerivable i (Oid.extend ⟨[r]⟩ arcs)

/-- An OID value is written in one way. -/
lemma WrittenAs.unique {d : Draft} {i : AssignmentId} {m m' : ModuleId} {c c' : OidComponent}
    {arcs arcs' : List Arc} (h : d.WrittenAs i m c arcs) (h' : d.WrittenAs i m' c' arcs') :
    m = m' ∧ c = c' ∧ arcs = arcs' := by
  obtain ⟨x, cs, hx, ho, ha⟩ := h
  obtain ⟨y, cs', hy, ho', ha'⟩ := h'
  obtain ⟨rfl, rfl⟩ : m = m' ∧ x = y := by simpa using hx.symm.trans hy
  obtain ⟨rfl, rfl⟩ : c = c' ∧ cs = cs' := by simpa using ho.symm.trans ho'
  refine ⟨rfl, rfl, ?_⟩
  exact List.map_injective_iff.2 (fun _ _ => Option.some.inj) (ha.symm.trans ha')

/-- A component that gives a number does not refer to anything. -/
lemma reference?_of_arc? {c : OidComponent} {n : Arc} (h : c.arc? = some n) :
    c.reference? = none := by
  cases c <;> simp_all [OidComponent.arc?, OidComponent.reference?]

/-- The rules give an assignment at most one OID. -/
theorem OidDerivable.functional {d : Draft} {i : AssignmentId} {o o' : Oid}
    (h : d.OidDerivable i o) (h' : d.OidDerivable i o') : o = o' := by
  -- What an assignment has written decides which rule comes last in both derivations.
  induction h generalizing o' with
  | arc written first =>
    cases h' with
    | arc written' first' =>
      obtain ⟨-, rfl, rfl⟩ := written.unique written'
      cases first.symm.trans first'
      rfl
    | named written' first' =>
      obtain ⟨-, rfl, -⟩ := written.unique written'
      simp [reference?_of_arc? first] at first'
    | root written' first' =>
      obtain ⟨-, rfl, -⟩ := written.unique written'
      simp [reference?_of_arc? first] at first'
  | named written first found parent ih =>
    cases h' with
    | arc written' first' =>
      obtain ⟨-, rfl, -⟩ := written.unique written'
      simp [reference?_of_arc? first'] at first
    | named written' first' found' parent' =>
      obtain ⟨rfl, rfl, rfl⟩ := written.unique written'
      cases first.symm.trans first'
      cases found.symm.trans found'
      rw [ih parent']
    | root written' first' notFound' =>
      obtain ⟨rfl, rfl, -⟩ := written.unique written'
      cases first.symm.trans first'
      cases found.symm.trans notFound'
  | root written first notFound intrinsic =>
    cases h' with
    | arc written' first' =>
      obtain ⟨-, rfl, -⟩ := written.unique written'
      simp [reference?_of_arc? first'] at first
    | named written' first' found' =>
      obtain ⟨rfl, rfl, -⟩ := written.unique written'
      cases first.symm.trans first'
      cases notFound.symm.trans found'
    | root written' first' notFound' intrinsic' =>
      obtain ⟨rfl, rfl, rfl⟩ := written.unique written'
      cases first.symm.trans first'
      cases intrinsic.symm.trans intrinsic'
      rfl

/-- The rules depend on nothing but what is written and what is visible. -/
lemma OidDerivable.congr {d d' : Draft} (ho : d'.owner? = d.owner?) (hs : d'.scope = d.scope)
    {i : AssignmentId} {o : Oid} (h : d.OidDerivable i o) : d'.OidDerivable i o := by
  have same : ∀ {i m c arcs}, d.WrittenAs i m c arcs → d'.WrittenAs i m c arcs := by
    intro i m c arcs h
    rwa [WrittenAs, ho]
  induction h with
  | arc written first => exact .arc (same written) first
  | named written first found _ ih => exact .named (same written) first (by rwa [hs]) ih
  | root written first notFound intrinsic =>
    exact .root (same written) first (by rwa [hs]) intrinsic

/-- An assignment with an OID is one that should have one. -/
lemma OidDerivable.hasOid {d : Draft} {i : AssignmentId} {o : Oid} (h : d.OidDerivable i o) :
    ∃ m x, d.owner? i = some (m, x) ∧ x.kind.hasOid := by
  have written : ∀ {m c arcs}, d.WrittenAs i m c arcs →
      ∃ m x, d.owner? i = some (m, x) ∧ x.kind.hasOid := by
    rintro m c arcs ⟨x, cs, hx, ho, -⟩
    exact ⟨m, x, hx, by rw [← Definition.isSome_oid?, ho]; rfl⟩
  cases h with
  | arc w _ => exact written w
  | named w _ _ _ => exact written w
  | root w _ _ _ => exact written w

end Draft

end MibCorpus
