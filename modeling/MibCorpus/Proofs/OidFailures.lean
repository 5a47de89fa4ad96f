import MibCorpus.Proofs.EmbeddedOutcomes
import MibCorpus.Proofs.References
import MibCorpus.Proofs.Run
import MibCorpus.Proofs.Transcript
import MibCorpus.Proofs.Walks

/-!
# Why entries get no OID

An entry that the sweeps leave over has a parent that is left over too, or an anchor that stands for
nothing with an OID. So following parents from it leads around a cycle or to such an anchor, and the
bounded walk that the phase makes finds out which: it never visits an entry twice, hence it decides
before the bound runs out.
-/

namespace MibCorpus

namespace Draft

variable {d e : Draft} {left : List OidEntry} {x y : OidEntry}

/-! ## Parents -/

/-- The parent of an entry: what the name that it starts from is found as. -/
def parent? (d : Draft) (x : OidEntry) : Option AssignmentId :=
  match x.value.anchor with
  | .arc _ => none
  | .name qualifier name => (d.scope.resolveFrom x.module qualifier name).found?

/-- The entry that the parent of an entry has among `left`. -/
def next? (d : Draft) (left : List OidEntry) (x : OidEntry) : Option OidEntry :=
  (d.parent? x).bind fun i => left.find? (·.assignment = i)

/-- The anchor of an entry stands for nothing that will have an OID. -/
inductive DeadEnd (d : Draft) (x : OidEntry) : Prop where
  /-- The name is not found and is no root of the notation. -/
  | notFound {qualifier : Option String} {name : String}
      (anchor : x.value.anchor = .name qualifier name)
      (notFound : d.scope.resolveFrom x.module qualifier name = .notFound)
      (noRoot : qualifier = none → intrinsicRoot? name = none)
  | ambiguous {qualifier : Option String} {name : String} {sources : List ModuleId}
      (anchor : x.value.anchor = .name qualifier name)
      (ambiguous : d.scope.resolveFrom x.module qualifier name = .ambiguous sources)
  /-- The parent is a type. -/
  | type {i : AssignmentId} {a : Assignment} (parent : d.parent? x = some i)
      (entry : d.mib.assignment? i = some a) (isType : a.kind.isType = true)
  /-- The OID value of the parent has a defect. -/
  | invalid {i : AssignmentId} {m : ModuleId} {written : Definition} {cs : List OidComponent}
      {defect : OidDefect} (parent : d.parent? x = some i)
      (origin : d.owner? i = some (m, written)) (oid : written.oid? = some cs)
      (bad : OidValue.ofComponents cs = .error defect)

/-- What an entry that is left over starts from: the entry of its parent, which is left over too, or
nothing that will have an OID. -/
inductive LeftBase (d : Draft) (left : List OidEntry) (x : OidEntry) : OidBase → Prop where
  | waiting {y : OidEntry} (there : y ∈ left) (next : d.next? left x = some y) :
      LeftBase d left x (.waiting y.assignment)
  | missing (ends : d.next? left x = none) (deadEnd : d.DeadEnd x) : LeftBase d left x .missing

/-- The parent of an entry is what the name at its anchor resolves to in its module. -/
lemma parent?_eq_some_iff {i : AssignmentId} : d.parent? x = some i ↔
    ∃ qualifier name, x.value.anchor = .name qualifier name ∧
      d.scope.resolveFrom x.module qualifier name = .found i := by
  unfold parent?
  cases x.value.anchor with
  | arc a => simp
  | name qualifier name =>
    cases hf : d.scope.resolveFrom x.module qualifier name <;> simp [Lookup.found?, hf]

/-- What a definition that is kept stands for after the sweeps. -/
inductive SweptBase (left : List OidEntry) (i : AssignmentId) (written : Definition) :
    OidBase → Prop where
  | ready (oid : Oid) : SweptBase left i written (.ready oid)
  | waiting {y : OidEntry} (there : y ∈ left) (own : y.assignment = i) :
      SweptBase left i written (.waiting i)
  | type (away : ∀ y ∈ left, y.assignment ≠ i) (isType : written.kind.isType = true) :
      SweptBase left i written .missing
  | invalid (away : ∀ y ∈ left, y.assignment ≠ i) {cs : List OidComponent} {defect : OidDefect}
      (oid : written.oid? = some cs) (bad : OidValue.ofComponents cs = .error defect) :
      SweptBase left i written .missing

/-- A definition without an entry leaves none over. -/
lemma OidsPending.not_left (h : d.OidsPending) (r : Recorder) {i : AssignmentId} {m : ModuleId}
    {written : Definition} (origin : d.owner? i = some (m, written))
    (noEntry : ∀ cs v, written.oid? = some cs → OidValue.ofComponents cs ≠ .ok v) :
    ∀ y ∈ (d.sweptOids r).1, y.assignment ≠ i := by
  rintro y hy rfl
  obtain ⟨name, cs, hw, hv⟩ := mem_oidEntries.1 (h.mem_swept_iff.1 hy).1
  obtain ⟨-, x, hx, -, ho⟩ := mem_writtenOids.1 hw
  obtain ⟨-, rfl⟩ : y.module = m ∧ x = written := by simpa using hx.symm.trans origin
  exact noEntry cs _ ho hv

/-- An entry without an OID is waited for as long as it is pending, and missing otherwise. -/
lemma baseOfAssignment_of_bare {i : AssignmentId} {a : Assignment}
    (entry : e.mib.assignment? i = some a) (bare : a.oid = none) : e.baseOfAssignment i =
      if a.kind.hasOid && a.state == .pending then .waiting i else .missing := by
  simp only [baseOfAssignment, entry, bare]

/-- After the sweep, what a kept entry's base is is judged from the swept draft. -/
lemma OidsPending.sweptBase (h : d.OidsPending) (r : Recorder) {i : AssignmentId} {m : ModuleId}
    {written : Definition} (kept : d.Keeps i m written) :
    SweptBase (d.sweptOids r).1 i written ((d.sweptOids r).2.1.baseOfAssignment i) := by
  obtain ⟨a, ha, -, kind⟩ := h.definitions.exists_assignment kept.1
  -- What has an OID is ready. Anything else is a type, malformed, or left over by the sweeps.
  by_cases derivable : ∃ o, d.OidDerivable i o
  · obtain ⟨o, derivable⟩ := derivable
    have swept := h.assignment?_swept_of_derivable r derivable kept.2
    simp only [baseOfAssignment, swept, ha, Option.map_some]
    exact .ready o
  · have underivable : ∀ o, ¬ d.OidDerivable i o := fun o ho => derivable ⟨o, ho⟩
    have included : (i, m, written) ∈ d.included := h.mem_included_iff.2 kept
    have swept := h.assignment?_swept_of_underivable r underivable
    rw [Draft.assignment?_reportOidDefects included, ha, Option.map_some] at swept
    have bare := h.bare i a ha
    cases ho : written.oid? with
    | none =>
      have isType : written.kind.isType = true := by
        have hasOid := written.isSome_oid?
        rw [ho] at hasOid
        simpa [AssignmentKind.hasOid] using hasOid.symm
      rw [if_neg (by simp [oidDefect?, ho])] at swept
      rw [baseOfAssignment_of_bare swept bare,
        if_neg (by simp [kind, AssignmentKind.hasOid, isType])]
      exact .type (h.not_left r kept.1 (by simp [ho])) isType
    | some cs =>
      have hasOid : a.kind.hasOid = true := by rw [kind, ← written.isSome_oid?, ho]; rfl
      cases hv : OidValue.ofComponents cs with
      | error defect =>
        rw [if_pos (by simp [oidDefect?, ho, hv])] at swept
        rw [baseOfAssignment_of_bare swept bare, if_neg (by simp)]
        refine .invalid (h.not_left r kept.1 fun cs' v ho' => ?_) ho hv
        obtain rfl : cs = cs' := Option.some.inj (ho.symm.trans ho')
        simp [hv]
      | ok v =>
        rw [if_neg (by simp [oidDefect?, ho, hv])] at swept
        rw [baseOfAssignment_of_bare swept bare,
          if_pos (by simp [hasOid, h.pending i a ha hasOid kept.2])]
        refine .waiting (y := ⟨i, m, v⟩) (h.mem_swept_iff.2 ⟨?_, underivable⟩) rfl
        refine mem_oidEntries.2 ⟨written.name, cs, ?_, hv⟩
        exact mem_writtenOids.2 ⟨(List.mem_filter.1 included).2, written, kept.1, rfl, ho⟩

/-- The entries left over belong to distinct assignments. -/
lemma OidsPending.nodup_left (h : d.OidsPending) (r : Recorder) :
    ((d.sweptOids r).1.map (·.assignment)).Nodup :=
  d.nodup_oidEntries.sublist ((h.assigns (r := r)).pending.map _)

/-- The next entry of a walk is the one left for the parent. -/
lemma next?_of_parent? {i : AssignmentId} (parent : d.parent? x = some i) :
    d.next? left x = left.find? (·.assignment = i) := by
  rw [next?, parent, Option.bind_some]

/-- Without a parent the walk has no next entry. -/
lemma next?_of_noParent (h : d.parent? x = none) : d.next? left x = none := by
  rw [next?, h, Option.bind_none]

/-- What an entry that is left over starts from if it has a parent. What is ready would have been
decided. -/
lemma OidsPending.leftBase_of_parent (h : d.OidsPending) (r : Recorder) {i : AssignmentId}
    {m : ModuleId} {written : Definition} (parent : d.parent? x = some i)
    (kept : d.Keeps i m written)
    (undecided : ∀ o, (d.sweptOids r).2.1.baseOfAssignment i ≠ .ready o) :
    d.LeftBase (d.sweptOids r).1 x ((d.sweptOids r).2.1.baseOfAssignment i) := by
  have base := h.sweptBase r kept
  generalize (d.sweptOids r).2.1.baseOfAssignment i = b at base undecided ⊢
  have ends : (∀ y ∈ (d.sweptOids r).1, y.assignment ≠ i) →
      d.next? (d.sweptOids r).1 x = none := by
    intro away
    rw [next?_of_parent? parent, List.find?_eq_none]
    simpa using away
  cases base with
  | ready o => exact absurd rfl (undecided o)
  | @waiting y there own =>
    rw [← own] at parent ⊢
    refine .waiting there ?_
    rw [next?_of_parent? parent]
    exact (find?_eq_some_iff_of_nodup (h.nodup_left r)).2 ⟨there, rfl⟩
  | type away isType =>
    obtain ⟨a, ha, -, kind⟩ := h.definitions.exists_assignment kept.1
    exact .missing (ends away) (.type parent ha (by rw [kind, isType]))
  | invalid away oid bad => exact .missing (ends away) (.invalid parent kept.1 oid bad)

/-- What an entry that is left over starts from. -/
lemma OidsPending.leftBase (h : d.OidsPending) (r : Recorder) (hx : x ∈ (d.sweptOids r).1) :
    d.LeftBase (d.sweptOids r).1 x ((d.sweptOids r).2.1.baseOf x.module x.value.anchor) := by
  have scope : (d.sweptOids r).2.1.scope = d.scope :=
    (h.assigns (r := r)).scope.trans (concludes_reportOidDefects d).scope
  have undecided : ∀ o, (d.sweptOids r).2.1.baseOf x.module x.value.anchor ≠ .ready o := by
    intro o ready
    have open_x := oidRule.decide?_of_mem_run 0 d.oidEntries d.reportOidDefects r hx
    change (d.sweptOids r).2.1.readyOid? x = none at open_x
    rw [readyOid?, ready] at open_x
    cases open_x
  cases anchor : x.value.anchor with
  | arc a => exact absurd (by rw [anchor]; rfl) (undecided ⟨[a]⟩)
  | name qualifier name =>
    rw [anchor] at undecided
    simp only [baseOf, scope] at undecided ⊢
    cases hf : d.scope.resolveFrom x.module qualifier name with
    | ambiguous sources =>
      refine .missing (next?_of_noParent ?_) (.ambiguous anchor hf)
      simp only [parent?, anchor, hf, Lookup.found?]
    | notFound =>
      simp only [hf] at undecided ⊢
      have ends : d.next? (d.sweptOids r).1 x = none :=
        next?_of_noParent (by simp only [parent?, anchor, hf, Lookup.found?])
      cases qualifier with
      | some q => exact .missing ends (.notFound anchor hf (by simp))
      | none =>
        cases root : intrinsicRoot? name with
        | none => exact .missing ends (.notFound anchor hf fun _ => root)
        | some a =>
          simp only [root] at undecided
          exact absurd rfl (undecided ⟨[a]⟩)
    | found i =>
      obtain ⟨m, written, kept⟩ := h.definitions.kept_of_resolveFrom hf
      simp only [hf] at undecided ⊢
      exact h.leftBase_of_parent r (parent?_eq_some_iff.2 ⟨qualifier, name, anchor, hf⟩) kept
        undecided

/-! ## Tracing -/

/-- Tracing from entry `x` comes to a failure in at most `n` steps. Every step goes to another entry
left over that was not visited before. -/
inductive Traces (e : Draft) (left : List OidEntry) (start : AssignmentId) :
    Nat → List AssignmentId → OidEntry → OidFailure → Prop where
  | missing {n : Nat} {visited : List AssignmentId} {x : OidEntry}
      (base : e.baseOf x.module x.value.anchor = .missing) :
      Traces e left start (n + 1) visited x (.missing x.assignment)
  | cycle {n : Nat} {visited : List AssignmentId} {x : OidEntry}
      (base : e.baseOf x.module x.value.anchor = .waiting start) :
      Traces e left start (n + 1) visited x .cycle
  | behindCycle {n : Nat} {visited : List AssignmentId} {x : OidEntry} {member : AssignmentId}
      (base : e.baseOf x.module x.value.anchor = .waiting member) (other : member ≠ start)
      (seen : member ∈ x.assignment :: visited) :
      Traces e left start (n + 1) visited x (.behindCycle member)
  | step {n : Nat} {visited : List AssignmentId} {x y : OidEntry} {f : OidFailure}
      (base : e.baseOf x.module x.value.anchor = .waiting y.assignment)
      (other : y.assignment ≠ start) (new : y.assignment ∉ x.assignment :: visited)
      (there : y ∈ left) (rest : Traces e left start n (x.assignment :: visited) y f) :
      Traces e left start (n + 1) visited x f

/-- The walk decides before its bound runs out: it visits no entry twice, and what an entry waits
for has an entry among those left over. -/
lemma traces_traceFailure (bases : ∀ x ∈ left, d.LeftBase left x (e.baseOf x.module x.value.anchor))
    (nodup : (left.map (·.assignment)).Nodup) (start : AssignmentId) {n : Nat}
    {visited : List AssignmentId} (hx : x ∈ left)
    (enough : (unvisited left (x.assignment :: visited)).length < n) :
    Traces e left start n visited x (e.traceFailure left start n visited x) := by
  induction n generalizing x visited with
  | zero => cases enough
  | succ n ih =>
    have base := bases x hx
    rw [traceFailure]
    generalize hb : e.baseOf x.module x.value.anchor = b at base ⊢
    cases base with
    | missing => exact .missing hb
    | @waiting y there next =>
      simp only [(find?_eq_some_iff_of_nodup nodup).2 ⟨there, rfl⟩]
      split
      next same =>
        rw [same] at hb
        exact .cycle hb
      next other =>
        split
        next seen => exact .behindCycle hb other seen
        next new =>
          have fewer := length_unvisited_lt there new
          have enough := Nat.lt_of_lt_of_le fewer (Nat.le_of_lt_succ enough)
          exact .step hb other new there (ih there enough)

/-- Why an entry gets no OID, said of where its parents lead. -/
inductive Verdict (d : Draft) (left : List OidEntry) (x : OidEntry) : OidFailure → Prop where
  /-- Following parents returns to the entry. -/
  | cycle (back : WalksBack (d.next? left) x) : Verdict d left x .cycle
  /-- Following parents leads to `y` and returns to that, but never to the entry. -/
  | behindCycle {y : OidEntry} (there : y ∈ left) (way : WalksTo (d.next? left) x y)
      (member : WalksBack (d.next? left) y) (apart : ¬ WalksBack (d.next? left) x) :
      Verdict d left x (.behindCycle y.assignment)
  /-- Following parents ends at `y`. -/
  | missing {y : OidEntry} (there : y ∈ left) (way : WalksTo (d.next? left) x y)
      (ends : d.next? left y = none) (deadEnd : d.DeadEnd y) :
      Verdict d left x (.missing y.assignment)

/-- A trace from `x₀` is at `x`: it has come there in `k` steps to the next entry, through what was
visited, and never back to `x₀`. -/
structure Underway (next : OidEntry → Option OidEntry) (left : List OidEntry) (x₀ : OidEntry)
    (visited : List AssignmentId) (x : OidEntry) (k : Nat) : Prop where
  here : stepsFrom next k x₀ = some x
  been : ∀ v ∈ visited, ∃ j < k, ∃ y ∈ left, y.assignment = v ∧ stepsFrom next j x₀ = some y
  away : ∀ i, 0 < i → i ≤ k → stepsFrom next i x₀ ≠ some x₀

namespace Underway

variable {next : OidEntry → Option OidEntry} {x₀ : OidEntry} {visited : List AssignmentId} {k : Nat}

/-- Each walk begins at its entry, with nothing visited. -/
lemma start (x₀ : OidEntry) : Underway next left x₀ [] x₀ 0 where
  here := rfl
  been := by simp
  away := by omega

/-- One step further, still not back. -/
lemma away_succ (u : Underway next left x₀ visited x k) (first : next x = some y)
    (other : y.assignment ≠ x₀.assignment) :
    ∀ i, 0 < i → i ≤ k + 1 → stepsFrom next i x₀ ≠ some x₀ := by
  intro i pos le
  rcases Nat.lt_or_eq_of_le le with lt | rfl
  · exact u.away i pos (Nat.le_of_lt_succ lt)
  · rw [stepsFrom_succ_of_some u.here, first]
    exact fun e => other (congrArg OidEntry.assignment (Option.some.inj e))

/-- A walk goes on from an entry that is left to any next one that is not its start. -/
lemma step (u : Underway next left x₀ visited x k) (hx : x ∈ left) (first : next x = some y)
    (other : y.assignment ≠ x₀.assignment) :
    Underway next left x₀ (x.assignment :: visited) y (k + 1) where
  here := by rw [stepsFrom_succ_of_some u.here, first]
  been v hv := by
    rcases List.mem_cons.1 hv with rfl | hv
    · exact ⟨k, Nat.lt_succ_self k, x, hx, rfl, u.here⟩
    · obtain ⟨j, lt, rest⟩ := u.been v hv
      exact ⟨j, Nat.lt_succ_of_lt lt, rest⟩
  away := u.away_succ first other

/-- Where the next entry was visited before, it is on a cycle that the trace did not start on. -/
lemma closes (u : Underway next left x₀ visited x k) (nodup : (left.map (·.assignment)).Nodup)
    (hx : x ∈ left) (hy : y ∈ left) (first : next x = some y)
    (other : y.assignment ≠ x₀.assignment) (seen : y.assignment ∈ x.assignment :: visited) :
    WalksBack next y ∧ ¬ WalksBack next x₀ := by
  have again : stepsFrom next (k + 1) x₀ = some y := by rw [stepsFrom_succ_of_some u.here, first]
  obtain ⟨j, lt, z, hz, own, there⟩ := (u.step hx first other).been _ seen
  obtain rfl : z = y := List.inj_on_of_nodup_map nodup hz hy own
  have pos : 0 < j := by
    rcases Nat.eq_zero_or_pos j with rfl | pos
    · exact absurd (congrArg OidEntry.assignment (Option.some.inj there)).symm other
    · exact pos
  exact ⟨walksBack_of_again lt there again, not_walksBack_of_closes pos (Nat.le_of_lt_succ lt)
    (again.trans there.symm) (u.away_succ first other)⟩

end Underway

/-- A trace finds out where parents lead. -/
lemma Traces.verdict {x₀ : OidEntry} {n : Nat} {visited : List AssignmentId} {f : OidFailure}
    (bases : ∀ x ∈ left, d.LeftBase left x (e.baseOf x.module x.value.anchor))
    (nodup : (left.map (·.assignment)).Nodup) (start : x₀ ∈ left)
    (trace : Traces e left x₀.assignment n visited x f) (hx : x ∈ left) {k : Nat}
    (u : Underway (d.next? left) left x₀ visited x k) : d.Verdict left x₀ f := by
  have same : ∀ {y z : OidEntry}, y ∈ left → z ∈ left → y.assignment = z.assignment → y = z :=
    fun hy hz e => List.inj_on_of_nodup_map nodup hy hz e
  -- What an entry waits for is the next entry of the walk.
  have waits : ∀ {x : OidEntry} {i : AssignmentId}, x ∈ left →
      e.baseOf x.module x.value.anchor = .waiting i →
      ∃ y ∈ left, y.assignment = i ∧ d.next? left x = some y := by
    intro x i hx hb
    have base := bases x hx
    rw [hb] at base
    cases base with
    | waiting there next => exact ⟨_, there, rfl, next⟩
  induction trace generalizing k with
  | @missing n visited x hb =>
    have base := bases x hx
    rw [hb] at base
    cases base with
    | missing ends deadEnd => exact .missing hx ⟨k, u.here⟩ ends deadEnd
  | @cycle n visited x hb =>
    obtain ⟨y, hy, own, next⟩ := waits hx hb
    obtain rfl := same hy start own
    exact .cycle ⟨k + 1, Nat.succ_pos k, by rw [stepsFrom_succ_of_some u.here, next]⟩
  | @behindCycle n visited x member hb other seen =>
    obtain ⟨y, hy, rfl, next⟩ := waits hx hb
    obtain ⟨member, apart⟩ := u.closes nodup hx hy next other seen
    exact .behindCycle hy ⟨k + 1, (u.step hx next other).here⟩ member apart
  | @step n visited x y f hb other new there rest ih =>
    obtain ⟨z, hz, own, next⟩ := waits hx hb
    obtain rfl := same hz there own
    exact ih there (u.step hx next other)

/-- The verdict is that of a member of a cycle exactly if following parents returns. -/
lemma Verdict.eq_cycle_iff {f : OidFailure} (h : d.Verdict left x f) :
    f = .cycle ↔ WalksBack (d.next? left) x := by
  cases h with
  | cycle back => exact ⟨fun _ => back, fun _ => rfl⟩
  | behindCycle _ _ _ apart => exact ⟨nofun, fun back => absurd back apart⟩
  | missing _ way ends =>
    have apart := not_walksBack_of_ends way ends (.refl x)
    exact ⟨nofun, fun back => absurd back apart⟩

/-- The verdict names a member of a cycle exactly if following parents leads into one that the entry
is not a member of. -/
lemma Verdict.exists_behindCycle_iff {f : OidFailure} (h : d.Verdict left x f) :
    (∃ i, f = .behindCycle i) ↔ ¬ WalksBack (d.next? left) x ∧
      ∃ y, WalksTo (d.next? left) x y ∧ WalksBack (d.next? left) y := by
  cases h with
  | cycle back => exact ⟨nofun, fun apart => absurd back apart.1⟩
  | behindCycle _ way member apart => exact ⟨fun _ => ⟨apart, _, way, member⟩, fun _ => ⟨_, rfl⟩⟩
  | missing _ way ends =>
    refine ⟨nofun, ?_⟩
    rintro ⟨-, y, way', back⟩
    exact absurd back (not_walksBack_of_ends way ends way')

/-- Failures are traced alike where the same entries are found. -/
lemma traceFailure_congr {left' : List OidEntry}
    (same : ∀ i, left'.find? (·.assignment = i) = left.find? (·.assignment = i))
    (start : AssignmentId) (n : Nat) (visited : List AssignmentId) (x : OidEntry) :
    e.traceFailure left' start n visited x = e.traceFailure left start n visited x := by
  induction n generalizing visited x with
  | zero => rfl
  | succ n ih => simp only [traceFailure, same, ih]

/-- The order of the entries left over does not matter. -/
lemma failureOf_perm {left' : List OidEntry} (perm : left'.Perm left)
    (nodup : (left.map (·.assignment)).Nodup) (x : OidEntry) :
    e.failureOf left' x = e.failureOf left x := by
  have nodup' : (left'.map (·.assignment)).Nodup := (perm.map _).nodup_iff.2 nodup
  rw [failureOf, failureOf, perm.length_eq]
  refine traceFailure_congr (fun i => ?_) _ _ _ _
  cases hf : left.find? (·.assignment = i) with
  | none =>
    rw [List.find?_eq_none] at hf ⊢
    exact fun y hy => hf y (perm.subset hy)
  | some y =>
    obtain rfl : y.assignment = i := by simpa using List.find?_some hf
    exact (find?_eq_some_iff_of_nodup nodup').2
      ⟨perm.symm.subset (List.mem_of_find?_eq_some hf), rfl⟩

section Left

variable {r : Recorder}

/-- The walk that the phase makes for an entry left over decides before its bound runs out. -/
lemma OidsPending.traces (h : d.OidsPending) (hx : x ∈ (d.sweptOids r).1) :
    Traces (d.sweptOids r).2.1 (d.sweptOids r).1 x.assignment ((d.sweptOids r).1.length + 1) [] x
      ((d.sweptOids r).2.1.failureOf (d.sweptOids r).1 x) :=
  traces_traceFailure (fun _ hy => h.leftBase r hy) (h.nodup_left r) x.assignment hx
    (Nat.lt_succ_of_le (List.length_filter_le ..))

/-- Every entry left over is judged by where its parents lead. -/
lemma OidsPending.verdict (h : d.OidsPending) (hx : x ∈ (d.sweptOids r).1) :
    d.Verdict (d.sweptOids r).1 x ((d.sweptOids r).2.1.failureOf (d.sweptOids r).1 x) :=
  (h.traces hx).verdict (fun _ hy => h.leftBase r hy) (h.nodup_left r) hx hx (.start x)

end Left

/-! ## What is reported -/

/-- Whether a problem is about an entry that got no OID. -/
def isOidFailure (p : Problem) : Bool :=
  p.kind = .circularOidReference ∨ p.kind = .unresolvedOidParent

/-- The kind of problem of a failure. -/
def OidFailure.kind : OidFailure → ProblemKind
  | cycle => .circularOidReference
  | behindCycle _ | missing _ => .unresolvedOidParent

/-- A failure's problem is of the failure's kind. -/
lemma kind_failureFinding (d : Draft) (x : OidEntry) (f : OidFailure) :
    (d.failureFinding x f).kind = f.kind := by
  cases f with
  | cycle => rfl
  | behindCycle => rfl
  | missing =>
    simp only [failureFinding]
    split <;> rfl

/-- Failures of OIDs are problems of the phase of OIDs. -/
lemma phase_of_isOidFailure (p : Problem) (h : isOidFailure p = true) : p.kind.phase = .oids := by
  rcases of_decide_eq_true h with e | e <;> rw [e] <;> rfl

/-- How the entries `left` over in draft `d`, which the sweeps have made draft `e` of, are judged in
the last draft. -/
structure LeftOidsJudged (d : Draft) (left : List OidEntry) (e final : Draft) : Prop where
  distinct : (left.map (·.assignment)).Nodup
  /-- A member of a cycle is what following parents returns to. -/
  cycle_iff : ∀ x ∈ left, e.failureOf left x = .cycle ↔ WalksBack (d.next? left) x
  /-- What a member of a cycle is named for is an entry whose parents lead into the cycle. -/
  behindCycle_iff : ∀ x ∈ left, (∃ i, e.failureOf left x = .behindCycle i) ↔
    ¬ WalksBack (d.next? left) x ∧ ∃ y, WalksTo (d.next? left) x y ∧ WalksBack (d.next? left) y
  verdict : ∀ x ∈ left, d.Verdict left x (e.failureOf left x)
  /-- The member that is named is itself judged to be one. -/
  member : ∀ x ∈ left, ∀ i, e.failureOf left x = .behindCycle i →
    ∃ y ∈ left, y.assignment = i ∧ e.failureOf left y = .cycle
  /-- The walk decides before its bound runs out, and never leaves the entries left over. -/
  traces : ∀ x ∈ left, Traces e left x.assignment (left.length + 1) [] x (e.failureOf left x)
  order : ∀ left' x, left'.Perm left → e.failureOf left' x = e.failureOf left x
  /-- Every entry is reported once, and nothing else is reported of these kinds. -/
  problems : final.mib.problems.toList.filter isOidFailure = left.map fun x =>
    final.problemAbout (final.failureFinding x (e.failureOf left x)) x.assignment
  kinds : ∀ x ∈ left, (final.failureFinding x (e.failureOf left x)).kind =
    if e.failureOf left x = .cycle then .circularOidReference else .unresolvedOidParent
  states : ∀ x ∈ left, ∃ a, final.mib.assignment? x.assignment = some a ∧ a.oid = none ∧
    a.state = if e.failureOf left x = .cycle then .excluded else .unresolved

section Stages

variable {linked final : Draft} {types oids : Recorder}

/-- The problems of a run about entries without an OID. -/
lemma Stages.filter_isOidFailure (s : Stages linked types oids final) :
    let d := (linked.resolveTypes types).1
    final.mib.problems.toList.filter isOidFailure =
      ((d.sweptOids oids).2.1.leftConclusions (d.sweptOids oids).1).map fun c =>
        final.problemAbout c.finding c.assignment := by
  intro d
  have c : Continues d final := (s.untyped.oidsPending types).continues.trans s.finalizes.continues
  -- The phase reports malformed values too, but as another kind.
  have defects : (d.defectConclusions.map fun c => d.problemAbout c.finding c.assignment).filter
      isOidFailure = [] := by
    refine List.filter_eq_nil_iff.2 fun p hp => ?_
    obtain ⟨x, hx, rfl⟩ := List.mem_map.1 hp
    obtain ⟨y, hy, rfl⟩ := List.mem_map.1 hx
    obtain ⟨m, name, cs, defect, -, -, e⟩ := mem_oidDefects.1 hy
    simp only [problemAbout, Finding.toProblem, Problem.ofKind, e]
    cases defect <;> simp [isOidFailure, OidDefect.finding, Finding.kind]
  have left : ((d.sweptOids oids).2.1.leftConclusions (d.sweptOids oids).1).map
      (fun c => final.problemAbout c.finding c.assignment) =
      (((d.sweptOids oids).2.1.leftConclusions (d.sweptOids oids).1).map
        fun c => d.problemAbout c.finding c.assignment).filter isOidFailure := by
    simp only [problemAbout_of_registry c.registry]
    refine (List.filter_eq_self.2 fun p hp => ?_).symm
    obtain ⟨x, hx, rfl⟩ := List.mem_map.1 hp
    obtain ⟨y, -, rfl⟩ := List.mem_map.1 hx
    have kind := kind_failureFinding (d.sweptOids oids).2.1 y
      ((d.sweptOids oids).2.1.failureOf (d.sweptOids oids).1 y)
    simp only [isOidFailure, problemAbout, Finding.toProblem, Problem.ofKind, kind]
    cases (d.sweptOids oids).2.1.failureOf (d.sweptOids oids).1 y <;> simp [OidFailure.kind]
  rw [s.filter_of_oids phase_of_isOidFailure, List.map_append, List.filter_append, defects, ← left,
    List.nil_append]

/-- In each run the OIDs left after the sweep are judged as stated. -/
lemma Stages.leftOidsJudged (s : Stages linked types oids final) :
    let d := (linked.resolveTypes types).1
    LeftOidsJudged d (d.sweptOids oids).1 (d.sweptOids oids).2.1 final := by
  intro d
  have pending : d.OidsPending := s.untyped.oidsPending types
  have swept : Continues d (d.sweptOids oids).2.1 :=
    (concludes_reportOidDefects d).continues.trans pending.assigns.continues
  have c : Continues d final := pending.continues.trans s.finalizes.continues
  have names : ∀ i, final.mib.nameOf i = (d.sweptOids oids).2.1.mib.nameOf i := fun i =>
    (pending.definitions.nameOf_of_continues c i).trans
      (pending.definitions.nameOf_of_continues swept i).symm
  refine ⟨pending.nodup_left oids, fun x hx => (pending.verdict hx).eq_cycle_iff,
    fun x hx => (pending.verdict hx).exists_behindCycle_iff, fun x hx => pending.verdict hx,
    fun x hx i hi => ?_, fun x hx => pending.traces hx,
    fun left' x perm => failureOf_perm perm (pending.nodup_left oids) x, ?_, fun x hx => ?_,
    fun x hx => ?_⟩
  · have verdict := pending.verdict hx
    rw [hi] at verdict
    cases verdict with
    | behindCycle there _ member =>
      exact ⟨_, there, rfl, (pending.verdict there).eq_cycle_iff.2 member⟩
  · rw [s.filter_isOidFailure, leftConclusions, List.map_map]
    refine List.map_congr_left fun x _ => ?_
    simp only [Function.comp_apply, failureFinding, names]
    rfl
  · rw [kind_failureFinding]
    cases (d.sweptOids oids).2.1.failureOf (d.sweptOids oids).1 x <;> rfl
  · obtain ⟨name, cs, written, -⟩ := mem_oidEntries.1 (pending.mem_swept_iff.1 hx).1
    obtain ⟨-, y, origin, -⟩ := pending.of_mem_writtenOids written
    obtain ⟨a, ha, -, -⟩ := pending.definitions.exists_assignment origin
    have settled := pending.assignment?_of_left hx
    generalize (d.sweptOids oids).2.1.failureOf (d.sweptOids oids).1 x = f at settled ⊢
    refine ⟨{ a with state := f.state }, ?_, pending.bare _ a ha, ?_⟩
    · rw [s.assignment?_eq, pending.assignment?_resolveOids, settled, ha, Option.map_some,
        Option.map_some, degradeByType_of_ne]
      rcases f.state_cases with e | e <;> simp [e]
    · cases f <;> rfl

end Stages

end Draft

/-- In every run, the entries that the sweeps of the OID phase leave over are judged by where their
parents lead: members of a cycle are left out, and the others are unresolved and named for a member
of the cycle that they lead into or for the last entry of the walk. -/
theorem Pipeline.leftOidsJudged_runParsed (p : Pipeline) (files : List ParsedFile) :
    let typed := Draft.typed p.policy files
    let swept := typed.sweptOids (.new .error)
    modelOf (p.runParsed files).1 = some (Draft.built p.policy files).mib ∧
      Draft.LeftOidsJudged typed swept.1 swept.2.1 (Draft.built p.policy files) := by
  refine ⟨?_, (Draft.stages_built p.policy files).leftOidsJudged⟩
  rw [modelOf_runParsed, resolve_eq_told]

/-- A cycle of two, an entry behind it and one behind that, and an entry behind one whose parent is
nowhere. -/
example :
    let value (name parent : String) : Definition :=
      ⟨name, .value [.name parent, .arc 1], .synthetic⟩
    let typed := Draft.typed .usual [⟨"a.mib", .ok [⟨"A-MIB", [],
      [value "a" "b", value "b" "a", value "c" "a", value "d" "c", value "e" "f", value "f" "g"],
      .synthetic⟩]⟩]
    let (left, swept, _) := typed.sweptOids (.new .error)
    left.map (fun x => swept.mib.nameOf x.assignment) = ["a", "b", "c", "d", "e", "f"] ∧
      left.map (fun x => (swept.failureFinding x (swept.failureOf left x))) =
        [.circularOid "a" "b", .circularOid "b" "a", .oidBehindCycle "c" "a",
          .oidBehindCycle "d" "a", .oidBehindMissing "e" "f", .missingOidParent "f" "g"] := by
  decide +kernel

end MibCorpus
