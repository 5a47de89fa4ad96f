import MibCorpus.Proofs.AssignedOids
import MibCorpus.Proofs.BoundReferences
import MibCorpus.Proofs.Transcript

/-!
# What the events of a run say about its model

The model of a run can be told from its events: which modules there are, which assignments got which
OIDs, which references were bound and which problems were recorded, each by one event in the phase
that it belongs to.
-/

namespace MibCorpus

namespace Event

/-- The module whose registration an event tells. -/
def module? : Event → Option (String × ModuleId × Bool)
  | moduleRegistered name module synthetic => some (name, module, synthetic)
  | _ => none

/-- The reference whose binding an event tells: where it is written and what it names. -/
def reference? : Event → Option (ModuleId × String)
  | typeResolved module symbol => some (module, symbol)
  | _ => none

/-- The assignment whose OID an event tells. -/
def oid? : Event → Option (String × Oid)
  | oidResolved name oid => some (name, oid)
  | _ => none

/-- The problem that an event tells. -/
def problem? : Event → Option Problem
  | problem p => some p
  | _ => none

end Event

/-! ## Decisions -/

namespace SweepRule

variable {α β : Type} (rule : SweepRule α β)

/-- The decisions of all sweeps in order, each with the draft that it was made against. -/
def decisions (xs : List α) (d : Draft) : List (Draft × α × β) :=
  (rule.starts xs d).flatMap fun s => (rule.decided s.1 s.2).map (s.1, ·)

/-- With nothing left to decide no sweep starts. -/
lemma starts_nil (d : Draft) : rule.starts [] d = [] := by
  rw [starts]
  rfl

/-- A sweep starts with what is left, and another one follows if it decided something. -/
lemma starts_of_ne_nil {xs : List α} (h : xs ≠ []) (d : Draft) :
    rule.starts xs d = (d, xs) ::
      if (rule.undecided d xs).length < xs.length then
        rule.starts (rule.undecided d xs) (rule.sweep d xs)
      else [] := by
  rw [starts, if_neg (by simpa using h)]

/-- What sweeps keep holds at the start of each. -/
lemma starts_invariant {P : List α → Draft → Prop}
    (step : ∀ xs d, P xs d → P (rule.undecided d xs) (rule.sweep d xs)) {xs : List α} {d : Draft}
    (h : P xs d) : ∀ s ∈ rule.starts xs d, P s.2 s.1 := by
  induction xs, d using rule.sweepInduction with
  | nil d =>
    rw [starts_nil]
    exact nofun
  | sweep xs d he ih =>
    rw [rule.starts_of_ne_nil he]
    refine List.forall_mem_cons.2 ⟨h, ?_⟩
    split
    next lt => exact ih lt (step xs d h)
    next => exact nofun

/-- Every entry is decided once or left over. -/
theorem perm_decisions (pass : Nat) (xs : List α) (d : Draft) (r : Recorder) :
    ((rule.decisions xs d).map (·.2.1) ++ (rule.run pass xs d r).1).Perm xs := by
  induction xs, d using rule.sweepInduction generalizing pass r with
  | nil d =>
    rw [decisions, starts_nil, run_nil]
    rfl
  | sweep xs d he ih =>
    have first : rule.decisions xs d = (rule.decided d xs).map (d, ·) ++
        if (rule.undecided d xs).length < xs.length then
          rule.decisions (rule.undecided d xs) (rule.sweep d xs) else [] := by
      rw [decisions, rule.starts_of_ne_nil he, List.flatMap_cons]
      split <;> rfl
    refine List.Perm.trans ?_ (rule.perm_decided d xs)
    rw [first, rule.run_of_ne_nil he, List.map_append, List.append_assoc, List.map_map]
    refine List.Perm.append_left _ ?_
    split
    next lt => exact ih lt _ _
    next => exact .refl _

/-- A decision was made about a pending entry by the rule. -/
lemma mem_decisions {xs : List α} {d : Draft} {x : Draft × α × β} (h : x ∈ rule.decisions xs d) :
    ∃ s ∈ rule.starts xs d, x.1 = s.1 ∧ x.2.1 ∈ s.2 ∧ rule.decide? s.1 x.2.1 = some x.2.2 := by
  obtain ⟨s, hs, hx⟩ := List.mem_flatMap.1 h
  obtain ⟨y, hy, rfl⟩ := List.mem_map.1 hx
  exact ⟨s, hs, rfl, rule.mem_decided.1 hy⟩

/-- Every decision is made in some sweep, against the draft that the sweep started with. -/
lemma mem_decisions_of_mem_starts {xs : List α} {d : Draft} {s : Draft × List α}
    (hs : s ∈ rule.starts xs d) {x : α × β} (hx : x ∈ rule.decided s.1 s.2) :
    (s.1, x) ∈ rule.decisions xs d :=
  List.mem_flatMap.2 ⟨s, hs, List.mem_map_of_mem hx⟩

/-- Besides its sweeps a loop tells its decisions. -/
lemma filterMap_told {γ : Type} (f : Event → Option γ)
    (stage : ∀ pass, f (.stage (.resolving pass)) = none)
    (sweepStart : ∀ pass n, f (.sweepStart rule.phase pass n) = none)
    (sweepEnd : ∀ pass m n, f (.sweepEnd rule.phase pass m n) = none)
    (pass : Nat) (xs : List α) (d : Draft) :
    (rule.told pass xs d).filterMap (fun e => f e.2) =
      (rule.decisions xs d).filterMap fun x => f (rule.event x.1 x.2.1 x.2.2) := by
  have each : ∀ (ss : List (Draft × List α)) (pass : Nat),
      ((ss.zipIdx pass).flatMap fun s => rule.sweepTold s.2 s.1.1 s.1.2).filterMap
          (fun e => f e.2) =
        (ss.flatMap fun s => (rule.decided s.1 s.2).map (s.1, ·)).filterMap fun x =>
          f (rule.event x.1 x.2.1 x.2.2) := by
    intro ss
    induction ss with
    | nil => exact fun _ => rfl
    | cons s ss ih =>
      intro pass
      rw [List.zipIdx_cons, List.flatMap_cons, List.flatMap_cons, List.filterMap_append,
        List.filterMap_append, ih]
      simp [sweepTold, decisionsTold, stage, sweepStart, sweepEnd, List.filterMap_map]
  exact each _ pass

end SweepRule

/-! ## Entries -/

section Listed

variable {a : Arena} {α γ : Type}

/-- What is read off the entries of an arena in order is read off those identifiers, in any order,
whose entries say something. -/
lemma perm_filterMap_toList (as : Array α) (f : α → Option γ) {is : List (Ident a)}
    (nodup : is.Nodup) (same : ∀ i, i ∈ is ↔ (as[i.index]?.bind f).isSome) :
    (is.filterMap fun i => as[i.index]?.bind f).Perm (as.toList.filterMap f) := by
  let all : List (Ident a) := (List.range as.size).map Ident.mk
  have entries : (List.range as.size).map (as[·]?) = as.toList.map some := by
    apply List.ext_getElem?
    intro i
    by_cases lt : i < as.size <;> simp [lt]
  have e : as.toList.filterMap f = (all.filter fun i => (as[i.index]?.bind f).isSome).filterMap
      fun i => as[i.index]?.bind f := by
    have listed : as.toList.filterMap f = (as.toList.map some).filterMap (·.bind f) := by
      rw [List.filterMap_map]
      rfl
    rw [listed, ← entries, List.filterMap_map, List.filterMap_filter, List.filterMap_map]
    refine List.filterMap_congr fun i _ => ?_
    simp only [Function.comp_apply]
    cases as[i]?.bind f <;> rfl
  have nodup' : all.Nodup := List.Nodup.map (fun _ _ h => congrArg Ident.index h) List.nodup_range
  rw [e]
  refine List.Perm.filterMap _ ((List.perm_ext_iff_of_nodup nodup (nodup'.filter _)).2 fun i => ?_)
  rw [same, List.mem_filter, iff_and_self]
  intro present
  obtain ⟨x, hx⟩ := Option.isSome_iff_exists.1 present
  obtain ⟨y, hy, -⟩ := Option.bind_eq_some_iff.1 hx
  exact List.mem_map.2 ⟨i.index, List.mem_range.2 (Array.getElem?_eq_some_iff.1 hy).1, rfl⟩

end Listed

/-- The names and OIDs of the assignments that have one, in order. -/
def Mib.assignedOids (mib : Mib) : List (String × Oid) :=
  mib.assignments.toList.filterMap fun a => a.oid.map (mib.str a.name, ·)

/-- Where a reference that is bound is written, and what it names. -/
def Mib.boundReference? (mib : Mib) (n : TypeNode) : Option (ModuleId × String) :=
  match n.shape with
  | .reference symbol _ (some _) _ => some (n.module, mib.str symbol)
  | _ => none

/-- The bound references in the order of their nodes. -/
def Mib.boundReferences (mib : Mib) : List (ModuleId × String) :=
  mib.types.toList.filterMap mib.boundReference?

namespace Draft

/-! ## OIDs -/

section Oids

variable {d : Draft}

/-- Every decision about an entry gives it the OID that the rules derive. -/
lemma OidsPending.derivable_of_mem_decisions (h : d.OidsPending) {x : Draft × OidEntry × Oid}
    (hx : x ∈ oidRule.decisions d.oidEntries d.reportOidDefects) :
    d.OidDerivable x.2.1.assignment x.2.2 ∧ d.isRefused x.2.1.assignment = false ∧
      x.1.mib.nameOf x.2.1.assignment = d.mib.nameOf x.2.1.assignment := by
  have reported := concludes_reportOidDefects d
  obtain ⟨s, hs, draft, pending, decided⟩ := oidRule.mem_decisions hx
  have assigns : Assigns d.reportOidDefects d.oidEntries s.2 s.1 :=
    oidRule.starts_invariant (P := fun xs d' => Assigns d.reportOidDefects d.oidEntries xs d')
      (fun _ _ a => a.sweep h.entriesOpen) (.refl _ _) s hs
  have entry := assigns.pending.subset pending
  have derivable := assigns.derivable_of_readyOid? h.entriesOpen entry decided
  obtain ⟨name, cs, written, -⟩ := mem_oidEntries.1 entry
  refine ⟨derivable.congr (owner?_of_registry reported.continues.registry).symm
    reported.scope.symm, (h.of_mem_writtenOids written).1, ?_⟩
  rw [draft]
  exact h.definitions.nameOf_of_continues (reported.continues.trans assigns.continues) _

/-- The entries decided about are those that are not left over. -/
lemma perm_oidDecisions (d : Draft) (r : Recorder) :
    ((oidRule.decisions d.oidEntries d.reportOidDefects).map (·.2.1) ++ (d.sweptOids r).1).Perm
      d.oidEntries :=
  oidRule.perm_decisions 0 _ _ r

variable {linked final : Draft} {types oids : Recorder}

/-- What has an OID in the end was decided about. -/
lemma Stages.exists_decision (s : Stages linked types oids final) {i : AssignmentId}
    {a : Assignment} (ha : final.mib.assignment? i = some a) {o : Oid} (ho : a.oid = some o) :
    ∃ x ∈ oidRule.decisions (linked.resolveTypes types).1.oidEntries
      (linked.resolveTypes types).1.reportOidDefects, x.2.1.assignment = i := by
  have pending := s.untyped.oidsPending types
  have reported := concludes_reportOidDefects (linked.resolveTypes types).1
  obtain ⟨b, hb, outcome⟩ := s.outcome ha
  have bare := pending.bare i b hb
  cases outcome with
  | untouched =>
    rw [oid_degradeByType, bare] at ho
    cases ho
  | broken =>
    rw [bare] at ho
    cases ho
  | assigned _ kept o' derivable =>
    obtain ⟨e, he, notLeft, rfl, -⟩ := exists_oid_of_derivable pending.entriesOpen oids
      (derivable.congr (owner?_of_registry reported.continues.registry) reported.scope)
      (by rw [isRefused_of_registry reported.continues.registry, kept])
    rcases List.mem_append.1 ((perm_oidDecisions _ oids).mem_iff.2 he) with mem | left
    · obtain ⟨x, hx, rfl⟩ := List.mem_map.1 mem
      exact ⟨x, hx, rfl⟩
    · exact absurd left notLeft

/-- The decisions about OIDs are told of the assignments that have one in the end. -/
lemma Stages.perm_oids (s : Stages linked types oids final) :
    ((linked.resolveTypes types).1.oidsTold.filterMap (·.2.oid?)).Perm final.mib.assignedOids := by
  have pending := s.untyped.oidsPending types
  have typed : Continues (linked.resolveTypes types).1 final :=
    pending.continues.trans s.finalizes.continues
  set decisions := oidRule.decisions (linked.resolveTypes types).1.oidEntries
    (linked.resolveTypes types).1.reportOidDefects
  let g : AssignmentId → Option (String × Oid) := fun i =>
    (final.mib.assignment? i).bind fun a => a.oid.map (final.mib.str a.name, ·)
  -- What is told of a decision is the name and the OID of the assignment in the end.
  have told : ∀ x ∈ decisions, (oidRule.event x.1 x.2.1 x.2.2).oid? = g x.2.1.assignment := by
    intro x hx
    obtain ⟨derivable, kept, name⟩ := pending.derivable_of_mem_decisions hx
    obtain ⟨a, ha, ho⟩ := pending.exists_oid (r := oids) derivable kept
    rw [← s.assignment?_eq] at ha
    have name' := pending.definitions.nameOf_of_continues typed x.2.1.assignment
    rw [← name, Mib.nameOf, ha] at name'
    simp only [g, ha, Option.bind_some, ho, Option.map_some]
    rw [show final.mib.str a.name = _ from name']
    rfl
  have events : (linked.resolveTypes types).1.oidsTold.filterMap (·.2.oid?) =
      (decisions.map (·.2.1.assignment)).filterMap g := by
    rw [oidsTold, oidRule.filterMap_told _ (fun _ => rfl) (fun _ _ => rfl) (fun _ _ _ => rfl),
      List.filterMap_map]
    exact List.filterMap_congr told
  rw [events]
  refine perm_filterMap_toList final.mib.assignments _ ?_ fun i => ?_
  · have entries := (perm_oidDecisions (linked.resolveTypes types).1 oids).map (·.assignment)
    have nodup := entries.nodup_iff.2 (nodup_oidEntries _)
    rw [List.map_append, List.map_map] at nodup
    exact (List.nodup_append.1 nodup).1
  · constructor
    · intro hi
      obtain ⟨x, hx, rfl⟩ := List.mem_map.1 hi
      exact Option.isSome_iff_exists.2 ⟨_, (told x hx).symm⟩
    · intro present
      obtain ⟨v, hv⟩ := Option.isSome_iff_exists.1 present
      obtain ⟨a, ha, hv⟩ := Option.bind_eq_some_iff.1 hv
      obtain ⟨o, ho, -⟩ := Option.map_eq_some_iff.1 hv
      obtain ⟨x, hx, rfl⟩ := s.exists_decision ha ho
      exact List.mem_map_of_mem hx

end Oids

/-! ## References -/

section References

/-- The references that are bound in a sweep or after the last one, in this order. -/
def boundInOrder (d : Draft) (r : Recorder) : List PendingReference :=
  (referenceRule.decisions d.noted d.lowered).map (·.2.1) ++
    boundBy ((d.swept r).2.1.verdicts (d.swept r).1)

/-- Every reference is bound once or stays unbound. -/
lemma perm_boundInOrder (d : Draft) (r : Recorder) :
    (d.boundInOrder r ++ d.unboundReferences r).Perm d.noted := by
  have verdicts : (boundBy ((d.swept r).2.1.verdicts (d.swept r).1) ++
      d.unboundReferences r).Perm (d.swept r).1 := by
    rw [boundBy_verdicts]
    exact List.filter_append_perm _ _
  rw [boundInOrder, List.append_assoc]
  exact (verdicts.append_left _).trans (referenceRule.perm_decisions 0 d.noted d.lowered r)

/-- What typing tells of references are those that it binds. -/
lemma filterMap_typesTold (d : Draft) :
    d.typesTold.filterMap (·.2.reference?) =
      (d.boundInOrder (.new .error)).map fun p => (p.module, p.symbol) := by
  rw [typesTold, List.filterMap_append, boundInOrder, List.map_append,
    referenceRule.filterMap_told _ (fun _ => rfl) (fun _ _ => rfl) (fun _ _ _ => rfl), leftTold,
    List.filterMap_map, List.map_map]
  congr 1
  · exact congrFun List.filterMap_eq_map _
  · exact congrFun List.filterMap_eq_map _

variable {linked final : Draft} {types oids : Recorder}

/-- A reference that was bound is bound to what it names in the end. -/
lemma Stages.exists_boundTo (s : Stages linked types oids final) {p : PendingReference}
    (hp : p ∈ linked.noted) (hu : p ∉ linked.unboundReferences types) :
    ∃ target n, linked.lowered.targetOf? p = some target ∧
      final.mib.type? p.node = some n ∧ n.module = p.module ∧
      n.shape = .reference (linked.stringId p.symbol) (p.qualifier.map linked.stringId)
        (some target.node) (if target.module = p.module then none else some target.module) := by
  have h := s.untyped
  have b := h.binds types
  obtain ⟨m, hm, module, shape⟩ := h.exists_noted_node hp
  obtain ⟨target, ht, bound⟩ := b.bound p hp hu
  have typed : final.mib.type? p.node = (linked.resolveTypes types).1.mib.type? p.node := by
    rw [Mib.type?, s.types_eq]
    rfl
  rw [type?_resolveTypes, bound, hm] at typed
  refine ⟨target, _, ht, typed, ?_, ?_⟩
  · simp only [TypeNode.bindTo, shape]
    exact module
  · simp only [TypeNode.bindTo, shape]

/-- A reference that was bound is bound in the end. -/
lemma Stages.boundReference?_of_mem (s : Stages linked types oids final) {p : PendingReference}
    (hp : p ∈ linked.noted) (hu : p ∉ linked.unboundReferences types) :
    (final.mib.type? p.node).bind final.mib.boundReference? = some (p.module, p.symbol) := by
  obtain ⟨target, n, -, node, module, shape⟩ := s.exists_boundTo hp hu
  have symbol := s.str_stringId hp (.inl rfl)
  rw [node, Option.bind_some, Mib.boundReference?, shape, module]
  exact congrArg (fun x => some (p.module, x)) symbol

/-- A reference that is bound in the end was bound by typing. -/
lemma Stages.exists_bound (s : Stages linked types oids final) {t : TypeId} {n : TypeNode}
    (hn : final.mib.type? t = some n) (bound : (final.mib.boundReference? n).isSome) :
    ∃ p ∈ linked.noted, p ∉ linked.unboundReferences types ∧ p.node = t := by
  obtain ⟨symbol, qualifier?, target, from?, shape⟩ : ∃ symbol qualifier? target from?,
      n.shape = .reference symbol qualifier? (some target) from? := by
    unfold Mib.boundReference? at bound
    split at bound
    next symbol qualifier? target from? shape => exact ⟨_, _, _, _, shape⟩
    next => cases bound
  obtain ⟨p, hp⟩ := s.exists_notedAs hn shape
  refine ⟨p, hp.noted, fun hu => ?_, hp.node⟩
  have mem : p.node ∈ final.mib.unboundNodes := by
    rw [← s.map_node_unboundReferences]
    exact List.mem_map_of_mem hu
  obtain ⟨m, hm, unbound⟩ := Mib.mem_unboundNodes.1 mem
  rw [hp.node] at hm
  obtain rfl : n = m := Option.some.inj (hn.symm.trans hm)
  rw [shape] at unbound
  cases unbound

/-- The bindings are told of the references that are bound in the end. -/
lemma Stages.perm_references (s : Stages linked (.new .error) oids final) :
    (linked.typesTold.filterMap (·.2.reference?)).Perm final.mib.boundReferences := by
  have h := s.untyped
  have all := linked.perm_boundInOrder (.new .error)
  have nodup := (all.map (·.node)).nodup_iff.2 h.nodup_noted
  rw [List.map_append, List.nodup_append] at nodup
  obtain ⟨once, -, apart⟩ := nodup
  -- What is told of a reference is where it stands and what it names in the end.
  have told : ∀ p ∈ linked.boundInOrder (.new .error),
      (final.mib.type? p.node).bind final.mib.boundReference? = some (p.module, p.symbol) := by
    intro p hp
    refine s.boundReference?_of_mem (all.mem_iff.1 (List.mem_append_left _ hp)) fun hu => ?_
    exact apart _ (List.mem_map_of_mem hp) _ (List.mem_map_of_mem hu) rfl
  have events : linked.typesTold.filterMap (·.2.reference?) =
      ((linked.boundInOrder (.new .error)).map (·.node)).filterMap fun t =>
        (final.mib.type? t).bind final.mib.boundReference? := by
    rw [filterMap_typesTold, List.filterMap_map, ← List.filterMap_eq_map]
    exact List.filterMap_congr fun p hp => (told p hp).symm
  rw [events]
  refine perm_filterMap_toList final.mib.types _ once fun t => ?_
  constructor
  · intro ht
    obtain ⟨p, hp, rfl⟩ := List.mem_map.1 ht
    exact Option.isSome_iff_exists.2 ⟨_, told p hp⟩
  · intro present
    obtain ⟨v, hv⟩ := Option.isSome_iff_exists.1 present
    obtain ⟨n, hn, hv⟩ := Option.bind_eq_some_iff.1 hv
    obtain ⟨p, hp, bound, rfl⟩ := s.exists_bound hn (Option.isSome_iff_exists.2 ⟨_, hv⟩)
    rcases List.mem_append.1 (all.mem_iff.2 hp) with mem | unbound
    · exact List.mem_map_of_mem mem
    · exact absurd unbound bound

end References

end Draft

/-! ## Modules -/

/-- The modules with their names and identifiers, and whether they were generated, in order. -/
def Mib.moduleListing (mib : Mib) : List (String × ModuleId × Bool) :=
  mib.modules.toList.map fun m => (mib.str m.name, m.id, m.synthetic)

/-- The modules of a model are those registered. -/
lemma Draft.ModulesRegistered.moduleListing_eq {d : Draft} (h : d.ModulesRegistered)
    (flags : d.mib.syntheticFlags = d.modules.toList.map (·.file.isNone)) :
    d.mib.moduleListing = d.modules.toList.map fun r => (r.source.name, r.id, r.file.isNone) := by
  apply List.ext_getElem?
  intro i
  have flag := congrArg (·[i]?) flags
  simp only [Mib.syntheticFlags, List.getElem?_map, Array.getElem?_toList] at flag
  simp only [Mib.moduleListing, List.getElem?_map, Array.getElem?_toList]
  cases hr : d.modules[i]? with
  | none =>
    rw [hr, Option.map_none, Option.map_eq_none_iff] at flag
    rw [flag]
    rfl
  | some r =>
    obtain ⟨hid, name, hn, he⟩ := h.entry i r hr
    obtain ⟨e, hm, heading⟩ := Option.map_eq_some_iff.1 he
    simp only [Prod.mk.injEq] at heading
    rw [hm, hr, Option.map_some, Option.map_some, Option.some.injEq] at flag
    have named : d.mib.str e.name = r.source.name := by
      rw [heading.2.1]
      exact Strings.get_of_find? hn
    rw [hm, Option.map_some, Option.map_some, named, heading.1, hid, flag]

/-- The modules are listed in the order of their identifiers. -/
lemma Draft.ModulesRegistered.map_id {d : Draft} (h : d.ModulesRegistered) :
    d.mib.modules.toList.map (·.id) = (List.range d.mib.modules.size).map Ident.mk := by
  apply List.ext_getElem?
  intro i
  rw [List.getElem?_map, List.getElem?_map, Array.getElem?_toList]
  by_cases lt : i < d.mib.modules.size
  · obtain ⟨-, name, -, he⟩ := h.entry i _ (Array.getElem?_eq_getElem (h.size ▸ lt))
    obtain ⟨e, hm, heading⟩ := Option.map_eq_some_iff.1 he
    rw [hm, List.getElem?_range lt]
    exact congrArg (fun x => some x.1) heading
  · rw [Array.getElem?_eq_none (Nat.le_of_not_lt lt), List.getElem?_eq_none (by simpa using lt)]
    rfl

/-! ## Phases -/

/-- What happens inside a phase besides the recording of problems. Only in its sweeps a phase
changes the stage, and it does so in detail. -/
inductive OwnEvent : Phase → TraceLevel × Event → Prop
  | module (name : String) (m : ModuleId) (synthetic : Bool) :
    OwnEvent .registration (.debug, .moduleRegistered name m synthetic)
  | stage {phase : Phase} (swept : phase = .types ∨ phase = .oids) (pass : Nat) :
    OwnEvent phase (.debug, .stage (.resolving pass))
  | sweepStart {phase : Phase} (swept : phase = .types ∨ phase = .oids) (pass pending : Nat) :
    OwnEvent phase (.debug, .sweepStart phase pass pending)
  | sweepEnd {phase : Phase} (swept : phase = .types ∨ phase = .oids)
      (pass resolved remaining : Nat) :
    OwnEvent phase (.debug, .sweepEnd phase pass resolved remaining)
  | reference (m : ModuleId) (symbol : String) : OwnEvent .types (.trace, .typeResolved m symbol)
  | oid (name : String) (oid : Oid) : OwnEvent .oids (.trace, .oidResolved name oid)

/-- Whether an event may happen inside a phase: it is of the phase itself or records a problem that
the phase reports. -/
def HappensIn (phase : Phase) (e : TraceLevel × Event) : Prop :=
  OwnEvent phase e ∨ ∃ p : Problem, p.kind.phase = phase ∧ e = p.told

/-- What a phase tells: first its own events, then the problems that it recorded. -/
structure PhaseTells (phase : Phase) (own : Transcript) (ps : List Problem) (t : Transcript) :
    Prop where
  eq : t = own ++ ps.map Problem.told
  own : ∀ e ∈ own, OwnEvent phase e
  reported : ∀ p ∈ ps, p.kind.phase = phase

namespace SweepRule

/-- A sweeping phase tells its sweeps and its decisions. -/
lemma ownEvent_of_mem_told {α β : Type} (rule : SweepRule α β)
    (swept : rule.phase = .types ∨ rule.phase = .oids)
    (decided : ∀ d x y, OwnEvent rule.phase (.trace, rule.event d x y)) {pass : Nat} {xs : List α}
    {d : Draft} {e : TraceLevel × Event} (he : e ∈ rule.told pass xs d) :
    OwnEvent rule.phase e := by
  obtain ⟨s, -, he⟩ := List.mem_flatMap.1 he
  simp only [sweepTold, decisionsTold, List.mem_cons, List.mem_append, List.mem_map,
    List.not_mem_nil, or_false] at he
  rcases he with rfl | rfl | ⟨x, -, rfl⟩ | rfl
  · exact .stage swept _
  · exact .sweepStart swept _ _
  · exact decided _ _ _
  · exact .sweepEnd swept _ _ _

end SweepRule

namespace PhaseCall

/-- What happens inside a phase belongs to it. -/
lemma ownEvent_of_mem_inside (c : PhaseCall) (d : Draft) :
    ∀ e ∈ c.inside d, OwnEvent c.phase e := by
  intro e he
  cases c with
  | register files =>
    obtain ⟨m, -, rfl⟩ := List.mem_map.1 he
    exact .module _ _ _
  | link | finalize => cases he
  | resolveTypes =>
    rcases List.mem_append.1 he with he | he
    · exact Draft.referenceRule.ownEvent_of_mem_told (.inl rfl) (fun _ _ _ => .reference _ _) he
    · obtain ⟨p, -, rfl⟩ := List.mem_map.1 he
      exact .reference _ _
  | resolveOids =>
    exact Draft.oidRule.ownEvent_of_mem_told (.inr rfl) (fun _ _ _ => .oid _ _) he

/-- The problems behind those of the draft before are those that a phase reported. -/
lemma tells_body {c : PhaseCall} {d : Draft} (h : d.Reports c.phase (c.next d)) :
    PhaseTells c.phase (c.inside d) (c.problems d) (c.body d) ∧
      (c.next d).mib.problems.toList = d.mib.problems.toList ++ c.problems d := by
  obtain ⟨new, e, reported⟩ := h
  have since : c.problems d = new := by
    rw [problems, Problems.since, e, ← Problems.length_toList, List.drop_left]
  rw [since]
  refine ⟨⟨?_, c.ownEvent_of_mem_inside d, reported⟩, e⟩
  rw [body, since]

end PhaseCall

namespace PhaseTells

variable {phase : Phase} {own : Transcript} {ps : List Problem} {t : Transcript}

/-- What is read off a phase is read off its own events and its problems. -/
lemma filterMap {γ : Type} (h : PhaseTells phase own ps t) (f : Event → Option γ) :
    t.filterMap (f ·.2) = own.filterMap (f ·.2) ++ ps.filterMap fun p => f (.problem p) := by
  rw [h.eq, List.filterMap_append, List.filterMap_map]
  rfl

/-- Everything that a phase tells happens in that phase. -/
lemma happensIn (h : PhaseTells phase own ps t) : ∀ e ∈ t, HappensIn phase e := by
  intro e he
  rw [h.eq] at he
  rcases List.mem_append.1 he with he | he
  · exact .inl (h.own e he)
  · obtain ⟨p, hp, rfl⟩ := List.mem_map.1 he
    exact .inr ⟨p, h.reported p hp, rfl⟩

/-- The problems among what a phase tells are those it recorded, in order. -/
lemma problems (h : PhaseTells phase own ps t) : t.filterMap (·.2.problem?) = ps := by
  have none : own.filterMap (·.2.problem?) = [] := by
    refine List.filterMap_eq_nil_iff.2 fun e he => ?_
    cases h.own e he <;> rfl
  rw [h.filterMap Event.problem?, none]
  simp [Event.problem?]

end PhaseTells

/-! ## Runs -/

namespace Draft

variable (policy : Policy) (files : List ParsedFile)

/-- Linking continues what registration set up. -/
lemma continues_linked : Continues (registered policy files) (linked policy files) :=
  (linked_link (registered policy files)).links.continues

/-- Building continues what registration set up. -/
lemma continues_built : Continues (registered policy files) (built policy files) :=
  (continues_linked policy files).trans (stages_built policy files).continues

/-- The modules of a run, as written. -/
lemma sources_registered :
    (registered policy files).sources = registeredSources policy files :=
  (accounts_register policy files (.new .error)).sources

/-- A built draft has the registered modules as sources. -/
lemma sources_built : (built policy files).sources = registeredSources policy files := by
  rw [sources_of_registry (continues_built policy files).registry, sources_registered]

/-- The modules without a file are marked as generated. -/
lemma flags_built : (built policy files).mib.syntheticFlags =
    (built policy files).modules.toList.map (·.file.isNone) := by
  have c := continues_built policy files
  rw [syntheticFlags_of_registry c.registry, modules_of_registry c.registry]
  exact flags_register policy files _

end Draft

namespace Pipeline

section Arranged

variable {γ : Type} {f : Event → Option γ} (stage : ∀ s, f (.stage s) = none)
  (start : ∀ phase, f (.phaseStart phase) = none) (stop : ∀ phase, f (.phaseEnd phase) = none)

include start stop

/-- What is read off a phase is read off between its start and its end. -/
lemma filterMap_enclose (phase : Phase) (t : Transcript) :
    (phase.enclose t).filterMap (f ·.2) = t.filterMap (f ·.2) := by
  simp [Phase.enclose, start, stop]

include stage

/-- What is read off a run is read off its phases one after another. -/
lemma filterMap_arrange (story : Phase → Transcript) (last : Stage) :
    (arrange story ++ [stageTold last]).filterMap (f ·.2) =
      [Phase.registration, .linking, .types, .oids, .finalizing].flatMap fun phase =>
        (story phase).filterMap (f ·.2) := by
  simp only [arrange, stageTold, List.filterMap_append, List.filterMap_cons, List.filterMap_nil,
    List.flatMap_cons, List.flatMap_nil, stage, filterMap_enclose start stop, List.append_nil,
    List.append_assoc]

/-- What only the own events of one phase tell is read off these. -/
lemma filterMap_arrange_of_phase (problem : ∀ p, f (.problem p) = none) {phase : Phase}
    (parsed : phase ≠ .parsing) (others : ∀ i e, i ≠ phase → OwnEvent i e → f e.2 = none)
    {story : Phase → Transcript} (happens : ∀ i, ∀ e ∈ story i, HappensIn i e) {own : Transcript}
    {ps : List Problem} (tells : PhaseTells phase own ps (story phase)) (last : Stage) :
    (arrange story ++ [stageTold last]).filterMap (f ·.2) = own.filterMap (f ·.2) := by
  have none : ∀ i, i ≠ phase → (story i).filterMap (f ·.2) = [] := by
    intro i ne
    refine List.filterMap_eq_nil_iff.2 fun e he => ?_
    rcases happens i e he with own | ⟨p, -, rfl⟩
    · exact others i e ne own
    · exact problem p
  have mine : (story phase).filterMap (f ·.2) = own.filterMap (f ·.2) := by
    rw [tells.filterMap f, List.filterMap_eq_nil_iff.2 fun p _ => problem p, List.append_nil]
  rw [filterMap_arrange stage start stop, ← mine]
  cases phase with
  | parsing => exact absurd rfl parsed
  | _ => simp [none]

end Arranged

/-- A recorder of everything keeps all that a run tells. -/
lemma events_runParsed (policy : Policy) (stage : Stage) (files : List ParsedFile) :
    ((Pipeline.mk policy (.new .trace) stage).runParsed files).2.recorder.events.toList =
      arrange (story policy files) ++ [stageTold (lastStage policy files)] := by
  rw [runParsed_eq_told, Recorder.toList_events_tell]
  simp [Recorder.new, TraceLevel.within_trace, runTold]

/-- The problems of a run are those of its phases, each told in the phase that reported it. -/
lemma exists_phaseTells (policy : Policy) (files : List ParsedFile) :
    ∃ registration linking types oids finalizing : List Problem,
      PhaseTells .registration ((PhaseCall.register files).inside (.new policy)) registration
        (story policy files .registration) ∧
      PhaseTells .linking [] linking (story policy files .linking) ∧
      PhaseTells .types (Draft.linked policy files).typesTold types (story policy files .types) ∧
      PhaseTells .oids (Draft.typed policy files).oidsTold oids (story policy files .oids) ∧
      PhaseTells .finalizing [] finalizing (story policy files .finalizing) ∧
      (Draft.built policy files).mib.problems.toList =
        registration ++ (linking ++ (types ++ (oids ++ finalizing))) := by
  have s := Draft.stages_built policy files
  obtain ⟨registration, new⟩ := PhaseCall.tells_body (c := .register files)
    (Draft.registers_register (.new policy) files (.new .error)).reports
  obtain ⟨linking, linked⟩ := PhaseCall.tells_body (c := .link)
    (Draft.linked_link (.registered policy files)).reports
  obtain ⟨types, typed⟩ := PhaseCall.tells_body (c := .resolveTypes)
    (s.untyped.reports (r := .new .error))
  obtain ⟨oids, numbered⟩ := PhaseCall.tells_body (c := .resolveOids)
    ((s.untyped.oidsPending (.new .error)).reports (r := .new .error))
  obtain ⟨finalizing, built⟩ := PhaseCall.tells_body (c := .finalize)
    (Draft.finalizes_finalize (.numbered policy files)).reports
  refine ⟨_, _, _, _, _, registration, linking, types, oids, finalizing, ?_⟩
  simp only [← List.append_assoc]
  refine built.trans (congrArg (· ++ _) (numbered.trans (congrArg (· ++ _) (typed.trans
    (congrArg (· ++ _) (linked.trans (congrArg (· ++ _) new)))))))

/-- Whether an event is the start or the end of a phase or a change of the stage that is not one of
a sweep. -/
def isLandmark : TraceLevel × Event → Bool
  | (.info, .stage _) | (_, .phaseStart _) | (_, .phaseEnd _) => true
  | _ => false

/-- What the events of a run say about its result and its model. -/
structure Chronicles (t : Transcript) (result : Except RunError Mib) (mib : Mib) : Prop where
  /-- The phases come one after another, each in its stage, and inside a phase happens only what
  belongs to it. -/
  arranged : ∃ story : Phase → Transcript,
    t = arrange story ++ [stageTold (if result.isOk then .done else .failed)] ∧
      ∀ phase, ∀ e ∈ story phase, HappensIn phase e
  /-- Every phase starts and ends once. -/
  landmarks : t.filter isLandmark =
    [stageTold .symbolRegistration,
      (.info, .phaseStart .registration), (.info, .phaseEnd .registration),
      stageTold (.resolving 0),
      (.info, .phaseStart .linking), (.info, .phaseEnd .linking),
      (.info, .phaseStart .types), (.info, .phaseEnd .types),
      (.info, .phaseStart .oids), (.info, .phaseEnd .oids),
      stageTold .finalizing,
      (.info, .phaseStart .finalizing), (.info, .phaseEnd .finalizing),
      stageTold (if result.isOk then .done else .failed)]
  /-- The problems are told in order. -/
  problems : t.filterMap (·.2.problem?) = mib.problems.toList
  /-- The modules are told in order, with their identifiers and marks. -/
  modules : t.filterMap (·.2.module?) = mib.moduleListing
  /-- The order of the modules is that of their identifiers. -/
  numbered : mib.modules.toList.map (·.id) = (List.range mib.modules.size).map Ident.mk
  /-- Every reference that is bound is told once, and no other. -/
  references : (t.filterMap (·.2.reference?)).Perm mib.boundReferences
  /-- Every assignment with an OID is told once, with this OID, and no other. -/
  oids : (t.filterMap (·.2.oid?)).Perm mib.assignedOids

/-- A phase in which only what belongs to it happens has no landmarks of its own. -/
lemma filter_isLandmark_enclose {phase : Phase} {t : Transcript}
    (happens : ∀ e ∈ t, HappensIn phase e) :
    (phase.enclose t).filter isLandmark =
      [(.info, .phaseStart phase), (.info, .phaseEnd phase)] := by
  have none : t.filter isLandmark = [] := by
    refine List.filter_eq_nil_iff.2 fun e he => ?_
    rcases happens e he with own | ⟨p, -, rfl⟩
    · cases own <;> simp [isLandmark]
    · simp [isLandmark, Problem.told]
  rw [Phase.enclose, List.filter_cons_of_pos rfl, List.filter_append, none]
  rfl

/-- The events of a run tell its result and its model: a recorder of everything sees each phase once
and in its stage, every problem in the phase that reported it, and every module, bound reference and
OID by one event. -/
theorem chronicles_runParsed (policy : Policy) (stage : Stage) (files : List ParsedFile) :
    ∃ mib, modelOf ((Pipeline.mk policy (.new .trace) stage).runParsed files).1 = some mib ∧
      Chronicles ((Pipeline.mk policy (.new .trace) stage).runParsed files).2.recorder.events.toList
        ((Pipeline.mk policy (.new .trace) stage).runParsed files).1 mib := by
  have s := Draft.stages_built policy files
  have c := (Draft.continues_linked policy files).trans s.continues
  have registered := s.registered.of_continues s.continues
  obtain ⟨registration, linking, types, oids, finalizing, regTold, linkTold, typesTold, oidsTold,
    finTold, problems⟩ := exists_phaseTells policy files
  set result := verdict policy (Draft.built policy files).mib with hr
  have last : lastStage policy files = if result.isOk then .done else .failed := rfl
  -- What belongs to one phase is told by no other, so it is picked from the story of that phase.
  have happens : ∀ phase, ∀ e ∈ story policy files phase, HappensIn phase e := by
    intro phase
    cases phase with
    | parsing => exact fun e he => by cases he
    | registration => exact regTold.happensIn
    | linking => exact linkTold.happensIn
    | types => exact typesTold.happensIn
    | oids => exact oidsTold.happensIn
    | finalizing => exact finTold.happensIn
  rw [events_runParsed, runParsed_eq_told]
  refine ⟨_, modelOf_verdict policy _, ⟨_, by rw [last], happens⟩, ?landmarks, ?recorded, ?listed,
    ?numbers, ?bound, ?assigned⟩
  case landmarks =>
    rw [arrange, ← last]
    simp only [List.filter_append, List.flatMap_cons, List.flatMap_nil]
    rw [List.filter_cons_of_pos rfl, List.filter_cons_of_pos rfl, List.filter_cons_of_pos rfl]
    simp only [List.filter_append, filter_isLandmark_enclose (happens _)]
    rfl
  case recorded =>
    rw [filterMap_arrange (fun _ => rfl) (fun _ => rfl) (fun _ => rfl)]
    simp only [List.flatMap_cons, List.flatMap_nil, List.append_nil, regTold.problems,
      linkTold.problems, typesTold.problems, oidsTold.problems, finTold.problems, problems]
  case listed =>
    rw [filterMap_arrange_of_phase (fun _ => rfl) (fun _ => rfl) (fun _ => rfl) (fun _ => rfl)
      (by decide) (fun i e ne own => by cases own <;> first | rfl | exact absurd rfl ne) happens
      regTold, registered.modules.moduleListing_eq (Draft.flags_built policy files),
      Draft.modules_of_registry c.registry, PhaseCall.inside, List.filterMap_map]
    exact congrFun List.filterMap_eq_map _
  case numbers => exact registered.modules.map_id
  case bound =>
    rw [filterMap_arrange_of_phase (fun _ => rfl) (fun _ => rfl) (fun _ => rfl) (fun _ => rfl)
      (by decide) (fun i e ne own => by cases own <;> first | rfl | exact absurd rfl ne) happens
      typesTold]
    exact s.perm_references
  case assigned =>
    rw [filterMap_arrange_of_phase (fun _ => rfl) (fun _ => rfl) (fun _ => rfl) (fun _ => rfl)
      (by decide) (fun i e ne own => by cases own <;> first | rfl | exact absurd rfl ne) happens
      oidsTold]
    exact s.perm_oids

end Pipeline

end MibCorpus
