import MibCorpus.Proofs.Registry
import MibCorpus.Proofs.Sweep
import MibCorpus.Typing.Binding
import Mathlib.Data.List.Nodup

/-!
# What binding does

What a reference is bound to depends only on what was registered and linked and on the types of the
assignments, none of which binding changes. So whenever a reference is bound, in a sweep or after
the last one, it is bound to the one type that it names, and a draft in between is known from which
references are still pending.
-/

namespace MibCorpus

/-- A node bound to a target. -/
def TypeNode.bindTo (n : TypeNode) (r : PendingReference) (target : Draft.TypeTarget) : TypeNode :=
  let importedFrom := if target.module = r.module then none else some target.module
  match n.shape with
  | .reference symbol qualifier _ _ =>
    { n with shape := .reference symbol qualifier (some target.node) importedFrom }
  | _ => n

namespace Draft

/-- The node of a bound reference. -/
lemma type?_bindReference (d : Draft) (r : PendingReference) (target : TypeTarget) (t : TypeId) :
    (d.bindReference r target).mib.type? t =
      if r.node = t then (d.mib.type? t).map (·.bindTo r target) else d.mib.type? t :=
  d.mib.type?_modifyType ..

/-- What a reference names is the same in drafts with the same names and assignments. -/
lemma targetOf?_congr {d d' : Draft} (hs : d'.scope = d.scope)
    (ha : d'.mib.assignments = d.mib.assignments) (r : PendingReference) :
    d'.targetOf? r = d.targetOf? r := by
  have e : d'.mib.assignment? = d.mib.assignment? := by
    funext i
    simp only [Mib.assignment?, ha]
  simp only [targetOf?, lookupReference, hs, e]

/-- Draft `d'` comes from `d` by binding those of the references `rs` that are not in `xs`, each to
what it names. -/
structure Binds (d : Draft) (rs xs : List PendingReference) (d' : Draft) : Prop where
  registry : d'.registry = d.registry
  strings : d'.mib.strings = d.mib.strings
  scope : d'.scope = d.scope
  assignments : d'.mib.assignments = d.mib.assignments
  size : d'.mib.types.size = d.mib.types.size
  pending : xs.Sublist rs
  waiting : ∀ r ∈ xs, d'.mib.type? r.node = d.mib.type? r.node
  bound : ∀ r ∈ rs, r ∉ xs → ∃ target, d.targetOf? r = some target ∧
    d'.mib.type? r.node = (d.mib.type? r.node).map (·.bindTo r target)
  others : ∀ t, (∀ r ∈ rs, r.node ≠ t) → d'.mib.type? t = d.mib.type? t

/-- Where every reference is pending, nothing is bound. -/
lemma Binds.refl (d : Draft) (rs : List PendingReference) : Binds d rs rs d :=
  ⟨rfl, rfl, rfl, rfl, rfl, .refl _, fun _ _ => rfl, fun _ h h' => absurd h h', fun _ _ => rfl⟩

section

variable {d d' : Draft} {rs xs : List PendingReference}

/-- One more reference is bound. -/
lemma Binds.bind (h : Binds d rs xs d') (distinct : (rs.map (·.node)).Nodup)
    {r : PendingReference} (hr : r ∈ xs) {target : TypeTarget} (ht : d.targetOf? r = some target) :
    Binds d rs (xs.filter (· ≠ r)) (d'.bindReference r target) where
  registry := h.registry
  strings := h.strings
  scope := h.scope
  assignments := h.assignments
  size := by simp [bindReference, Mib.modifyType, h.size]
  pending := List.filter_sublist.trans h.pending
  waiting s hs := by
    obtain ⟨hs, ne⟩ := List.mem_filter.1 hs
    have ne' : r.node ≠ s.node := by
      intro e
      have eq := List.inj_on_of_nodup_map distinct (h.pending.subset hr) (h.pending.subset hs) e
      simp [eq] at ne
    rw [type?_bindReference, if_neg ne', h.waiting s hs]
  bound s hs hsx := by
    rw [type?_bindReference]
    by_cases e : s = r
    · subst e
      exact ⟨target, ht, by rw [if_pos rfl, h.waiting s hr]⟩
    · have ne : r.node ≠ s.node := fun e' =>
        e (List.inj_on_of_nodup_map distinct hs (h.pending.subset hr) e'.symm)
      rw [if_neg ne]
      exact h.bound s hs fun hs' => hsx (List.mem_filter.2 ⟨hs', by simpa using e⟩)
  others t ht' := by
    rw [type?_bindReference, if_neg (ht' r (h.pending.subset hr)), h.others t ht']

/-- Reporting a finding binds nothing. -/
lemma Binds.reportAbout (h : Binds d rs xs d') (f : Finding) (a : AssignmentId) :
    Binds d rs xs (d'.reportAbout f a) :=
  ⟨h.registry, h.strings, h.scope, h.assignments, h.size, h.pending, h.waiting, h.bound, h.others⟩

end

/-! ## Verdicts -/

/-- A reference with what was found about it. -/
abbrev Judged := PendingReference × Except Finding TypeTarget

/-- Carries out one verdict. -/
def carryOut (d : Draft) (v : Judged) : Draft :=
  match v.2 with
  | .ok target => d.bindReference v.1 target
  | .error f => d.reportAbout f v.1.referrer

/-- The problem that comes of a verdict. -/
def problemOf? (d : Draft) (v : Judged) : Option Problem :=
  match v.2 with
  | .ok _ => none
  | .error f => some (d.problemAbout f v.1.referrer)

/-- The references that some verdicts bind. -/
def boundBy (vs : List Judged) : List PendingReference :=
  (vs.filter (·.2.isOk)).map Prod.fst

/-- A reference with a target is bound. -/
lemma boundBy_ok (r : PendingReference) (target : TypeTarget) (vs : List Judged) :
    boundBy ((r, .ok target) :: vs) = r :: boundBy vs := rfl

/-- A reference that is refused is not bound. -/
lemma boundBy_error (r : PendingReference) (f : Finding) (vs : List Judged) :
    boundBy ((r, .error f) :: vs) = boundBy vs := rfl

/-- What verdicts about pending references do. -/
lemma binds_foldl_carryOut {d d' : Draft} {rs xs : List PendingReference}
    (h : Binds d rs xs d') (distinct : (rs.map (·.node)).Nodup) (vs : List Judged)
    (sub : ∀ v ∈ vs, v.1 ∈ xs) (nodup : (vs.map Prod.fst).Nodup)
    (right : ∀ r target, (r, .ok target) ∈ vs → d.targetOf? r = some target) :
    Binds d rs (xs.filter (· ∉ boundBy vs)) (vs.foldl carryOut d') ∧
      (vs.foldl carryOut d').mib.problems.toList =
        d'.mib.problems.toList ++ vs.filterMap d'.problemOf? := by
  induction vs generalizing xs d' with
  | nil => exact ⟨by simpa [boundBy] using h, by simp⟩
  | cons v vs ih =>
    obtain ⟨r, verdict⟩ := v
    simp only [List.map_cons, List.nodup_cons] at nodup
    have hr : r ∈ xs := sub _ (List.mem_cons_self ..)
    -- A reference that is bound leaves what is pending; one that is reported stays there.
    have right' : ∀ r target, (r, .ok target) ∈ vs → d.targetOf? r = some target :=
      fun s t hs => right s t (List.mem_cons_of_mem _ hs)
    cases verdict with
    | ok target =>
      have bound := h.bind distinct hr (right r target (List.mem_cons_self ..))
      have sub' : ∀ v ∈ vs, v.1 ∈ xs.filter (· ≠ r) := by
        intro v hv
        refine List.mem_filter.2 ⟨sub v (List.mem_cons_of_mem _ hv), ?_⟩
        have ne : v.1 ≠ r := fun e => nodup.1 (e ▸ List.mem_map_of_mem hv)
        simpa using ne
      obtain ⟨b, p⟩ := ih bound sub' nodup.2 right'
      refine ⟨?_, ?_⟩
      · have e : (xs.filter (· ≠ r)).filter (· ∉ boundBy vs) =
            xs.filter (· ∉ boundBy ((r, .ok target) :: vs)) := by
          rw [List.filter_filter]
          refine List.filter_congr fun s _ => ?_
          simp [boundBy_ok, Bool.and_comm]
        rw [← e]
        exact b
      · exact p
    | error f =>
      have sub' : ∀ v ∈ vs, v.1 ∈ xs := fun v hv => sub v (List.mem_cons_of_mem _ hv)
      obtain ⟨b, p⟩ := ih (h.reportAbout f r.referrer) sub' nodup.2 right'
      refine ⟨?_, ?_⟩
      · rw [boundBy_error]
        exact b
      · rw [List.foldl_cons, show carryOut d' (r, .error f) = d'.reportAbout f r.referrer from rfl,
          p, reportAbout_eq_record]
        have same : (d'.record (d'.problemAbout f r.referrer)).problemOf? = d'.problemOf? := rfl
        rw [same]
        simp [record, Mib.record, problemOf?]

/-! ## Sweeps -/

/-- The decisions of a sweep as verdicts. -/
def decisions (d : Draft) (xs : List PendingReference) : List Judged :=
  (referenceRule.decided d xs).map fun x => (x.1, .ok x.2)

/-- A sweep carries out the decisions that were made against the draft it started with. -/
lemma sweep_referenceRule (d : Draft) (xs : List PendingReference) :
    referenceRule.sweep d xs = (decisions d xs).foldl carryOut d := by
  rw [decisions, List.foldl_map]
  rfl

/-- A sweep binds what it decides about. -/
lemma boundBy_decisions (d : Draft) (xs : List PendingReference) :
    boundBy (decisions d xs) = xs.filter fun r => (d.readyTarget? r).isSome := by
  have all : (decisions d xs).filter (·.2.isOk) = decisions d xs := by
    refine List.filter_eq_self.2 fun v hv => ?_
    obtain ⟨x, -, rfl⟩ := List.mem_map.1 hv
    rfl
  rw [boundBy, all, decisions, List.map_map]
  exact referenceRule.map_fst_decided d xs

/-- A sweep binds references to what they name. -/
lemma Binds.sweep {d d' : Draft} {rs xs : List PendingReference} (h : Binds d rs xs d')
    (distinct : (rs.map (·.node)).Nodup) :
    Binds d rs (referenceRule.undecided d' xs) (referenceRule.sweep d' xs) ∧
      (referenceRule.sweep d' xs).mib.problems.toList = d'.mib.problems.toList := by
  have fsts : (decisions d' xs).map Prod.fst = xs.filter fun r => (d'.readyTarget? r).isSome := by
    rw [decisions, List.map_map]
    exact referenceRule.map_fst_decided d' xs
  have sub : ∀ v ∈ decisions d' xs, v.1 ∈ xs := by
    intro v hv
    have hv' := List.mem_map_of_mem (f := Prod.fst) hv
    rw [fsts] at hv'
    exact (List.mem_filter.1 hv').1
  have nodup : ((decisions d' xs).map Prod.fst).Nodup := by
    rw [fsts]
    exact ((List.Nodup.of_map _ distinct).sublist h.pending).filter _
  -- What is decided in between is what would be decided from the start.
  have right : ∀ r target, (r, .ok target) ∈ decisions d' xs → d.targetOf? r = some target := by
    intro r target hr
    obtain ⟨x, hx, e⟩ := List.mem_map.1 hr
    cases e
    have ready := (referenceRule.mem_decided.1 hx).2
    rw [← targetOf?_congr h.scope h.assignments]
    exact (Option.filter_eq_some_iff.1 ready).1
  obtain ⟨b, p⟩ := binds_foldl_carryOut h distinct (decisions d' xs) sub nodup right
  rw [sweep_referenceRule]
  refine ⟨?_, ?_⟩
  · have e : xs.filter (· ∉ boundBy (decisions d' xs)) = referenceRule.undecided d' xs := by
      refine List.filter_congr fun r hr => ?_
      rw [boundBy_decisions]
      cases hd : d'.readyTarget? r <;> simp [List.mem_filter, hr, referenceRule, hd]
    rw [← e]
    exact b
  · have none : (decisions d' xs).filterMap d'.problemOf? = [] := by
      refine List.filterMap_eq_nil_iff.2 fun v hv => ?_
      obtain ⟨x, -, rfl⟩ := List.mem_map.1 hv
      rfl
    rw [p, none, List.append_nil]

/-- The sweeps bind references to what they name and report nothing. -/
lemma binds_run (d : Draft) (rs : List PendingReference) (distinct : (rs.map (·.node)).Nodup)
    (r : Recorder) :
    Binds d rs (referenceRule.run 0 rs d r).1 (referenceRule.run 0 rs d r).2.1 ∧
      (referenceRule.run 0 rs d r).2.1.mib.problems.toList = d.mib.problems.toList := by
  refine referenceRule.run_invariant (P := fun xs d' =>
    Binds d rs xs d' ∧ d'.mib.problems.toList = d.mib.problems.toList) ?_ 0 r ⟨.refl d rs, rfl⟩
  rintro xs d' ⟨b, p⟩
  obtain ⟨b', p'⟩ := b.sweep distinct
  exact ⟨b', p'.trans p⟩

/-! ## What is left over -/

/-- The pending references with the verdicts about them. -/
def verdicts (d : Draft) (pending : List PendingReference) : List Judged :=
  pending.map fun r => (r, d.judgeReference pending r)

/-- The pending references that cannot be bound. -/
def unbindable (d : Draft) (pending : List PendingReference) : List PendingReference :=
  pending.filter fun r => !(d.judgeReference pending r).isOk

/-- Of the references left over, those are bound that a target was found for. -/
lemma boundBy_verdicts (d : Draft) (pending : List PendingReference) :
    boundBy (d.verdicts pending) = pending.filter fun p => (d.judgeReference pending p).isOk := by
  simp [boundBy, verdicts, List.filter_map, Function.comp_def]

/-- All verdicts about what is left over are carried out. -/
lemma settleLeftReferences_eq (d : Draft) (pending : List PendingReference) (r : Recorder) :
    (settleLeftReferences pending d r).1 = (d.verdicts pending).foldl carryOut d := by
  have each : ∀ (vs : List Judged) (dr : Draft × Recorder),
      (vs.foldl (fun dr v => settleReference dr v.1 v.2) dr).1 = vs.foldl carryOut dr.1 := by
    intro vs
    induction vs with
    | nil => exact fun _ => rfl
    | cons v vs ih =>
      intro dr
      obtain ⟨r, verdict⟩ := v
      rw [List.foldl_cons, List.foldl_cons, ih]
      cases verdict <;> rfl
  exact each _ _

/-- A reference is only ever judged to be bound to what it names. -/
lemma targetOf?_of_judgeReference {d : Draft} {pending : List PendingReference}
    {r : PendingReference} {target : TypeTarget} (h : d.judgeReference pending r = .ok target) :
    d.targetOf? r = some target := by
  unfold judgeReference at h
  simp only at h
  split at h
  · cases h
  · cases h
  · split at h
    · cases h
    next ht =>
      split at h <;> cases h
      exact ht

/-- What is left over is bound to what it names or reported. -/
lemma Binds.settleLeft {d d' : Draft} {rs pending : List PendingReference}
    (h : Binds d rs pending d') (distinct : (rs.map (·.node)).Nodup) (r : Recorder) :
    Binds d rs (d'.unbindable pending) (settleLeftReferences pending d' r).1 ∧
      (settleLeftReferences pending d' r).1.mib.problems.toList =
        d'.mib.problems.toList ++ (d'.verdicts pending).filterMap d'.problemOf? := by
  have fsts : (d'.verdicts pending).map Prod.fst = pending := by
    simp [verdicts, Function.comp_def]
  have sub : ∀ v ∈ d'.verdicts pending, v.1 ∈ pending := by
    intro v hv
    have hv' := List.mem_map_of_mem (f := Prod.fst) hv
    rwa [fsts] at hv'
  have nodup : ((d'.verdicts pending).map Prod.fst).Nodup := by
    rw [fsts]
    exact (List.Nodup.of_map _ distinct).sublist h.pending
  have right : ∀ r target, (r, .ok target) ∈ d'.verdicts pending →
      d.targetOf? r = some target := by
    intro r target hr
    obtain ⟨x, hx, e⟩ := List.mem_map.1 hr
    obtain ⟨rfl, judged⟩ := Prod.mk.injEq .. ▸ e
    rw [← targetOf?_congr h.scope h.assignments]
    exact targetOf?_of_judgeReference judged
  obtain ⟨b, p⟩ := binds_foldl_carryOut h distinct _ sub nodup right
  rw [settleLeftReferences_eq]
  refine ⟨?_, p⟩
  have e : pending.filter (· ∉ boundBy (d'.verdicts pending)) = d'.unbindable pending := by
    rw [boundBy_verdicts]
    refine List.filter_congr fun s hs => ?_
    simp [List.mem_filter, hs]
  rw [← e]
  exact b

end Draft

end MibCorpus
