import MibCorpus.OidValue.Resolution
import MibCorpus.Proofs.OidDerivation

/-!
# Written OID values

Every definition with an OID value that has not been left out is either an entry, which the sweeps
work on, or has a defect, which is reported before they start.
-/

namespace MibCorpus

/-- Reading the arcs behind the first component. -/
lemma OidValue.arcsOf_eq_ok {cs : List OidComponent} {arcs : List Arc} :
    arcsOf cs = .ok arcs ↔ cs.map (·.arc?) = arcs.map some := by
  induction cs generalizing arcs with
  | nil =>
    cases arcs <;> simp [arcsOf]
  | cons c cs ih =>
    unfold arcsOf
    cases hc : c.arc? with
    | none => cases arcs <;> simp [hc]
    | some a =>
      cases arcs with
      | nil => cases arcsOf cs <;> simp [Except.map]
      | cons b bs =>
        simp only [List.map_cons, hc, List.cons.injEq, Option.some.injEq, ← ih]
        cases arcsOf cs <;> simp [Except.map]

/-- A value can be read if all components behind the first spell out their arcs. -/
lemma OidValue.ofComponents_eq_ok {cs : List OidComponent} {v : OidValue} :
    ofComponents cs = .ok v ↔
      ∃ c rest, cs = c :: rest ∧ v.anchor = anchorOf c ∧ rest.map (·.arc?) = v.arcs.map some := by
  obtain ⟨anchor, arcs⟩ := v
  cases cs with
  | nil => simp [ofComponents]
  | cons c cs =>
    simp only [ofComponents, List.cons.injEq]
    constructor
    · intro h
      cases ha : arcsOf cs with
      | error e => simp [ha, Except.map] at h
      | ok as =>
        simp only [ha, Except.map, Except.ok.injEq, OidValue.mk.injEq] at h
        obtain ⟨rfl, rfl⟩ := h
        exact ⟨c, cs, ⟨rfl, rfl⟩, rfl, arcsOf_eq_ok.1 ha⟩
    · rintro ⟨_, _, ⟨rfl, rfl⟩, rfl, ha⟩
      simp [arcsOf_eq_ok.2 ha, Except.map]

/-- A component that gives a number stands for that arc. -/
lemma OidValue.anchorOf_of_arc? {c : OidComponent} {n : Arc} (h : c.arc? = some n) :
    anchorOf c = .arc n := by
  cases c <;> simp_all [OidComponent.arc?, anchorOf]

/-- A component that gives a name only stands for what has that name. -/
lemma OidValue.anchorOf_of_reference? {c : OidComponent} {q : Option String} {n : String}
    (h : c.reference? = some (q, n)) : anchorOf c = .name q n := by
  cases c <;> simp_all [OidComponent.reference?, anchorOf]

/-- Every component gives a number, or else a name only. -/
lemma OidComponent.arc_or_reference (c : OidComponent) :
    (∃ n, c.arc? = some n) ∨ ∃ q n, c.reference? = some (q, n) := by
  cases c <;> simp [arc?, reference?]

namespace Draft

variable {d : Draft}

/-- The OIDs that are written are those of the included definitions, in order. -/
lemma writtenOids_eq (d : Draft) :
    d.writtenOids = d.included.filterMap fun x =>
      x.2.2.oid?.map fun oid => (x.1, x.2.1, x.2.2.name, oid) := rfl

/-- What is kept of a list stands in the order of the list. -/
lemma sublist_map_filterMap {α β γ : Type} {f : α → Option β} {g : α → γ} {key : β → γ}
    (hf : ∀ x y, f x = some y → key y = g x) (xs : List α) :
    ((xs.filterMap f).map key).Sublist (xs.map g) := by
  induction xs with
  | nil => exact .slnil
  | cons x xs ih =>
    cases hx : f x with
    | none =>
      simp only [List.filterMap_cons, hx, List.map_cons]
      exact ih.cons _
    | some y =>
      simp only [List.filterMap_cons, hx, List.map_cons, hf x y hx]
      exact ih.cons_cons _

/-- No OID value is written twice for an assignment. -/
lemma nodup_writtenOids (d : Draft) : (d.writtenOids.map Prod.fst).Nodup := by
  refine d.nodup_included.sublist (sublist_map_filterMap ?_ _)
  intro x y hy
  obtain ⟨oid, -, rfl⟩ := Option.map_eq_some_iff.1 hy
  rfl

/-- An OID value is written if its definition has not been left out. -/
lemma mem_writtenOids {a : AssignmentId} {m : ModuleId} {name : String} {cs : List OidComponent} :
    (a, m, name, cs) ∈ d.writtenOids ↔ d.isIncluded a ∧
      ∃ x, d.owner? a = some (m, x) ∧ x.name = name ∧ x.oid? = some cs := by
  rw [writtenOids_eq, List.mem_filterMap]
  constructor
  · rintro ⟨⟨b, n, x⟩, hx, e⟩
    obtain ⟨oid, ho, e⟩ := Option.map_eq_some_iff.1 e
    simp only [Prod.mk.injEq] at e
    obtain ⟨rfl, rfl, rfl, rfl⟩ := e
    obtain ⟨hx, inc⟩ := List.mem_filter.1 hx
    exact ⟨inc, x, mem_definitions.1 hx, rfl, ho⟩
  · rintro ⟨inc, x, hx, rfl, ho⟩
    exact ⟨(a, m, x), List.mem_filter.2 ⟨mem_definitions.2 hx, inc⟩, by rw [ho]; rfl⟩

/-- An entry is an OID value without a defect. -/
lemma mem_oidEntries {e : OidEntry} :
    e ∈ d.oidEntries ↔ ∃ name cs, (e.assignment, e.module, name, cs) ∈ d.writtenOids ∧
      OidValue.ofComponents cs = .ok e.value := by
  obtain ⟨a, m, v⟩ := e
  simp only [oidEntries, List.mem_filterMap]
  constructor
  · rintro ⟨⟨b, n, name, cs⟩, hx, e⟩
    split at e
    next w hw =>
      simp only [Option.some.injEq, OidEntry.mk.injEq] at e
      obtain ⟨rfl, rfl, rfl⟩ := e
      exact ⟨name, cs, hx, hw⟩
    next => cases e
  · rintro ⟨name, cs, hx, hv⟩
    exact ⟨_, hx, by simp only [hv]⟩

/-- A defect is one of a written OID value. -/
lemma mem_oidDefects {a : AssignmentId} {f : Finding} :
    (a, f) ∈ d.oidDefects ↔ ∃ m name cs defect, (a, m, name, cs) ∈ d.writtenOids ∧
      OidValue.ofComponents cs = .error defect ∧ f = defect.finding name := by
  simp only [oidDefects, List.mem_filterMap]
  constructor
  · rintro ⟨⟨b, n, name, cs⟩, hx, e⟩
    split at e
    next => cases e
    next defect hd =>
      simp only [Option.some.injEq, Prod.mk.injEq] at e
      obtain ⟨rfl, rfl⟩ := e
      exact ⟨n, name, cs, defect, hx, hd, rfl⟩
  · rintro ⟨m, name, cs, defect, hx, hd, rfl⟩
    exact ⟨_, hx, by simp only [hd]⟩

/-- The entries belong to distinct assignments. -/
lemma nodup_oidEntries (d : Draft) : (d.oidEntries.map (·.assignment)).Nodup := by
  refine d.nodup_writtenOids.sublist (sublist_map_filterMap ?_ _)
  intro x y hy
  split at hy <;> cases hy
  rfl

/-- The defects belong to distinct assignments. -/
lemma nodup_oidDefects (d : Draft) : (d.oidDefects.map Prod.fst).Nodup := by
  refine d.nodup_writtenOids.sublist (sublist_map_filterMap ?_ _)
  intro x y hy
  split at hy <;> cases hy
  rfl

end Draft

end MibCorpus
