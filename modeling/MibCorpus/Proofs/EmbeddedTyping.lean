import MibCorpus.Proofs.AssignmentViews
import MibCorpus.Proofs.EmbeddedLowering
import MibCorpus.Proofs.EmbeddedNodes

/-!
# Embedded typing

The sweeps over embedded drafts bind the same references of the definitions that both keep, though
they may take more turns over the larger one. What they leave over is judged alike, and types get
the same states.
-/

namespace MibCorpus.Draft

variable {σ : Renaming} {τ : Equiv.Perm TypeId} {d d' : Draft}

/-! ## What references name -/

/-- In the lowered draft a reference is looked up by resolving its symbol from its module. -/
lemma lookupReference_lowered (h : d.Untyped) (r : PendingReference) :
    d.lowered.lookupReference r = d.scope.resolveFrom r.module r.qualifier r.symbol := by
  rw [lookupReference, show d.lowered.scope = d.scope from (laid_blocks h.definitions h.bare).scope]

section EmbedsNodes

/-- Lowering decides the same about a definition that is kept. -/
lemma EmbedsNodes.assignment?_lowered (h : EmbedsNodes σ τ d d') {i : AssignmentId}
    (hi : d.Kept i) :
    (d'.lowered.mib.assignment? (σ.assignment i)).map Assignment.view =
      (d.lowered.mib.assignment? i).map fun a => σ.view τ a.view := by
  have type := h.syntaxType? hi
  obtain ⟨m, x, hx⟩ := hi
  have hx' := h.embeds.keeps_renamed hx
  obtain ⟨a, ha, view⟩ := Option.map_eq_some_iff.1 (h.untyped.view_lowered hx.1 hx.2)
  rw [h.untyped'.view_lowered hx'.1 hx'.2, ha, Option.map_some, view, type]
  rfl

/-- A noted reference stands for the same in both drafts. -/
lemma EmbedsNodes.lookupReference (h : EmbedsNodes σ τ d d') {r : PendingReference}
    (hr : r ∈ d.noted) :
    d'.lowered.lookupReference (σ.reference τ r) = σ.lookup (d.lowered.lookupReference r) := by
  obtain ⟨x, hx, written⟩ := h.untyped.keeps_of_mem_noted hr
  rw [lookupReference_lowered h.untyped, lookupReference_lowered h.untyped']
  exact h.embeds.resolveFrom h.scope (h.embeds.registered.mentioned_of_origin hx.1 written) r.symbol

/-- A reference that is found is found at a kept entry. -/
lemma Untyped.kept_of_lookupReference (h : d.Untyped) {r : PendingReference} {i : AssignmentId}
    (found : d.lowered.lookupReference r = .found i) : d.Kept i := by
  rw [lookupReference_lowered h] at found
  exact h.definitions.kept_of_resolveFrom found

/-- A noted reference names the same type in both drafts. -/
lemma EmbedsNodes.targetOf? (h : EmbedsNodes σ τ d d') {r : PendingReference} (hr : r ∈ d.noted) :
    d'.lowered.targetOf? (σ.reference τ r) = (d.lowered.targetOf? r).map (σ.target τ) := by
  rw [Draft.targetOf?, Draft.targetOf?, h.lookupReference hr]
  cases found : d.lowered.lookupReference r with
  | notFound | ambiguous => rfl
  | found i =>
    simp only [Renaming.lookup, Lookup.found?, Option.bind_some]
    have e := congrArg (Option.bind · AssignmentView.target?)
      (h.assignment?_lowered (h.untyped.kept_of_lookupReference found))
    rw [Option.bind_map, Option.bind_map] at e
    rw [Option.map_bind]
    refine Eq.trans e (Option.bind_congr fun a _ => ?_)
    exact σ.target?_view τ a.view

/-- The type of a definition is a node. -/
lemma Untyped.hasType_of_assignment? (h : d.Untyped) {i : AssignmentId} {a : Assignment}
    (ha : d.lowered.mib.assignment? i = some a) {t : TypeId} (ht : a.type = some t) :
    d.lowered.mib.HasType t := by
  rw [Draft.assignment?_lowered h.definitions h.fresh h.bare] at ha
  obtain ⟨b, -, rfl⟩ := Option.map_eq_some_iff.1 ha
  exact h.exists_type?_of_syntaxType? ht

/-- What a reference names is a node. -/
lemma Untyped.hasType_of_targetOf? (h : d.Untyped) {r : PendingReference} {target : TypeTarget}
    (ht : d.lowered.targetOf? r = some target) : d.lowered.mib.HasType target.node := by
  obtain ⟨a, found, defined⟩ := Option.bind_eq_some_iff.1 ht
  obtain ⟨i, -, ha⟩ := Option.bind_eq_some_iff.1 found
  unfold definedType? at defined
  split at defined
  · obtain ⟨t, type, rfl⟩ := Option.map_eq_some_iff.1 defined
    exact h.hasType_of_assignment? ha type
  · cases defined

end EmbedsNodes

/-! ## Drafts with the same references bound -/

/-- Drafts `e` and `e'` come from what lowering made of embedded drafts by binding references; of
those that both drafts note, the same are bound. -/
structure EmbedsBound (σ : Renaming) (τ : Equiv.Perm TypeId) (d d' : Draft)
    (xs : List PendingReference) (e : Draft) (xs' : List PendingReference) (e' : Draft) : Prop
    extends EmbedsNodes σ τ d d' where
  binds : Binds d.lowered d.noted xs e
  binds' : Binds d'.lowered d'.noted xs' e'
  pending : ∀ r ∈ d.noted, (σ.reference τ r ∈ xs' ↔ r ∈ xs)

/-- Binding references neither adds nor removes types. -/
lemma Binds.hasType_iff {e : Draft} {rs xs : List PendingReference} (b : Binds d rs xs e)
    {t : TypeId} : e.mib.HasType t ↔ d.mib.HasType t := by
  simp only [Mib.HasType, Mib.type?, Array.getElem?_eq_some_iff, b.size]
  constructor
  · rintro ⟨_, lt, -⟩
    exact ⟨_, lt, rfl⟩
  · rintro ⟨_, lt, -⟩
    exact ⟨_, b.size ▸ lt, rfl⟩

/-- A node is as it was or is bound to what a reference names. -/
lemma Binds.type?_cases {e : Draft} {rs xs : List PendingReference} (b : Binds d rs xs e)
    (t : TypeId) : e.mib.type? t = d.mib.type? t ∨ ∃ r ∈ rs, r.node = t ∧ ∃ target,
      d.targetOf? r = some target ∧ e.mib.type? t = (d.mib.type? t).map (·.bindTo r target) := by
  by_cases bound : ∃ r ∈ rs, r.node = t ∧ r ∉ xs
  · obtain ⟨r, hr, rfl, hx⟩ := bound
    exact .inr ⟨r, hr, rfl, b.bound r hr hx⟩
  · refine .inl ?_
    by_cases waits : ∃ r ∈ xs, r.node = t
    · obtain ⟨r, hr, rfl⟩ := waits
      exact b.waiting r hr
    · exact b.others t fun r hr node => bound ⟨r, hr, node, fun hx => waits ⟨r, hx, node⟩⟩

section EmbedsBound

variable {xs xs' : List PendingReference} {e e' : Draft}

/-- A node that nothing is noted for has nothing noted for its counterpart either. -/
lemma EmbedsNodes.others_noted (h : EmbedsNodes σ τ d d') {t : TypeId}
    (ht : d.lowered.mib.HasType t)
    (none : ∀ r ∈ d.noted, r.node ≠ t) : ∀ r' ∈ d'.noted, r'.node ≠ τ t := by
  intro r' hr' node
  obtain ⟨n, hn⟩ := ht
  obtain ⟨r, hr, same, -⟩ := h.exists_noted hr' hn node
  exact none r hr same

/-- A bound reference node has the node that it is bound to as its only dependency. -/
lemma view_bindTo {n : TypeNode} (h : n.shape.isReference) (r : PendingReference)
    (target : TypeTarget) :
    (n.bindTo r target).view = ⟨n.id, [target.node], some target.node, false⟩ := by
  obtain ⟨id, name, m, shape, constraint, state⟩ := n
  cases shape with
  | reference => rfl
  | builtin | enumeration | sequence | sequenceOf | choice | textualConvention => cases h

/-- With the same references bound, nodes are embedded. -/
lemma EmbedsBound.nodes (h : EmbedsBound σ τ d d' xs e xs' e') : Mib.NodesEmbed τ e.mib e'.mib where
  exists_type? {t n} hn := by
    have ht : d.lowered.mib.HasType t := h.binds.hasType_iff.1 ⟨n, hn⟩
    obtain ⟨m, hm⟩ := ht
    obtain ⟨m', hm', view⟩ := h.toEmbedsNodes.exists_type? hm
    by_cases noted : ∃ r ∈ d.noted, r.node = t
    · obtain ⟨r, hr, rfl⟩ := noted
      have hr' := h.reference_mem_noted hr
      have node : (σ.reference τ r).node = τ r.node := rfl
      by_cases hx : r ∈ xs
      · rw [h.binds.waiting r hx, hm] at hn
        obtain rfl := Option.some.inj hn
        have same := h.binds'.waiting _ ((h.pending r hr).2 hx)
        rw [node, hm'] at same
        exact ⟨m', same, view⟩
      · obtain ⟨target, ht, bound⟩ := h.binds.bound r hr hx
        obtain ⟨target', ht', bound'⟩ := h.binds'.bound _ hr' (mt (h.pending r hr).1 hx)
        -- Both are bound to the same target.
        rw [h.toEmbedsNodes.targetOf? hr, ht] at ht'
        obtain rfl : σ.target τ target = target' := by simpa using ht'
        have isReference := h.untyped.isReference_of_noted hr hm
        have isReference' := h.untyped'.isReference_of_noted hr' hm'
        rw [hn, hm] at bound
        rw [node, hm'] at bound'
        obtain rfl := Option.some.inj bound
        refine ⟨_, bound', ?_⟩
        rw [view_bindTo isReference', view_bindTo isReference,
          show m'.id = τ m.id from congrArg NodeView.id view]
        rfl
    · have none : ∀ r ∈ d.noted, r.node ≠ t := fun r hr same => noted ⟨r, hr, same⟩
      rw [h.binds.others t none, hm] at hn
      obtain rfl := Option.some.inj hn
      exact ⟨m', (h.binds'.others _ (h.others_noted ⟨m, hm⟩ none)).trans hm', view⟩
  closed {t n u} hn hu := by
    refine h.binds.hasType_iff.2 ?_
    rcases h.binds.type?_cases t with same | ⟨r, hr, rfl, target, ht, bound⟩
    · rw [same] at hn
      exact h.untyped.exists_type?_of_mem_dependencies hn hu
    · obtain ⟨m, hm, -⟩ := h.untyped.exists_noted_node hr
      rw [hn, hm] at bound
      obtain rfl := Option.some.inj bound
      have dependencies : (m.bindTo r target).shape.dependencies = [target.node] :=
        congrArg NodeView.dependencies
          (view_bindTo (h.untyped.isReference_of_noted hr hm) r target)
      rw [dependencies] at hu
      obtain rfl := List.mem_singleton.1 hu
      exact h.untyped.hasType_of_targetOf? ht

/-- Every node stands at its identifier. -/
lemma EmbedsBound.id_of_type? (h : EmbedsBound σ τ d d' xs e xs' e') {t : TypeId} {n : TypeNode}
    (hn : e.mib.type? t = some n) : n.id = t := by
  have lowered := fun {n} hn =>
    (core_of_type?_lowered (t := t) (n := n) h.untyped.definitions h.untyped.bare hn).1
  rcases h.binds.type?_cases t with same | ⟨r, hr, rfl, target, -, bound⟩
  · exact lowered (same ▸ hn)
  · obtain ⟨m, hm, -⟩ := h.untyped.exists_noted_node hr
    rw [hn, hm] at bound
    obtain rfl := Option.some.inj bound
    have id : (m.bindTo r target).id = m.id :=
      congrArg NodeView.id (view_bindTo (h.untyped.isReference_of_noted hr hm) r target)
    exact id.trans (lowered hm)

/-- The embedded draft looks the renamed reference up with the renamed outcome. -/
lemma EmbedsBound.lookupReference (h : EmbedsBound σ τ d d' xs e xs' e') {r : PendingReference}
    (hr : r ∈ d.noted) :
    e'.lookupReference (σ.reference τ r) = σ.lookup (e.lookupReference r) := by
  have same := h.toEmbedsNodes.lookupReference hr
  rwa [Draft.lookupReference, Draft.lookupReference, ← h.binds.scope, ← h.binds'.scope] at same

/-- The target of a renamed reference is the renamed target. -/
lemma EmbedsBound.targetOf? (h : EmbedsBound σ τ d d' xs e xs' e') {r : PendingReference}
    (hr : r ∈ d.noted) :
    e'.targetOf? (σ.reference τ r) = (e.targetOf? r).map (σ.target τ) := by
  rw [targetOf?_congr h.binds.scope h.binds.assignments,
    targetOf?_congr h.binds'.scope h.binds'.assignments]
  exact h.toEmbedsNodes.targetOf? hr

/-- The target of a reference is a type of the model. -/
lemma EmbedsBound.hasType_of_targetOf? (h : EmbedsBound σ τ d d' xs e xs' e')
    {r : PendingReference} {target : TypeTarget} (ht : e.targetOf? r = some target) :
    e.mib.HasType target.node := by
  rw [targetOf?_congr h.binds.scope h.binds.assignments] at ht
  exact h.binds.hasType_iff.2 (h.untyped.hasType_of_targetOf? ht)

/-- No reference on a chain is unbound if none is found. -/
lemma isChainBound_eq (d : Draft) (t : TypeId) :
    d.isChainBound t = ((d.mib.typeChain t).find? (·.shape.isUnbound)).isNone := by
  rw [isChainBound, Bool.eq_iff_iff, Option.isNone_iff_eq_none, List.find?_eq_none,
    List.all_eq_true]
  simp

/-- The same targets are ready to be bound to. -/
lemma EmbedsBound.readyTarget? (h : EmbedsBound σ τ d d' xs e xs' e') {r : PendingReference}
    (hr : r ∈ d.noted) :
    e'.readyTarget? (σ.reference τ r) = (e.readyTarget? r).map (σ.target τ) := by
  rw [Draft.readyTarget?, Draft.readyTarget?, h.targetOf? hr, Option.filter_map]
  refine congrArg (Option.map _) ?_
  cases ht : e.targetOf? r with
  | none => rfl
  | some target =>
    have chain := congrArg Option.isNone (h.nodes.find?_typeChain (h.hasType_of_targetOf? ht))
    rw [Option.isNone_map, Option.isNone_map, ← isChainBound_eq, ← isChainBound_eq] at chain
    rw [Option.filter_some, Option.filter_some]
    simp only [Function.comp_apply, Renaming.target, chain]

/-- A sweep binds the same references. -/
lemma EmbedsBound.sweep (h : EmbedsBound σ τ d d' xs e xs' e') :
    EmbedsBound σ τ d d' (referenceRule.undecided e xs) (referenceRule.sweep e xs)
      (referenceRule.undecided e' xs') (referenceRule.sweep e' xs') where
  toEmbedsNodes := h.toEmbedsNodes
  binds := (h.binds.sweep h.untyped.nodup_noted).1
  binds' := (h.binds'.sweep h.untyped'.nodup_noted).1
  pending r hr := by
    have same := congrArg Option.isNone (h.readyTarget? hr)
    rw [Option.isNone_map] at same
    rw [SweepRule.undecided, SweepRule.undecided, List.mem_filter, List.mem_filter, h.pending r hr]
    exact and_congr_right fun _ => by rw [show referenceRule.decide? = Draft.readyTarget? from rfl,
      same]

/-- The sweeps bind the same references. -/
lemma EmbedsNodes.swept (h : EmbedsNodes σ τ d d') (r r' : Recorder) :
    EmbedsBound σ τ d d' (d.swept r).1 (d.swept r).2.1 (d'.swept r').1 (d'.swept r').2.1 := by
  refine referenceRule.run_simulation
    (R := fun xs e xs' e' => EmbedsBound σ τ d d' xs e xs' e')
    (fun xs e xs' e' h => h.sweep) 0 0 r r' ⟨h, .refl .., .refl .., fun q hq => ?_⟩
  exact ⟨fun _ => hq, fun _ => h.reference_mem_noted hq⟩

/-! ## What is left over -/

/-- A draft whose references are bound continues the draft before typing. -/
lemma Untyped.continues_binds (h : d.Untyped) {e : Draft} {xs : List PendingReference}
    (b : Binds d.lowered d.noted xs e) : Continues d e :=
  (continues_lowered h.definitions).trans ⟨b.registry, b.strings ▸ .refl _⟩

/-- The bound drafts are embedded like the drafts before typing. -/
lemma EmbedsBound.embeds_bound (h : EmbedsBound σ τ d d' xs e xs' e') : Embeds σ e e' :=
  h.embeds.of_continues (h.untyped.continues_binds h.binds) (h.untyped'.continues_binds h.binds')

/-- Binding keeps the same entries. -/
lemma EmbedsBound.kept_iff (h : EmbedsBound σ τ d d' xs e xs' e') {i : AssignmentId} :
    e.Kept i ↔ d.Kept i :=
  kept_of_registry (h.untyped.continues_binds h.binds).registry

/-- A kept entry's assignment is carried over, up to the renaming. -/
lemma EmbedsBound.assignment? (h : EmbedsBound σ τ d d' xs e xs' e') {i : AssignmentId}
    (hi : d.Kept i) : (e'.mib.assignment? (σ.assignment i)).map Assignment.view =
      (e.mib.assignment? i).map fun a => σ.view τ a.view := by
  rw [Mib.assignment?, Mib.assignment?, h.binds.assignments, h.binds'.assignments]
  exact h.toEmbedsNodes.assignment?_lowered hi

/-- The same reference is pending for a node. -/
lemma EmbedsBound.find?_node (h : EmbedsBound σ τ d d' xs e xs' e') {t : TypeId}
    (ht : e.mib.HasType t) :
    xs'.find? (·.node = τ t) = (xs.find? (·.node = t)).map (σ.reference τ) := by
  obtain ⟨n, hn⟩ := h.binds.hasType_iff.1 ht
  have nodup := h.untyped.nodup_noted.sublist
    (h.binds.pending.map (·.node))
  have nodup' := h.untyped'.nodup_noted.sublist
    (h.binds'.pending.map (·.node))
  refine Option.ext fun r' => ?_
  simp only [find?_eq_some_iff_of_nodup nodup', Option.map_eq_some_iff,
    find?_eq_some_iff_of_nodup nodup]
  constructor
  · rintro ⟨hr', node⟩
    obtain ⟨r, hr, same, rfl⟩ := h.exists_noted (h.binds'.pending.subset hr') hn node
    exact ⟨r, ⟨(h.pending r hr).1 hr', same⟩, rfl⟩
  · rintro ⟨r, ⟨hr, rfl⟩, rfl⟩
    exact ⟨(h.pending r (h.binds.pending.subset hr)).2 hr, rfl⟩

/-- What an assignment waits for, step by step. -/
lemma waitsFor?_eq (d : Draft) (pending : List PendingReference) (a : AssignmentId) :
    d.waitsFor? pending a =
      ((((d.mib.assignment? a).bind (·.type)).bind fun t =>
        (d.mib.typeChain t).find? (·.shape.isUnbound)).bind fun n =>
          pending.find? (·.node = n.id)).bind fun r => (d.lookupReference r).found? := by
  unfold waitsFor?
  cases d.mib.assignment? a with
  | none => rfl
  | some x =>
    cases ht : x.type with
    | none => simp [ht]
    | some t =>
      simp only [Option.bind_eq_bind, Option.bind_some, ht]
      cases (d.mib.typeChain t).find? (·.shape.isUnbound) <;> rfl

/-- A definition that is kept waits for the same. -/
lemma EmbedsBound.waitsFor? (h : EmbedsBound σ τ d d' xs e xs' e') {i : AssignmentId}
    (hi : d.Kept i) :
    e'.waitsFor? xs' (σ.assignment i) = (e.waitsFor? xs i).map σ.assignment := by
  have types := congrArg (Option.bind · AssignmentView.type) (h.assignment? hi)
  rw [Option.bind_map, Option.bind_map] at types
  rw [waitsFor?_eq, waitsFor?_eq, show (e'.mib.assignment? (σ.assignment i)).bind (·.type) = _ from
    types]
  cases ha : e.mib.assignment? i with
  | none => rfl
  | some a =>
    simp only [Option.bind_some, Function.comp_apply, Renaming.view, Assignment.view]
    cases type : a.type with
    | none => rfl
    | some t =>
      have ht : e.mib.HasType t := by
        rw [Mib.assignment?, h.binds.assignments] at ha
        exact h.binds.hasType_iff.2 (h.untyped.hasType_of_assignment? ha type)
      simp only [Option.map_some, Option.bind_some]
      -- Both chains end alike, so both assignments wait for the same.
      have ends := h.nodes.find?_typeChain ht
      cases hn : (e.mib.typeChain t).find? (·.shape.isUnbound) with
      | none =>
        rw [hn, Option.map_none, Option.map_eq_none_iff] at ends
        rw [ends]
        rfl
      | some n =>
        rw [hn] at ends
        obtain ⟨n', hn', view⟩ := Option.map_eq_some_iff.1 ends
        have there : e.mib.HasType n.id := by
          obtain ⟨-, k, hk⟩ := Mib.find?_typeChain_eq_some_iff.1 hn
          obtain ⟨u, -, hu⟩ := Option.bind_eq_some_iff.1 hk
          rw [h.id_of_type? hu]
          exact ⟨n, hu⟩
        simp only [hn', Option.bind_some]
        rw [show n'.id = τ n.id from congrArg NodeView.id view, h.find?_node there]
        cases hr : xs.find? (·.node = n.id) with
        | none => rfl
        | some r =>
          have noted := h.binds.pending.subset (List.mem_of_find?_eq_some hr)
          simp only [Option.map_some, Option.bind_some, h.lookupReference noted, σ.found?_lookup]

/-- Waiting leads to the same. -/
lemma EmbedsBound.leadsTo (h : EmbedsBound σ τ d d' xs e xs' e') (target : AssignmentId)
    {current : AssignmentId} (hc : d.Kept current) :
    e'.leadsTo xs' (σ.assignment target) e'.mib.assignments.size (σ.assignment current) =
      e.leadsTo xs target e.mib.assignments.size current := by
  have stays : ∀ a b, d.Kept a → e.waitsFor? xs a = some b → d.Kept b := by
    intro a b _ hb
    rw [waitsFor?_eq] at hb
    obtain ⟨r, -, hb⟩ := Option.bind_eq_some_iff.1 hb
    refine h.untyped.kept_of_lookupReference (r := r) ?_
    rw [Draft.lookupReference, h.binds.scope] at hb
    cases found : d.lowered.lookupReference r with
    | notFound | ambiguous =>
      rw [show d.lowered.scope.resolveFrom r.module r.qualifier r.symbol = _ from found] at hb
      cases hb
    | found i =>
      rw [show d.lowered.scope.resolveFrom r.module r.qualifier r.symbol = _ from found] at hb
      rw [Option.some.inj hb]
  rw [Bool.eq_iff_iff, leadsTo_iff, leadsTo_iff]
  refine exists_congr fun k => ?_
  rw [(stepsFrom_map (fun a ha => h.waitsFor? ha) stays k hc).1, Option.map_eq_some_iff]
  simp

/-- What is left over is judged alike. -/
lemma EmbedsBound.judgeReference (h : EmbedsBound σ τ d d' xs e xs' e') {r : PendingReference}
    (hr : r ∈ d.noted) :
    e'.judgeReference xs' (σ.reference τ r) = (e.judgeReference xs r).map (σ.target τ) := by
  have referrer : d.Kept r.referrer := by
    obtain ⟨x, hx, -⟩ := h.untyped.keeps_of_mem_noted hr
    exact ⟨r.module, x, hx⟩
  have named : e'.mib.nameOf (σ.reference τ r).referrer = e.mib.nameOf r.referrer :=
    h.embeds_bound.nameOf (h.kept_iff.2 referrer)
  unfold Draft.judgeReference
  simp only [h.lookupReference hr, h.targetOf? hr, named]
  cases found : e.lookupReference r with
  | notFound => rfl
  | ambiguous sources =>
    simp only [Renaming.lookup, List.length_map]
    rfl
  | found a =>
    have kept : d.Kept a := by
      rw [Draft.lookupReference, h.binds.scope] at found
      exact h.untyped.kept_of_lookupReference found
    simp only [Renaming.lookup]
    cases e.targetOf? r with
    | none => rfl
    | some target =>
      simp only [Option.map_some]
      rw [show (σ.reference τ r).referrer = σ.assignment r.referrer from rfl,
        h.leadsTo r.referrer kept]
      split <;> rfl

end EmbedsBound

end MibCorpus.Draft
