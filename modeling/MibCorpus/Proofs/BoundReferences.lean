import MibCorpus.Proofs.References
import Mathlib.Data.List.Sort

/-!
# The references of a model

After a run a reference that is bound points at the type that its name stands for where it is
written, and the references that are not bound are the causes, one by one, of the problems about
references.
-/

namespace MibCorpus

open TypeStates

/-- The nodes that lack their targets, in order. -/
def Mib.unboundNodes (mib : Mib) : List TypeId :=
  ((List.range mib.types.size).map Ident.mk).filter fun t =>
    (mib.type? t).any (·.shape.isUnbound)

/-- The nodes that lack their targets are listed. -/
lemma Mib.mem_unboundNodes {mib : Mib} {t : TypeId} :
    t ∈ mib.unboundNodes ↔ Unbound mib.types t := by
  obtain ⟨i⟩ := t
  simp only [unboundNodes, List.mem_filter, List.mem_map, List.mem_range, Ident.mk.injEq,
    exists_eq_right, Option.any_eq_true, Unbound]
  constructor
  · exact fun h => h.2
  · rintro ⟨n, hn, unbound⟩
    exact ⟨(Array.getElem?_eq_some_iff.1 hn).1, n, hn, unbound⟩

/-- The nodes that lack their targets are listed by their positions. -/
lemma Mib.sortedLT_unboundNodes (mib : Mib) :
    (mib.unboundNodes.map (·.index)).SortedLT := by
  have sub : (mib.unboundNodes.map (·.index)).Sublist (List.range mib.types.size) := by
    have sub := (List.filter_sublist (l := (List.range mib.types.size).map Ident.mk)
      (p := fun t : TypeId => (mib.type? t).any (·.shape.isUnbound))).map (·.index)
    simpa [unboundNodes, List.map_map, Function.comp_def] using sub
  exact (List.pairwise_lt_range.sublist sub).sortedLT

namespace Draft

/-- Node `t` is an unbound reference in the SYNTAX of the subject of the problem, which says what is
wrong with the name as it is written there. -/
inductive IsCause (d : Draft) (t : TypeId) : Problem → Prop where
  | intro {n : TypeNode} {symbol : StrId} {qualifier? : Option StrId} {a : AssignmentId}
      {f : Finding} (node : d.mib.type? t = some n)
      (shape : n.shape = .reference symbol qualifier? none none) (owner : d.mib.InSyntax a t)
      (finding : ReferenceFinding (d.mib.nameOf a)
        (PendingReference.text ⟨t, n.module, a, d.mib.str symbol, qualifier?.map d.mib.str⟩) f) :
      d.IsCause t (d.problemAbout f a)

/-- What holds of the references of a draft after a run. -/
structure ReferencesSettled (d : Draft) : Prop where
  /-- What a bound reference points at is the type that its name stands for. -/
  bound : ∀ t n symbol qualifier? target from?, d.mib.type? t = some n →
    n.shape = .reference symbol qualifier? (some target) from? →
    ∃ y a, d.scope.resolveFrom n.module (qualifier?.map d.mib.str) (d.mib.str symbol) = .found y ∧
      d.mib.assignment? y = some a ∧ a.kind.isType ∧ a.type = some target ∧
      from? = if a.module = n.module then none else some a.module
  /-- Every node stands in the SYNTAX of one assignment. -/
  owned : ∀ t n, d.mib.type? t = some n → ∃! a, d.mib.InSyntax a t
  /-- The unbound references are the causes, one by one, of the problems about references. -/
  reported : ∃ causes : List (TypeId × Problem),
    causes.map Prod.fst = d.mib.unboundNodes ∧
    causes.map Prod.snd = d.mib.problems.toList.filter isReferenceProblem ∧
    ∀ t p, (t, p) ∈ causes → d.IsCause t p
  /-- There are as many problems about references in a SYNTAX as there are unbound ones. -/
  counted : ∀ a,
    ((d.mib.problems.toList.filter isReferenceProblem).filter (·.subject = some a)).length =
      {t | Unbound d.mib.types t ∧ d.mib.InSyntax a t}.ncard

/-- The counts follow from the causes. -/
lemma length_filter_subject {d : Draft} {causes : List (TypeId × Problem)}
    (owned : ∀ t n, d.mib.type? t = some n → ∃! a, d.mib.InSyntax a t)
    (fsts : causes.map Prod.fst = d.mib.unboundNodes)
    (each : ∀ t p, (t, p) ∈ causes → d.IsCause t p) (a : AssignmentId) :
    ((causes.map Prod.snd).filter (·.subject = some a)).length =
      {t | Unbound d.mib.types t ∧ d.mib.InSyntax a t}.ncard := by
  -- Each problem has its own node, so the problems of an assignment are counted by their nodes.
  let mine := (causes.filter fun c => c.2.subject = some a).map Prod.fst
  have nodup : mine.Nodup := by
    refine List.Nodup.sublist (List.filter_sublist.map _) ?_
    rw [fsts]
    exact List.Nodup.of_map _ d.mib.sortedLT_unboundNodes.nodup
  have same : {t | Unbound d.mib.types t ∧ d.mib.InSyntax a t} = ↑mine.toFinset := by
    ext t
    simp only [Set.mem_ofPred_eq, List.coe_toFinset, mine, List.mem_map, List.mem_filter,
      decide_eq_true_eq, Prod.exists, exists_and_right, exists_eq_right]
    constructor
    · rintro ⟨unbound, ht⟩
      have mem := Mib.mem_unboundNodes.2 unbound
      rw [← fsts] at mem
      obtain ⟨⟨t, p⟩, hp, rfl⟩ := List.mem_map.1 mem
      refine ⟨p, hp, ?_⟩
      cases each t p hp with
      | intro node shape owner finding => rw [(owned t _ node).unique ht owner]; rfl
    · rintro ⟨p, hp, subject⟩
      have unbound : Unbound d.mib.types t := by
        rw [← Mib.mem_unboundNodes, ← fsts]
        exact List.mem_map.2 ⟨_, hp, rfl⟩
      cases each t p hp with
      | intro node shape owner finding =>
        obtain rfl := Option.some.inj subject
        exact ⟨unbound, owner⟩
  rw [same, Set.ncard_coe_finset, List.toFinset_card_of_nodup nodup]
  simp [mine, List.filter_map, Function.comp_def]

section Stages

variable {linked final : Draft} {types oids : Recorder}

/-- What a reference node of the last draft was noted as, and what was made of it. -/
structure NotedAs (linked final : Draft) (types : Recorder) (t : TypeId) (n : TypeNode)
    (symbol : StrId) (qualifier? : Option StrId) (target? : Option TypeId)
    (from? : Option ModuleId) (p : PendingReference) : Prop where
  noted : p ∈ linked.noted
  node : p.node = t
  module : p.module = n.module
  symbol : final.mib.str symbol = p.symbol
  qualifier : qualifier?.map final.mib.str = p.qualifier
  outcome : (target? = none ∧ from? = none ∧ p ∈ linked.unboundReferences types) ∨
    ∃ target, linked.lowered.targetOf? p = some target ∧ target? = some target.node ∧
      from? = if target.module = p.module then none else some target.module

/-- The names of a noted reference are read back from the last draft. -/
lemma Stages.str_stringId (s : Stages linked types oids final) {p : PendingReference}
    (hp : p ∈ linked.noted) {x : String} (hx : x = p.symbol ∨ p.qualifier = some x) :
    final.mib.str (linked.stringId x) = x := by
  have stored := find?_of_mem_noted s.untyped.definitions s.untyped.bare hp hx
  have c := ((s.untyped.oidsPending types).continues (r := oids)).trans s.finalizes.continues
  have extends' := c.strings
  rw [strings_resolveTypes s.untyped.definitions s.untyped.bare] at extends'
  exact extends'.get stored

/-- Every reference node of the last draft was noted. -/
lemma Stages.exists_notedAs (s : Stages linked types oids final) {t : TypeId} {n : TypeNode}
    {symbol : StrId} {qualifier? : Option StrId} {target? : Option TypeId}
    {from? : Option ModuleId} (hn : final.mib.type? t = some n)
    (shape : n.shape = .reference symbol qualifier? target? from?) :
    ∃ p, NotedAs linked final types t n symbol qualifier? target? from? p := by
  have h := s.untyped
  rw [Mib.type?, s.types_eq] at hn
  have names : ∀ p ∈ linked.noted, final.mib.str (linked.stringId p.symbol) = p.symbol ∧
      (p.qualifier.map linked.stringId).map final.mib.str = p.qualifier := by
    intro p hp
    refine ⟨s.str_stringId hp (.inl rfl), ?_⟩
    cases hq : p.qualifier with
    | none => rfl
    | some q => simp [s.str_stringId hp (.inr hq)]
  -- A reference node is as lowering left it, and then pending, or has been bound since.
  cases nodeTyped h.definitions h.bare hn with
  | laid m hm e waits =>
    rw [e] at shape
    obtain ⟨p, hp, rfl⟩ := waits (by rw [show m.shape = _ from shape]; rfl)
    have b := h.binds types
    have noted := b.pending.subset hp
    obtain ⟨m', hm', module, shape'⟩ := h.exists_noted_node noted
    obtain rfl : m = m' := Option.some.inj (hm.symm.trans hm')
    rw [show m.shape = _ from shape', TypeShape.reference.injEq] at shape
    obtain ⟨rfl, rfl, rfl, rfl⟩ := shape
    exact ⟨p, noted, rfl, by rw [e]; exact module.symm, (names p noted).1, (names p noted).2,
      .inl ⟨rfl, rfl, hp⟩⟩
  | bound m hm p hp node target ht e =>
    obtain ⟨m', hm', module, shape'⟩ := h.exists_noted_node hp
    rw [node] at hm'
    obtain rfl : m = m' := Option.some.inj (hm.symm.trans hm')
    simp only [TypeNode.bindTo, shape'] at e
    rw [e, TypeShape.reference.injEq] at shape
    obtain ⟨rfl, rfl, rfl, rfl⟩ := shape
    exact ⟨p, hp, node, by rw [e]; exact module.symm, (names p hp).1, (names p hp).2,
      .inr ⟨target, ht, rfl, rfl⟩⟩

/-- What a bound reference points at is the type that its name stands for. -/
lemma Stages.bound (s : Stages linked types oids final) {t : TypeId} {n : TypeNode}
    {symbol : StrId} {qualifier? : Option StrId} {target : TypeId} {from? : Option ModuleId}
    (hn : final.mib.type? t = some n)
    (shape : n.shape = .reference symbol qualifier? (some target) from?) :
    ∃ y a, final.scope.resolveFrom n.module (qualifier?.map final.mib.str)
        (final.mib.str symbol) = .found y ∧
      final.mib.assignment? y = some a ∧ a.kind.isType ∧ a.type = some target ∧
      from? = if a.module = n.module then none else some a.module := by
  obtain ⟨p, noted, -, module, name, qualifier, ⟨none, -⟩ | ⟨found, ht, node, source⟩⟩ :=
    s.exists_notedAs hn shape
  · cases none
  have h := s.untyped
  -- The look-up found an assignment before anything was typed, which is still a type of its module.
  obtain ⟨b, hb, defined⟩ := Option.bind_eq_some_iff.1 ht
  obtain ⟨y, hy, hb⟩ := Option.bind_eq_some_iff.1 hb
  have lookup : linked.lowered.lookupReference p = .found y := by
    cases e : linked.lowered.lookupReference p <;> simp_all [Lookup.found?]
  unfold definedType? at defined
  split at defined
  next isType =>
    obtain ⟨t', type, rfl⟩ := Option.map_eq_some_iff.1 defined
    have typed := type_of_assignment?_resolveTypes (r := types) h.definitions h.fresh h.bare y
    rw [← s.type_eq] at typed
    have before := assignment?_lowered h.definitions h.fresh h.bare y
    have headings := heading_of_registry s.continues.registry y
    rw [hb] at before
    obtain ⟨c, hc, rfl⟩ := Option.map_eq_some_iff.1 before.symm
    rw [hc] at typed headings
    obtain ⟨a, ha, type'⟩ := Option.map_eq_some_iff.1 typed
    rw [ha] at headings
    have heading := Option.some.inj headings
    obtain ⟨kind, sameModule⟩ : a.kind = c.kind ∧ a.module = c.module := by
      simp only [Assignment.heading, Assignment.mk.injEq] at heading
      exact ⟨heading.2.2.2.1, heading.2.1⟩
    refine ⟨y, a, ?_, ha, by rw [kind]; exact isType, ?_, ?_⟩
    · rw [← module, name, qualifier, s.scope_eq]
      have scope := (laid_blocks h.definitions h.bare).scope
      rw [lookupReference, show linked.lowered.scope = linked.scope from scope] at lookup
      exact lookup
    · rw [type', node]
      exact type
    · rw [source, sameModule, module]
  next => cases defined

/-- The nodes of the references that stay unbound are the unbound nodes of the last draft. -/
lemma Stages.map_node_unboundReferences (s : Stages linked types oids final) :
    (linked.unboundReferences types).map (·.node) = final.mib.unboundNodes := by
  have h := s.untyped
  have b := h.binds types
  have sorted : (((linked.unboundReferences types).map (·.node)).map (·.index)).SortedLT := by
    have noted := pairwise_noted h.definitions h.bare
    rw [List.map_map]
    exact (noted.sublist (b.pending.map _)).sortedLT
  have same := sorted.eq_of_mem_iff final.mib.sortedLT_unboundNodes fun i => by
    have mem : ∀ t : TypeId, t ∈ (linked.unboundReferences types).map (·.node) ↔
        t ∈ final.mib.unboundNodes := by
      intro t
      rw [Mib.mem_unboundNodes, s.types_eq, h.unbound_iff, List.mem_map]
    simp only [List.mem_map] at mem ⊢
    simp only [mem]
  exact List.map_injective_iff.2 (fun t u e => by cases t; cases u; exact congrArg _ e) same

/-- The unbound references are the causes of the problems about references. -/
lemma Stages.isCause (s : Stages linked types oids final) {p : PendingReference} {q : Problem}
    (hq : (p, q) ∈ linked.referenceProblems types) : final.IsCause p.node q := by
  have h := s.untyped
  obtain ⟨f, finding, rfl⟩ := h.of_mem_referenceProblems hq
  have unbound : p ∈ linked.unboundReferences types := by
    rw [← map_fst_referenceProblems]
    exact List.mem_map.2 ⟨_, hq, rfl⟩
  have b := h.binds types
  have hp := b.pending.subset unbound
  obtain ⟨m, hm, module, shape⟩ := h.exists_noted_node hp
  have same := type?_resolveTypes (d := linked) (r := types) p.node
  rw [b.waiting p unbound, hm] at same
  have node : final.mib.type? p.node = some { m with
      state := stateOf (linked.boundDraft types).mib.types p.node } := by
    rw [Mib.type?, s.types_eq]
    exact same
  have owner := s.inSyntax_iff.2 (h.inSyntax_referrer (r := types) hp)
  rw [← problemAbout_of_registry s.continues.registry]
  refine .intro node shape owner ?_
  have symbol := s.str_stringId hp (.inl rfl)
  have qualifier : (p.qualifier.map linked.stringId).map final.mib.str = p.qualifier := by
    cases hq : p.qualifier with
    | none => rfl
    | some x => simp [s.str_stringId hp (.inr hq)]
  rw [h.definitions.nameOf_of_continues s.continues, symbol, qualifier]
  exact finding

/-- The references of the last draft are settled. -/
lemma Stages.referencesSettled (s : Stages linked types oids final) : final.ReferencesSettled := by
  have h := s.untyped
  have owned : ∀ t n, final.mib.type? t = some n → ∃! a, final.mib.InSyntax a t := by
    intro t n hn
    rw [Mib.type?, s.types_eq] at hn
    obtain ⟨a, ha⟩ := h.exists_inSyntax hn
    refine ⟨a, s.inSyntax_iff.2 ha, fun b hb => ?_⟩
    exact h.inSyntax_unique (s.inSyntax_iff.1 hb) ha
  let causes := (linked.referenceProblems types).map fun c => (c.1.node, c.2)
  have fsts : causes.map Prod.fst = final.mib.unboundNodes := by
    rw [← s.map_node_unboundReferences, ← map_fst_referenceProblems, List.map_map, List.map_map]
    rfl
  have snds : causes.map Prod.snd = final.mib.problems.toList.filter isReferenceProblem := by
    rw [s.filter_isReferenceProblem, List.map_map]
    rfl
  have each : ∀ t p, (t, p) ∈ causes → final.IsCause t p := by
    intro t p hp
    obtain ⟨⟨r, q⟩, hq, e⟩ := List.mem_map.1 hp
    cases e
    exact s.isCause hq
  refine ⟨fun t n symbol qualifier? target from? hn shape => s.bound hn shape, owned,
    ⟨causes, fsts, snds, each⟩, fun a => ?_⟩
  rw [← snds]
  exact length_filter_subject owned fsts each a

end Stages

end Draft

/-- After every run each reference is bound to the type that its name stands for, or is the one
cause of one problem about the assignment in whose SYNTAX it stands. -/
theorem Pipeline.referencesSettled_runParsed (p : Pipeline) (files : List ParsedFile) :
    modelOf (p.runParsed files).1 = some (p.resolve files).1.mib ∧
      (p.resolve files).1.ReferencesSettled := by
  obtain ⟨linked, types, oids, s⟩ := Draft.exists_stages p files
  exact ⟨modelOf_runParsed p files, s.referencesSettled⟩

end MibCorpus
