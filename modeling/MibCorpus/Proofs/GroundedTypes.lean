import MibCorpus.Proofs.TypeHeads

/-!
# What the sweeps bind

A type is grounded if following names from it ends at a type without a name. The sweeps bind a
reference exactly if it names a grounded type.
-/

namespace MibCorpus

namespace Draft

variable {d e : Draft} {r : Recorder} {p : PendingReference} {i j v : AssignmentId} {m : ModuleId}
  {x : Definition}

/-! ## Names of types -/

/-- The name of a reference is found as assignment `j`. -/
def RefersTo (d : Draft) (p : PendingReference) (j : AssignmentId) : Prop :=
  d.scope.resolveFrom p.module p.qualifier p.symbol = .found j

/-- Whether an assignment defines a type. -/
def definesType (d : Draft) (i : AssignmentId) : Bool :=
  (d.mib.assignment? i).any (·.kind.isType)

/-- What the name that the SYNTAX of an assignment comes down to is found as. -/
def named? (d : Draft) (i : AssignmentId) : Option AssignmentId :=
  (d.owner? i).bind fun o => o.2.head?.bind fun head =>
    (d.scope.resolveFrom o.1 head.1 head.2).found?

/-- What the name that a type comes down to is found as. -/
def typeNamed? (d : Draft) (i : AssignmentId) : Option AssignmentId :=
  if d.definesType i then d.named? i else none

/-- Type `i` comes down to a type without a name. -/
inductive Grounded (d : Draft) : AssignmentId → Prop where
  | plain {i : AssignmentId} {m : ModuleId} {x : Definition} (kept : d.Keeps i m x)
    (isType : x.kind.isType = true) (plain : x.head? = none) : d.Grounded i
  | named {i j : AssignmentId} {m : ModuleId} {x : Definition} (kept : d.Keeps i m x)
    (isType : x.kind.isType = true) (named : d.named? i = some j) (rest : d.Grounded j) :
    d.Grounded i

/-- A look-up yields an entry exactly if it is that entry's `found`. -/
lemma found?_eq_some_iff {l : Lookup} : l.found? = some i ↔ l = .found i := by
  cases l <;> simp [Lookup.found?]

/-- What a kept definition's head names is found by resolving it from the definition's own
module. -/
lemma named?_eq_some_iff (kept : d.Keeps i m x) : d.named? i = some j ↔
    ∃ qualifier name, x.head? = some (qualifier, name) ∧
      d.scope.resolveFrom m qualifier name = .found j := by
  rw [named?, kept.1, Option.bind_some, Option.bind_eq_some_iff]
  simp only [Prod.exists, found?_eq_some_iff]

/-- A definition that names another has a head. -/
lemma head?_of_named? (kept : d.Keeps i m x) (named : d.named? i = some j) : x.head?.isSome := by
  obtain ⟨qualifier, name, head, -⟩ := (named?_eq_some_iff kept).1 named
  rw [head]
  rfl

/-- Before typing, an entry defines a type exactly if its definition is a type definition. -/
lemma definesType_iff (h : d.Untyped) (kept : d.Keeps i m x) :
    d.definesType i = x.kind.isType := by
  obtain ⟨a, ha, -, kind⟩ := h.definitions.exists_assignment kept.1
  rw [definesType, ha, Option.any_some, kind]

/-- An entry names a type exactly if it defines a type and names the other entry. -/
lemma typeNamed?_eq_some_iff :
    d.typeNamed? i = some j ↔ d.definesType i = true ∧ d.named? i = some j := by
  simp [typeNamed?]

/-- The entry a reference is resolved to is kept. -/
lemma Untyped.kept_of_refersTo (h : d.Untyped) (refers : d.RefersTo p j) : d.Kept j :=
  h.definitions.kept_of_resolveFrom refers

/-- What is named is kept. -/
lemma Untyped.kept_of_named? (h : d.Untyped) (named : d.named? i = some j) : d.Kept j := by
  rw [named?, Option.bind_eq_some_iff] at named
  obtain ⟨o, -, named⟩ := named
  obtain ⟨head, -, found⟩ := Option.bind_eq_some_iff.1 named
  exact h.definitions.kept_of_resolveFrom (found?_eq_some_iff.1 found)

/-- A type that is kept has a node. -/
lemma Untyped.exists_syntaxType? (h : d.Untyped) (kept : d.Keeps i m x) (body : x.body?.isSome) :
    ∃ t, d.syntaxType? i = some t := by
  rw [← Option.isSome_iff_exists, isSome_syntaxType? h.definitions h.fresh kept.1, body, kept.2]
  rfl

/-- An entry whose syntax was laid out is kept. -/
lemma Untyped.kept_of_syntaxType? (h : d.Untyped) {t : TypeId} (ht : d.syntaxType? i = some t) :
    d.Kept i := by
  obtain ⟨b, hb, rfl, -⟩ := exists_block_of_syntaxType? ht
  obtain ⟨x, hx, -⟩ := mem_of_mem_layout hb
  exact ⟨_, x, h.mem_included_iff.1 hx⟩

/-- A definition with a head has a body. -/
lemma body?_of_head? (named : x.head?.isSome) : x.body?.isSome := by
  unfold Definition.head? at named
  cases hb : x.body? with
  | none => simp [hb] at named
  | some => rfl

/-- The name that a SYNTAX comes down to is noted as the one reference of the assignment. -/
lemma Untyped.refersTo_iff (h : d.Untyped) (kept : d.Keeps i m x) (named : x.head?.isSome)
    (hp : p ∈ d.noted) (own : p.referrer = i) : d.RefersTo p j ↔ d.named? i = some j := by
  obtain ⟨t, ht⟩ := h.exists_syntaxType? kept (body?_of_head? named)
  obtain ⟨n, ends⟩ := h.exists_endsAt kept ht
  obtain ⟨⟨qualifier, name⟩, head⟩ := Option.isSome_iff_exists.1 named
  obtain rfl := (ends.noted qualifier name head p).1 ⟨hp, own⟩
  rw [named?_eq_some_iff kept, RefersTo]
  simp [head]

/-- A definition with a head notes exactly one reference as the referrer's own. -/
lemma Untyped.exists_noted (h : d.Untyped) (kept : d.Keeps i m x) (named : x.head?.isSome) :
    ∃ p ∈ d.noted, p.referrer = i ∧ ∀ q ∈ d.noted, q.referrer = i → q = p := by
  obtain ⟨t, ht⟩ := h.exists_syntaxType? kept (body?_of_head? named)
  obtain ⟨n, ends⟩ := h.exists_endsAt kept ht
  obtain ⟨⟨qualifier, name⟩, head⟩ := Option.isSome_iff_exists.1 named
  have noted := ends.noted qualifier name head
  obtain ⟨there, own⟩ := (noted _).2 rfl
  exact ⟨_, there, own, fun q hq own' => (noted q).1 ⟨hq, own'⟩⟩

/-- What a reference names is the type of the assignment that it refers to. -/
lemma Untyped.targetOf?_eq (h : d.Untyped) (refers : d.RefersTo p j) (kept : d.Keeps j m x) :
    d.lowered.targetOf? p =
      if x.kind.isType then (d.syntaxType? j).map (⟨·, m⟩) else none := by
  obtain ⟨a, ha, rfl, kind⟩ := h.definitions.exists_assignment kept.1
  rw [targetOf?, lookupReference_lowered h, refers, Lookup.found?, Option.bind_some,
    assignment?_lowered h.definitions h.fresh h.bare, ha, Option.map_some, Option.bind_some,
    definedType?, ← kind]

/-- What names a type has it as its target. -/
lemma Untyped.exists_target (h : d.Untyped) (refers : d.RefersTo p j) (kept : d.Keeps j m x)
    (isType : x.kind.isType = true) :
    ∃ t, d.syntaxType? j = some t ∧ d.lowered.targetOf? p = some ⟨t, m⟩ := by
  obtain ⟨t, ht⟩ := h.exists_syntaxType? kept (body?_of_isType isType)
  refine ⟨t, ht, ?_⟩
  rw [h.targetOf?_eq refers kept, if_pos isType, ht]
  rfl

/-- A reference has a target only if the entry it resolves to is a type definition with a
laid-out -/
lemma Untyped.refersTo_of_targetOf? (h : d.Untyped) {target : TypeTarget}
    (ht : d.lowered.targetOf? p = some target) : ∃ j m x, d.RefersTo p j ∧ d.Keeps j m x ∧
      x.kind.isType = true ∧ d.syntaxType? j = some target.node := by
  obtain ⟨a, found, -⟩ := Option.bind_eq_some_iff.1 ht
  obtain ⟨j, found, -⟩ := Option.bind_eq_some_iff.1 found
  have refers : d.RefersTo p j := by
    rw [lookupReference_lowered h] at found
    exact found?_eq_some_iff.1 found
  obtain ⟨m, x, kept⟩ := h.kept_of_refersTo refers
  rw [h.targetOf?_eq refers kept] at ht
  split at ht
  next isType =>
    obtain ⟨t, type, rfl⟩ := Option.map_eq_some_iff.1 ht
    exact ⟨j, m, x, refers, kept, isType, type⟩
  next => cases ht

/-! ## What is ready -/

/-- A reference names a type whose SYNTAX comes down to no name. -/
def NamesPlain (d : Draft) (p : PendingReference) : Prop :=
  ∃ j m x, d.RefersTo p j ∧ d.Keeps j m x ∧ x.kind.isType = true ∧ x.head? = none

/-- Reference `p` names a type whose SYNTAX comes down to reference `q`. -/
def NamesReference (d : Draft) (p q : PendingReference) : Prop :=
  q ∈ d.noted ∧ ∃ x, d.RefersTo p q.referrer ∧ d.Keeps q.referrer q.module x ∧
    x.kind.isType = true ∧ x.head? = some (q.qualifier, q.symbol)

/-- The name that the SYNTAX of a type comes down to is noted. -/
lemma Untyped.exists_namesReference (h : d.Untyped) (refers : d.RefersTo p j)
    (kept : d.Keeps j m x) (isType : x.kind.isType = true) (named : x.head?.isSome) :
    ∃ q, d.NamesReference p q ∧ q.referrer = j := by
  obtain ⟨t, ht⟩ := h.exists_syntaxType? kept (body?_of_isType isType)
  obtain ⟨n, ends⟩ := h.exists_endsAt kept ht
  obtain ⟨⟨qualifier, name⟩, head⟩ := Option.isSome_iff_exists.1 named
  obtain ⟨there, own⟩ := (ends.noted qualifier name head _).2 rfl
  exact ⟨_, ⟨there, x, refers, kept, isType, head⟩, own⟩

/-- What is ready names a type without a name, or one whose name is bound. -/
lemma Untyped.namesPlain_or_namesReference (h : d.Untyped) {xs : List PendingReference}
    (b : Binds d.lowered d.noted xs e) {target : TypeTarget}
    (ready : e.readyTarget? p = some target) :
    d.NamesPlain p ∨ ∃ q, d.NamesReference p q ∧ q ∉ xs := by
  obtain ⟨ht, chain⟩ := Option.filter_eq_some_iff.1 ready
  rw [targetOf?_congr b.scope b.assignments] at ht
  rw [isChainBound_eq, Option.isNone_iff_eq_none] at chain
  obtain ⟨j, m, x, refers, kept, isType, type⟩ := h.refersTo_of_targetOf? ht
  cases head : x.head? with
  | none => exact .inl ⟨j, m, x, refers, kept, isType, head⟩
  | some name =>
    have named : x.head?.isSome := by rw [head]; rfl
    obtain ⟨q, names, own⟩ := h.exists_namesReference refers kept isType named
    obtain ⟨n, ends⟩ := h.exists_endsAt kept type
    refine .inr ⟨q, names, fun waits => ?_⟩
    -- An unbound head would block the chain of the target.
    obtain ⟨-, blocked⟩ := ends.find?_of_pending h b named waits own
    rw [chain] at blocked
    cases blocked

/-! ## What the sweeps bind -/

/-- Grounded entries are type definitions. -/
lemma Grounded.isType (grounded : d.Grounded i) (kept : d.Keeps i m x) :
    x.kind.isType = true := by
  cases grounded with
  | plain kept' isType | named kept' isType =>
    obtain ⟨-, rfl⟩ : m = _ ∧ x = _ := by simpa using kept.1.symm.trans kept'.1
    exact isType

/-- The sweeps bind only what names a grounded type. -/
lemma Untyped.grounded_of_bound (h : d.Untyped) (r : Recorder) (hp : p ∈ d.noted)
    (away : p ∉ (d.swept r).1) : ∃ j, d.RefersTo p j ∧ d.Grounded j := by
  suffices inv : Binds d.lowered d.noted (d.swept r).1 (d.swept r).2.1 ∧
      ∀ p ∈ d.noted, p ∉ (d.swept r).1 → ∃ j, d.RefersTo p j ∧ d.Grounded j from
    inv.2 p hp away
  have distinct := h.nodup_noted
  refine referenceRule.run_invariant (P := fun xs e => Binds d.lowered d.noted xs e ∧
    ∀ p ∈ d.noted, p ∉ xs → ∃ j, d.RefersTo p j ∧ d.Grounded j) ?_ 0 r
    ⟨.refl _ _, fun p hp away => absurd hp away⟩
  rintro xs e ⟨b, grounded⟩
  refine ⟨(b.sweep distinct).1, fun p hp decided => ?_⟩
  by_cases pending : p ∈ xs
  swap
  · exact grounded p hp pending
  obtain ⟨target, ready⟩ := referenceRule.exists_decide? pending decided
  rcases h.namesPlain_or_namesReference b ready with
    ⟨j, m, x, refers, kept, isType, plain⟩ | ⟨q, ⟨hq, x, refers, kept, isType, head⟩, bound⟩
  · exact ⟨j, refers, .plain kept isType plain⟩
  · have named : x.head?.isSome := by rw [head]; rfl
    obtain ⟨j', refers', rest⟩ := grounded q hq bound
    exact ⟨_, refers, .named kept isType ((h.refersTo_iff kept named hq rfl).1 refers') rest⟩

/-- What is ready is not left over. -/
lemma Untyped.not_mem_left_of_ready (h : d.Untyped) {target : TypeTarget}
    (ht : d.lowered.targetOf? p = some target)
    (chain : ((d.swept r).2.1.mib.typeChain target.node).find? (·.shape.isUnbound) = none) :
    p ∉ (d.swept r).1 := by
  intro left
  have b := h.binds_swept r
  have undecided := referenceRule.decide?_of_mem_run 0 d.noted d.lowered r left
  change (d.swept r).2.1.readyTarget? p = none at undecided
  rw [readyTarget?, targetOf?_congr b.scope b.assignments, ht, Option.filter_eq_none_iff]
    at undecided
  exact undecided target rfl (by rw [isChainBound_eq, chain]; rfl)

/-- The chain of a grounded type is bound after the sweeps. -/
lemma Untyped.find?_of_grounded (h : d.Untyped) (r : Recorder) (grounded : d.Grounded j)
    {t : TypeId} (ht : d.syntaxType? j = some t) :
    ((d.swept r).2.1.mib.typeChain t).find? (·.shape.isUnbound) = none := by
  have b := h.binds_swept r
  induction grounded generalizing t with
  | plain kept _ plain =>
    obtain ⟨n, ends⟩ := h.exists_endsAt kept ht
    exact ends.find?_of_plain h b plain
  | @named i j m x kept isType found rest ih =>
    obtain ⟨n, ends⟩ := h.exists_endsAt kept ht
    have named := head?_of_named? kept found
    obtain ⟨p, hp, own, -⟩ := h.exists_noted kept named
    have refers := (h.refersTo_iff kept named hp own).2 found
    -- The target of the name is ready, so the name is bound to it.
    obtain ⟨m', y, kept'⟩ := h.kept_of_refersTo refers
    obtain ⟨u, hu, target⟩ := h.exists_target refers kept' (rest.isType kept')
    have away := h.not_mem_left_of_ready target (ih hu)
    obtain ⟨target', ht', chain⟩ := ends.find?_of_bound h b named hp own away
    obtain rfl : _ = target' := Option.some.inj (target.symm.trans ht')
    exact chain.trans (ih hu)

/-- The sweeps leave over what names no grounded type, and nothing else. -/
theorem Untyped.mem_left_iff (h : d.Untyped) :
    p ∈ (d.swept r).1 ↔ p ∈ d.noted ∧ ∀ j, d.RefersTo p j → ¬ d.Grounded j := by
  have b := h.binds_swept r
  constructor
  · refine fun left => ⟨b.pending.subset left, fun j refers grounded => ?_⟩
    obtain ⟨m, x, kept⟩ := h.kept_of_refersTo refers
    obtain ⟨t, ht, target⟩ := h.exists_target refers kept (grounded.isType kept)
    exact h.not_mem_left_of_ready target (h.find?_of_grounded r grounded ht) left
  · rintro ⟨hp, ungrounded⟩
    by_contra away
    obtain ⟨j, refers, grounded⟩ := h.grounded_of_bound r hp away
    exact ungrounded j refers grounded

end Draft

end MibCorpus
