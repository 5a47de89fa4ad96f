import MibCorpus.Proofs.BoundReferences
import MibCorpus.Proofs.GroundedTypes
import MibCorpus.Proofs.Transcript

/-!
# Types in terms of themselves

What the sweeps leave over is followed from name to name. That leads back to where a reference
stands if types are defined in terms of themselves there, but also if a value stands for a type on
the way, for what is followed need not name a type.
-/

namespace MibCorpus

namespace Draft

variable {d e : Draft} {r : Recorder} {p : PendingReference} {i j v : AssignmentId}

/-! ## What is followed -/

/-- What the name that the SYNTAX of an assignment comes down to is found as, if the reference is
among those left over. -/
def awaited? (d : Draft) (left : List PendingReference) (i : AssignmentId) : Option AssignmentId :=
  if left.any (·.referrer = i) then d.named? i else none

/-- What the name of a SYNTAX that is left over is found as. -/
lemma Untyped.awaited?_swept_iff (h : d.Untyped) (r : Recorder) :
    d.awaited? (d.swept r).1 i = some j ↔ ∃ m x p, d.Keeps i m x ∧ x.head?.isSome ∧
      p ∈ (d.swept r).1 ∧ p.referrer = i ∧ d.RefersTo p j := by
  have noted := (h.binds_swept r).pending
  rw [awaited?]
  constructor
  · intro named
    split at named
    next there =>
      obtain ⟨p, left, own⟩ := List.any_eq_true.1 there
      obtain rfl : p.referrer = i := by simpa using own
      obtain ⟨x, kept, -⟩ := h.keeps_of_mem_noted (noted.subset left)
      have head := head?_of_named? kept named
      have refers := (h.refersTo_iff kept head (noted.subset left) rfl).2 named
      exact ⟨_, x, p, kept, head, left, rfl, refers⟩
    next => cases named
  · rintro ⟨m, x, p, kept, head, left, rfl, refers⟩
    rw [if_pos (List.any_eq_true.2 ⟨p, left, by simp⟩)]
    exact (h.refersTo_iff kept head (noted.subset left) rfl).1 refers

/-- The sweep keeps the type that an assignment's SYNTAX was laid out to. -/
lemma Untyped.type_swept (h : d.Untyped) (r : Recorder) (i : AssignmentId) :
    ((d.swept r).2.1.mib.assignment? i).bind (·.type) = d.syntaxType? i := by
  have same : (d.swept r).2.1.mib.assignment? i = d.lowered.mib.assignment? i := by
    rw [Mib.assignment?, (h.binds_swept r).assignments, Mib.assignment?]
  rw [same, assignment?_lowered h.definitions h.fresh h.bare]
  cases ht : d.syntaxType? i with
  | none => cases d.mib.assignment? i <;> rfl
  | some t =>
    obtain ⟨m, x, kept⟩ := h.kept_of_syntaxType? ht
    obtain ⟨a, ha, -⟩ := h.definitions.exists_assignment kept.1
    rw [ha]
    rfl

/-- After the sweep a reference is still looked up by resolving its symbol from its module. -/
lemma Untyped.lookupReference_swept (h : d.Untyped) (r : Recorder) (p : PendingReference) :
    (d.swept r).2.1.lookupReference p = d.scope.resolveFrom p.module p.qualifier p.symbol := by
  rw [lookupReference, (h.binds_swept r).scope,
    show d.lowered.scope = d.scope from (laid_blocks h.definitions h.bare).scope]

/-- What blocks the chain of a type after the sweeps is the name that it comes down to. -/
lemma Untyped.of_blocked (h : d.Untyped) {t : TypeId} {n : TypeNode}
    (ht : d.syntaxType? i = some t)
    (blocked : ((d.swept r).2.1.mib.typeChain t).find? (·.shape.isUnbound) = some n) :
    ∃ m x, d.Keeps i m x ∧ x.head?.isSome ∧
      ∃ p ∈ (d.swept r).1, p.referrer = i ∧ p.node = n.id := by
  have b := h.binds_swept r
  obtain ⟨m, x, kept⟩ := h.kept_of_syntaxType? ht
  obtain ⟨n', ends⟩ := h.exists_endsAt kept ht
  refine ⟨m, x, kept, ?_⟩
  cases head : x.head? with
  | none =>
    rw [ends.find?_of_plain h b head] at blocked
    cases blocked
  | some name =>
    have named : x.head?.isSome := by rw [head]; rfl
    obtain ⟨p, hp, own, -⟩ := h.exists_noted kept named
    refine ⟨rfl, ?_⟩
    by_cases left : p ∈ (d.swept r).1
    · obtain ⟨id, blocked'⟩ := ends.find?_of_pending h b named left own
      obtain rfl : n = n' := Option.some.inj (blocked.symm.trans blocked')
      exact ⟨p, left, own, id.symm⟩
    · obtain ⟨j, refers, grounded⟩ := h.grounded_of_bound r hp left
      obtain ⟨target, ht', chain⟩ := ends.find?_of_bound h b named hp own left
      obtain ⟨j', m', y, refers', -, -, type'⟩ := h.refersTo_of_targetOf? ht'
      obtain rfl : j = j' := by simpa using refers.symm.trans refers'
      rw [chain, h.find?_of_grounded r grounded type'] at blocked
      cases blocked

/-- What is followed from an assignment is the name that its SYNTAX comes down to, if that is left
over. -/
lemma Untyped.waitsFor?_swept (h : d.Untyped) (r : Recorder) (i : AssignmentId) :
    (d.swept r).2.1.waitsFor? (d.swept r).1 i = d.awaited? (d.swept r).1 i := by
  have b := h.binds_swept r
  have nodup := h.nodup_noted.sublist (b.pending.map (·.node))
  ext j
  rw [waitsFor?_eq, h.type_swept, h.awaited?_swept_iff]
  constructor
  · intro waits
    obtain ⟨p, hp, found⟩ := Option.bind_eq_some_iff.1 waits
    obtain ⟨n, blocked, hp⟩ := Option.bind_eq_some_iff.1 hp
    obtain ⟨t, ht, blocked⟩ := Option.bind_eq_some_iff.1 blocked
    obtain ⟨m, x, kept, head, q, left, own, node⟩ := h.of_blocked ht blocked
    obtain rfl : q = p :=
      Option.some.inj (((find?_eq_some_iff_of_nodup nodup).2 ⟨left, node⟩).symm.trans hp)
    rw [h.lookupReference_swept, found?_eq_some_iff] at found
    exact ⟨m, x, q, kept, head, left, own, found⟩
  · rintro ⟨m, x, p, kept, head, left, own, refers⟩
    obtain ⟨t, ht⟩ := h.exists_syntaxType? kept (body?_of_head? head)
    obtain ⟨n, ends⟩ := h.exists_endsAt kept ht
    obtain ⟨id, blocked⟩ := ends.find?_of_pending h b head left own
    have found : (d.swept r).1.find? (·.node = n.id) = some p :=
      (find?_eq_some_iff_of_nodup nodup).2 ⟨left, id.symm⟩
    rw [ht, Option.bind_some, blocked, Option.bind_some, found, Option.bind_some,
      h.lookupReference_swept, found?_eq_some_iff]
    exact refers

/-- Waiting leads back to an assignment exactly if a walk over what is awaited does. -/
lemma Untyped.leadsTo_swept (h : d.Untyped) (r : Recorder) (i j : AssignmentId) :
    (d.swept r).2.1.leadsTo (d.swept r).1 i (d.swept r).2.1.mib.assignments.size j ↔
      WalksTo (d.awaited? (d.swept r).1) j i := by
  have step : (d.swept r).2.1.waitsFor? (d.swept r).1 = d.awaited? (d.swept r).1 :=
    funext (h.waitsFor?_swept r)
  rw [leadsTo_iff, step, WalksTo]

/-- A reference to a type definition has a target. -/
lemma Untyped.exists_targetOf? (h : d.Untyped) (refers : d.RefersTo p j)
    (isType : d.definesType j = true) : ∃ target, d.lowered.targetOf? p = some target := by
  obtain ⟨m, x, kept⟩ := h.kept_of_refersTo refers
  rw [definesType_iff h kept] at isType
  obtain ⟨t, -, target⟩ := h.exists_target refers kept isType
  exact ⟨_, target⟩

/-- Only what names a type is reported as circular. -/
lemma exists_targetOf?_of_circular {pending : List PendingReference} {f : Finding}
    (judged : e.judgeReference pending p = .error f) (kind : f.kind = .circularTypeReference) :
    ∃ target, e.targetOf? p = some target := by
  unfold judgeReference at judged
  simp only at judged
  split at judged
  · cases judged
    cases kind
  · cases judged
    cases kind
  · split at judged
    · cases judged
      cases kind
    next target ht => exact ⟨target, ht⟩

/-- A reference that is left over and names a type is reported if it leads back to where it
stands. -/
lemma Untyped.judgeReference_of_walksTo (h : d.Untyped) (r : Recorder) (refers : d.RefersTo p j)
    (isType : d.definesType j = true) (back : WalksTo (d.awaited? (d.swept r).1) j p.referrer) :
    (d.swept r).2.1.judgeReference (d.swept r).1 p =
      .error (.circularType ((d.swept r).2.1.mib.nameOf p.referrer) p.text) := by
  obtain ⟨target, ht⟩ := h.exists_targetOf? refers isType
  have b := h.binds_swept r
  unfold judgeReference
  simp only [h.lookupReference_swept, show d.scope.resolveFrom p.module p.qualifier p.symbol = _
    from refers, targetOf?_congr b.scope b.assignments, ht, (h.leadsTo_swept r _ _).2 back, if_true]

/-- It is bound otherwise. -/
lemma Untyped.judgeReference_of_not_walksTo (h : d.Untyped) (r : Recorder)
    (refers : d.RefersTo p j) (isType : d.definesType j = true)
    (away : ¬ WalksTo (d.awaited? (d.swept r).1) j p.referrer) :
    ∃ target, (d.swept r).2.1.judgeReference (d.swept r).1 p = .ok target := by
  obtain ⟨target, ht⟩ := h.exists_targetOf? refers isType
  have b := h.binds_swept r
  refine ⟨target, ?_⟩
  unfold judgeReference
  simp only [h.lookupReference_swept, show d.scope.resolveFrom p.module p.qualifier p.symbol = _
    from refers, targetOf?_congr b.scope b.assignments, ht, h.leadsTo_swept r, away, if_false]

/-! ## Cycles -/

/-- From a grounded type names lead to an end. -/
lemma Grounded.exists_end (h : d.Untyped) (grounded : d.Grounded i) :
    ∃ u, WalksTo d.typeNamed? i u ∧ d.typeNamed? u = none := by
  induction grounded with
  | @plain i m x kept _ plain =>
    refine ⟨i, .refl _, Option.eq_none_iff_forall_ne_some.2 fun j named => ?_⟩
    have some := head?_of_named? kept (typeNamed?_eq_some_iff.1 named).2
    rw [plain] at some
    cases some
  | @named i j m x kept isType named _ ih =>
    obtain ⟨u, way, ends⟩ := ih
    refine ⟨u, .head (typeNamed?_eq_some_iff.2 ⟨?_, named⟩) way, ends⟩
    rw [definesType_iff h kept, isType]

/-- No member of a cycle of types is grounded. -/
lemma not_grounded_of_walksBack (h : d.Untyped) (back : WalksBack d.typeNamed? i) :
    ¬ d.Grounded i := by
  intro grounded
  obtain ⟨u, way, ends⟩ := grounded.exists_end h
  exact not_walksBack_of_ends way ends (.refl i) back

/-- A type that comes down to the name of a type that is not grounded is not grounded either, and
its name is left over. -/
lemma Untyped.awaited?_of_typeNamed? (h : d.Untyped) (r : Recorder) (kept : d.Kept i)
    (named : d.typeNamed? i = some j) (ungrounded : ¬ d.Grounded j) :
    d.awaited? (d.swept r).1 i = some j ∧ ¬ d.Grounded i := by
  obtain ⟨m, x, kept⟩ := kept
  obtain ⟨-, named'⟩ := typeNamed?_eq_some_iff.1 named
  have head := head?_of_named? kept named'
  constructor
  · obtain ⟨p, hp, own, -⟩ := h.exists_noted kept head
    have refers := (h.refersTo_iff kept head hp own).2 named'
    refine (h.awaited?_swept_iff r).2 ⟨m, x, p, kept, head, ?_, own, refers⟩
    refine h.mem_left_iff.2 ⟨hp, fun j' refers' => ?_⟩
    obtain rfl : j = j' := by simpa using refers.symm.trans refers'
    exact ungrounded
  · intro grounded
    cases grounded with
    | plain kept' _ plain =>
      obtain ⟨-, rfl⟩ : m = _ ∧ x = _ := by simpa using kept.1.symm.trans kept'.1
      rw [plain] at head
      cases head
    | named _ _ named'' rest =>
      obtain rfl := Option.some.inj (named'.symm.trans named'')
      exact ungrounded rest

/-- On the way to a type that is not grounded all names are left over. -/
lemma Untyped.walksTo_awaited? (h : d.Untyped) (r : Recorder) (kept : d.Kept j)
    (ungrounded : ¬ d.Grounded i) (way : WalksTo d.typeNamed? j i) :
    WalksTo (d.awaited? (d.swept r).1) j i ∧ ¬ d.Grounded j := by
  induction way using WalksTo.head_induction with
  | refl => exact ⟨.refl _, ungrounded⟩
  | head named _ ih =>
    obtain ⟨way, ungrounded'⟩ := ih (h.kept_of_named? (typeNamed?_eq_some_iff.1 named).2)
    obtain ⟨awaits, ungrounded⟩ := h.awaited?_of_typeNamed? r kept named ungrounded'
    exact ⟨.head awaits way, ungrounded⟩

/-- Nothing that is come to by names left over is grounded. -/
lemma Untyped.not_grounded_of_walksTo (h : d.Untyped) (ungrounded : ¬ d.Grounded j)
    (way : WalksTo (d.awaited? (d.swept r).1) j i) : ¬ d.Grounded i := by
  induction way using WalksTo.head_induction with
  | refl => exact ungrounded
  | head awaits _ ih =>
    obtain ⟨m, x, p, -, -, left, -, refers⟩ := (h.awaited?_swept_iff r).1 awaits
    exact ih ((h.mem_left_iff.1 left).2 _ refers)

/-- A way of names left over that comes only through types is a way from type to type. -/
lemma walksTo_typeNamed? (types : ∀ v, WalksTo (d.awaited? (d.swept r).1) j v →
      WalksTo (d.awaited? (d.swept r).1) v i → d.definesType v = true)
    (way : WalksTo (d.awaited? (d.swept r).1) j i) : WalksTo d.typeNamed? j i := by
  induction way using WalksTo.head_induction with
  | refl => exact .refl _
  | @head j c awaits way ih =>
    have isType := types j (.refl j) (.head awaits way)
    have named := awaits
    rw [awaited?, Option.ite_none_right_eq_some] at named
    refine .head (typeNamed?_eq_some_iff.2 ⟨isType, named.2⟩) (ih fun v there back => ?_)
    exact types v (.head awaits there) back

/-- A reference that is left over and names type `j` leads back to where it stands if that is a
member of a cycle of types, or if a definition that is no type is come to on the way. -/
theorem Untyped.walksTo_referrer_iff (h : d.Untyped) (left : p ∈ (d.swept r).1)
    (refers : d.RefersTo p j) :
    WalksTo (d.awaited? (d.swept r).1) j p.referrer ↔ WalksBack d.typeNamed? p.referrer ∨
      ∃ v, d.definesType v = false ∧ WalksTo (d.awaited? (d.swept r).1) j v ∧
        WalksTo (d.awaited? (d.swept r).1) v p.referrer := by
  obtain ⟨hp, ungrounded⟩ := h.mem_left_iff.1 left
  obtain ⟨x, kept, -⟩ := h.keeps_of_mem_noted hp
  constructor
  · intro way
    by_cases values : ∃ v, d.definesType v = false ∧ WalksTo (d.awaited? (d.swept r).1) j v ∧
        WalksTo (d.awaited? (d.swept r).1) v p.referrer
    · exact .inr values
    have types : ∀ v, WalksTo (d.awaited? (d.swept r).1) j v →
        WalksTo (d.awaited? (d.swept r).1) v p.referrer → d.definesType v = true :=
      fun v there back => by_contra fun no => values ⟨v, by simpa using no, there, back⟩
    -- The referrer is a type that is not grounded, so the reference is what it comes down to.
    have isType := types p.referrer way (.refl _)
    have ungrounded' := h.not_grounded_of_walksTo (ungrounded j refers) way
    have head : x.head?.isSome := by
      rw [Option.isSome_iff_ne_none]
      rw [definesType_iff h kept] at isType
      exact fun plain => ungrounded' (.plain kept isType plain)
    have named := (h.refersTo_iff kept head hp rfl).1 refers
    exact .inl (walksBack_iff.2
      ⟨j, typeNamed?_eq_some_iff.2 ⟨isType, named⟩, walksTo_typeNamed? types way⟩)
  · rintro (back | ⟨v, -, there, back⟩)
    · have ungrounded' := not_grounded_of_walksBack h back
      obtain ⟨j', named, way⟩ := walksBack_iff.1 back
      obtain ⟨-, named⟩ := typeNamed?_eq_some_iff.1 named
      have refers' := (h.refersTo_iff kept (head?_of_named? kept named) hp rfl).2 named
      obtain rfl : j = j' := by simpa using refers.symm.trans refers'
      exact (h.walksTo_awaited? r (h.kept_of_named? named) ungrounded' way).1
    · exact there.trans back

/-- The SYNTAX of an assignment comes down to a name that is not found, or found more than once. -/
def NameMissing (d : Draft) (v : AssignmentId) : Prop :=
  ∃ m x qualifier name, d.Keeps v m x ∧ x.head? = some (qualifier, name) ∧
    ∀ j, d.scope.resolveFrom m qualifier name ≠ .found j

/-- What leads to a name that is missing does not lead back. -/
lemma Untyped.not_walksTo_referrer_of_missing (h : d.Untyped) (left : p ∈ (d.swept r).1)
    (refers : d.RefersTo p j) (missing : d.NameMissing v)
    (way : WalksTo (d.awaited? (d.swept r).1) j v) :
    ¬ WalksTo (d.awaited? (d.swept r).1) j p.referrer := by
  obtain ⟨m, x, qualifier, name, kept, head, missing⟩ := missing
  have named : x.head?.isSome := by rw [head]; rfl
  have unnamed : ∀ w, d.named? v ≠ some w := by
    intro w hw
    obtain ⟨q, n, head', found⟩ := (named?_eq_some_iff kept).1 hw
    obtain ⟨rfl, rfl⟩ : qualifier = q ∧ name = n := by simpa using head.symm.trans head'
    exact missing w found
  have ends : d.awaited? (d.swept r).1 v = none := by
    refine Option.eq_none_iff_forall_ne_some.2 fun w hw => ?_
    rw [awaited?, Option.ite_none_right_eq_some] at hw
    exact unnamed w hw.2
  have noted := (h.binds_swept r).pending.subset left
  -- The referrer is another definition, for its name is found.
  have other : p.referrer ≠ v := by
    intro own
    exact unnamed j ((h.refersTo_iff kept named noted own).1 refers)
  intro back
  rcases way.total back with ahead | behind
  · exact other (ahead.eq_of_ends ends).symm
  · rcases behind.cases with own | ⟨w, awaits, rest⟩
    · exact other own
    -- Behind the referrer comes what its name is found as, which closes a cycle.
    obtain ⟨m', y, q, kept', head', left', own, refers'⟩ := (h.awaited?_swept_iff r).1 awaits
    obtain ⟨p', -, -, only⟩ := h.exists_noted kept' head'
    obtain rfl : q = p := (only q ((h.binds_swept r).pending.subset left') own).trans
      (only p noted rfl).symm
    obtain rfl : j = w := by simpa using refers.symm.trans refers'
    exact not_walksBack_of_ends way ends back (walksBack_iff.2 ⟨j, awaits, back⟩)

end Draft

/-! ## What is reported -/

/-- Reference `t` is bound to the type that assignment `j` defines. -/
def Mib.BoundTo (mib : Mib) (t : TypeId) (j : AssignmentId) : Prop :=
  ∃ n a symbol qualifier? target from?, mib.type? t = some n ∧
    n.shape = .reference symbol qualifier? (some target) from? ∧
    mib.assignment? j = some a ∧ a.type = some target ∧
    from? = if a.module = n.module then none else some a.module

namespace Draft

/-- How a reference `p` among those `left` over, which names type `j`, is judged, where `judged` are
the references that are reported with the problems. -/
structure TypeVerdict (d : Draft) (left : List PendingReference) (final : Draft)
    (judged : List (PendingReference × Problem)) (p : PendingReference) (j : AssignmentId) :
    Prop where
  /-- It is reported exactly if it stands in a member of a cycle of types, or leads back to where it
  stands through a definition that is no type. -/
  reported_iff : (∃ q, (p, q) ∈ judged) ↔ WalksBack d.typeNamed? p.referrer ∨
    ∃ v, d.definesType v = false ∧ WalksTo (d.awaited? left) j v ∧
      WalksTo (d.awaited? left) v p.referrer
  problem : ∀ q, (p, q) ∈ judged →
    q = final.problemAbout (.circularType (final.mib.nameOf p.referrer) p.text) p.referrer
  /-- What leads to a name that is missing is not reported. -/
  missing : ∀ v, WalksTo (d.awaited? left) j v → d.NameMissing v → ∀ q, (p, q) ∉ judged
  bound : (∀ q, (p, q) ∉ judged) → final.mib.BoundTo p.node j

/-- How the references `left` over in draft `d` are judged in the last draft. -/
structure LeftReferencesJudged (d : Draft) (left : List PendingReference) (final : Draft) :
    Prop where
  /-- What is left over names no type that comes down to one without a name. -/
  left_iff : ∀ p, p ∈ left ↔ p ∈ d.noted ∧ ∀ j, d.RefersTo p j → ¬ d.Grounded j
  distinct : (left.map (·.node)).Nodup
  judged : ∃ judged : List (PendingReference × Problem),
    final.mib.problems.toList.filter isReferenceProblem = judged.map Prod.snd ∧
    (judged.map Prod.fst).Sublist left ∧
    (∀ p q, (p, q) ∈ judged → q.kind = .circularTypeReference →
      ∃ j, d.RefersTo p j ∧ d.definesType j = true) ∧
    ∀ p ∈ left, ∀ j, d.RefersTo p j → d.definesType j = true → TypeVerdict d left final judged p j

section Stages

variable {linked final : Draft} {types oids : Recorder}

/-- A reference that does not stay unbound is bound to the type that it names. -/
lemma Stages.boundTo (s : Stages linked types oids final) (hp : p ∈ linked.noted)
    (away : p ∉ linked.unboundReferences types) (refers : linked.RefersTo p j) :
    final.mib.BoundTo p.node j := by
  have h := s.untyped
  have b := h.binds types
  obtain ⟨target, -, bound⟩ := b.bound p hp away
  obtain ⟨n, hn, -, shape⟩ := h.exists_noted_node hp
  have node := type?_resolveTypes (d := linked) (r := types) p.node
  rw [bound, hn, Option.map_some, Option.map_some] at node
  rw [show (linked.resolveTypes types).1.mib.type? p.node = final.mib.type? p.node by
    rw [Mib.type?, Mib.type?, s.types_eq]] at node
  have shape' := congrArg (Option.map TypeNode.shape) node
  simp only [Option.map_some, TypeNode.bindTo, shape] at shape'
  obtain ⟨n', hn', shape'⟩ := Option.map_eq_some_iff.1 shape'
  obtain ⟨y, a, found, ha, -, type, source⟩ := s.bound hn' shape'
  obtain ⟨p', noted, same, module, symbol, qualifier, -⟩ := s.exists_notedAs hn' shape'
  obtain rfl : p' = p :=
    List.inj_on_of_nodup_map h.nodup_noted noted hp same
  rw [← module, qualifier, symbol, s.scope_eq] at found
  obtain rfl : j = y := by simpa using refers.symm.trans found
  exact ⟨n', a, _, _, _, _, hn', shape', ha, type, source⟩

/-- What is reported about a reference that is left over. -/
lemma Stages.mem_referenceProblems_iff (s : Stages linked types oids final) {q : Problem} :
    (p, q) ∈ linked.referenceProblems types ↔ p ∈ (linked.swept types).1 ∧
      ∃ f, (linked.swept types).2.1.judgeReference (linked.swept types).1 p = .error f ∧
        q = final.problemAbout f p.referrer := by
  have h := s.untyped
  have registry := registry_swept (r := types) h.definitions h.bare
  have same : ∀ f i, (linked.swept types).2.1.problemAbout f i = final.problemAbout f i := by
    intro f i
    rw [problemAbout_of_registry registry, problemAbout_of_registry s.continues.registry]
  unfold referenceProblems leftProblem? problemOf?
  simp only [List.mem_filterMap, Option.map_eq_some_iff, Prod.mk.injEq]
  constructor
  · rintro ⟨p', left, q', judged, rfl, rfl⟩
    split at judged
    · cases judged
    next f hf => exact ⟨left, f, hf, (Option.some.inj judged).symm.trans (same f _)⟩
  · rintro ⟨left, f, hf, rfl⟩
    exact ⟨p, left, _, by simp only [hf, same], rfl, rfl⟩

/-- A reference that is left over and names a type is judged by where names lead. -/
lemma Stages.typeVerdict (s : Stages linked types oids final) (left : p ∈ (linked.swept types).1)
    (refers : linked.RefersTo p j) (isType : linked.definesType j = true) :
    TypeVerdict linked (linked.swept types).1 final (linked.referenceProblems types) p j := by
  have h := s.untyped
  have reported : (∃ q, (p, q) ∈ linked.referenceProblems types) ↔
      WalksTo (linked.awaited? (linked.swept types).1) j p.referrer := by
    simp only [s.mem_referenceProblems_iff, left, true_and]
    by_cases back : WalksTo (linked.awaited? (linked.swept types).1) j p.referrer
    · exact iff_of_true ⟨_, _, h.judgeReference_of_walksTo types refers isType back, rfl⟩ back
    · refine iff_of_false ?_ back
      obtain ⟨target, bound⟩ := h.judgeReference_of_not_walksTo types refers isType back
      rintro ⟨q, f, hf, -⟩
      cases bound.symm.trans hf
  refine ⟨reported.trans (h.walksTo_referrer_iff left refers), fun q hq => ?_, ?_, ?_⟩
  · have judged := h.judgeReference_of_walksTo types refers isType (reported.1 ⟨q, hq⟩)
    obtain ⟨-, f, hf, rfl⟩ := s.mem_referenceProblems_iff.1 hq
    have swept := h.continues_binds (h.binds_swept types)
    have names : final.mib.nameOf p.referrer = (linked.swept types).2.1.mib.nameOf p.referrer :=
      (h.definitions.nameOf_of_continues s.continues _).trans
        (h.definitions.nameOf_of_continues swept _).symm
    obtain rfl := Except.error.inj (judged.symm.trans hf)
    rw [names]
  · intro v way missing q hq
    exact h.not_walksTo_referrer_of_missing left refers missing way (reported.1 ⟨q, hq⟩)
  · intro unreported
    refine s.boundTo (h.mem_left_iff.1 left).1 (fun unbound => ?_) refers
    rw [← map_fst_referenceProblems] at unbound
    obtain ⟨⟨p, q⟩, hq, rfl⟩ := List.mem_map.1 unbound
    exact unreported q hq

/-- In each run the references left over are judged as stated. -/
lemma Stages.leftReferencesJudged (s : Stages linked types oids final) :
    LeftReferencesJudged linked (linked.swept types).1 final := by
  have h := s.untyped
  refine ⟨fun p => h.mem_left_iff, ?_, _, s.filter_isReferenceProblem, ?_, fun p q hq kind => ?_,
    fun p left j refers isType => s.typeVerdict left refers isType⟩
  · exact h.nodup_noted.sublist ((h.binds_swept types).pending.map _)
  · rw [map_fst_referenceProblems]
    exact List.filter_sublist
  · obtain ⟨-, f, hf, rfl⟩ := s.mem_referenceProblems_iff.1 hq
    have b := h.binds_swept types
    obtain ⟨target, ht⟩ := exists_targetOf?_of_circular hf kind
    rw [targetOf?_congr b.scope b.assignments] at ht
    obtain ⟨j, m, x, refers, kept, isType, -⟩ := h.refersTo_of_targetOf? ht
    exact ⟨j, refers, (definesType_iff h kept).trans isType⟩

end Stages

end Draft

/-- In every run, a reference to a type that the sweeps of the typing phase leave over is reported
if it stands in a member of a cycle of types, or if it leads back to where it stands through a
definition that is no type, and bound otherwise. -/
theorem Pipeline.leftReferencesJudged_runParsed (p : Pipeline) (files : List ParsedFile) :
    let linked := Draft.linked p.policy files
    modelOf (p.runParsed files).1 = some (Draft.built p.policy files).mib ∧
      Draft.LeftReferencesJudged linked (linked.swept (.new .error)).1
        (Draft.built p.policy files) := by
  refine ⟨?_, (Draft.stages_built p.policy files).leftReferencesJudged⟩
  rw [modelOf_runParsed, resolve_eq_told]

/-- Of two types in terms of each other and a third in terms of one of them, the two are
reported. -/
example :
    let type (name syntax' : String) : Definition :=
      ⟨name, .type (.named syntax') none .current, .synthetic⟩
    let files : List ParsedFile := [⟨"a.mib", .ok [⟨"A-MIB", [],
      [type "Ping" "Pong", type "Pong" "Ping", type "User" "Ping"], .synthetic⟩]⟩]
    let linked := Draft.linked .usual files
    ((linked.swept (.new .error)).1.map fun p => linked.mib.nameOf p.referrer) =
        ["Ping", "Pong", "User"] ∧
      (linked.referenceProblems (.new .error)).map (fun c => linked.mib.nameOf c.1.referrer) =
        ["Ping", "Pong"] := by
  decide +kernel

/-- A type that is named after an object whose SYNTAX is the type. -/
def valueForType : List ParsedFile :=
  [⟨"a.mib", .ok [⟨"A-MIB", [], [⟨"T", .type (.named "obj") none .current, .synthetic⟩,
    ⟨"obj", .objectType (.named "T") .readOnly .current [.arc 1, .arc 1], .synthetic⟩],
    .synthetic⟩]⟩]

/-- The object is reported to be defined in terms of itself, though it is no type, and the name of
the type in its SYNTAX is not bound. -/
theorem Pipeline.circular_valueForType :
    let policy : Policy := { Policy.usual with baseModules := false }
    let linked := Draft.linked policy valueForType
    let final := Draft.built policy valueForType
    ∃ p ∈ (linked.swept (.new .error)).1, ∃ j, linked.RefersTo p j ∧ linked.definesType j = true ∧
      linked.definesType p.referrer = false ∧ ¬ WalksBack linked.typeNamed? p.referrer ∧
      final.problemAbout (.circularType "obj" "T") p.referrer ∈ final.mib.problems.toList ∧
      (final.mib.type? p.node).any (·.shape.isUnbound) = true := by
  intro policy linked final
  have object : linked.definesType ⟨1⟩ = false := by decide +kernel
  refine ⟨⟨⟨1⟩, ⟨0⟩, ⟨1⟩, "T", none⟩, by decide +kernel, ⟨0⟩, ?_, by decide +kernel, object, ?_,
    by decide +kernel, by decide +kernel⟩
  · exact (by decide +kernel : linked.scope.resolveFrom ⟨0⟩ none "T" = .found ⟨0⟩)
  · intro back
    obtain ⟨j, named, -⟩ := walksBack_iff.1 back
    obtain ⟨isType, -⟩ := Draft.typeNamed?_eq_some_iff.1 named
    rw [object] at isType
    cases isType

end MibCorpus
