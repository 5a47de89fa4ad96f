import MibCorpus.Proofs.Numbering
import MibCorpus.Proofs.TypeCycles
import Mathlib.Data.Set.Finite.Lattice

/-!
# Refinement chains

No type node refines itself at some distance. Within the SYNTAX of a definition refinement leads to
nodes that were made before, so a cycle would come through bound references, and what these name
would be types in terms of each other, of which every reference stays unbound. So a refinement chain
lists every node that is refined, down to one that refines nothing.
-/

namespace MibCorpus

section Walks

variable {α : Type} {step : α → Option α} {a b : α}

/-- What a cycle leads to is on it. -/
lemma WalksBack.move (back : WalksBack step a) (way : WalksTo step a b) : WalksBack step b := by
  rcases (back.walksTo way).cases with rfl | ⟨c, first, rest⟩
  · exact back
  · exact walksBack_iff.2 ⟨c, first, rest.trans way⟩

/-- A walk leads back to what comes next on it, too. -/
lemma WalksBack.next (back : WalksBack step a) (first : step a = some b) : WalksBack step b :=
  back.move (.head first (.refl b))

/-- Where steps never end among finitely many places, they come around a cycle. -/
lemma exists_walksBack_of_endless {P : α → Prop} (finite : {a | P a}.Finite)
    (stays : ∀ a, P a → ∃ b, step a = some b ∧ P b) (ha : P a) : ∃ b, P b ∧ WalksBack step b := by
  have endless : ∀ n, ∃ b, stepsFrom step n a = some b ∧ P b := by
    intro n
    induction n with
    | zero => exact ⟨a, rfl, ha⟩
    | succ n ih =>
      obtain ⟨b, there, hb⟩ := ih
      obtain ⟨c, next, hc⟩ := stays b hb
      exact ⟨c, (stepsFrom_succ_of_some there).trans next, hc⟩
  obtain ⟨j, k, lt, same⟩ := (finite.image some).exists_lt_map_eq_of_forall_mem
    (f := fun n => stepsFrom step n a) fun n => by
      obtain ⟨b, there, hb⟩ := endless n
      exact ⟨b, hb, there.symm⟩
  obtain ⟨b, there, hb⟩ := endless j
  exact ⟨b, hb, walksBack_of_again lt there (same.symm.trans there)⟩

end Walks

/-! ## Chains in a model without cycles -/

/-- Shapes that refine no other node. -/
inductive TypeShape.RefinesNothing : TypeShape → Prop
  | builtin (base : BuiltinType) : RefinesNothing (.builtin base)
  | sequence (fields : List Field) : RefinesNothing (.sequence fields)
  | sequenceOf (element : TypeId) : RefinesNothing (.sequenceOf element)
  | choice (alternatives : List Field) : RefinesNothing (.choice alternatives)
  | unbound (symbol : StrId) (qualifier : Option StrId) (importedFrom : Option ModuleId) :
    RefinesNothing (.reference symbol qualifier none importedFrom)

/-- A shape without a parent refines nothing. -/
lemma TypeShape.refinesNothing_of_parent? {s : TypeShape} (h : s.parent? = none) :
    s.RefinesNothing := by
  cases s with
  | builtin base => exact .builtin base
  | reference symbol qualifier target importedFrom =>
    obtain rfl : target = none := h
    exact .unbound symbol qualifier importedFrom
  | sequence fields => exact .sequence fields
  | sequenceOf element => exact .sequenceOf element
  | choice alternatives => exact .choice alternatives
  | enumeration | textualConvention => cases h

/-- Refinement leads along chains without cycles, and the chains of a model list where it leads. -/
structure Mib.RefinesAlongChains (mib : Mib) : Prop where
  acyclic : ∀ t, ¬ WalksBack mib.refined? t
  distinct : ∀ t, ((mib.typeChain t).map (·.id)).Nodup
  /-- A chain is not cut, since more steps lead no further. -/
  whole : ∀ t limit, mib.types.size ≤ limit → mib.chainFrom limit (some t) = mib.typeChain t
  ends : ∀ t n, mib.type? t = some n →
    ∃ last, (mib.typeChain t).getLast? = some last ∧ last.shape.RefinesNothing
  typeChain_eq : ∀ t, mib.typeChain t =
    (mib.type? t).elim [] fun n => n :: n.shape.parent?.elim [] mib.typeChain
  displayHint?_eq : ∀ t, mib.displayHint? t =
    (mib.type? t).bind fun n => (mib.hintOf? n).or (n.shape.parent?.bind mib.displayHint?)

namespace Mib

variable {mib : Mib} {t u : TypeId} {n : TypeNode}

/-- In a numbered model the node of an identifier has that identifier. -/
lemma Numbered.id_eq (numbered : mib.Numbered) (hn : mib.type? t = some n) : n.id = t :=
  numbered.types t.index n hn

/-- What a node refines is a node. -/
lemma Closed.exists_parent (closed : mib.Closed) (hn : mib.type? t = some n)
    (parent : n.shape.parent? = some u) : ∃ m, mib.type? u = some m := by
  have stored : u.any ∈ n.idents := by
    refine List.mem_append_right _ ?_
    cases hs : n.shape with
    | reference symbol qualifier target importedFrom =>
      obtain rfl : target = some u := by simpa [hs, TypeShape.parent?] using parent
      simp [TypeShape.idents, Ident.anyOf]
    | textualConvention | enumeration =>
      obtain rfl := Option.some.inj (hs ▸ parent)
      exact List.mem_cons_self ..
    | builtin | sequence | sequenceOf | choice =>
      rw [hs] at parent
      cases parent
  have lt : u.index < mib.types.size := closed.types n (Array.mem_of_getElem? hn) _ stored
  exact ⟨_, Array.getElem?_eq_getElem lt⟩

/-- What a chain lists is where refinement leads. -/
lemma walksTo_of_mem_chainFrom (numbered : mib.Numbered) {limit : Nat}
    (hn : n ∈ mib.chainFrom limit (some t)) : WalksTo mib.refined? t n.id := by
  obtain ⟨k, hk⟩ := List.mem_iff_getElem?.1 hn
  rw [getElem?_chainFrom] at hk
  split at hk
  · obtain ⟨u, way, hu⟩ := Option.bind_eq_some_iff.1 hk
    rw [numbered.id_eq hu]
    exact ⟨k, way⟩
  · cases hk

section Acyclic

variable (numbered : mib.Numbered) (acyclic : ∀ t, ¬ WalksBack mib.refined? t)
include numbered acyclic

/-- No node is listed twice. -/
lemma nodup_chainFrom (limit : Nat) (t? : Option TypeId) :
    ((mib.chainFrom limit t?).map (·.id)).Nodup := by
  induction limit generalizing t? with
  | zero => exact .nil
  | succ limit ih =>
    cases t? with
    | none => exact .nil
    | some t =>
      unfold chainFrom
      cases hn : mib.type? t with
      | none => exact .nil
      | some n =>
        refine List.nodup_cons.2 ⟨fun again => ?_, ih _⟩
        cases hp : n.shape.parent? with
        | none => simp [hp, chainFrom_none] at again
        | some p =>
          obtain ⟨x, hx, same⟩ : ∃ x ∈ mib.chainFrom limit n.shape.parent?, x.id = n.id :=
            List.mem_map.1 again
          rw [hp] at hx
          have way := walksTo_of_mem_chainFrom numbered hx
          rw [same, numbered.id_eq hn] at way
          have first : mib.refined? t = some p := by rw [refined?, hn, Option.bind_some, hp]
          exact acyclic t (walksBack_iff.2 ⟨p, first, way⟩)

/-- A chain is no longer than there are types. -/
lemma length_chainFrom_le (limit : Nat) (t : TypeId) :
    (mib.chainFrom limit (some t)).length ≤ mib.types.size := by
  have sub : (mib.chainFrom limit (some t)).map (·.id) ⊆
      (List.range mib.types.size).map Ident.mk := by
    intro i hi
    obtain ⟨n, hn, rfl⟩ := List.mem_map.1 hi
    obtain ⟨k, hk⟩ := List.mem_iff_getElem?.1 hn
    rw [getElem?_chainFrom] at hk
    split at hk
    · obtain ⟨u, -, hu⟩ := Option.bind_eq_some_iff.1 hk
      rw [numbered.id_eq hu]
      have lt := (Array.getElem?_eq_some_iff.1 hu).1
      exact List.mem_map.2 ⟨u.index, List.mem_range.2 lt, rfl⟩
    · cases hk
  have distinct := nodup_chainFrom numbered acyclic limit (some t)
  simpa using (List.subperm_of_subset distinct sub).length_le

/-- More steps than there are nodes lead no further. -/
lemma chainFrom_eq_typeChain {limit : Nat} (le : mib.types.size ≤ limit) (t : TypeId) :
    mib.chainFrom limit (some t) = mib.typeChain t := by
  have short : ∀ k, mib.types.size ≤ k → (stepsFrom mib.refined? k t).bind mib.type? = none := by
    intro k le
    have length := (length_chainFrom_le numbered acyclic (k + 1) t).trans le
    have none := List.getElem?_eq_none length
    rwa [getElem?_chainFrom, if_pos (Nat.lt_succ_self k)] at none
  refine List.ext_getElem? fun k => ?_
  rw [typeChain, getElem?_chainFrom, getElem?_chainFrom]
  by_cases hk : k < mib.types.size
  · rw [if_pos (by omega), if_pos (by omega)]
  · rw [short k (by omega)]
    simp

/-- A chain goes on with the chain of what its first node refines. -/
lemma typeChain_eq_cons (t : TypeId) : mib.typeChain t =
    (mib.type? t).elim [] fun n => n :: n.shape.parent?.elim [] mib.typeChain := by
  rw [typeChain, chainFrom]
  cases mib.type? t with
  | none => rfl
  | some n =>
    simp only [Option.elim_some]
    cases n.shape.parent? with
    | none => rw [chainFrom_none, Option.elim_none]
    | some p => rw [chainFrom_eq_typeChain numbered acyclic le_rfl, Option.elim_some]

/-- In a closed model without cycles refinement leads along chains. -/
theorem refinesAlongChains (closed : mib.Closed) : mib.RefinesAlongChains := by
  have recurse := typeChain_eq_cons numbered acyclic
  refine ⟨acyclic, fun t => nodup_chainFrom numbered acyclic _ (some t),
    fun t limit le => chainFrom_eq_typeChain numbered acyclic le t, ?_, recurse, fun t => ?_⟩
  · intro t n hn
    induction hl : (mib.typeChain t).length using Nat.strongRecOn generalizing t n with
    | ind l ih =>
      have chain := recurse t
      rw [hn, Option.elim_some] at chain
      cases hp : n.shape.parent? with
      | none =>
        rw [chain, hp]
        exact ⟨n, rfl, TypeShape.refinesNothing_of_parent? hp⟩
      | some p =>
        rw [hp, Option.elim_some] at chain
        obtain ⟨m, hm⟩ := closed.exists_parent hn hp
        obtain ⟨last, hl', ends⟩ := ih _ (by rw [← hl, chain]; exact Nat.lt_succ_self _) p m hm rfl
        refine ⟨last, ?_, ends⟩
        rw [chain, List.getLast?_cons, hl']
        rfl
  · rw [displayHint?, recurse t]
    cases mib.type? t with
    | none => rfl
    | some n =>
      rw [Option.elim_some, List.findSome?_cons, Option.bind_some]
      cases mib.hintOf? n with
      | some hint => rfl
      | none =>
        cases n.shape.parent? <;> rfl

end Acyclic

end Mib

namespace Draft

variable {d e : Draft} {xs : List PendingReference} {t u : TypeId} {i j : AssignmentId}

/-! ## Cycles of bound types -/

/-- Before references are bound a node refines one that was made before. -/
lemma Untyped.index_lt_of_refined? (h : d.Untyped) (ht : d.lowered.mib.refined? t = some u) :
    u.index < t.index := by
  obtain ⟨n, hn, parent⟩ := Option.bind_eq_some_iff.1 ht
  have part := h.mem_parts_of_mem_dependencies hn (TypeShape.mem_dependencies_of_parent? parent)
  obtain ⟨rfl, hc⟩ := core_of_type?_lowered h.definitions h.bare hn
  obtain ⟨b, hb, hc⟩ := List.mem_flatMap.1 hc
  exact ((hangs_of_mem_layout hb).parts _ hc u part).2

section Binds

variable (b : Binds d.lowered d.noted xs e) (h : d.Untyped)
include b h

/-- Refinement leads to a node that was made before or from a bound reference to a type. -/
lemma Binds.refined?_cases (ht : e.mib.refined? t = some u) :
    u.index < t.index ∨ ∃ j, d.definesType j ∧ d.syntaxType? j = some u := by
  rcases b.type?_cases t with same | ⟨p, hp, rfl, target, named, bound⟩
  · rw [Mib.refined?, same] at ht
    exact .inl (h.index_lt_of_refined? ht)
  · obtain ⟨n, hn, -, shape⟩ := h.exists_noted_node hp
    rw [Mib.refined?, bound, hn, Option.map_some, Option.bind_some, TypeNode.bindTo, shape] at ht
    obtain rfl : target.node = u := Option.some.inj ht
    obtain ⟨j, m, x, -, kept, isType, type⟩ := h.refersTo_of_targetOf? named
    exact .inr ⟨j, (definesType_iff h kept).trans isType, type⟩

/-- A cycle comes through the topmost node of a type, since it cannot lead down for ever. -/
lemma Binds.exists_type_of_walksBack (back : WalksBack e.mib.refined? t) :
    ∃ j u, d.definesType j ∧ d.syntaxType? j = some u ∧ WalksBack e.mib.refined? u := by
  induction hi : t.index using Nat.strongRecOn generalizing t with
  | ind i ih =>
    obtain ⟨u, first, -⟩ := walksBack_iff.1 back
    rcases b.refined?_cases h first with lt | ⟨j, isType, type⟩
    · exact ih _ (hi ▸ lt) (back.next first) rfl
    · exact ⟨j, u, isType, type, back.next first⟩

/-- From a type on a cycle a bound reference leads to another type on it. -/
lemma Binds.exists_next_type (isType : d.definesType i) (type : d.syntaxType? i = some t)
    (back : WalksBack e.mib.refined? t) :
    (∃ p ∈ d.noted, p ∉ xs ∧ p.referrer = i) ∧ ∃ j u, d.typeNamed? i = some j ∧
      d.definesType j ∧ d.syntaxType? j = some u ∧ WalksBack e.mib.refined? u := by
  obtain ⟨m, x, kept⟩ := h.kept_of_syntaxType? type
  obtain ⟨n, ends⟩ := h.exists_endsAt kept type
  have back := back.move (b.walksTo h ends.way)
  obtain ⟨u, first, -⟩ := walksBack_iff.1 back
  have on : ∀ {n' : TypeNode}, e.mib.type? n.id = some n' → n'.shape.parent? ≠ none := by
    intro n' hn' ends
    rw [Mib.refined?, hn', Option.bind_some, ends] at first
    cases first
  cases head : x.head? with
  | none => exact absurd ends.ends (on (ends.type?_of_plain h b head))
  | some name =>
    have named : x.head?.isSome := by rw [head]; rfl
    obtain ⟨p, hp, own, -⟩ := h.exists_noted kept named
    have bound : p ∉ xs := by
      intro waits
      obtain ⟨-, node, -⟩ := ends.type?_of_pending h b named waits own
      exact on node ends.ends
    obtain ⟨target, ht, next⟩ := ends.refined?_of_bound h b named hp own bound
    obtain ⟨j, m', y, refers, kept', isType', type'⟩ := h.refersTo_of_targetOf? ht
    have found := (h.refersTo_iff kept named hp own).1 refers
    exact ⟨⟨p, hp, bound, own⟩, j, target.node, typeNamed?_eq_some_iff.2 ⟨isType, found⟩,
      (definesType_iff h kept').trans isType', type', back.next next⟩

/-- If no reference in a cycle of types is bound, no node refines itself at some distance. -/
theorem Binds.not_walksBack (stuck : ∀ p ∈ d.noted, WalksBack d.typeNamed? p.referrer → p ∈ xs)
    (t : TypeId) : ¬ WalksBack e.mib.refined? t := by
  intro back
  obtain ⟨j, u, isType, type, back⟩ := b.exists_type_of_walksBack h back
  -- The types on the cycle name each other, so some of them form a cycle of types.
  let onCycle (j : AssignmentId) : Prop :=
    ∃ u, d.definesType j ∧ d.syntaxType? j = some u ∧ WalksBack e.mib.refined? u
  have finite : {j | onCycle j}.Finite := by
    refine (List.finite_toSet ((List.range d.mib.assignments.size).map Ident.mk)).subset ?_
    rintro j ⟨-, isType, -⟩
    obtain ⟨a, ha, -⟩ := (Option.any_eq_true ..).1 isType
    have lt := (Array.getElem?_eq_some_iff.1 ha).1
    exact List.mem_map.2 ⟨j.index, List.mem_range.2 lt, rfl⟩
  obtain ⟨j, ⟨u, isType, type, back⟩, cycle⟩ := exists_walksBack_of_endless finite
    (fun j ⟨u, isType, type, back⟩ => by
      obtain ⟨-, j', u', named, next⟩ := b.exists_next_type h isType type back
      exact ⟨j', named, u', next⟩) ⟨u, isType, type, back⟩
  obtain ⟨⟨p, hp, bound, rfl⟩, -⟩ := b.exists_next_type h isType type back
  exact bound (stuck p hp cycle)

end Binds

/-- No reference in a cycle of types is bound. -/
lemma Untyped.mem_unboundReferences (h : d.Untyped) (r : Recorder) {p : PendingReference}
    (hp : p ∈ d.noted) (cycle : WalksBack d.typeNamed? p.referrer) :
    p ∈ d.unboundReferences r := by
  obtain ⟨x, kept, -⟩ := h.keeps_of_mem_noted hp
  obtain ⟨j, first, -⟩ := walksBack_iff.1 cycle
  obtain ⟨-, named⟩ := typeNamed?_eq_some_iff.1 first
  have refers := (h.refersTo_iff kept (head?_of_named? kept named) hp rfl).2 named
  have ungrounded := not_grounded_of_walksBack h (cycle.next first)
  have isType : d.definesType j := by
    obtain ⟨k, next, -⟩ := walksBack_iff.1 (cycle.next first)
    exact (typeNamed?_eq_some_iff.1 next).1
  have left : p ∈ (d.swept r).1 := h.mem_left_iff.2 ⟨hp, fun j' refers' => by
    obtain rfl : j = j' := by simpa using refers.symm.trans refers'
    exact ungrounded⟩
  have judged := h.judgeReference_of_walksTo r refers isType
    ((h.walksTo_referrer_iff left refers).2 (.inl cycle))
  exact List.mem_filter.2 ⟨left, by rw [judged]; rfl⟩

/-- After a run no node refines itself at some distance. -/
lemma Stages.not_walksBack {linked final : Draft} {types oids : Recorder}
    (s : Stages linked types oids final) (t : TypeId) : ¬ WalksBack final.mib.refined? t := by
  have h := s.untyped
  have b := h.binds types
  have same : final.mib.refined? = (linked.boundDraft types).mib.refined? := by
    funext t
    have typed : final.mib.type? t = (linked.resolveTypes types).1.mib.type? t := by
      rw [Mib.type?, s.types_eq]
      rfl
    rw [Mib.refined?, typed, type?_resolveTypes, Option.bind_map]
    rfl
  rw [same]
  exact b.not_walksBack h (fun p hp cycle => h.mem_unboundReferences types hp cycle) t

/-- A draft after some phases does not depend on the recorder. -/
lemma after_eq_foldl_next (d : Draft) (calls : List PhaseCall) (r : Recorder) :
    d.after calls r = calls.foldl (fun d c => c.next d) d := by
  induction calls generalizing d r with
  | nil => rfl
  | cons c calls ih =>
    rw [after, List.foldl_cons, List.foldl_cons, c.tells_apply d r]
    exact ih _ _

/-- A run calls the phases one after another. -/
lemma built_eq_after (policy : Policy) (files : List ParsedFile) :
    built policy files = (Draft.new policy).after
      [.register files, .link, .resolveTypes, .resolveOids, .finalize] (.new .error) := by
  rw [after_eq_foldl_next]
  rfl

end Draft

/-- In every run, refinement leads along chains without cycles: no type node is reached from itself,
so every chain ends, and it starts with its node and goes on as the chain of what that refines. -/
theorem Pipeline.refinesAlongChains_runParsed (p : Pipeline) (files : List ParsedFile) :
    modelOf (p.runParsed files).1 = some (Draft.built p.policy files).mib ∧
      (Draft.built p.policy files).mib.RefinesAlongChains := by
  refine ⟨?_, Mib.refinesAlongChains ?_ (Draft.stages_built p.policy files).not_walksBack ?_⟩
  · rw [modelOf_runParsed, resolve_eq_told]
  · rw [Draft.built_eq_after]
    exact Draft.numbered_after ..
  · rw [Draft.built_eq_after]
    exact (Draft.closed_after ..).mib

end MibCorpus
