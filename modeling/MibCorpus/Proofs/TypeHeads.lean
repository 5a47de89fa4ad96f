import MibCorpus.Proofs.EmbeddedTyping
import MibCorpus.Proofs.References
import MibCorpus.Proofs.Walks

/-!
# What types come down to

The refinement chain of a type as it is written ends at a builtin or constructed type, or at a name:
the head of its SYNTAX. Once references are bound the chain goes on where the head is bound to, and
if the head is not bound it is what blocks the chain.
-/

namespace MibCorpus

/-- The name that a SYNTAX comes down to, behind the module in front of it. -/
def TypeSyntax.head? : TypeSyntax → Option (Option String × String)
  | .named name => some (none, name)
  | .qualified module name => some (some module, name)
  | .constrained base _ => base.head?
  | .integer | .octetString | .objectIdentifier | .enumeration _ | .bits _ | .sequence _
  | .sequenceOf _ | .choice _ => none

/-- The name that the SYNTAX of a definition comes down to. -/
def Definition.head? (x : Definition) : Option (Option String × String) :=
  x.body?.bind TypeSyntax.head?

/-! ## In a block -/

/-- Refinement among the nodes `cs` comes from node `t` to an end at node `c`. -/
inductive RefinesTo (cs : List NodeCore) : TypeId → NodeCore → Prop where
  | here {c : NodeCore} (hc : c ∈ cs) (ends : c.shape.parent? = none) : RefinesTo cs c.id c
  | down {c last : NodeCore} {t : TypeId} (hc : c ∈ cs) (parent : c.shape.parent? = some t)
    (rest : RefinesTo cs t last) : RefinesTo cs c.id last

/-- Refining down to a node goes on where there are more nodes. -/
lemma RefinesTo.mono {cs cs' : List NodeCore} {t : TypeId} {c : NodeCore} (sub : cs ⊆ cs')
    (h : RefinesTo cs t c) : RefinesTo cs' t c := by
  induction h with
  | here hc ends => exact .here (sub hc) ends
  | down hc parent _ ih => exact .down (sub hc) parent ih

/-- The node where refinement ends is among the nodes and refines nothing. -/
lemma RefinesTo.ends {cs : List NodeCore} {t : TypeId} {c : NodeCore} (h : RefinesTo cs t c) :
    c ∈ cs ∧ c.shape.parent? = none := by
  induction h with
  | here hc ends => exact ⟨hc, ends⟩
  | down _ _ _ ih => exact ih

/-- Refinement in a block comes from node `t` down to node `c`: the one reference of the block, by
the name that is the head, or a node that is no reference. -/
structure ComesDownTo (o : TypeOwner) (head? : Option (Option String × String)) (t : TypeId)
    (b : Block) (c : NodeCore) : Prop where
  refines : RefinesTo b.cores t c
  named : ∀ qualifier name, head? = some (qualifier, name) →
    b.references = [⟨c.id, o.module, o.assignment, name, qualifier⟩]
  plain : head? = none → c.shape.isReference = false

section

variable (ι : String → StrId) (owner : String) (o : TypeOwner)

/-- A node that refines nothing is where refinement ends. -/
lemma comesDownTo_node (b : Block) (i : Nat) {s : TypeShape} (ends : s.parent? = none)
    (nr : s.isReference = false) :
    ComesDownTo o none ⟨i⟩ (b.append (.node i o.module s)) ⟨⟨i⟩, o.module, s⟩ where
  refines := .here (c := ⟨⟨i⟩, o.module, s⟩) (by simp) ends
  named := nofun
  plain _ := nr

/-- Named numbers come down to the builtin type that they are over. -/
lemma comesDownTo_enumerationBlock (k : Nat) (base : BuiltinType) (items : List (String × Int)) :
    ComesDownTo o none ⟨k + 1⟩ (enumerationBlock ι o k base items)
      ⟨⟨k⟩, o.module, .builtin base⟩ where
  refines := by
    refine .down (c := ⟨⟨k + 1⟩, o.module, .enumeration ⟨k⟩ (items.map fun i => ⟨ι i.1, i.2⟩)⟩) ?_
      rfl (.here (c := ⟨⟨k⟩, o.module, .builtin base⟩) ?_ rfl)
    · exact List.mem_cons_of_mem _ (List.mem_singleton_self _)
    · exact List.mem_cons_self ..
  named := nofun
  plain _ := rfl

/-- A SYNTAX comes down to its head. -/
lemma exists_comesDownTo_syntaxBlock (s : TypeSyntax) (k : Nat) : ∃ c,
    ComesDownTo o s.head? (syntaxBlock ι owner o s k).1 (syntaxBlock ι owner o s k).2 c := by
  cases s with
  | named | qualified =>
    refine ⟨_, .here (List.mem_singleton_self _) rfl, ?_, by simp [TypeSyntax.head?]⟩
    rintro _ _ ⟨⟩
    rfl
  | integer | octetString | objectIdentifier => exact ⟨_, comesDownTo_node o .empty _ rfl rfl⟩
  | enumeration | bits => exact ⟨_, comesDownTo_enumerationBlock ι o _ _ _⟩
  | constrained base c =>
    obtain ⟨e, refines, named, plain⟩ := exists_comesDownTo_syntaxBlock base k
    refine ⟨e, ?_, named, plain⟩
    simpa only [syntaxBlock, Block.cores_constrain] using refines
  | sequence | sequenceOf | choice => exact ⟨_, comesDownTo_node o _ _ rfl rfl⟩

/-- A definition with a SYNTAX comes down to the head of that. -/
lemma exists_comesDownTo_definitionBlock (x : Definition) (k : Nat) {t : TypeId}
    (ht : (definitionBlock ι o x k).1 = some t) :
    ∃ c, ComesDownTo o x.head? t (definitionBlock ι o x k).2 c := by
  obtain ⟨name, clauses, span⟩ := x
  cases clauses with
  | type body hint? status =>
    obtain rfl : _ = t := Option.some.inj ht
    obtain ⟨e, refines, named, plain⟩ := exists_comesDownTo_syntaxBlock ι name o body k
    refine ⟨e, ?_, named, plain⟩
    simp only [definitionBlock]
    rwa [Block.cores_modify]
    exact fun _ => rfl
  | textualConvention body hint? status =>
    obtain rfl : _ = t := Option.some.inj ht
    obtain ⟨e, refines, named, plain⟩ := exists_comesDownTo_syntaxBlock ι name o body k
    refine ⟨e, ?_, fun q s h => ?_, plain⟩
    · simp only [definitionBlock]
      rw [Block.cores_modify, Block.cores_append]
      · refine .down (c := ⟨_, o.module, .textualConvention _ (hint?.map ι) status⟩) ?_ rfl
          (refines.mono (List.subset_append_left _ _))
        exact List.mem_append_right _ (List.mem_singleton_self _)
      · exact fun _ => rfl
    · simpa [definitionBlock, Block.modify, Block.append, Block.node] using named q s h
  | objectType body access status oid =>
    obtain rfl : _ = t := Option.some.inj ht
    exact exists_comesDownTo_syntaxBlock ι name o body k
  | value | objectIdentity | moduleIdentity | notification => cases ht

end

/-! ## Chains -/

/-- What blocks a chain is an unbound reference that refinement leads to. -/
lemma Mib.find?_typeChain_iff_walksTo {mib : Mib} {t : TypeId} {n : TypeNode} :
    (mib.typeChain t).find? (·.shape.isUnbound) = some n ↔
      n.shape.isUnbound ∧ ∃ u, WalksTo mib.refined? t u ∧ mib.type? u = some n := by
  rw [Mib.find?_typeChain_eq_some_iff]
  refine and_congr_right fun _ => ?_
  simp only [Option.bind_eq_some_iff, WalksTo]
  exact ⟨fun ⟨k, u, hk, hu⟩ => ⟨u, ⟨k, hk⟩, hu⟩, fun ⟨u, ⟨k, hk⟩, hu⟩ => ⟨k, u, hk, hu⟩⟩

/-- The chain from a node is blocked where the chain is that goes on from there. -/
lemma Mib.find?_typeChain_of_walksTo {mib : Mib} {t u : TypeId} (way : WalksTo mib.refined? t u) :
    (mib.typeChain t).find? (·.shape.isUnbound) = (mib.typeChain u).find? (·.shape.isUnbound) := by
  ext n
  rw [Mib.find?_typeChain_iff_walksTo, Mib.find?_typeChain_iff_walksTo]
  refine and_congr_right fun unbound => ⟨?_, fun ⟨v, way', hn⟩ => ⟨v, way.trans way', hn⟩⟩
  rintro ⟨v, way', hn⟩
  have ends : mib.refined? v = none := by
    rw [Mib.refined?, hn, Option.bind_some, Mib.parent?_of_isUnbound unbound]
  refine ⟨v, ?_, hn⟩
  rcases way.total way' with ahead | behind
  · exact ahead
  · obtain rfl := behind.eq_of_ends ends
    exact .refl _

/-- A chain is blocked at once by an unbound reference. -/
lemma Mib.find?_typeChain_of_isUnbound {mib : Mib} {t : TypeId} {n : TypeNode}
    (hn : mib.type? t = some n) (unbound : n.shape.isUnbound) :
    (mib.typeChain t).find? (·.shape.isUnbound) = some n :=
  Mib.find?_typeChain_iff_walksTo.2 ⟨unbound, t, .refl t, hn⟩

/-- A node that is no reference and refines nothing blocks no chain. -/
lemma Mib.find?_typeChain_of_ends {mib : Mib} {t : TypeId} {n : TypeNode}
    (hn : mib.type? t = some n) (ends : n.shape.parent? = none) (nr : n.shape.isReference = false) :
    (mib.typeChain t).find? (·.shape.isUnbound) = none := by
  refine Option.eq_none_iff_forall_ne_some.2 fun o ho => ?_
  obtain ⟨unbound, u, way, hu⟩ := Mib.find?_typeChain_iff_walksTo.1 ho
  obtain rfl := way.eq_of_ends (by rw [Mib.refined?, hn, Option.bind_some, ends])
  obtain rfl : n = o := Option.some.inj (hn.symm.trans hu)
  rw [Draft.isReference_of_isUnbound unbound] at nr
  cases nr

namespace Draft

variable {d e : Draft}

/-! ## When it is lowered -/

/-- What type `t` comes down to when definition `x`, which is assignment `i` of module `m`, is
lowered: to the one reference that is noted for it, by the name that is its head, or to a node that
is no reference. -/
structure EndsAt (d : Draft) (i : AssignmentId) (m : ModuleId) (x : Definition) (t : TypeId)
    (n : TypeNode) : Prop where
  way : WalksTo d.lowered.mib.refined? t n.id
  node : d.lowered.mib.type? n.id = some n
  ends : n.shape.parent? = none
  noted : ∀ qualifier name, x.head? = some (qualifier, name) →
    ∀ p, p ∈ d.noted ∧ p.referrer = i ↔ p = ⟨n.id, m, i, name, qualifier⟩
  plain : x.head? = none → n.shape.isReference = false

/-- Refinement leads through the lowered nodes as through the blocks. -/
lemma walksTo_of_refinesTo (h : d.DefinitionsRegistered) (bare : d.mib.types = #[]) {t : TypeId}
    {c : NodeCore} (refines : RefinesTo (coresOf d.blocks) t c) :
    WalksTo d.lowered.mib.refined? t c.id := by
  induction refines with
  | here => exact .refl _
  | @down c last t hc parent _ ih =>
    obtain ⟨n, hn, rfl⟩ := exists_type?_lowered h bare hc
    refine .head ?_ ih
    rw [Mib.refined?, hn, Option.bind_some]
    exact parent

/-- The type of a kept definition's SYNTAX ends at some node. -/
lemma Untyped.exists_endsAt (h : d.Untyped) {i : AssignmentId} {m : ModuleId} {x : Definition}
    {t : TypeId} (kept : d.Keeps i m x) (ht : d.syntaxType? i = some t) :
    ∃ n, d.EndsAt i m x t n := by
  obtain ⟨b, hb, rfl, top⟩ := exists_block_of_syntaxType? ht
  obtain ⟨y, hy, laid⟩ := mem_of_mem_layout hb
  obtain ⟨rfl, rfl⟩ : b.owner.module = m ∧ y = x := by
    simpa using (h.mem_included_iff.1 hy).1.symm.trans kept.1
  obtain ⟨c, refines, named, plain⟩ := exists_comesDownTo_definitionBlock d.stringId b.owner y
    b.start (show _ = some t by rw [← top]; exact (congrArg Prod.fst laid).symm)
  rw [show (definitionBlock d.stringId b.owner y b.start).2 = b.block from
    (congrArg Prod.snd laid).symm] at refines named
  obtain ⟨n, hn, rfl⟩ := exists_type?_lowered h.definitions h.bare
    (List.mem_flatMap.2 ⟨b, hb, refines.ends.1⟩)
  refine ⟨n, ?_, hn, ?_, fun qualifier name head p => ?_, plain⟩
  · exact walksTo_of_refinesTo h.definitions h.bare
      (refines.mono fun c hc => List.mem_flatMap.2 ⟨b, hb, hc⟩)
  · exact refines.ends.2
  · rw [noted_eq h.definitions h.bare, referencesOf, List.mem_flatMap]
    constructor
    · rintro ⟨⟨b', hb', hp⟩, referrer⟩
      obtain ⟨c', notes⟩ := exists_notes hb' hp
      obtain rfl := eq_of_owner hb' hb (notes.referrer.symm.trans referrer)
      rw [named qualifier name head] at hp
      exact List.mem_singleton.1 hp
    · rintro rfl
      exact ⟨⟨b, hb, by rw [named qualifier name head]; exact List.mem_singleton_self _⟩, rfl⟩

/-! ## When references are bound -/

section Binds

variable {xs : List PendingReference} {i : AssignmentId} {m : ModuleId} {x : Definition}
  {t u : TypeId} {n : TypeNode} {p : PendingReference}

/-- A node that refines another when it is lowered refines that one ever after. -/
lemma Binds.refined?_eq_some (b : Binds d.lowered d.noted xs e) (h : d.Untyped)
    (ht : d.lowered.mib.refined? t = some u) : e.mib.refined? t = some u := by
  rcases b.type?_cases t with same | ⟨r, hr, rfl, -⟩
  · rw [Mib.refined?, same]
    exact ht
  · obtain ⟨n, hn, -, shape⟩ := h.exists_noted_node hr
    rw [Mib.refined?, hn, Option.bind_some, shape] at ht
    cases ht

/-- Binding references only lengthens the way that types come down. -/
lemma Binds.walksTo (b : Binds d.lowered d.noted xs e) (h : d.Untyped)
    (way : WalksTo d.lowered.mib.refined? t u) : WalksTo e.mib.refined? t u :=
  way.mono fun _ _ => b.refined?_eq_some h

/-- The reference that a type comes down to. -/
lemma EndsAt.of_noted (ends : d.EndsAt i m x t n) (h : d.Untyped) (named : x.head?.isSome)
    (hp : p ∈ d.noted) (own : p.referrer = i) : n.id = p.node ∧
      n.shape = .reference (d.stringId p.symbol) (p.qualifier.map d.stringId) none none := by
  obtain ⟨⟨qualifier, name⟩, head⟩ := Option.isSome_iff_exists.1 named
  obtain rfl := (ends.noted qualifier name head p).1 ⟨hp, own⟩
  obtain ⟨n', hn', -, shape⟩ := h.exists_noted_node hp
  obtain rfl : n = n' := Option.some.inj (ends.node.symm.trans hn')
  exact ⟨rfl, shape⟩

/-- What comes down to no name ends at a node that nothing is bound at. -/
lemma EndsAt.type?_of_plain (ends : d.EndsAt i m x t n) (h : d.Untyped)
    (b : Binds d.lowered d.noted xs e) (plain : x.head? = none) : e.mib.type? n.id = some n := by
  have away : ∀ r ∈ d.noted, r.node ≠ n.id := by
    intro r hr node
    obtain ⟨n', hn', -, shape⟩ := h.exists_noted_node hr
    rw [node, ends.node] at hn'
    obtain rfl := Option.some.inj hn'
    have nr := ends.plain plain
    rw [shape] at nr
    cases nr
  exact (b.others n.id away).trans ends.node

/-- What comes down to a name ends at an unbound reference as long as that is pending. -/
lemma EndsAt.type?_of_pending (ends : d.EndsAt i m x t n) (h : d.Untyped)
    (b : Binds d.lowered d.noted xs e) (named : x.head?.isSome) (hp : p ∈ xs)
    (own : p.referrer = i) :
    n.id = p.node ∧ e.mib.type? n.id = some n ∧ n.shape.isUnbound := by
  obtain ⟨id, shape⟩ := ends.of_noted h named (b.pending.subset hp) own
  have node := b.waiting p hp
  rw [← id, ends.node] at node
  exact ⟨id, node, by rw [shape]; rfl⟩

/-- What comes down to a name that is bound goes on at the target. -/
lemma EndsAt.refined?_of_bound (ends : d.EndsAt i m x t n) (h : d.Untyped)
    (b : Binds d.lowered d.noted xs e) (named : x.head?.isSome) (hp : p ∈ d.noted)
    (own : p.referrer = i) (away : p ∉ xs) : ∃ target, d.lowered.targetOf? p = some target ∧
      e.mib.refined? n.id = some target.node := by
  obtain ⟨id, shape⟩ := ends.of_noted h named hp own
  obtain ⟨target, ht, node⟩ := b.bound p hp away
  rw [← id, ends.node, Option.map_some] at node
  refine ⟨target, ht, ?_⟩
  rw [Mib.refined?, node, Option.bind_some, TypeNode.bindTo, shape]
  rfl

/-- What comes down to no name is never blocked. -/
lemma EndsAt.find?_of_plain (ends : d.EndsAt i m x t n) (h : d.Untyped)
    (b : Binds d.lowered d.noted xs e) (plain : x.head? = none) :
    (e.mib.typeChain t).find? (·.shape.isUnbound) = none := by
  rw [Mib.find?_typeChain_of_walksTo (b.walksTo h ends.way)]
  exact Mib.find?_typeChain_of_ends (ends.type?_of_plain h b plain) ends.ends (ends.plain plain)

/-- What comes down to a name is blocked there as long as that is pending. -/
lemma EndsAt.find?_of_pending (ends : d.EndsAt i m x t n) (h : d.Untyped)
    (b : Binds d.lowered d.noted xs e) (named : x.head?.isSome) (hp : p ∈ xs)
    (own : p.referrer = i) : n.id = p.node ∧
      (e.mib.typeChain t).find? (·.shape.isUnbound) = some n := by
  obtain ⟨id, node, unbound⟩ := ends.type?_of_pending h b named hp own
  rw [Mib.find?_typeChain_of_walksTo (b.walksTo h ends.way)]
  exact ⟨id, Mib.find?_typeChain_of_isUnbound node unbound⟩

/-- What comes down to a name that is bound is blocked where the target is. -/
lemma EndsAt.find?_of_bound (ends : d.EndsAt i m x t n) (h : d.Untyped)
    (b : Binds d.lowered d.noted xs e) (named : x.head?.isSome) (hp : p ∈ d.noted)
    (own : p.referrer = i) (away : p ∉ xs) : ∃ target, d.lowered.targetOf? p = some target ∧
      (e.mib.typeChain t).find? (·.shape.isUnbound) =
        (e.mib.typeChain target.node).find? (·.shape.isUnbound) := by
  obtain ⟨target, ht, next⟩ := ends.refined?_of_bound h b named hp own away
  refine ⟨target, ht, ?_⟩
  rw [Mib.find?_typeChain_of_walksTo (b.walksTo h ends.way)]
  exact Mib.find?_typeChain_of_walksTo (.head next (.refl _))

end Binds

end Draft

end MibCorpus
