import MibCorpus.Proofs.Block

/-!
# How blocks hang together

The nodes of a block stand one behind the other, children before parents, and every one of them can
be reached from the topmost by going down the SYNTAX. The references noted are the reference nodes
of the block, in order, and none of them has a target.
-/

namespace MibCorpus

/-- The part of a node that neither constraints nor names nor states touch. -/
structure NodeCore where
  id : TypeId
  module : ModuleId
  shape : TypeShape

/-- The part of a node that neither constraints nor names nor states touch. -/
def TypeNode.core (n : TypeNode) : NodeCore := ⟨n.id, n.module, n.shape⟩

/-- Whether the node is a reference. -/
def TypeShape.isReference : TypeShape → Bool
  | reference .. => true
  | _ => false

/-- The cores of the nodes of a block. -/
def Block.cores (b : Block) : List NodeCore := b.nodes.map TypeNode.core

/-- Node `t` is written with node `u`. -/
def IsPart (cs : List NodeCore) (t u : TypeId) : Prop := ∃ c ∈ cs, c.id = t ∧ u ∈ c.shape.parts

/-- Going down a SYNTAX. -/
abbrev GoesDown (cs : List NodeCore) : TypeId → TypeId → Prop := Relation.ReflTransGen (IsPart cs)

/-- A reference is noted for a node: where it is, whose it is, and what it is called. -/
structure Notes (ι : String → StrId) (o : TypeOwner) (r : PendingReference) (c : NodeCore) :
    Prop where
  node : r.node = c.id
  module : r.module = o.module
  referrer : r.referrer = o.assignment
  shape : c.shape = .reference (ι r.symbol) (r.qualifier.map ι) none none

/-- Some nodes stand from position `k` on and hang together below `tops`, and the references among
them are noted. -/
structure Hangs (ι : String → StrId) (o : TypeOwner) (k : Nat) (tops : List TypeId)
    (cs : List NodeCore) (rs : List PendingReference) : Prop where
  place : ∀ (j : Nat) (c : NodeCore), cs[j]? = some c → c.id = ⟨k + j⟩ ∧ c.module = o.module
  parts : ∀ c ∈ cs, ∀ u ∈ c.shape.parts, k ≤ u.index ∧ u.index < c.id.index
  range : ∀ t ∈ tops, k ≤ t.index ∧ t.index < k + cs.length
  held : ∀ c ∈ cs, ∃ t ∈ tops, GoesDown cs t c.id
  noted : List.Forall₂ (Notes ι o) rs (cs.filter (·.shape.isReference))

section

variable {ι : String → StrId} {o : TypeOwner} {k : Nat} {ts us : List TypeId}
  {cs es : List NodeCore} {rs qs : List PendingReference}

/-- Going down is still possible among more nodes. -/
lemma GoesDown.mono {t u : TypeId} (h : GoesDown cs t u) (sub : cs ⊆ es) : GoesDown es t u := by
  refine Relation.ReflTransGen.mono ?_ _ _ h
  intro v w hvw
  obtain ⟨c, hc, rest⟩ := hvw
  exact ⟨c, sub hc, rest⟩

/-- No nodes hang together below no tops. -/
lemma Hangs.nil : Hangs ι o k [] [] [] :=
  ⟨by simp, by simp, by simp, by simp, .nil⟩

/-- A node without parts that is no reference hangs together. -/
lemma Hangs.leaf {s : TypeShape} (np : s.parts = []) (nr : s.isReference = false) :
    Hangs ι o k [⟨k⟩] [⟨⟨k⟩, o.module, s⟩] [] where
  place j c h := by
    obtain ⟨rfl, rfl⟩ : j = 0 ∧ c = ⟨⟨k⟩, o.module, s⟩ := by
      cases j <;> simp_all
    exact ⟨rfl, rfl⟩
  parts := by simp [np]
  range := by simp
  held := by
    simp only [List.mem_singleton, forall_eq]
    exact ⟨_, rfl, .refl⟩
  noted := by simp [nr]

/-- A reference hangs together. -/
lemma Hangs.reference {qualifier : Option String} {symbol : String} :
    Hangs ι o k [⟨k⟩] [⟨⟨k⟩, o.module, .reference (ι symbol) (qualifier.map ι) none none⟩]
      [⟨⟨k⟩, o.module, o.assignment, symbol, qualifier⟩] where
  place j c h := by
    obtain ⟨rfl, rfl⟩ : j = 0 ∧
        c = ⟨⟨k⟩, o.module, .reference (ι symbol) (qualifier.map ι) none none⟩ := by
      cases j <;> simp_all
    exact ⟨rfl, rfl⟩
  parts := by simp [TypeShape.parts]
  range := by simp
  held := by
    simp only [List.mem_singleton, forall_eq]
    exact ⟨_, rfl, .refl⟩
  noted := by
    simp only [List.filter_singleton, TypeShape.isReference]
    exact .cons ⟨rfl, rfl, rfl, rfl⟩ .nil

/-- Two groups of nodes hang together next to each other. -/
lemma Hangs.append (h : Hangs ι o k ts cs rs) (h' : Hangs ι o (k + cs.length) us es qs) :
    Hangs ι o k (ts ++ us) (cs ++ es) (rs ++ qs) where
  place j c hc := by
    rcases Nat.lt_or_ge j cs.length with hj | hj
    · rw [List.getElem?_append_left hj] at hc
      exact h.place j c hc
    · rw [List.getElem?_append_right hj] at hc
      obtain ⟨hid, hm⟩ := h'.place _ c hc
      exact ⟨by rw [hid]; congr 1; omega, hm⟩
  parts c hc u hu := by
    rcases List.mem_append.1 hc with hc | hc
    · exact h.parts c hc u hu
    · obtain ⟨hlo, hhi⟩ := h'.parts c hc u hu
      exact ⟨by omega, hhi⟩
  range t ht := by
    rw [List.length_append]
    rcases List.mem_append.1 ht with ht | ht
    · obtain ⟨hlo, hhi⟩ := h.range t ht
      exact ⟨hlo, by omega⟩
    · obtain ⟨hlo, hhi⟩ := h'.range t ht
      exact ⟨by omega, by omega⟩
  held c hc := by
    rcases List.mem_append.1 hc with hc | hc
    · obtain ⟨t, ht, path⟩ := h.held c hc
      exact ⟨t, List.mem_append_left _ ht, path.mono (List.subset_append_left _ _)⟩
    · obtain ⟨t, ht, path⟩ := h'.held c hc
      exact ⟨t, List.mem_append_right _ ht, path.mono (List.subset_append_right _ _)⟩
  noted := by
    rw [List.filter_append]
    exact List.rel_append h.noted h'.noted

/-- A node that is written with the topmost nodes holds the group together alone. -/
lemma Hangs.cap (h : Hangs ι o k ts cs rs) {s : TypeShape} (hp : s.parts = ts)
    (nr : s.isReference = false) :
    Hangs ι o k [⟨k + cs.length⟩] (cs ++ [⟨⟨k + cs.length⟩, o.module, s⟩]) rs where
  place j c hc := by
    rcases Nat.lt_or_ge j cs.length with hj | hj
    · rw [List.getElem?_append_left hj] at hc
      exact h.place j c hc
    · rw [List.getElem?_append_right hj] at hc
      obtain ⟨hj', rfl⟩ : j - cs.length = 0 ∧ c = ⟨⟨k + cs.length⟩, o.module, s⟩ := by
        cases hd : j - cs.length <;> simp_all
      exact ⟨by simp; omega, rfl⟩
  parts c hc u hu := by
    rcases List.mem_append.1 hc with hc | hc
    · exact h.parts c hc u hu
    · obtain rfl := List.mem_singleton.1 hc
      exact h.range u (hp ▸ hu)
  range t ht := by
    obtain rfl := List.mem_singleton.1 ht
    simp
  held c hc := by
    refine ⟨⟨k + cs.length⟩, List.mem_singleton_self _, ?_⟩
    -- What hung from a topmost node hangs from the new one through it.
    rcases List.mem_append.1 hc with hc | hc
    · obtain ⟨t, ht, path⟩ := h.held c hc
      refine .head ?_ (path.mono (List.subset_append_left _ _))
      exact ⟨_, List.mem_append_right _ (List.mem_singleton_self _), rfl, by rw [hp]; exact ht⟩
    · obtain rfl := List.mem_singleton.1 hc
      exact .refl
  noted := by
    rw [List.filter_append]
    simpa [nr] using h.noted

end

/-! ## The block of a SYNTAX -/

/-- Changing a node but for its core keeps the cores. -/
@[simp]
lemma Block.cores_modify (b : Block) (k : Nat) (t : TypeId) (f : TypeNode → TypeNode)
    (hf : ∀ n, (f n).core = n.core) : (b.modify k t f).cores = b.cores := by
  apply List.ext_getElem?
  intro i
  simp only [cores, modify, List.getElem?_map, List.getElem?_modify]
  split <;> cases b.nodes[i]? <;> simp [hf]

/-- There are as many cores as nodes. -/
@[simp]
lemma Block.length_cores (b : Block) : b.cores.length = b.length := by simp [cores, length]

/-- The cores of joined blocks are those of the first, then those of the second. -/
@[simp]
lemma Block.cores_append (b c : Block) : (b.append c).cores = b.cores ++ c.cores := by
  simp [cores, append]

/-- A block of one node has that node's core. -/
@[simp]
lemma Block.cores_node (i : Nat) (m : ModuleId) (shape : TypeShape) :
    (Block.node i m shape).cores = [⟨⟨i⟩, m, shape⟩] := rfl

/-- Writing a constraint on a node keeps the cores. -/
@[simp]
lemma Block.cores_constrain (owner : String) (b : Block) (k : Nat) (t : TypeId)
    (c : WrittenConstraint) : (b.constrain owner k t c).cores = b.cores :=
  b.cores_modify k t _ fun _ => rfl

/-- A node whose parts are all the tops can be put on top of what hangs together. -/
lemma Hangs.cap_node {ι : String → StrId} {o : TypeOwner} {k : Nat} {ts : List TypeId} {b : Block}
    (h : Hangs ι o k ts b.cores b.references) {s : TypeShape} (hp : s.parts = ts)
    (nr : s.isReference = false) :
    Hangs ι o k [⟨k + b.length⟩] (b.append (.node (k + b.length) o.module s)).cores
      (b.append (.node (k + b.length) o.module s)).references := by
  have capped := h.cap hp nr
  simpa using capped

section

variable (ι : String → StrId) (owner : String) (o : TypeOwner)

mutual

/-- The nodes of a SYNTAX hang together below its topmost node. -/
lemma hangs_syntaxBlock : ∀ (s : TypeSyntax) (k : Nat),
    Hangs ι o k [(syntaxBlock ι owner o s k).1] (syntaxBlock ι owner o s k).2.cores
      (syntaxBlock ι owner o s k).2.references
  | .named _, _ | .qualified _ _, _ => .reference
  | .integer, _ | .octetString, _ | .objectIdentifier, _ => .leaf rfl rfl
  | .enumeration _, _ => (Hangs.leaf (s := .builtin .integer) rfl rfl).cap rfl rfl
  | .bits _, _ => (Hangs.leaf (s := .builtin .bits) rfl rfl).cap rfl rfl
  | .constrained base c, k => by
    have h := hangs_syntaxBlock base k
    simp only [syntaxBlock, Block.cores_constrain]
    exact h
  | .sequence fields, k => by
    have h := hangs_fieldsBlock fields k
    simp only [syntaxBlock]
    exact h.cap_node rfl rfl
  | .sequenceOf element, k => by
    have h := hangs_syntaxBlock element k
    simp only [syntaxBlock]
    exact h.cap_node rfl rfl
  | .choice alternatives, k => by
    have h := hangs_fieldsBlock alternatives k
    simp only [syntaxBlock]
    exact h.cap_node rfl rfl

/-- The nodes of named fields hang together below the topmost nodes of the fields. -/
lemma hangs_fieldsBlock : ∀ (fields : List (String × TypeSyntax)) (k : Nat),
    Hangs ι o k ((fieldsBlock ι owner o fields k).1.map (·.type))
      (fieldsBlock ι owner o fields k).2.cores (fieldsBlock ι owner o fields k).2.references
  | [], _ => .nil
  | (label, body) :: rest, k => by
    have head := hangs_syntaxBlock body k
    have tail := hangs_fieldsBlock rest (k + (syntaxBlock ι owner o body k).2.length)
    rw [← Block.length_cores] at tail
    have both := head.append tail
    simpa [fieldsBlock] using both

end

end

/-- The nodes of a definition hang together below the node that becomes its type. -/
lemma hangs_definitionBlock (ι : String → StrId) (o : TypeOwner) (x : Definition) (k : Nat) :
    Hangs ι o k (definitionBlock ι o x k).1.toList (definitionBlock ι o x k).2.cores
      (definitionBlock ι o x k).2.references := by
  unfold definitionBlock
  cases x.clauses with
  | type body hint? status =>
    have h := hangs_syntaxBlock ι x.name o body k
    simp only [Option.toList_some]
    rw [Block.cores_modify]
    · exact h
    · exact fun _ => rfl
  | textualConvention body hint? status =>
    have h := (hangs_syntaxBlock ι x.name o body k).cap_node
      (s := .textualConvention _ (hint?.map ι) status) rfl rfl
    simp only [Option.toList_some]
    rw [Block.cores_modify]
    · exact h
    · exact fun _ => rfl
  | objectType body access status oid => exact hangs_syntaxBlock ι x.name o body k
  | value | objectIdentity | moduleIdentity | notification => exact .nil

end MibCorpus
