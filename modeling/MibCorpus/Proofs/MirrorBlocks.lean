import MibCorpus.Proofs.BlockStructure
import MibCorpus.Proofs.Mirror

/-!
# Mirrored blocks

The block of a SYNTAX is the same wherever it starts and however strings, modules and assignments
are numbered, up to the renaming of what it mentions. Of a node only that counts here by which
references are bound and states spread.
-/

namespace MibCorpus

/-- What the settling of references sees of a node. -/
structure NodeView where
  id : TypeId
  dependencies : List TypeId
  parent? : Option TypeId
  isUnbound : Bool

/-- What the settling of references sees of a node. -/
def NodeCore.view (c : NodeCore) : NodeView :=
  ⟨c.id, c.shape.dependencies, c.shape.parent?, c.shape.isUnbound⟩

/-- What the settling of references sees of a node. -/
def TypeNode.view (n : TypeNode) : NodeView := n.core.view

/-- A view with the nodes renamed. -/
def NodeView.rename (τ : TypeId → TypeId) (v : NodeView) : NodeView :=
  ⟨τ v.id, v.dependencies.map τ, v.parent?.map τ, v.isUnbound⟩

/-- Whose a SYNTAX is, renamed. -/
def Renaming.owner (σ : Renaming) (o : TypeOwner) : TypeOwner :=
  ⟨σ.module o.module, σ.assignment o.assignment⟩

/-- A pending reference, renamed. -/
def Renaming.reference (σ : Renaming) (τ : TypeId → TypeId) (r : PendingReference) :
    PendingReference :=
  ⟨τ r.node, σ.module r.module, σ.assignment r.referrer, r.symbol, r.qualifier⟩

/-- Renaming takes what is in the first block to what is in the second. -/
structure Block.Mirrors (σ : Renaming) (τ : TypeId → TypeId) (b b' : Block) : Prop where
  views : b'.cores.map NodeCore.view = b.cores.map fun c => c.view.rename τ
  references : b'.references = b.references.map (σ.reference τ)
  defects : b'.defects = b.defects

namespace Block.Mirrors

variable {σ : Renaming} {τ : TypeId → TypeId} {b b' c c' : Block}

/-- Mirrored blocks have the same length. -/
lemma length (h : Block.Mirrors σ τ b b') : b'.length = b.length := by
  have e := congrArg List.length h.views
  simpa using e

/-- The empty block mirrors itself. -/
lemma empty : Block.Mirrors σ τ .empty .empty := ⟨rfl, rfl, rfl⟩

/-- Joined blocks mirror joined blocks. -/
lemma append (h : Block.Mirrors σ τ b b') (h' : Block.Mirrors σ τ c c') :
    Block.Mirrors σ τ (b.append c) (b'.append c') where
  views := by simp [h.views, h'.views]
  references := by simp [h.references, h'.references]
  defects := by simp [Block.append, h.defects, h'.defects]

/-- Nodes mirror each other if their places and the types they depend on do. -/
lemma node {i j : Nat} {m m' : ModuleId} {s s' : TypeShape} (place : τ ⟨i⟩ = ⟨j⟩)
    (dependencies : s'.dependencies = s.dependencies.map τ)
    (parent : s'.parent? = s.parent?.map τ) (unbound : s'.isUnbound = s.isUnbound) :
    Block.Mirrors σ τ (.node i m s) (.node j m' s') := by
  refine ⟨?_, rfl, rfl⟩
  simp [NodeCore.view, NodeView.rename, place, dependencies, parent, unbound]

/-- Changing a node but for its core keeps blocks mirrored. -/
lemma modify (h : Block.Mirrors σ τ b b') {k k' : Nat} {t t' : TypeId} {f g : TypeNode → TypeNode}
    (hf : ∀ n, (f n).core = n.core) (hg : ∀ n, (g n).core = n.core) :
    Block.Mirrors σ τ (b.modify k t f) (b'.modify k' t' g) where
  views := by
    rw [Block.cores_modify _ _ _ _ hf, Block.cores_modify _ _ _ _ hg]
    exact h.views
  references := h.references
  defects := h.defects

/-- Writing the same constraint on both keeps blocks mirrored. -/
lemma constrain (h : Block.Mirrors σ τ b b') {k k' : Nat} {t t' : TypeId} (owner : String)
    (w : WrittenConstraint) :
    Block.Mirrors σ τ (b.constrain owner k t w) (b'.constrain owner k' t' w) where
  views := by simpa using h.views
  references := h.references
  defects := by simp [Block.constrain, h.defects]

/-- Equal enumerations laid out at mirrored places mirror each other. -/
lemma enumeration {ι ι' : String → StrId} {o o' : TypeOwner} {k k' : Nat} (base : BuiltinType)
    (items : List (String × Int)) (first : τ ⟨k⟩ = ⟨k'⟩) (second : τ ⟨k + 1⟩ = ⟨k' + 1⟩) :
    Block.Mirrors σ τ (enumerationBlock ι o k base items)
      (enumerationBlock ι' o' k' base items) := by
  refine (node first rfl rfl rfl).append (node second ?_ ?_ rfl)
  all_goals simp [TypeShape.dependencies, TypeShape.parent?, first]

/-- Nodes over mirrored blocks mirror each other. -/
lemma cap {k k' : Nat} {m n : ModuleId} {s t : TypeShape} (h : Block.Mirrors σ τ b b')
    (near : ∀ c < b.length + 1, τ ⟨k + c⟩ = ⟨k' + c⟩)
    (dependencies : t.dependencies = s.dependencies.map τ)
    (parent : t.parent? = s.parent?.map τ) (unbound : t.isUnbound = s.isUnbound) :
    (⟨k' + b'.length⟩ : TypeId) = τ ⟨k + b.length⟩ ∧
      Block.Mirrors σ τ (b.append (.node (k + b.length) m s))
        (b'.append (.node (k' + b'.length) n t)) := by
  have place := near _ (Nat.lt_succ_self _)
  rw [h.length]
  exact ⟨place.symm, h.append (node place dependencies parent unbound)⟩

end Block.Mirrors

section

variable (σ : Renaming) (τ : TypeId → TypeId) (ι ι' : String → StrId) (owner : String)
  (o : TypeOwner)

mutual

/-- The block of a SYNTAX is mirrored by the block of the same SYNTAX elsewhere. -/
lemma mirrors_syntaxBlock : ∀ (s : TypeSyntax) (k k' : Nat),
    (∀ c < (syntaxBlock ι owner o s k).2.length, τ ⟨k + c⟩ = ⟨k' + c⟩) →
    (syntaxBlock ι' owner (σ.owner o) s k').1 = τ (syntaxBlock ι owner o s k).1 ∧
      Block.Mirrors σ τ (syntaxBlock ι owner o s k).2 (syntaxBlock ι' owner (σ.owner o) s k').2
  | .named name, k, k', near | .qualified module name, k, k', near => by
    have place := near 0 Nat.one_pos
    refine ⟨place.symm, ?_, ?_, rfl⟩
    · simpa [syntaxBlock, referenceBlock, Block.cores, TypeNode.added, TypeNode.core, NodeCore.view,
        NodeView.rename, TypeShape.dependencies, TypeShape.parent?, TypeShape.isUnbound] using
        place.symm
    · simpa [syntaxBlock, referenceBlock, Renaming.reference, Renaming.owner] using place.symm
  | .integer, k, k', near | .octetString, k, k', near | .objectIdentifier, k, k', near => by
    have place := near 0 Nat.one_pos
    exact ⟨place.symm, .node place rfl rfl rfl⟩
  | .enumeration items, k, k', near | .bits items, k, k', near => by
    have first := near 0 Nat.two_pos
    have second := near 1 Nat.one_lt_two
    exact ⟨second.symm, .enumeration _ _ first second⟩
  | .constrained base c, k, k', near => by
    -- A constraint is put on the topmost node and adds none to the block.
    simp only [syntaxBlock, Block.length_constrain] at near ⊢
    obtain ⟨top, mirrors⟩ := mirrors_syntaxBlock base k k' near
    exact ⟨top, mirrors.constrain owner c⟩
  | .sequence fields, k, k', near => by
    simp only [syntaxBlock, Block.length_append, Block.length_node] at near ⊢
    obtain ⟨tops, mirrors⟩ := mirrors_fieldsBlock fields k k' fun c hc => near c (by omega)
    refine mirrors.cap near ?_ rfl rfl
    simpa [TypeShape.dependencies, Function.comp_def] using tops
  | .sequenceOf element, k, k', near => by
    simp only [syntaxBlock, Block.length_append, Block.length_node] at near ⊢
    obtain ⟨top, mirrors⟩ := mirrors_syntaxBlock element k k' fun c hc => near c (by omega)
    refine mirrors.cap near ?_ rfl rfl
    simpa [TypeShape.dependencies] using top
  | .choice alternatives, k, k', near => by
    simp only [syntaxBlock, Block.length_append, Block.length_node] at near ⊢
    obtain ⟨tops, mirrors⟩ := mirrors_fieldsBlock alternatives k k' fun c hc => near c (by omega)
    refine mirrors.cap near ?_ rfl rfl
    simpa [TypeShape.dependencies, Function.comp_def] using tops

/-- The block of named fields is mirrored by the block of the same fields elsewhere. -/
lemma mirrors_fieldsBlock : ∀ (fields : List (String × TypeSyntax)) (k k' : Nat),
    (∀ c < (fieldsBlock ι owner o fields k).2.length, τ ⟨k + c⟩ = ⟨k' + c⟩) →
    (fieldsBlock ι' owner (σ.owner o) fields k').1.map (·.type) =
        (fieldsBlock ι owner o fields k).1.map (τ ·.type) ∧
      Block.Mirrors σ τ (fieldsBlock ι owner o fields k).2
        (fieldsBlock ι' owner (σ.owner o) fields k').2
  | [], _, _, _ => ⟨rfl, .empty⟩
  | (label, body) :: rest, k, k', near => by
    simp only [fieldsBlock, Block.length_append] at near ⊢
    obtain ⟨top, head⟩ := mirrors_syntaxBlock body k k' fun c hc => near c (by omega)
    obtain ⟨tops, tail⟩ := mirrors_fieldsBlock rest (k + (syntaxBlock ι owner o body k).2.length)
      (k' + (syntaxBlock ι owner o body k).2.length) fun c hc => by
        rw [Nat.add_assoc, near _ (by omega), Nat.add_assoc]
    rw [head.length]
    refine ⟨?_, head.append tail⟩
    rw [List.map_cons, List.map_cons, top, tops]

end

end

/-- The block of a definition is mirrored by the block of the same definition elsewhere. -/
lemma mirrors_definitionBlock (σ : Renaming) (τ : TypeId → TypeId) (ι ι' : String → StrId)
    (o : TypeOwner) (x : Definition) (k k' : Nat)
    (near : ∀ c < (definitionBlock ι o x k).2.length, τ ⟨k + c⟩ = ⟨k' + c⟩) :
    (definitionBlock ι' (σ.owner o) x k').1 = (definitionBlock ι o x k).1.map τ ∧
      Block.Mirrors σ τ (definitionBlock ι o x k).2 (definitionBlock ι' (σ.owner o) x k').2 := by
  obtain ⟨name, clauses, span⟩ := x
  cases clauses with
  | type body hint? status =>
    simp only [definitionBlock, Block.length_modify] at near ⊢
    obtain ⟨top, mirrors⟩ := mirrors_syntaxBlock σ τ ι ι' name o body k k' near
    exact ⟨congrArg some top, mirrors.modify (fun _ => rfl) fun _ => rfl⟩
  | textualConvention body hint? status =>
    simp only [definitionBlock, Block.length_modify, Block.length_append, Block.length_node]
      at near ⊢
    obtain ⟨top, mirrors⟩ := mirrors_syntaxBlock σ τ ι ι' name o body k k' fun c hc =>
      near c (by omega)
    obtain ⟨place, capped⟩ := mirrors.cap (m := o.module) (n := σ.module o.module)
      (s := .textualConvention (syntaxBlock ι name o body k).1 (hint?.map ι) status)
      (t := .textualConvention (syntaxBlock ι' name (σ.owner o) body k').1 (hint?.map ι') status)
      near (by simpa [TypeShape.dependencies] using top) (by simpa [TypeShape.parent?] using top)
        rfl
    exact ⟨congrArg some place, capped.modify (fun _ => rfl) fun _ => rfl⟩
  | objectType body access status oid =>
    obtain ⟨top, mirrors⟩ := mirrors_syntaxBlock σ τ ι ι' name o body k k' near
    exact ⟨congrArg some top, mirrors⟩
  | value | objectIdentity | moduleIdentity | notification => exact ⟨rfl, .empty⟩

end MibCorpus
