import MibCorpus.Typing.Lowering
import Mathlib.Data.List.Forall2
import Mathlib.Logic.Relation

/-!
# Blocks of type nodes

Lowering a SYNTAX adds a block of nodes, notes the references among them and finds the ranges that
cannot hold. What it adds depends on nothing but the SYNTAX, whose it is, where the block starts and
the identifiers of the strings, and is described here without a draft.
-/

namespace MibCorpus

/-- The nodes that a node is written with: all that it is built from, but not what a reference
refers to. -/
def TypeShape.parts : TypeShape → List TypeId
  | reference .. => []
  | s => s.dependencies

/-- A node as it is when it is added. -/
def TypeNode.added (i : Nat) (m : ModuleId) (shape : TypeShape) : TypeNode :=
  ⟨⟨i⟩, none, m, shape, none, .pending⟩

/-- What lowering adds: nodes, references noted as pending, and defects reported. -/
structure Block where
  nodes : List TypeNode
  references : List PendingReference
  defects : List Finding

namespace Block

/-- Nothing is added. -/
def empty : Block := ⟨[], [], []⟩

/-- One block behind another. -/
def append (b c : Block) : Block :=
  ⟨b.nodes ++ c.nodes, b.references ++ c.references, b.defects ++ c.defects⟩

/-- A node alone. -/
def node (i : Nat) (m : ModuleId) (shape : TypeShape) : Block := ⟨[.added i m shape], [], []⟩

/-- The number of nodes. -/
def length (b : Block) : Nat := b.nodes.length

/-- A block that starts at `k` with its node `t` changed. -/
def modify (b : Block) (k : Nat) (t : TypeId) (f : TypeNode → TypeNode) : Block :=
  { b with nodes := b.nodes.modify (t.index - k) f }

/-- Lengths add up when blocks are joined. -/
@[simp]
lemma length_append (b c : Block) : (b.append c).length = b.length + c.length := by
  simp [length, append]

/-- A block of one node has length one. -/
@[simp]
lemma length_node (i : Nat) (m : ModuleId) (shape : TypeShape) : (node i m shape).length = 1 := rfl

/-- Changing a node keeps the length of its block. -/
@[simp]
lemma length_modify (b : Block) (k : Nat) (t : TypeId) (f : TypeNode → TypeNode) :
    (b.modify k t f).length = b.length := by
  simp [length, modify]

/-- The references of joined blocks are those of the first, then those of the second. -/
@[simp]
lemma references_append (b c : Block) : (b.append c).references = b.references ++ c.references :=
  rfl

/-- A block of one node of a given shape notes no reference. -/
@[simp]
lemma references_node (i : Nat) (m : ModuleId) (shape : TypeShape) :
    (node i m shape).references = [] := rfl

/-- Joining the empty block on the right changes nothing. -/
@[simp]
lemma append_empty (b : Block) : b.append empty = b := by simp [append, empty]

end Block

/-! ## The block of a definition -/

section

variable (ι : String → StrId) (owner : String) (o : TypeOwner)

/-- The block of a reference. -/
def referenceBlock (k : Nat) (qualifier : Option String) (symbol : String) : Block :=
  ⟨[.added k o.module (.reference (ι symbol) (qualifier.map ι) none none)],
    [⟨⟨k⟩, o.module, o.assignment, symbol, qualifier⟩], []⟩

/-- Named numbers over a builtin type. -/
def enumerationBlock (k : Nat) (base : BuiltinType) (items : List (String × Int)) : Block :=
  (Block.node k o.module (.builtin base)).append
    (.node (k + 1) o.module (.enumeration ⟨k⟩ (items.map fun i => ⟨ι i.1, i.2⟩)))

/-- A block with a constraint on its node `t`. -/
def Block.constrain (b : Block) (k : Nat) (t : TypeId) (c : WrittenConstraint) : Block :=
  let constrained := b.modify k t fun n =>
    { n with constraint := Lowering.keptConstraint? owner c }
  { constrained with
    defects := b.defects ++
      (Lowering.writtenRanges c).filterMap (Lowering.rangeDefect? owner c.isSize) }

/-- Writing a constraint on a node keeps the length of its block. -/
@[simp]
lemma Block.length_constrain (b : Block) (k : Nat) (t : TypeId) (c : WrittenConstraint) :
    (b.constrain owner k t c).length = b.length :=
  b.length_modify k t _

mutual

/-- The topmost node of a SYNTAX that is lowered from position `k` on, and its block. -/
def syntaxBlock : TypeSyntax → Nat → TypeId × Block
  | .named name, k => (⟨k⟩, referenceBlock ι o k none name)
  | .qualified module name, k => (⟨k⟩, referenceBlock ι o k (some module) name)
  | .integer, k => (⟨k⟩, .node k o.module (.builtin .integer))
  | .octetString, k => (⟨k⟩, .node k o.module (.builtin .octetString))
  | .objectIdentifier, k => (⟨k⟩, .node k o.module (.builtin .objectIdentifier))
  | .enumeration items, k => (⟨k + 1⟩, enumerationBlock ι o k .integer items)
  | .bits items, k =>
    (⟨k + 1⟩, enumerationBlock ι o k .bits (items.map fun i => (i.1, (i.2 : Int))))
  | .constrained base c, k =>
    let tb := syntaxBlock base k
    (tb.1, tb.2.constrain owner k tb.1 c)
  | .sequence fields, k =>
    let fb := fieldsBlock fields k
    (⟨k + fb.2.length⟩, fb.2.append (.node (k + fb.2.length) o.module (.sequence fb.1)))
  | .sequenceOf element, k =>
    let tb := syntaxBlock element k
    (⟨k + tb.2.length⟩, tb.2.append (.node (k + tb.2.length) o.module (.sequenceOf tb.1)))
  | .choice alternatives, k =>
    let fb := fieldsBlock alternatives k
    (⟨k + fb.2.length⟩, fb.2.append (.node (k + fb.2.length) o.module (.choice fb.1)))

/-- Named fields that are lowered from position `k` on, and their block. -/
def fieldsBlock : List (String × TypeSyntax) → Nat → List Field × Block
  | [], _ => ([], .empty)
  | (label, body) :: rest, k =>
    let tb := syntaxBlock body k
    let fb := fieldsBlock rest (k + tb.2.length)
    (⟨ι label, tb.1⟩ :: fb.1, tb.2.append fb.2)

end

mutual

/-- The defects of a SYNTAX are ranges that cannot hold. -/
lemma kind_of_mem_syntaxBlock : ∀ (s : TypeSyntax) (k : Nat) (f : Finding),
    f ∈ (syntaxBlock ι owner o s k).2.defects → f.kind = .rangeConstraintViolation
  | .named _, _, _, h | .qualified _ _, _, _, h | .integer, _, _, h | .octetString, _, _, h
  | .objectIdentifier, _, _, h | .enumeration _, _, _, h | .bits _, _, _, h => by
    simp [syntaxBlock, referenceBlock, enumerationBlock, Block.node, Block.append] at h
  | .constrained base c, k, f, h => by
    simp only [syntaxBlock, Block.constrain] at h
    rcases List.mem_append.1 h with h | h
    · exact kind_of_mem_syntaxBlock base k f h
    · obtain ⟨r, -, hr⟩ := List.mem_filterMap.1 h
      unfold Lowering.rangeDefect? at hr
      split at hr
      · cases hr
        rfl
      · split at hr <;> cases hr
        rfl
  | .sequence fields, k, f, h | .choice fields, k, f, h => by
    have h' : f ∈ (fieldsBlock ι owner o fields k).2.defects := by
      simpa [syntaxBlock, Block.append, Block.node] using h
    exact kind_of_mem_fieldsBlock fields k f h'
  | .sequenceOf element, k, f, h => by
    have h' : f ∈ (syntaxBlock ι owner o element k).2.defects := by
      simpa [syntaxBlock, Block.append, Block.node] using h
    exact kind_of_mem_syntaxBlock element k f h'

/-- The defects of named fields are ranges that cannot hold. -/
lemma kind_of_mem_fieldsBlock : ∀ (fields : List (String × TypeSyntax)) (k : Nat) (f : Finding),
    f ∈ (fieldsBlock ι owner o fields k).2.defects → f.kind = .rangeConstraintViolation
  | [], _, _, h => by simp [fieldsBlock, Block.empty] at h
  | (_, body) :: rest, k, f, h => by
    simp only [fieldsBlock, Block.append] at h
    rcases List.mem_append.1 h with h | h
    · exact kind_of_mem_syntaxBlock body k f h
    · exact kind_of_mem_fieldsBlock rest _ f h

end

/-- The topmost node of a SYNTAX is the last one of its block. -/
lemma syntaxBlock_top : ∀ (s : TypeSyntax) (k : Nat),
    (syntaxBlock ι owner o s k).1.index + 1 = k + (syntaxBlock ι owner o s k).2.length
  | .named _, _ | .qualified _ _, _ | .integer, _ | .octetString, _ | .objectIdentifier, _
  | .enumeration _, _ | .bits _, _ => rfl
  | .constrained base c, k => by
    have h := syntaxBlock_top base k
    simpa only [syntaxBlock, Block.length_constrain] using h
  | .sequence _, _ | .sequenceOf _, _ | .choice _, _ => by
    simp [syntaxBlock, Nat.add_assoc]

/-- Every SYNTAX has a node. -/
lemma syntaxBlock_length_pos : ∀ (s : TypeSyntax) (k : Nat),
    0 < (syntaxBlock ι owner o s k).2.length
  | .named _, _ | .qualified _ _, _ | .integer, _ | .octetString, _ | .objectIdentifier, _ =>
    Nat.one_pos
  | .enumeration _, _ | .bits _, _ => Nat.two_pos
  | .constrained base c, k => by
    have h := syntaxBlock_length_pos base k
    simpa only [syntaxBlock, Block.length_constrain] using h
  | .sequence _, _ | .sequenceOf _, _ | .choice _, _ => by simp [syntaxBlock]

/-- The top node of a syntax laid out from `k` on has an index of at least `k`. -/
lemma le_syntaxBlock_top (s : TypeSyntax) (k : Nat) :
    k ≤ (syntaxBlock ι owner o s k).1.index := by
  have top := syntaxBlock_top ι owner o s k
  have pos := syntaxBlock_length_pos ι owner o s k
  omega

/-- The block of a definition, with the node that becomes its type if it has a SYNTAX. -/
def definitionBlock (x : Definition) (k : Nat) : Option TypeId × Block :=
  let named := fun n : TypeNode => { n with name := some (ι x.name) }
  match x.clauses with
  | .type body _ _ =>
    let tb := syntaxBlock ι x.name o body k
    (some tb.1, tb.2.modify k tb.1 named)
  | .textualConvention body hint? status =>
    let tb := syntaxBlock ι x.name o body k
    let top : TypeId := ⟨k + tb.2.length⟩
    let wrapper := TypeShape.textualConvention tb.1 (hint?.map ι) status
    (some top, (tb.2.append (.node (k + tb.2.length) o.module wrapper)).modify k top named)
  | .objectType body _ _ _ =>
    let tb := syntaxBlock ι x.name o body k
    (some tb.1, tb.2)
  | .value .. | .objectIdentity .. | .moduleIdentity .. | .notification .. => (none, .empty)

end

/-- The defects of a definition are ranges that cannot hold. -/
lemma kind_of_mem_definitionBlock {ι : String → StrId} {o : TypeOwner} {x : Definition} {k : Nat}
    {f : Finding} (h : f ∈ (definitionBlock ι o x k).2.defects) :
    f.kind = .rangeConstraintViolation := by
  obtain ⟨name, clauses, description?⟩ := x
  cases clauses with
  | type body hint? status => exact kind_of_mem_syntaxBlock ι name o body k f h
  | textualConvention body hint? status =>
    have h' : f ∈ (syntaxBlock ι name o body k).2.defects := by
      simpa [definitionBlock, Block.modify, Block.append, Block.node] using h
    exact kind_of_mem_syntaxBlock ι name o body k f h'
  | objectType body access status oid => exact kind_of_mem_syntaxBlock ι name o body k f h
  | value | objectIdentity | moduleIdentity | notification =>
    simp [definitionBlock, Block.empty] at h

/-- A definition is laid out to a type exactly if it has a body. -/
lemma isSome_definitionBlock (ι : String → StrId) (o : TypeOwner) (x : Definition) (k : Nat) :
    (definitionBlock ι o x k).1.isSome = x.body?.isSome := by
  unfold definitionBlock Definition.body?
  cases x.clauses <;> rfl

/-- Every type definition has a body. -/
lemma body?_of_isType {x : Definition} (h : x.kind.isType) : x.body?.isSome := by
  obtain ⟨_, clauses, _⟩ := x
  cases clauses <;> simp_all [Definition.kind, Definition.body?, AssignmentKind.isType]

/-- A definition with its assignment and its module. -/
abbrev OwnedDefinition := AssignmentId × ModuleId × Definition

/-- A block in its place: whose it is, where it starts, and the node that becomes the type. -/
structure LaidBlock where
  owner : TypeOwner
  start : Nat
  top? : Option TypeId
  block : Block

/-- The blocks of some definitions that are lowered one behind the other from position `k` on. -/
def layout (ι : String → StrId) : List OwnedDefinition → Nat → List LaidBlock
  | [], _ => []
  | (a, m, x) :: xs, k =>
    let tb := definitionBlock ι ⟨m, a⟩ x k
    ⟨⟨m, a⟩, k, tb.1, tb.2⟩ :: layout ι xs (k + tb.2.length)

/-- The layout of a list of definitions is owned by their assignments, in order. -/
@[simp]
lemma map_owner_layout (ι : String → StrId) (xs : List OwnedDefinition) (k : Nat) :
    (layout ι xs k).map (·.owner.assignment) = xs.map Prod.fst := by
  induction xs generalizing k with
  | nil => rfl
  | cons x xs ih => simp [layout, ih]

end MibCorpus
