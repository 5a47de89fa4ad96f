import MibCorpus.Proofs.Block
import MibCorpus.Proofs.Registration

/-!
# What lowering adds

Lowering a SYNTAX appends its block to the draft: the nodes behind the nodes, the references behind
the references and what the defects say behind the problems. The identifiers of strings in the block
are those that the strings have in any table that comes out in the end.
-/

namespace MibCorpus

namespace Lowering

/-- The number of nodes so far. -/
def size (l : Lowering) : Nat := l.draft.mib.types.size

/-- The strings so far. -/
def strings (l : Lowering) : Strings := l.draft.mib.strings

/-- Lowering for `o` has appended a block. -/
structure Appends (o : TypeOwner) (b : Block) (l l' : Lowering) : Prop where
  scope : l'.draft.scope = l.draft.scope
  assignments : l'.draft.mib.assignments = l.draft.mib.assignments
  types : l'.draft.mib.types.toList = l.draft.mib.types.toList ++ b.nodes
  references : l'.references = l.references ++ b.references
  problems : l'.draft.mib.problems.toList = l.draft.mib.problems.toList ++
    b.defects.map (l.draft.problemAbout · o.assignment)

/-- A step that appends no node and notes no reference appends the empty block. -/
lemma Appends.empty {o : TypeOwner} {l l' : Lowering} (scope : l'.draft.scope = l.draft.scope)
    (assignments : l'.draft.mib.assignments = l.draft.mib.assignments)
    (types : l'.draft.mib.types = l.draft.mib.types) (references : l'.references = l.references)
    (problems : l'.draft.mib.problems = l.draft.mib.problems) : Appends o .empty l l' :=
  ⟨scope, assignments, by simp [types, Block.empty], by simp [references, Block.empty],
    by simp [problems, Block.empty]⟩

/-- Appending one block and another. -/
lemma Appends.trans {o : TypeOwner} {b b' : Block} {l l' l'' : Lowering} (h : Appends o b l l')
    (h' : Appends o b' l' l'') (e : l'.draft.registry = l.draft.registry) :
    Appends o (b.append b') l l'' where
  scope := h'.scope.trans h.scope
  assignments := h'.assignments.trans h.assignments
  types := by rw [h'.types, h.types, Block.append, List.append_assoc]
  references := by rw [h'.references, h.references, Block.append, List.append_assoc]
  problems := by
    have same : (l'.draft.problemAbout · o.assignment) = (l.draft.problemAbout · o.assignment) :=
      funext fun f => Draft.problemAbout_of_registry e f o.assignment
    rw [h'.problems, h.problems, same, Block.append, List.map_append, List.append_assoc]

/-- Appending a block adds its length to the number of nodes. -/
lemma Appends.size {o : TypeOwner} {b : Block} {l l' : Lowering} (h : Appends o b l l') :
    l'.size = l.size + b.length := by
  have e := congrArg List.length h.types
  simpa [Lowering.size, Block.length] using e

/-- A step of lowering for `o` from `l` to `out`, which is described once the identifiers of the
strings are known. -/
structure Lowers {α : Type} (o : TypeOwner) (described : (String → StrId) → α × Block)
    (l : Lowering) (out : α × Lowering) : Prop where
  continues : Draft.Continues l.draft out.2.draft
  value : ∀ ι, out.2.strings.Agrees ι → out.1 = (described ι).1
  appends : ∀ ι, out.2.strings.Agrees ι → Appends o (described ι).2 l out.2

section Steps

variable {α β : Type} {o : TypeOwner} {l : Lowering}

/-- Two steps one after another; the second may build on what the first gave. -/
lemma Lowers.andThen {f : (String → StrId) → α × Block} {g : (String → StrId) → β × Block}
    {out : α × Lowering} {out' : β × Lowering} (h : Lowers o f l out)
    (h' : Lowers o g out.2 out') :
    Lowers o (fun ι => ((g ι).1, (f ι).2.append (g ι).2)) l out' where
  continues := h.continues.trans h'.continues
  value := h'.value
  appends ι hι := by
    have first := h.appends ι (hι.of_extends h'.continues.strings)
    exact first.trans (h'.appends ι hι) h.continues.registry

/-- The layout function matters only up to numberings that agree with the block's strings. -/
lemma Lowers.congr {f g : (String → StrId) → α × Block} {out : α × Lowering}
    (h : Lowers o f l out) (e : ∀ ι, out.2.strings.Agrees ι → f ι = g ι) : Lowers o g l out where
  continues := h.continues
  value ι hι := by rw [← e ι hι]; exact h.value ι hι
  appends ι hι := by rw [← e ι hι]; exact h.appends ι hι

/-- Changing what a step returns keeps the block it lays out. -/
lemma Lowers.map {f : (String → StrId) → α × Block} {out : α × Lowering} (g : α → β)
    (h : Lowers o f l out) : Lowers o (fun ι => (g (f ι).1, (f ι).2)) l (g out.1, out.2) where
  continues := h.continues
  value ι hι := congrArg g (h.value ι hι)
  appends := h.appends

/-- Interning a string lays out the empty block and returns the string's number. -/
lemma lowers_intern (o : TypeOwner) (l : Lowering) (s : String) :
    Lowers o (fun ι => (ι s, .empty)) l (l.intern s) where
  continues := ⟨rfl, Strings.extends_intern _ _⟩
  value _ hι := (hι s _ (Strings.find?_intern _ _)).symm
  appends _ _ := .empty rfl rfl rfl rfl rfl

/-- A node is added behind the others. -/
lemma lowers_addNode (o : TypeOwner) (l : Lowering) (shape : TypeShape) :
    Lowers o (fun _ => (⟨l.size⟩, .node l.size o.module shape)) l (l.addNode o shape) where
  continues := by
    refine ⟨?_, .refl _⟩
    have e := Draft.heading_modifyModule l.draft.mib o.module
      (fun m => { m with types := m.types ++ [⟨l.draft.mib.types.size⟩] }) fun _ => rfl
    simp only [Draft.registry, addNode, Mib.addType, Mib.modifyModule] at e ⊢
    rw [e]
  value _ _ := rfl
  appends _ _ := by
    refine ⟨rfl, rfl, ?_, ?_, ?_⟩ <;>
      simp [addNode, Mib.addType, Mib.modifyModule, Block.node, TypeNode.added, Lowering.size]

/-- A node over what has been lowered is added behind it. -/
lemma Lowers.cap {f : (String → StrId) → α × Block} {out : α × Lowering} (h : Lowers o f l out)
    (shape : α → TypeShape) :
    Lowers o (fun ι => (⟨l.size + (f ι).2.length⟩, (f ι).2.append
      (.node (l.size + (f ι).2.length) o.module (shape (f ι).1)))) l
      (out.2.addNode o (shape out.1)) := by
  have outer := lowers_addNode o out.2 (shape out.1)
  refine (h.andThen outer).congr fun ι hι => ?_
  have hι' := hι.of_extends outer.continues.strings
  rw [(h.appends ι hι').size, h.value ι hι']

/-- Interns a string that may be missing. -/
def intern? (l : Lowering) (s? : Option String) : Option StrId × Lowering :=
  ((l.draft.mib.intern? s?).1,
    { l with draft := { l.draft with mib := (l.draft.mib.intern? s?).2 } })

/-- Interning an optional string lays out the empty block as well. -/
lemma lowers_intern? (o : TypeOwner) (l : Lowering) (s? : Option String) :
    Lowers o (fun ι => (s?.map ι, .empty)) l (l.intern? s?) := by
  cases s? with
  | none => exact ⟨.refl _, fun _ _ => rfl, fun _ _ => .empty rfl rfl rfl rfl rfl⟩
  | some s => exact (lowers_intern o l s).map some

/-- Notes a reference as pending. -/
def note (l : Lowering) (r : PendingReference) : Lowering :=
  { l with references := l.references ++ [r] }

/-- A reference is noted behind the others. -/
lemma Lowers.note {f : (String → StrId) → α × Block} {out : α × Lowering} (h : Lowers o f l out)
    (r : PendingReference) :
    Lowers o (fun ι => ((f ι).1, { (f ι).2 with references := (f ι).2.references ++ [r] })) l
      (out.1, out.2.note r) where
  continues := h.continues
  value := h.value
  appends ι hι := by
    have ha := h.appends ι hι
    exact ⟨ha.scope, ha.assignments, ha.types, by simp [Lowering.note, ha.references], ha.problems⟩

/-- A reference is a node behind its interned names, and is noted. -/
lemma addReference_eq (o : TypeOwner) (l : Lowering) (qualifier : Option String)
    (symbol : String) :
    let named := l.intern symbol
    let qualified := named.2.intern? qualifier
    let added := qualified.2.addNode o (.reference named.1 qualified.1 none none)
    l.addReference o qualifier symbol =
      (added.1, added.2.note ⟨added.1, o.module, o.assignment, symbol, qualifier⟩) := by
  cases qualifier <;> rfl

/-- A reference is added behind the others and noted. -/
lemma lowers_addReference (o : TypeOwner) (l : Lowering) (qualifier : Option String)
    (symbol : String) :
    Lowers o (fun ι => (⟨l.size⟩, referenceBlock ι o l.size qualifier symbol)) l
      (l.addReference o qualifier symbol) := by
  have named := lowers_intern o l symbol
  have qualified := lowers_intern? o (l.intern symbol).2 qualifier
  have added := lowers_addNode o ((l.intern symbol).2.intern? qualifier).2
    (.reference (l.intern symbol).1 ((l.intern symbol).2.intern? qualifier).1 none none)
  have noted := ((named.andThen qualified).andThen added).note
    ⟨⟨((l.intern symbol).2.intern? qualifier).2.size⟩, o.module, o.assignment, symbol, qualifier⟩
  rw [addReference_eq]
  refine noted.congr fun ι hι => ?_
  have hs := named.value ι (hι.of_extends (qualified.andThen added).continues.strings)
  have hq := qualified.value ι (hι.of_extends added.continues.strings)
  have size : ((l.intern symbol).2.intern? qualifier).2.size = l.size := by
    cases qualifier <;> rfl
  simp [size, hs, hq, referenceBlock, Block.node, Block.append, Block.empty]

/-- The labels of named numbers are interned. -/
lemma lowers_nameValues (o : TypeOwner) (l : Lowering) (items : List (String × Int)) :
    Lowers o (fun ι => (items.map fun i => ⟨ι i.1, i.2⟩, .empty)) l (l.nameValues items) := by
  induction items generalizing l with
  | nil => exact ⟨.refl _, fun _ _ => rfl, fun _ _ => .empty rfl rfl rfl rfl rfl⟩
  | cons i items ih =>
    have head := lowers_intern o l i.1
    have tail := ih (l.intern i.1).2
    have both := (head.andThen tail).map fun values => ⟨(l.intern i.1).1, i.2⟩ :: values
    refine both.congr fun ι hι => ?_
    have hn := head.value ι (hι.of_extends tail.continues.strings)
    simp [hn]

/-- Named numbers are lowered to a builtin node and a node over it. -/
lemma lowers_enumeration (o : TypeOwner) (l : Lowering) (base : BuiltinType)
    (items : List (String × Int)) :
    let added := l.addNode o (.builtin base)
    let named := added.2.nameValues items
    Lowers o (fun ι => (⟨l.size + 1⟩, enumerationBlock ι o l.size base items)) l
      (named.2.addNode o (.enumeration added.1 named.1)) := by
  intro added named
  have first := lowers_addNode o l (.builtin base)
  have second := lowers_nameValues o added.2 items
  refine ((first.andThen second).cap (.enumeration added.1)).congr fun ι _ => ?_
  simp [enumerationBlock, added, addNode, Mib.addType, Lowering.size]

/-! ## Constraints -/

/-- A change behind the first entries leaves these alone. -/
lemma modify_append {α : Type} {as : Array α} {old new : List α} (h : as.toList = old ++ new)
    {i : Nat} (hi : old.length ≤ i) (f : α → α) :
    (as.modify i f).toList = old ++ new.modify (i - old.length) f := by
  rw [Array.toList_modify, h]
  clear h
  induction old generalizing i with
  | nil => simp
  | cons x old ih =>
    obtain ⟨j, rfl⟩ : ∃ j, i = j + 1 := ⟨i - 1, by simp at hi; omega⟩
    have hj : old.length ≤ j := by simpa using hi
    simp [List.modify_succ_cons, ih hj, Nat.add_sub_add_right]

/-- The problems of some findings about an assignment are recorded behind the others. -/
lemma foldl_reportAbout (d : Draft) (a : AssignmentId) (fs : List Finding) :
    fs.foldl (·.reportAbout · a) d = d.recordAll (fs.map (d.problemAbout · a)) := by
  have each : ∀ (d : Draft) (f : Finding),
      d.reportAbout f a = d.recordAll [d.problemAbout f a] := fun _ _ => rfl
  have same : ∀ (d : Draft) (ps : List Problem),
      (fun f => [(d.recordAll ps).problemAbout f a]) = fun f => [d.problemAbout f a] := by
    intro d ps
    rw [Draft.recordAll_eq]
    rfl
  refine (Draft.foldl_eq_recordAll each same d fs).trans ?_
  rw [List.map_eq_flatMap]

/-- Changing a node of the block is changing it behind the nodes before. -/
lemma Lowers.modify {f : (String → StrId) → TypeId × Block} {out : TypeId × Lowering}
    (h : Lowers o f l out) (g : TypeNode → TypeNode) (top : ∀ ι, l.size ≤ (f ι).1.index) :
    Lowers o (fun ι => ((f ι).1, (f ι).2.modify l.size (f ι).1 g)) l
      (out.1, out.2.modifyNode out.1 g) where
  continues := ⟨h.continues.registry, h.continues.strings⟩
  value := h.value
  appends ι hι := by
    have ha := h.appends ι hι
    refine ⟨ha.scope, ha.assignments, ?_, ha.references, ha.problems⟩
    rw [h.value ι hι]
    exact modify_append ha.types (by simpa [Lowering.size] using top ι) g

/-- A constraint changes a node of the block, and its defects are reported. -/
lemma Lowers.constrain {f : (String → StrId) → TypeId × Block} {out : TypeId × Lowering}
    (h : Lowers o f l out) (c : WrittenConstraint) (owner : String)
    (named : out.2.draft.mib.nameOf o.assignment = owner)
    (top : ∀ ι, l.size ≤ (f ι).1.index) :
    Lowers o (fun ι => ((f ι).1, (f ι).2.constrain owner l.size (f ι).1 c)) l
      (out.1, out.2.constrain o out.1 c) := by
  have changed := h.modify (fun n => { n with constraint := keptConstraint? owner c }) top
  let defects := (writtenRanges c).filterMap (rangeDefect? owner c.isSize)
  have e : out.2.constrain o out.1 c =
      { draft := defects.foldl (·.reportAbout · o.assignment)
          (out.2.modifyNode out.1 fun n => { n with constraint := keptConstraint? owner c }).draft
        references := out.2.references } := by
    rw [foldl_reportAbout, Draft.recordAll_eq]
    simp only [Lowering.constrain, named, foldl_reportAbout, Draft.recordAll_eq]
    rfl
  rw [e, foldl_reportAbout, Draft.recordAll_eq]
  refine ⟨⟨changed.continues.registry, changed.continues.strings⟩, changed.value, fun ι hι => ?_⟩
  have ha := changed.appends ι hι
  refine ⟨ha.scope, ha.assignments, ha.types, ha.references, ?_⟩
  have same : ∀ g, (out.2.modifyNode out.1 fun n =>
      { n with constraint := keptConstraint? owner c }).draft.problemAbout g o.assignment
      = l.draft.problemAbout g o.assignment :=
    fun g => Draft.problemAbout_of_registry changed.continues.registry g o.assignment
  have hp := ha.problems
  simp only [Problems.toList, Array.toList_appendList] at hp ⊢
  simp [hp, same, Block.constrain, Block.modify, defects]

end Steps

/-! ## Syntax -/

section Syntax

variable {o : TypeOwner} {owner : String}

mutual

/-- Lowering a SYNTAX appends its block. -/
lemma lowers_lower : ∀ (s : TypeSyntax) (l : Lowering), l.draft.DefinitionsRegistered →
    l.draft.mib.nameOf o.assignment = owner →
    Lowers o (fun ι => syntaxBlock ι owner o s l.size) l (lower o s l)
  | .named name, l, _, _ => by
    simpa only [lower, syntaxBlock] using lowers_addReference o l none name
  | .qualified module name, l, _, _ => by
    simpa only [lower, syntaxBlock] using lowers_addReference o l (some module) name
  | .integer, l, _, _ | .octetString, l, _, _ | .objectIdentifier, l, _, _ => by
    simpa only [lower, syntaxBlock] using lowers_addNode o l _
  | .enumeration items, l, _, _ => by
    simpa only [lower, syntaxBlock] using lowers_enumeration o l .integer items
  | .bits items, l, _, _ => by
    simpa only [lower, syntaxBlock] using lowers_enumeration o l .bits _
  | .constrained base c, l, h, hn => by
    have inner := lowers_lower base l h hn
    have named := h.nameOf_of_continues inner.continues o.assignment
    simpa only [lower, syntaxBlock] using
      inner.constrain c owner (named.trans hn) fun ι => le_syntaxBlock_top ι owner o base l.size
  | .sequence fields, l, h, hn => by
    have inner := lowers_lowerFields fields l h hn
    simpa only [lower, syntaxBlock] using inner.cap .sequence
  | .sequenceOf element, l, h, hn => by
    have inner := lowers_lower element l h hn
    simpa only [lower, syntaxBlock] using inner.cap .sequenceOf
  | .choice alternatives, l, h, hn => by
    have inner := lowers_lowerFields alternatives l h hn
    simpa only [lower, syntaxBlock] using inner.cap .choice

/-- Lowering named fields appends their block. -/
lemma lowers_lowerFields : ∀ (fields : List (String × TypeSyntax)) (l : Lowering),
    l.draft.DefinitionsRegistered → l.draft.mib.nameOf o.assignment = owner →
    Lowers o (fun ι => fieldsBlock ι owner o fields l.size) l (lowerFields o fields l)
  | [], l, _, _ => by
    simp only [lowerFields, fieldsBlock]
    exact ⟨.refl _, fun _ _ => rfl, fun _ _ => .empty rfl rfl rfl rfl rfl⟩
  | (label, body) :: rest, l, h, hn => by
    -- The label is interned between the nodes of its field and those of the next.
    have head := lowers_lower body l h hn
    have name := lowers_intern o (lower o body l).2 label
    have both := head.andThen name
    have tail := lowers_lowerFields rest ((lower o body l).2.intern label).2
      (h.of_registry both.continues.registry both.continues.strings)
      ((h.nameOf_of_continues both.continues o.assignment).trans hn)
    simp only [lowerFields, fieldsBlock]
    refine ((both.andThen tail).map fun fields =>
      ⟨((lower o body l).2.intern label).1, (lower o body l).1⟩ :: fields).congr fun ι hι => ?_
    have hι' := hι.of_extends tail.continues.strings
    have size := (both.appends ι hι').size
    simp only [Block.append_empty] at size
    simp only [Block.append_empty, size, name.value ι hι',
      head.value ι (hι'.of_extends name.continues.strings)]

end

end Syntax

/-! ## Definitions -/

/-- Lowers the SYNTAX of a definition without making it the type of its assignment. -/
def lowerBody (l : Lowering) (o : TypeOwner) (x : Definition) : Option TypeId × Lowering :=
  match x.clauses with
  | .type body _ _ =>
    let tl := lower o body l
    (some tl.1, tl.2.nameAfter o.assignment tl.1)
  | .textualConvention body hint? status =>
    let tl := lower o body l
    let wl := tl.2.wrapConvention o tl.1 hint? status
    (some wl.1, wl.2.nameAfter o.assignment wl.1)
  | .objectType body _ _ _ =>
    let tl := lower o body l
    (some tl.1, tl.2)
  | .value .. | .objectIdentity .. | .moduleIdentity .. | .notification .. => (none, l)

/-- Makes a node the type of the assignment, if there is one. -/
def assignType? (l : Lowering) (a : AssignmentId) : Option TypeId → Lowering
  | some t => l.assignType a t
  | none => l

/-- Lowering a definition lowers its body and assigns the type, if there is one. -/
lemma lowerDefinition_eq (l : Lowering) (o : TypeOwner) (x : Definition) :
    l.lowerDefinition o x = (l.lowerBody o x).2.assignType? o.assignment (l.lowerBody o x).1 := by
  unfold lowerDefinition lowerBody
  cases x.clauses <;> rfl

section Definition

variable {o : TypeOwner} {l : Lowering} {x : Definition}

/-- Naming a node after the assignment of a definition gives it the name of the definition. -/
lemma Lowers.nameAfter {f : (String → StrId) → TypeId × Block} {out : TypeId × Lowering}
    (h : Lowers o f l out) (r : l.draft.DefinitionsRegistered)
    (hx : l.draft.owner? o.assignment = some (o.module, x))
    (top : ∀ ι, l.size ≤ (f ι).1.index) :
    Lowers o (fun ι => ((f ι).1, (f ι).2.modify l.size (f ι).1
      fun n => { n with name := some (ι x.name) })) l
      (out.1, out.2.nameAfter o.assignment out.1) := by
  refine (h.modify _ top).congr fun ι hι => ?_
  have r' := r.of_registry h.continues.registry h.continues.strings
  rw [← Draft.owner?_of_registry h.continues.registry] at hx
  obtain ⟨name, hn, ha⟩ := r'.entry _ _ _ hx
  have e : (out.2.draft.mib.assignment? o.assignment).map (·.name) = some (ι x.name) := by
    have e := congrArg (Option.map (·.name)) ha
    simp only [Option.map_map, Option.map_some] at e
    rw [hι x.name name hn]
    exact e
  rw [e]

/-- Lowering the SYNTAX of a definition appends the block of the definition. -/
lemma lowers_lowerBody (r : l.draft.DefinitionsRegistered)
    (hx : l.draft.owner? o.assignment = some (o.module, x)) :
    Lowers o (fun ι => definitionBlock ι o x l.size) l (l.lowerBody o x) := by
  have owned := r.nameOf_eq hx
  unfold lowerBody definitionBlock
  cases x.clauses with
  | type body hint? status =>
    have inner := lowers_lower body l r owned
    exact (inner.nameAfter r hx fun ι => le_syntaxBlock_top ι _ o body l.size).map some
  | textualConvention body hint? status =>
    have inner := lowers_lower body l r owned
    have hint := lowers_intern? o (lower o body l).2 hint?
    have outer := (inner.andThen hint).cap (.textualConvention (lower o body l).1 · status)
    have wrapped : Lowers o (fun ι =>
        let tb := syntaxBlock ι x.name o body l.size
        (⟨l.size + tb.2.length⟩, tb.2.append (.node (l.size + tb.2.length) o.module
          (.textualConvention tb.1 (hint?.map ι) status)))) l
        ((lower o body l).2.wrapConvention o (lower o body l).1 hint? status) := by
      refine outer.congr fun ι hι => ?_
      have hι' := hι.of_extends (lowers_addNode ..).continues.strings
      simp only [Block.append_empty, inner.value ι (hι'.of_extends hint.continues.strings)]
    exact (wrapped.nameAfter r hx fun ι => Nat.le_add_right _ _).map some
  | objectType body access status oid =>
    exact (lowers_lower body l r owned).map some
  | value | objectIdentity | moduleIdentity | notification =>
    exact ⟨.refl _, fun _ _ => rfl, fun _ _ => .empty rfl rfl rfl rfl rfl⟩

end Definition

/-! ## All definitions -/

/-- Some blocks have been appended, and their topmost nodes are the types of their assignments. -/
structure Laid (blocks : List LaidBlock) (l l' : Lowering) : Prop where
  scope : l'.draft.scope = l.draft.scope
  types : l'.draft.mib.types.toList = l.draft.mib.types.toList ++ blocks.flatMap (·.block.nodes)
  references : l'.references = l.references ++ blocks.flatMap (·.block.references)
  problems : l'.draft.mib.problems.toList = l.draft.mib.problems.toList ++
    blocks.flatMap fun b => b.block.defects.map (l.draft.problemAbout · b.owner.assignment)
  typed : ∀ b ∈ blocks, ∀ t, b.top? = some t → l'.draft.mib.assignment? b.owner.assignment =
    (l.draft.mib.assignment? b.owner.assignment).map fun e => { e with type := some t }
  untyped : ∀ a, (∀ b ∈ blocks, b.owner.assignment = a → b.top? = none) →
    l'.draft.mib.assignment? a = l.draft.mib.assignment? a

/-- What an assignment is after another one got its type. -/
lemma assignment?_assignType (l : Lowering) (a i : AssignmentId) (t : TypeId) :
    (l.assignType a t).draft.mib.assignment? i =
      if a = i then (l.draft.mib.assignment? i).map fun e => { e with type := some t }
      else l.draft.mib.assignment? i :=
  l.draft.mib.assignment?_modifyAssignment ..

/-- Assigning a type to an entry continues the draft. -/
lemma continues_assignType? (l : Lowering) (a : AssignmentId) (t? : Option TypeId) :
    Draft.Continues l.draft (l.assignType? a t?).draft := by
  cases t? with
  | none => exact .refl _
  | some t => exact ⟨Draft.registry_modifyAssignment _ a _ fun _ => rfl, .refl _⟩

/-- Lowering a definition appends its block and makes its topmost node the type. -/
lemma laid_lowerDefinition {l : Lowering} {a : AssignmentId} {m : ModuleId} {x : Definition}
    (r : l.draft.DefinitionsRegistered) (hx : l.draft.owner? a = some (m, x)) :
    Draft.Continues l.draft (l.lowerDefinition ⟨m, a⟩ x).draft ∧
      ∀ ι, (l.lowerDefinition ⟨m, a⟩ x).strings.Agrees ι →
        Laid (layout ι [(a, m, x)] l.size) l (l.lowerDefinition ⟨m, a⟩ x) := by
  have body := lowers_lowerBody (o := ⟨m, a⟩) r hx
  rw [lowerDefinition_eq]
  refine ⟨body.continues.trans (continues_assignType? _ _ _), fun ι hι => ?_⟩
  have hι' : (l.lowerBody ⟨m, a⟩ x).2.strings.Agrees ι :=
    hι.of_extends (continues_assignType? _ _ _).strings
  have ha := body.appends ι hι'
  rw [body.value ι hι', layout, layout]
  generalize definitionBlock ι ⟨m, a⟩ x l.size = tb at ha
  obtain ⟨t?, b⟩ := tb
  cases t? with
  | none =>
    refine ⟨ha.scope, ?types, ?references, ?problems, by simp, fun i _ => ?untyped⟩
    case types => simpa [assignType?] using ha.types
    case references => simpa [assignType?] using ha.references
    case problems => simpa [assignType?] using ha.problems
    case untyped => simp only [assignType?, Mib.assignment?, ha.assignments]
  | some t =>
    refine ⟨ha.scope, ?types, ?references, ?problems, fun c hc u hu => ?typed,
      fun i hi => ?untyped⟩
    case types => simpa [assignType?, assignType, Mib.modifyAssignment] using ha.types
    case references => simpa [assignType?, assignType] using ha.references
    case problems => simpa [assignType?, assignType, Mib.modifyAssignment] using ha.problems
    case typed =>
      obtain rfl := List.mem_singleton.1 hc
      cases hu
      rw [assignType?, assignment?_assignType, if_pos rfl]
      simp only [Mib.assignment?, ha.assignments]
    case untyped =>
      have hne : a ≠ i := by
        rintro rfl
        simpa using hi _ (List.mem_singleton_self _) rfl
      rw [assignType?, assignment?_assignType, if_neg hne]
      simp only [Mib.assignment?, ha.assignments]

/-- No step lays out no block. -/
lemma Laid.refl (l : Lowering) : Laid [] l l :=
  ⟨rfl, by simp, by simp, by simp, by simp, fun _ _ => rfl⟩

/-- Blocks laid behind blocks of other assignments. -/
lemma Laid.trans {bs cs : List LaidBlock} {l l' l'' : Lowering}
    (h : Laid bs l l') (h' : Laid cs l' l'') (e : l'.draft.registry = l.draft.registry)
    (others : ∀ b ∈ bs, ∀ c ∈ cs, b.owner.assignment ≠ c.owner.assignment) :
    Laid (bs ++ cs) l l'' where
  scope := h'.scope.trans h.scope
  types := by rw [h'.types, h.types, List.flatMap_append, List.append_assoc]
  references := by rw [h'.references, h.references, List.flatMap_append, List.append_assoc]
  problems := by
    have same : ∀ f a, l'.draft.problemAbout f a = l.draft.problemAbout f a :=
      fun f a => Draft.problemAbout_of_registry e f a
    rw [h'.problems, h.problems, List.flatMap_append, List.append_assoc]
    simp only [same]
  typed b hb t ht := by
    rcases List.mem_append.1 hb with hb | hb
    · rw [h'.untyped _ fun c hc hbc => absurd hbc.symm (others b hb c hc), h.typed b hb t ht]
    · rw [h'.typed b hb t ht, h.untyped _ fun c hc hbc => absurd hbc (others c hc b hb)]
  untyped a ha := by
    rw [h'.untyped a fun b hb => ha b (List.mem_append_right _ hb),
      h.untyped a fun b hb => ha b (List.mem_append_left _ hb)]

/-- Laying out blocks adds their nodes to the number of nodes. -/
lemma Laid.size {bs : List LaidBlock} {l l' : Lowering} (h : Laid bs l l') :
    l'.size = l.size + (bs.flatMap (·.block.nodes)).length := by
  have e := congrArg List.length h.types
  simpa [Lowering.size] using e

/-- Definitions are lowered one by one. -/
lemma laid_foldl (xs : List OwnedDefinition) (l : Lowering) (r : l.draft.DefinitionsRegistered)
    (owned : ∀ x ∈ xs, l.draft.owner? x.1 = some x.2) (nodup : (xs.map Prod.fst).Nodup) :
    let l' := xs.foldl (fun l x => l.lowerDefinition ⟨x.2.1, x.1⟩ x.2.2) l
    Draft.Continues l.draft l'.draft ∧
      ∀ ι, l'.strings.Agrees ι → Laid (layout ι xs l.size) l l' := by
  induction xs generalizing l with
  | nil => exact ⟨.refl _, fun _ _ => .refl l⟩
  | cons x xs ih =>
    obtain ⟨a, m, x⟩ := x
    simp only [List.map_cons, List.nodup_cons] at nodup
    obtain ⟨c, first⟩ := laid_lowerDefinition r (owned _ (List.mem_cons_self ..))
    have r' := r.of_registry c.registry c.strings
    have owned' : ∀ y ∈ xs,
        (l.lowerDefinition ⟨m, a⟩ x).draft.owner? y.1 = some y.2 := by
      intro y hy
      rw [Draft.owner?_of_registry c.registry]
      exact owned y (List.mem_cons_of_mem _ hy)
    obtain ⟨c', rest⟩ := ih _ r' owned' nodup.2
    refine ⟨c.trans c', fun ι hι => ?_⟩
    have head := first ι (hι.of_extends c'.strings)
    have tail := rest ι hι
    rw [head.size] at tail
    -- No later block belongs to the same assignment, so what is laid first stays.
    refine (head.trans (by simpa [layout, Block.length] using tail) c.registry ?_ :)
    intro b hb b' hb' same
    have ha : b.owner.assignment = a := by
      obtain rfl := List.mem_singleton.1 hb
      rfl
    have ha' : b'.owner.assignment ∈ xs.map Prod.fst := by
      rw [← map_owner_layout ι xs]
      exact List.mem_map_of_mem hb'
    exact nodup.1 (ha ▸ same ▸ ha')

/-- Lowering lays the blocks of the definitions that have not been left out one behind the other. -/
theorem laid_lowerAll {d : Draft} (r : d.DefinitionsRegistered) :
    d.Continues (lowerAll d).draft ∧ ∀ ι, (lowerAll d).strings.Agrees ι →
      Laid (layout ι d.included d.mib.types.size) ⟨d, []⟩ (lowerAll d) :=
  laid_foldl d.included ⟨d, []⟩ r
    (fun _ hx => Draft.mem_definitions.1 (List.mem_filter.1 hx).1) d.nodup_included

end Lowering

end MibCorpus
