import MibCorpus.Proofs.Arenas
import MibCorpus.Proofs.EmbeddedLowering
import MibCorpus.Proofs.SyntaxNodes
import MibCorpus.Proofs.Transcript

/-!
# Blocks render their SYNTAX

The block that a SYNTAX is lowered to renders it in every model that has the nodes of the block, and
the model at the end of a run has the nodes of all blocks: typing binds references, settles states
and touches nothing else.
-/

namespace MibCorpus

/-! ## Nodes of a block -/

namespace Block

variable {b : Block} {k : Nat} {t : TypeId} {n : TypeNode}

/-- The nodes stand one behind the other from position `k` on. -/
def StandsAt (b : Block) (k : Nat) : Prop :=
  ∀ (j : Nat) (n : TypeNode), b.nodes[j]? = some n → n.id = ⟨k + j⟩

/-- A block whose cores hang together from `k` on stands at `k`. -/
lemma standsAt_of_hangs {ι : String → StrId} {o : TypeOwner} {ts : List TypeId}
    (h : Hangs ι o k ts b.cores b.references) : b.StandsAt k := by
  intro j n hn
  refine (h.place j n.core ?_).1
  rw [Block.cores, List.getElem?_map, hn, Option.map_some]

/-- The nodes of a block that stands at `k` have the indices from `k` to its end. -/
lemma StandsAt.le (h : b.StandsAt k) (hn : n ∈ b.nodes) :
    k ≤ n.id.index ∧ n.id.index < k + b.length := by
  obtain ⟨j, hj⟩ := List.mem_iff_getElem?.1 hn
  obtain ⟨lt, -⟩ := List.getElem?_eq_some_iff.1 hj
  rw [h j n hj]
  exact ⟨Nat.le_add_right _ _, Nat.add_lt_add_left lt _⟩

/-- The place behind a block is none of its nodes. -/
lemma StandsAt.id_ne_end (h : b.StandsAt k) (hn : n ∈ b.nodes) : n.id ≠ ⟨k + b.length⟩ := by
  intro e
  have lt := (h.le hn).2
  rw [e] at lt
  exact Nat.lt_irrefl _ lt

/-- Changing a node leaves the others as they are. -/
lemma StandsAt.mem_modify_iff (h : b.StandsAt k) (le : k ≤ t.index) {f : TypeNode → TypeNode} :
    n ∈ (b.modify k t f).nodes ↔ ∃ m ∈ b.nodes, n = if m.id = t then f m else m := by
  have here : ∀ (j : Nat) (m : TypeNode), b.nodes[j]? = some m →
      (if t.index - k = j then f m else m) = if m.id = t then f m else m := by
    intro j m hm
    obtain ⟨i⟩ := t
    refine if_congr ?_ rfl rfl
    rw [h j m hm, Ident.mk.injEq]
    simp only at le ⊢
    omega
  simp only [modify, List.mem_iff_getElem?, List.getElem?_modify]
  constructor
  · rintro ⟨j, hj⟩
    obtain ⟨m, hm, rfl⟩ := Option.map_eq_some_iff.1 hj
    exact ⟨m, ⟨j, hm⟩, here j m hm⟩
  · rintro ⟨m, ⟨j, hm⟩, rfl⟩
    refine ⟨j, ?_⟩
    rw [hm, ← here j m hm]
    rfl

end Block

/-- The node has no name, and if it has a constraint then that is what the check leaves of one of
`cs`. -/
structure TypeNode.IsPlain (cs : List WrittenConstraint) (n : TypeNode) : Prop where
  name : n.name = none
  constraint : ∀ kept, n.constraint = some kept → ∃ c ∈ cs, c.kept? = some kept

/-- A plain node stays plain when more constraints are allowed. -/
lemma TypeNode.IsPlain.mono {cs cs' : List WrittenConstraint} {n : TypeNode} (h : n.IsPlain cs)
    (sub : cs ⊆ cs') : n.IsPlain cs' where
  name := h.name
  constraint kept e := by
    obtain ⟨c, hc, e⟩ := h.constraint kept e
    exact ⟨c, sub hc, e⟩

section

variable (ι : String → StrId) (owner : String) (o : TypeOwner)

/-- The block of a syntax laid out from `k` on stands at `k`. -/
lemma standsAt_syntaxBlock (s : TypeSyntax) (k : Nat) :
    (syntaxBlock ι owner o s k).2.StandsAt k :=
  Block.standsAt_of_hangs (hangs_syntaxBlock ι owner o s k)

/-- The topmost node of a SYNTAX has the constraint that the check leaves of the last one. -/
lemma exists_top_syntaxBlock (s : TypeSyntax) (k : Nat) :
    ∃ n ∈ (syntaxBlock ι owner o s k).2.nodes, n.id = (syntaxBlock ι owner o s k).1 ∧
      n.constraint = s.kept? := by
  cases s with
  | constrained base c =>
    obtain ⟨n, hn, id, -⟩ := exists_top_syntaxBlock base k
    refine ⟨{ n with constraint := Lowering.keptConstraint? owner c }, ?_, id, ?_⟩
    · refine ((standsAt_syntaxBlock ι owner o base k).mem_modify_iff ?_).2 ⟨n, hn, ?_⟩
      · exact le_syntaxBlock_top ι owner o base k
      · rw [if_pos id]
    · exact c.keptConstraint?_eq owner
  | named | qualified => exact ⟨_, List.mem_singleton_self _, rfl, rfl⟩
  | integer | octetString | objectIdentifier => exact ⟨_, List.mem_singleton_self _, rfl, rfl⟩
  | enumeration | bits =>
    exact ⟨_, List.mem_append_right _ (List.mem_singleton_self _), rfl, rfl⟩
  | sequence | sequenceOf | choice =>
    exact ⟨_, List.mem_append_right _ (List.mem_singleton_self _), rfl, rfl⟩

mutual

/-- The nodes of a SYNTAX are plain. -/
lemma isPlain_of_mem_syntaxBlock : ∀ (s : TypeSyntax) (k : Nat) (n : TypeNode),
    n ∈ (syntaxBlock ι owner o s k).2.nodes → n.IsPlain s.constraints
  | .named _, _, n, hn | .qualified .., _, n, hn | .integer, _, n, hn | .octetString, _, n, hn
  | .objectIdentifier, _, n, hn => by
    obtain rfl := List.mem_singleton.1 hn
    exact ⟨rfl, nofun⟩
  | .enumeration _, _, n, hn | .bits _, _, n, hn => by
    rcases List.mem_append.1 hn with hn | hn <;>
    · obtain rfl := List.mem_singleton.1 hn
      exact ⟨rfl, nofun⟩
  | .constrained base c, k, n, hn => by
    obtain ⟨m, hm, rfl⟩ := ((standsAt_syntaxBlock ι owner o base k).mem_modify_iff
      (le_syntaxBlock_top ι owner o base k)).1 hn
    have plain := isPlain_of_mem_syntaxBlock base k m hm
    split
    · refine ⟨plain.name, fun kept e =>
        ⟨c, List.mem_append_right _ (List.mem_singleton_self _), ?_⟩⟩
      rw [← c.keptConstraint?_eq owner]
      exact e
    · exact plain.mono (List.subset_append_left _ _)
  | .sequence fields, k, n, hn | .choice fields, k, n, hn => by
    rcases List.mem_append.1 hn with hn | hn
    · exact isPlain_of_mem_fieldsBlock fields k n hn
    · obtain rfl := List.mem_singleton.1 hn
      exact ⟨rfl, nofun⟩
  | .sequenceOf element, k, n, hn => by
    rcases List.mem_append.1 hn with hn | hn
    · exact isPlain_of_mem_syntaxBlock element k n hn
    · obtain rfl := List.mem_singleton.1 hn
      exact ⟨rfl, nofun⟩

/-- The nodes of some fields are plain. -/
lemma isPlain_of_mem_fieldsBlock :
    ∀ (fields : List (String × TypeSyntax)) (k : Nat) (n : TypeNode),
    n ∈ (fieldsBlock ι owner o fields k).2.nodes → n.IsPlain (TypeSyntax.fieldConstraints fields)
  | [], _, _, hn => by cases hn
  | (_, body) :: rest, k, n, hn => by
    rcases List.mem_append.1 hn with hn | hn
    · exact (isPlain_of_mem_syntaxBlock body k n hn).mono (List.subset_append_left _ _)
    · exact (isPlain_of_mem_fieldsBlock rest _ n hn).mono (List.subset_append_right _ _)

end

end

/-! ## Rendering -/

/-- A field's name is among the identifiers of its list. -/
lemma Field.mem_identsOf {fields : List Field} {f : Field} (hf : f ∈ fields) :
    f.name.any ∈ Field.identsOf fields :=
  List.mem_flatMap.2 ⟨f, hf, List.mem_cons_self ..⟩

namespace Mib

/-- The identifiers that `ι` gives the strings of a model stand for these strings, and the shapes of
its nodes are written with such. -/
structure Spells (mib : Mib) (ι : String → StrId) : Prop where
  str : ∀ s, (ι s).index < mib.strings.size → mib.str (ι s) = s
  stored : ∀ t s, mib.writtenShape? t = some s → Below mib.size s.idents

/-- The model has node `n`, perhaps with another constraint. -/
def HasShape (mib : Mib) (n : TypeNode) : Prop := mib.writtenShape? n.id = some n.shape

/-- The model has node `n`. -/
def HasNode (mib : Mib) (n : TypeNode) : Prop :=
  mib.HasShape n ∧ mib.constraint? n.id = n.constraint

end Mib

section

variable {mib : Mib} {ι : String → StrId} {o : TypeOwner} {owner : String} {k : Nat}

/-- A reference node renders the name that it is for. -/
lemma Mib.Spells.renders_reference (h : mib.Spells ι) (qualifier : Option String) {name : String}
    {t : TypeId}
    (shape : mib.writtenShape? t = some (.reference (ι name) (qualifier.map ι) none none)) :
    mib.Renders (match qualifier with
      | none => .named name
      | some module => .qualified module name) t := by
  have stored := h.stored _ _ shape
  cases qualifier with
  | none =>
    simp only [TypeShape.idents, Option.map_none, List.cons_append, below_cons] at stored
    have symbol := h.str name stored.1
    have renders := Mib.Renders.named shape
    rwa [symbol] at renders
  | some module =>
    simp only [TypeShape.idents, Option.map_some, List.cons_append, below_cons, below_append,
      below_anyOf] at stored
    have symbol := h.str name stored.1
    have front := h.str module (stored.2.1.1 _ rfl)
    have renders := Mib.Renders.qualified shape
    rwa [symbol, front] at renders

/-- The block of named numbers enumerates them. -/
lemma Mib.Spells.enumerates (h : mib.Spells ι) {base : BuiltinType} {items : List (String × Int)}
    (top : mib.writtenShape? ⟨k + 1⟩ =
      some (.enumeration ⟨k⟩ (items.map fun i => ⟨ι i.1, i.2⟩)))
    (below : mib.HasNode (.added k o.module (.builtin base))) :
    mib.Enumerates base items ⟨k + 1⟩ ⟨k⟩ (items.map fun i => ⟨ι i.1, i.2⟩) where
  shape := top
  labels := by
    have stored := h.stored _ _ top
    simp only [TypeShape.idents, below_cons] at stored
    refine (List.map_map).trans ((List.map_congr_left fun i hi => ?_).trans (List.map_id _))
    have lt : (ι i.1).index < mib.size .strings :=
      stored.2 _ (List.mem_map_of_mem (List.mem_map_of_mem hi))
    exact Prod.ext (h.str _ lt) rfl
  base := below.1
  bare := below.2

mutual

/-- The topmost node of a SYNTAX renders it if the model has the nodes of its block; the constraint
on the topmost does not matter. -/
lemma Mib.Spells.renders_syntaxBlock (h : mib.Spells ι) : ∀ (s : TypeSyntax) (k : Nat),
    (∀ n ∈ (syntaxBlock ι owner o s k).2.nodes, mib.HasShape n) →
    (∀ n ∈ (syntaxBlock ι owner o s k).2.nodes, n.id ≠ (syntaxBlock ι owner o s k).1 →
      mib.HasNode n) →
    mib.Renders s (syntaxBlock ι owner o s k).1
  | .named name, k, shapes, _ =>
    h.renders_reference none (shapes _ (List.mem_singleton_self _))
  | .qualified module name, k, shapes, _ =>
    h.renders_reference (some module) (shapes _ (List.mem_singleton_self _))
  | .integer, k, shapes, _ => .integer (shapes _ (List.mem_singleton_self _))
  | .octetString, k, shapes, _ => .octetString (shapes _ (List.mem_singleton_self _))
  | .objectIdentifier, k, shapes, _ => .objectIdentifier (shapes _ (List.mem_singleton_self _))
  | .enumeration items, k, shapes, nodes => by
    refine .enumeration (h.enumerates (o := o) ?_ ?_)
    · exact shapes _ (List.mem_append_right _ (List.mem_singleton_self _))
    · refine nodes _ (List.mem_append_left _ (List.mem_singleton_self _)) ?_
      simp [TypeNode.added, syntaxBlock]
  | .bits items, k, shapes, nodes => by
    refine .bits (h.enumerates (o := o) ?_ ?_)
    · exact shapes _ (List.mem_append_right _ (List.mem_singleton_self _))
    · refine nodes _ (List.mem_append_left _ (List.mem_singleton_self _)) ?_
      simp [TypeNode.added, syntaxBlock]
  | .constrained base c, k, shapes, nodes => by
    -- The constraint changes the topmost node only, and not its shape.
    have mem := fun n hn => ((standsAt_syntaxBlock ι owner o base k).mem_modify_iff
      (f := fun n => { n with constraint := Lowering.keptConstraint? owner c })
      (le_syntaxBlock_top ι owner o base k)).2 ⟨n, hn, rfl⟩
    refine .constrained c (h.renders_syntaxBlock base k (fun n hn => ?_) fun n hn ne => ?_)
    · have there := shapes _ (mem n hn)
      split at there <;> exact there
    · have there := nodes _ (mem n hn)
      rw [if_neg ne] at there
      exact there ne
  | .sequence fields, k, shapes, nodes => by
    have shape := shapes _ (List.mem_append_right _ (List.mem_singleton_self _))
    refine .sequence shape
      (h.rendersFields_fieldsBlock fields k _ (Nat.le_refl _) ?_ fun n hn => ?_)
    · exact fun f hf => h.stored _ _ shape _ (Field.mem_identsOf hf)
    · have stands := Block.standsAt_of_hangs (hangs_fieldsBlock ι owner o fields k)
      exact nodes n (List.mem_append_left _ hn) (stands.id_ne_end hn)
  | .sequenceOf element, k, shapes, nodes => by
    have all : ∀ n ∈ (syntaxBlock ι owner o element k).2.nodes, mib.HasNode n := fun n hn =>
      nodes n (List.mem_append_left _ hn) ((standsAt_syntaxBlock ι owner o element k).id_ne_end hn)
    obtain ⟨n, hn, id, constraint⟩ := exists_top_syntaxBlock ι owner o element k
    refine .sequenceOf (shapes _ (List.mem_append_right _ (List.mem_singleton_self _))) ?_ ?_ ?_
    · have top := syntaxBlock_top ι owner o element k
      exact Nat.lt_of_succ_le (Nat.le_of_eq top)
    · exact h.renders_syntaxBlock element k (fun n hn => (all n hn).1) fun n hn _ => all n hn
    · rw [← id, (all n hn).2, constraint]
  | .choice alternatives, k, shapes, nodes => by
    have shape := shapes _ (List.mem_append_right _ (List.mem_singleton_self _))
    refine .choice shape
      (h.rendersFields_fieldsBlock alternatives k _ (Nat.le_refl _) ?_ fun n hn => ?_)
    · exact fun f hf => h.stored _ _ shape _ (Field.mem_identsOf hf)
    · have stands := Block.standsAt_of_hangs (hangs_fieldsBlock ι owner o alternatives k)
      exact nodes n (List.mem_append_left _ hn) (stands.id_ne_end hn)

/-- The fields of a node render those of a SYNTAX if the model has the nodes of their block. -/
lemma Mib.Spells.rendersFields_fieldsBlock (h : mib.Spells ι) :
    ∀ (fields : List (String × TypeSyntax)) (k top : Nat),
    k + (fieldsBlock ι owner o fields k).2.length ≤ top →
    (∀ f ∈ (fieldsBlock ι owner o fields k).1, f.name.index < mib.strings.size) →
    (∀ n ∈ (fieldsBlock ι owner o fields k).2.nodes, mib.HasNode n) →
    mib.RendersFields fields (fieldsBlock ι owner o fields k).1 ⟨top⟩
  | [], _, _, _, _, _ => .nil
  | (label, body) :: rest, k, top, le, labels, nodes => by
    have head : ∀ n ∈ (syntaxBlock ι owner o body k).2.nodes, mib.HasNode n :=
      fun n hn => nodes n (List.mem_append_left _ hn)
    have tail : ∀ n ∈ (fieldsBlock ι owner o rest
        (k + (syntaxBlock ι owner o body k).2.length)).2.nodes, mib.HasNode n :=
      fun n hn => nodes n (List.mem_append_right _ hn)
    have length : k + (syntaxBlock ι owner o body k).2.length + (fieldsBlock ι owner o rest
        (k + (syntaxBlock ι owner o body k).2.length)).2.length ≤ top := by
      simpa [fieldsBlock, Nat.add_assoc] using le
    have name := h.str label (labels _ (List.mem_cons_self ..))
    obtain ⟨n, hn, id, constraint⟩ := exists_top_syntaxBlock ι owner o body k
    have below := h.rendersFields_fieldsBlock rest _ top length
      (fun f hf => labels f (List.mem_cons_of_mem _ hf)) tail
    have cons : mib.RendersFields ((mib.str (ι label), body) :: rest)
        (fieldsBlock ι owner o ((label, body) :: rest) k).1 ⟨top⟩ := by
      refine .cons (f := ⟨ι label, (syntaxBlock ι owner o body k).1⟩) ?_ ?_ ?_ below
      · have last := syntaxBlock_top ι owner o body k
        have lt : (syntaxBlock ι owner o body k).1.index < top := by omega
        exact lt
      · exact h.renders_syntaxBlock body k (fun n hn => (head n hn).1) fun n hn _ => head n hn
      · rw [← id, (head n hn).2, constraint]
    rwa [name] at cons

end

end

/-! ## Definitions -/

/-- Node `t` is a textual convention around node `u`. -/
structure Mib.HasConvention (mib : Mib) (hint? : Option String) (status : Status) (t u : TypeId) :
    Prop where
  wrapper : ∃ hint, mib.writtenShape? t = some (.textualConvention u hint status) ∧
    hint.map mib.str = hint?
  bare : mib.constraint? t = none
  below : u.index < t.index

/-- Type `t` of a definition is the node `u` where its SYNTAX starts, or a textual convention around
it if the definition is one. -/
def Definition.Wraps (x : Definition) (mib : Mib) (t u : TypeId) : Prop :=
  match x.clauses with
  | .textualConvention _ hint? status => mib.HasConvention hint? status t u
  | _ => t = u

section

variable {mib : Mib} {ι : String → StrId} {o : TypeOwner} {k : Nat}

/-- A name does not change how a node is written. -/
lemma Mib.hasNode_ite {n : TypeNode} {p : Prop} [Decidable p] {name : Option StrId}
    (h : mib.HasNode (if p then { n with name } else n)) : mib.HasNode n := by
  split at h <;> exact h

/-- A SYNTAX is rendered with its constraint if the model has all nodes of its block. -/
lemma Mib.Spells.shows_syntaxBlock (h : mib.Spells ι) {owner : String} {s : TypeSyntax}
    (nodes : ∀ n ∈ (syntaxBlock ι owner o s k).2.nodes, mib.HasNode n) :
    mib.Shows s (syntaxBlock ι owner o s k).1 := by
  obtain ⟨n, hn, id, constraint⟩ := exists_top_syntaxBlock ι owner o s k
  refine ⟨h.renders_syntaxBlock s k (fun n hn => (nodes n hn).1) fun n hn _ => nodes n hn, ?_⟩
  rw [← id, (nodes n hn).2, constraint]

/-- The SYNTAX of a definition is rendered, below a textual convention if the definition is one. -/
lemma Mib.Spells.exists_shows_definitionBlock (h : mib.Spells ι) {x : Definition} {s : TypeSyntax}
    (hx : x.body? = some s) (nodes : ∀ n ∈ (definitionBlock ι o x k).2.nodes, mib.HasNode n) :
    ∃ t u, (definitionBlock ι o x k).1 = some t ∧ x.Wraps mib t u ∧ mib.Shows s u := by
  obtain ⟨name, clauses, span⟩ := x
  cases clauses with
  | type body hint? status =>
    obtain rfl : body = s := Option.some.inj hx
    refine ⟨_, _, rfl, rfl, h.shows_syntaxBlock fun n hn => ?_⟩
    refine Mib.hasNode_ite (nodes _ (Block.StandsAt.mem_modify_iff ?_ ?_ |>.2 ⟨n, hn, rfl⟩))
    · exact standsAt_syntaxBlock ι name o body k
    · exact le_syntaxBlock_top ι name o body k
  | textualConvention body hint? status =>
    obtain rfl : body = s := Option.some.inj hx
    have stands := standsAt_syntaxBlock ι name o body k
    have hangs := (hangs_syntaxBlock ι name o body k).cap_node
      (s := .textualConvention _ (hint?.map ι) status) rfl rfl
    have all := fun n hn => Mib.hasNode_ite (nodes _
      (((Block.standsAt_of_hangs hangs).mem_modify_iff (Nat.le_add_right _ _)).2 ⟨n, hn, rfl⟩))
    obtain ⟨shape, bare⟩ := all _ (List.mem_append_right _ (List.mem_singleton_self _))
    refine ⟨_, (syntaxBlock ι name o body k).1, rfl, ⟨⟨_, shape, ?_⟩, bare, ?_⟩, ?_⟩
    · cases hint? with
      | none => rfl
      | some hint =>
        have stored : Below mib.size (_ :: Ident.anyOf (some (ι hint))) := h.stored _ _ shape
        exact congrArg some (h.str hint (below_anyOf.1 (below_cons.1 stored).2 _ rfl))
    · have top := syntaxBlock_top ι name o body k
      exact Nat.lt_of_succ_le (Nat.le_of_eq top)
    · exact h.shows_syntaxBlock fun n hn => all n (List.mem_append_left _ hn)
  | objectType body access status oid =>
    obtain rfl : body = s := Option.some.inj hx
    exact ⟨_, _, rfl, rfl, h.shows_syntaxBlock nodes⟩
  | value | objectIdentity | moduleIdentity | notification => cases hx

/-- The constraints in the SYNTAX of a definition. -/
def Definition.constraints (x : Definition) : List WrittenConstraint :=
  (x.body?.map (·.constraints)).getD []

/-- The nodes of a definition are plain, but for the name of the topmost node of a type. -/
lemma exists_isPlain_of_mem_definitionBlock {x : Definition} {n : TypeNode}
    (hn : n ∈ (definitionBlock ι o x k).2.nodes) :
    ∃ m : TypeNode, m.IsPlain x.constraints ∧ m.id = n.id ∧ n = { m with
      name := if (definitionBlock ι o x k).1 = some n.id ∧ x.kind.isType = true
        then some (ι x.name) else none } := by
  obtain ⟨name, clauses, span⟩ := x
  cases clauses with
  | type body hint? status =>
    obtain ⟨m, hm, rfl⟩ := (Block.StandsAt.mem_modify_iff (standsAt_syntaxBlock ι name o body k)
      (le_syntaxBlock_top ι name o body k)).1 hn
    have plain := isPlain_of_mem_syntaxBlock ι name o body k m hm
    refine ⟨m, plain, ?_⟩
    by_cases top : m.id = (syntaxBlock ι name o body k).1
    · simp [definitionBlock, Definition.kind, AssignmentKind.isType, top]
    · simp [definitionBlock, top, Ne.symm top, ← plain.name]
  | textualConvention body hint? status =>
    have hangs := (hangs_syntaxBlock ι name o body k).cap_node
      (s := .textualConvention _ (hint?.map ι) status) rfl rfl
    obtain ⟨m, hm, rfl⟩ := ((Block.standsAt_of_hangs hangs).mem_modify_iff
      (Nat.le_add_right _ _)).1 hn
    have plain : m.IsPlain body.constraints := by
      rcases List.mem_append.1 hm with hm | hm
      · exact isPlain_of_mem_syntaxBlock ι name o body k m hm
      · obtain rfl := List.mem_singleton.1 hm
        refine ⟨rfl, fun c bare => ?_⟩
        cases bare
    refine ⟨m, plain, ?_⟩
    by_cases top : m.id = ⟨k + (syntaxBlock ι name o body k).2.length⟩
    · simp [definitionBlock, Definition.kind, AssignmentKind.isType, top]
    · simp [definitionBlock, top, Ne.symm top, ← plain.name]
  | objectType body access status oid =>
    have plain := isPlain_of_mem_syntaxBlock ι name o body k n hn
    refine ⟨n, plain, rfl, ?_⟩
    simp [Definition.kind, AssignmentKind.isType, ← plain.name]
  | value | objectIdentity | moduleIdentity | notification => cases hn

end

/-! ## Runs -/

/-- The identifier of a string, or the one that it would get. -/
def Strings.nextId (t : Strings) (s : String) : StrId := (t.find? s).getD ⟨t.size⟩

/-- A table agrees with its own numbering of the strings to come. -/
lemma Strings.agrees_nextId (t : Strings) : t.Agrees t.nextId := by
  intro s i h
  rw [nextId, h, Option.getD_some]

/-- The table returns each string it has numbered. -/
lemma Strings.get_nextId {t : Strings} {s : String} (lt : (t.nextId s).index < t.size) :
    t.get (t.nextId s) = s := by
  unfold nextId at lt ⊢
  cases h : t.find? s with
  | some i => exact get_of_find? h
  | none =>
    rw [h] at lt
    exact absurd lt (Nat.lt_irrefl _)

/-- Binding a reference keeps what a node's shape says as written. -/
@[simp]
lemma TypeNode.asWritten_bindTo (n : TypeNode) (p : PendingReference) (target : Draft.TypeTarget) :
    (n.bindTo p target).shape.asWritten = n.shape.asWritten := by
  unfold bindTo
  cases h : n.shape <;> simp [h, TypeShape.asWritten]

/-- Binding a reference keeps a node's constraint. -/
@[simp]
lemma TypeNode.constraint_bindTo (n : TypeNode) (p : PendingReference)
    (target : Draft.TypeTarget) : (n.bindTo p target).constraint = n.constraint := by
  unfold bindTo
  cases n.shape <;> simp

/-- Binding a reference keeps a node's name. -/
@[simp]
lemma TypeNode.name_bindTo (n : TypeNode) (p : PendingReference) (target : Draft.TypeTarget) :
    (n.bindTo p target).name = n.name := by
  unfold bindTo
  cases n.shape <;> simp

/-- What a shape is written with are identifiers of the shape. -/
lemma TypeShape.idents_asWritten_subset (s : TypeShape) : s.asWritten.idents ⊆ s.idents := by
  cases s with
  | reference symbol qualifier target importedFrom =>
    simp [asWritten, idents, Ident.anyOf]
  | _ => exact List.Subset.refl _

/-- A node of a block is as written. -/
lemma Hangs.asWritten {ι : String → StrId} {o : TypeOwner} {k : Nat} {ts : List TypeId}
    {cs : List NodeCore} {rs : List PendingReference} (h : Hangs ι o k ts cs rs) {c : NodeCore}
    (hc : c ∈ cs) : c.shape.asWritten = c.shape := by
  cases hr : c.shape.isReference with
  | true =>
    have mem : c ∈ cs.filter (·.shape.isReference) := List.mem_filter.2 ⟨hc, hr⟩
    obtain ⟨i, hi, e⟩ := List.getElem_of_mem mem
    have notes := (List.forall₂_iff_get.1 h.noted).2 i
      ((List.forall₂_iff_get.1 h.noted).1.symm ▸ hi) hi
    have shape := notes.shape
    rw [List.get_eq_getElem, e] at shape
    rw [shape]
    rfl
  | false =>
    cases hs : c.shape with
    | reference => simp [hs, TypeShape.isReference] at hr
    | _ => rfl

namespace Draft

section Typed

variable {d : Draft} {r : Recorder}

/-- After lowering the nodes of a block stand at their identifiers. -/
lemma type?_of_mem_layout (h : d.DefinitionsRegistered) (bare : d.mib.types = #[])
    {ι : String → StrId} (agrees : d.lowered.mib.strings.Agrees ι) {b : LaidBlock}
    (hb : b ∈ layout ι d.included 0) {n : TypeNode} (hn : n ∈ b.block.nodes) :
    d.lowered.mib.type? n.id = some n := by
  have types := ((Lowering.laid_lowerAll h).2 ι agrees).types
  rw [bare] at types
  have mem : n ∈ d.lowered.mib.types.toList := by
    rw [lowered, types]
    exact List.mem_append_right _ (List.mem_flatMap.2 ⟨b, hb, hn⟩)
  obtain ⟨i, hi⟩ := List.mem_iff_getElem?.1 mem
  rw [Array.getElem?_toList] at hi
  have there : d.lowered.mib.type? ⟨i⟩ = some n := hi
  rw [(core_of_type?_lowered h bare there).1, there]

/-- After lowering every node is in a block. -/
lemma exists_block_of_type?_lowered (h : d.DefinitionsRegistered) (bare : d.mib.types = #[])
    {t : TypeId} {n : TypeNode} (hn : d.lowered.mib.type? t = some n) :
    ∃ b ∈ d.blocks, n ∈ b.block.nodes := by
  have types := (laid_blocks h bare).types
  rw [bare, List.nil_append] at types
  have mem : n ∈ (Lowering.lowerAll d).draft.mib.types.toList :=
    Array.mem_toList_iff.2 (Array.mem_of_getElem? hn)
  rw [types] at mem
  exact List.mem_flatMap.1 mem

/-- Typing keeps nodes as they are written. -/
lemma exists_type?_resolveTypes (h : d.DefinitionsRegistered) (bare : d.mib.types = #[])
    {t : TypeId} {n : TypeNode} (hn : d.lowered.mib.type? t = some n) :
    ∃ n', (d.resolveTypes r).1.mib.type? t = some n' ∧
      n'.shape.asWritten = n.shape.asWritten ∧ n'.constraint = n.constraint ∧ n'.name = n.name := by
  have parts := parts_resolveTypes (r := r) h bare t
  rw [hn, Option.map_some] at parts
  obtain ⟨n', hn', -⟩ := Option.map_eq_some_iff.1 parts
  refine ⟨n', hn', ?_⟩
  cases nodeTyped h bare hn' with
  | laid m hm e waits =>
    obtain rfl : m = n := Option.some.inj (hm.symm.trans hn)
    rw [e]
    exact ⟨rfl, rfl, rfl⟩
  | bound m hm p hp node target ht e =>
    obtain rfl : m = n := Option.some.inj (hm.symm.trans hn)
    rw [e]
    simp

end Typed

section Stages

variable {linked final : Draft} {types oids : Recorder} {i : AssignmentId} {m : ModuleId}
  {x : Definition}

/-- A closed model spells what it is written with. -/
lemma spells_nextId {mib : Mib} (closed : mib.Closed) : mib.Spells mib.strings.nextId where
  str _ lt := Strings.get_nextId lt
  stored t s hs := by
    obtain ⟨n, hn, rfl⟩ := Option.map_eq_some_iff.1 hs
    have held := closed.types n (Array.mem_of_getElem? hn)
    simp only [TypeNode.idents, below_cons, List.cons_append, below_append] at held
    exact held.2.2.2.subset n.shape.idents_asWritten_subset

/-- At the end of a run the nodes of a block are as they were laid. -/
lemma Stages.exists_type? (s : Stages linked types oids final) {ι : String → StrId}
    (agrees : linked.lowered.mib.strings.Agrees ι) {b : LaidBlock}
    (hb : b ∈ layout ι linked.included 0) {n : TypeNode} (hn : n ∈ b.block.nodes) :
    ∃ n', final.mib.type? n.id = some n' ∧ n'.shape.asWritten = n.shape ∧
      n'.constraint = n.constraint ∧ n'.name = n.name := by
  have there := type?_of_mem_layout s.untyped.definitions s.untyped.bare agrees hb hn
  obtain ⟨n', hn', shape, rest⟩ :=
    exists_type?_resolveTypes (r := types) s.untyped.definitions s.untyped.bare there
  refine ⟨n', ?_, ?_, rest⟩
  · rw [Mib.type?, s.types_eq]
    exact hn'
  · have written := (hangs_of_mem_layout hb).asWritten (List.mem_map_of_mem (f := TypeNode.core) hn)
    exact shape.trans written

/-- Numberings that agree with the final strings agree with those after lowering. -/
lemma Stages.agrees_lowered (s : Stages linked types oids final) {ι : String → StrId}
    (agrees : final.mib.strings.Agrees ι) : linked.lowered.mib.strings.Agrees ι := by
  have typed := strings_resolveTypes (r := types) s.untyped.definitions s.untyped.bare
  rw [← typed]
  refine agrees.of_extends ?_
  exact ((s.untyped.oidsPending types).continues.trans s.finalizes.continues).strings

/-- What a node is written with is decided by lowering. -/
lemma Stages.writtenShape?_eq (s : Stages linked types oids final) (t : TypeId) :
    final.mib.writtenShape? t = linked.lowered.mib.writtenShape? t := by
  have same : final.mib.type? t = (linked.resolveTypes types).1.mib.type? t := by
    rw [Mib.type?, s.types_eq]
    rfl
  rw [Mib.writtenShape?, Mib.writtenShape?, same]
  cases hn : linked.lowered.mib.type? t with
  | some n =>
    obtain ⟨n', hn', shape, -⟩ :=
      exists_type?_resolveTypes (r := types) s.untyped.definitions s.untyped.bare hn
    rw [hn', Option.map_some, Option.map_some, shape]
  | none =>
    have parts := parts_resolveTypes (r := types) s.untyped.definitions s.untyped.bare t
    rw [hn, Option.map_none, Option.map_eq_none_iff] at parts
    rw [parts]

/-- At the end of a run every node is as it was laid in a block. -/
lemma Stages.exists_laid (s : Stages linked types oids final) {t : TypeId} {n : TypeNode}
    (hn : final.mib.type? t = some n) : ∃ b ∈ linked.blocks, ∃ m ∈ b.block.nodes, m.id = t ∧
      n.constraint = m.constraint ∧ n.name = m.name := by
  rw [Mib.type?, s.types_eq] at hn
  have there : (linked.resolveTypes types).1.mib.type? t = some n := hn
  have parts := parts_resolveTypes (r := types) s.untyped.definitions s.untyped.bare t
  rw [there, Option.map_some] at parts
  obtain ⟨m, hm, -⟩ := Option.map_eq_some_iff.1 parts.symm
  obtain ⟨n', hn', -, constraint, name⟩ :=
    exists_type?_resolveTypes (r := types) s.untyped.definitions s.untyped.bare hm
  obtain rfl : n = n' := Option.some.inj (there.symm.trans hn')
  obtain ⟨b, hb, mem⟩ := exists_block_of_type?_lowered s.untyped.definitions s.untyped.bare hm
  refine ⟨b, hb, m, mem, ?_, constraint, name⟩
  exact (core_of_type?_lowered s.untyped.definitions s.untyped.bare hm).1

/-- At the end of a run what has been refused has no type. -/
lemma Stages.type_eq_none_of_isRefused (s : Stages linked types oids final)
    (hx : linked.owner? i = some (m, x)) (refused : linked.isRefused i = true) {a : Assignment}
    (ha : final.mib.assignment? i = some a) : a.type = none := by
  have none := isSome_syntaxType? s.untyped.definitions s.untyped.fresh hx
  have type := s.type_eq i
  rw [type_of_assignment?_resolveTypes s.untyped.definitions s.untyped.fresh s.untyped.bare,
    ha] at type
  obtain ⟨-, -, type⟩ := Option.map_eq_some_iff.1 type.symm
  rw [refused, Bool.not_true, Bool.and_false] at none
  exact type.symm.trans (Option.not_isSome_iff_eq_none.1 (by simp [none]))

/-- At the end of a run every definition with a SYNTAX that was not refused has a type, which
renders the SYNTAX. -/
lemma Stages.exists_shows (s : Stages linked types oids final) (closed : final.mib.Closed)
    (kept : linked.Keeps i m x) {body : TypeSyntax} (hx : x.body? = some body) :
    ∃ a t u, final.mib.assignment? i = some a ∧ a.type = some t ∧ x.Wraps final.mib t u ∧
      final.mib.Shows body u := by
  have agrees := s.agrees_lowered final.mib.strings.agrees_nextId
  have laid := (Lowering.laid_lowerAll s.untyped.definitions).2 _ agrees
  rw [s.untyped.bare] at laid
  obtain ⟨b, hb, owner, e⟩ : ∃ b ∈ layout final.mib.strings.nextId linked.included 0,
      b.owner = ⟨m, i⟩ ∧ (b.top?, b.block) =
        definitionBlock final.mib.strings.nextId ⟨m, i⟩ x b.start :=
    exists_mem_layout (s.untyped.mem_included_iff.2 kept)
  obtain ⟨t, u, top, wraps, shows⟩ := (spells_nextId closed).exists_shows_definitionBlock
    (o := ⟨m, i⟩) (k := b.start) hx fun n hn => by
      rw [← show b.block = _ from congrArg Prod.snd e] at hn
      obtain ⟨n', hn', shape, constraint, -⟩ := s.exists_type? agrees hb hn
      refine ⟨?_, ?_⟩
      · rw [Mib.HasShape, Mib.writtenShape?, hn', Option.map_some, shape]
      · rw [Mib.constraint?, hn', Option.bind_some, constraint]
  obtain ⟨a, ha, -, -⟩ := s.untyped.definitions.exists_assignment kept.1
  have typed := laid.typed b hb t ((congrArg Prod.fst e).trans top)
  have lowered := assignment?_lowered s.untyped.definitions s.untyped.fresh s.untyped.bare i
  rw [Draft.lowered, ← show b.owner.assignment = i by rw [owner], typed] at lowered
  rw [owner, ha] at lowered
  have type : linked.syntaxType? i = some t := by
    have e := congrArg Assignment.type (Option.some.inj lowered)
    exact e.symm
  have same := s.type_eq i
  rw [type_of_assignment?_resolveTypes s.untyped.definitions s.untyped.fresh s.untyped.bare, ha,
    Option.map_some, type] at same
  obtain ⟨a', ha', type'⟩ := Option.map_eq_some_iff.1 same
  exact ⟨a', t, u, ha', type', wraps, shows⟩

end Stages

/-- The model at the end of a run is closed. -/
lemma closed_built (policy : Policy) (files : List ParsedFile) :
    (built policy files).mib.Closed := by
  have next : ∀ {d : Draft} (call : PhaseCall), d.Closed → (call.next d).Closed :=
    fun call c => (c.steps_apply call (.new .error)).closed c
  have registered : (registered policy files).Closed := next (.register files) (closed_new policy)
  have linked : (linked policy files).Closed := next .link registered
  have numbered : (numbered policy files).Closed := next .resolveOids (next .resolveTypes linked)
  exact (next .finalize numbered).mib

end Draft

end MibCorpus
