import MibCorpus.Proofs.Registration
import MibCorpus.Proofs.StoredIdents
import MibCorpus.Proofs.TreeGrowth
import Mathlib.Logic.Relation

/-!
# Elementary changes

Whatever a phase does to a draft, it does by a few elementary changes: most of them are edits of the
model by one of its own operations, and the others belong to registration and linking. What every
elementary change keeps, every phase keeps, in whatever order the phases are called. A change only
ever stores identifiers that have entries, which is why a closed draft stays closed.
-/

namespace MibCorpus

/-- The part of a node of the tree that is fixed when it is added. -/
def OidNode.heading (n : OidNode) : OidNode :=
  { n with children := [], definition := none, shadowed := [] }

/-- The OID of a node of the tree, read off the nodes above it. -/
inductive Mib.Path (mib : Mib) : Option NodeId → Oid → Prop
  | root : mib.Path none .root
  | child {i : NodeId} {n : OidNode} {path : Oid} (node : mib.node? i = some n)
      (above : mib.Path n.parent path) : mib.Path (some i) (path.child n.arc)

/-- One change of a model that keeps its modules and assignments registered as they are. -/
inductive Mib.Edit (mib : Mib) : Mib → Prop
  | intern (s : String) : mib.Edit (mib.intern s).2
  | addFile (path : String) : mib.Edit (mib.addFile path).2
  | addImport (m : ModuleId) (e : ImportEntry) (held : Below mib.size e.idents) :
      mib.Edit (mib.addImport m e)
  | addType (m : ModuleId) (shape : TypeShape) (owned : m.index < mib.modules.size)
      (held : Below mib.size shape.idents) : mib.Edit (mib.addType m shape).2
  /-- The nodes of the OID tree grow at a path that is there. -/
  | addNode (arc : Arc) {parent : Option NodeId} {path : Oid} (above : mib.Path parent path) :
      mib.Edit (mib.addNode (path.child arc) arc parent).2
  /-- A node of the OID tree gets its claimants. -/
  | claim (n : NodeId) (definition : Option AssignmentId) (shadowed : List AssignmentId)
      (held : Below mib.size (Ident.anyOf definition ++ shadowed.map (·.any))) :
      mib.Edit (mib.modifyNode n fun node => { node with definition, shadowed })
  /-- The assignments get other types, OIDs and states. -/
  | reassign (as : Array Assignment)
      (kept : as.map Assignment.heading = mib.assignments.map Assignment.heading)
      (held : ∀ a ∈ as, Below mib.size a.idents) : mib.Edit { mib with assignments := as }
  /-- The type nodes get other names, shapes, constraints and states. -/
  | retype (ts : Array TypeNode)
      (kept : ts.map (fun t => (t.id, t.module)) = mib.types.map fun t => (t.id, t.module))
      (held : ∀ t ∈ ts, Below mib.size t.idents) : mib.Edit { mib with types := ts }
  | record (p : Problem) (held : Below mib.size p.idents) : mib.Edit (mib.record p)

namespace Draft

/-- One change of a draft. -/
inductive Step (d : Draft) : Draft → Prop
  | edit {mib : Mib} (e : d.mib.Edit mib) : d.Step { d with mib }
  | bindImport (m : ModuleId) (name : String) (source : Option ModuleId) :
      d.Step { d with scope := d.scope.bindImport m name source }
  /-- A module whose name is free becomes the last one, without definitions. -/
  | announce (name : StrId) (file : Option FileId) (source : Module)
      (free : d.scope.module? source.name = none)
      (named : d.mib.findStr? source.name = some name)
      (held : Below d.mib.size (Ident.anyOf file)) : d.Step (d.announced name file source)
  /-- A definition is registered in the last module. -/
  | define (m : RegisteredModule) (o : Origin) (x : Definition)
      (last : m.id.index + 1 = d.mib.modules.size) (held : Below d.mib.size m.idents) :
      d.Step (d.registerDefinition m o x)
  /-- A module is listed as it was written. -/
  | list (m : RegisteredModule) (held : Below d.mib.size m.idents) :
      d.Step (d.list m)

/-- Draft `d` becomes another by elementary changes. -/
def Steps : Draft → Draft → Prop := Relation.ReflTransGen Step

end Draft

/-! ## Arrays -/

section Arrays

variable {α : Type} {P : α → Prop} {as : Array α}

/-- What holds of all members of an array and of a new one holds of all after the new one is
added. -/
lemma forall_mem_push {a : α} (h : ∀ x ∈ as, P x) (ha : P a) : ∀ x ∈ as.push a, P x := by
  intro x hx
  cases Array.mem_push.1 hx with
  | inl hx => exact h x hx
  | inr hx => exact hx ▸ ha

/-- What holds of all members of an array still does if the changed one has it. -/
lemma forall_mem_modify {i : Nat} {f : α → α} (h : ∀ x ∈ as, P x)
    (hf : ∀ x, as[i]? = some x → P x → P (f x)) : ∀ x ∈ as.modify i f, P x := by
  intro x hx
  obtain ⟨j, hj⟩ := Array.mem_iff_getElem?.1 hx
  rw [Array.getElem?_modify] at hj
  split at hj
  next same =>
    subst same
    obtain ⟨y, hy, rfl⟩ := Option.map_eq_some_iff.1 hj
    exact hf y hy (h y (Array.mem_of_getElem? hy))
  next => exact h x (Array.mem_of_getElem? hj)

variable {β : Type} {f : α → β}

/-- What a change of an entry leaves alone. -/
lemma map_getElem?_modify {g : α → α} (kept : ∀ x, f (g x) = f x) (i j : Nat) :
    ((as.modify i g)[j]?).map f = (as[j]?).map f := by
  rw [← Array.getElem?_map, map_modify_of_keeps as i kept, Array.getElem?_map]

/-- A part of the members that a change of their heading leaves alone is the same in arrays whose
members differ in that heading only. -/
lemma map_getElem?_of_heading {bs : Array α} (heading : α → α) (kept : ∀ x, f (heading x) = f x)
    (same : bs.map heading = as.map heading) (i : Nat) : (bs[i]?).map f = (as[i]?).map f := by
  have e := congrArg (fun cs => (cs[i]?).map f) same
  simpa [Function.comp_def, kept] using e

end Arrays

namespace Table

variable {κ β : Type} [DecidableEq κ] {P : κ × β → Prop} {t : Table κ β} {k : κ} {v : β}

/-- What holds of all entries of a table and of a new one holds of all after the new one is added
behind them. -/
lemma forall_mem_insertNew (h : ∀ e ∈ t.entries, P e) (new : P (k, v)) :
    ∀ e ∈ (t.insertNew k v).entries, P e := by
  unfold insertNew
  split
  next => exact h
  next =>
    rw [List.forall_mem_append]
    exact ⟨h, by simpa using new⟩

/-- What holds of all entries and of a new one holds of all after the new one took its place. -/
lemma forall_mem_putIn {es : List (κ × β)} (h : ∀ e ∈ es, P e) (new : P (k, v)) :
    ∀ e ∈ putIn k v es, P e := by
  induction es with
  | nil => simpa [putIn] using new
  | cons e es ih =>
    obtain ⟨head, tail⟩ := List.forall_mem_cons.1 h
    unfold putIn
    split
    next same => exact List.forall_mem_cons.2 ⟨same ▸ new, tail⟩
    next => exact List.forall_mem_cons.2 ⟨head, ih tail⟩

/-- The same, of the entries of a table. -/
lemma forall_mem_insert (h : ∀ e ∈ t.entries, P e) (new : P (k, v)) :
    ∀ e ∈ (t.insert k v).entries, P e :=
  forall_mem_putIn h new

end Table

/-! ## Edits -/

namespace Mib

variable {mib mib' : Mib}

/-- A path ends at a stored node. -/
lemma Path.lt {p : NodeId} {path : Oid} (h : mib.Path (some p) path) :
    p.index < mib.nodes.size := by
  cases h with
  | child node _ => exact (Array.getElem?_eq_some_iff.1 node).1

/-- The identifier that interning gives is that of a stored string. -/
lemma intern_lt (mib : Mib) (s : String) :
    (mib.intern s).1.index < (mib.intern s).2.strings.size :=
  Strings.lt_of_find? (Strings.find?_intern mib.strings s)

/-- One node is added to those of the model. -/
lemma size_nodes_addNode (mib : Mib) (oid : Oid) (arc : Arc) (parent : Option NodeId) :
    (mib.addNode oid arc parent).2.nodes.size = mib.nodes.size + 1 := by
  cases parent <;> simp [addNode, modifyNode]

/-- No entry is ever taken away. -/
lemma Edit.grows (e : mib.Edit mib') (a : Arena) : mib.size a ≤ mib'.size a := by
  have interned := fun s => (Strings.extends_intern mib.strings s).size_le
  cases e with
  | intern s => cases a <;> simp [size, Mib.intern, interned]
  | addFile path => cases a <;> simp [size, Mib.addFile, Mib.intern, interned]
  | addImport => cases a <;> simp [size, Mib.addImport, modifyModule]
  | addType => cases a <;> simp [size, Mib.addType, modifyModule]
  | @addNode arc parent =>
    cases a with
    | nodes => simp [size, size_nodes_addNode]
    | _ => cases parent <;> exact Nat.le_refl _
  | claim => cases a <;> simp [size, modifyNode]
  | reassign as kept =>
    have sizes := congrArg Array.size kept
    simp only [Array.size_map] at sizes
    cases a <;> simp [size, sizes]
  | retype ts kept =>
    have sizes := congrArg Array.size kept
    simp only [Array.size_map] at sizes
    cases a <;> simp [size, sizes]
  | record => cases a <;> exact Nat.le_refl _

/-- What is registered stays, with the indices by name, and at most one string is interned. -/
structure Keeps (mib mib' : Mib) : Prop where
  modules : mib'.modules.map ModuleEntry.heading = mib.modules.map ModuleEntry.heading
  assignments : mib'.assignments.map Assignment.heading = mib.assignments.map Assignment.heading
  moduleIndex : mib'.moduleIndex = mib.moduleIndex
  symbolIndex : mib'.symbolIndex = mib.symbolIndex
  strings : mib'.strings = mib.strings ∨ ∃ s, mib'.strings = (mib.strings.intern s).2

/-- A model that is kept keeps its strings, with others behind them. -/
lemma Keeps.extends (k : mib.Keeps mib') : mib.strings.Extends mib'.strings := by
  rcases k.strings with same | ⟨s, new⟩
  · exact same ▸ .refl _
  · exact new ▸ Strings.extends_intern _ s

/-- A change of single entries keeps all there is of the model. -/
lemma Edit.keeps (e : mib.Edit mib') : mib.Keeps mib' := by
  cases e with
  | intern s => exact ⟨rfl, rfl, rfl, rfl, .inr ⟨_, rfl⟩⟩
  | addFile path => exact ⟨rfl, rfl, rfl, rfl, .inr ⟨_, rfl⟩⟩
  | addImport m e =>
    exact ⟨Draft.heading_modifyModule mib m _ fun _ => rfl, rfl, rfl, rfl, .inl rfl⟩
  | addType m shape =>
    exact ⟨Draft.heading_modifyModule mib m _ fun _ => rfl, rfl, rfl, rfl, .inl rfl⟩
  | @addNode arc parent => cases parent <;> exact ⟨rfl, rfl, rfl, rfl, .inl rfl⟩
  | reassign as kept => exact ⟨rfl, kept, rfl, rfl, .inl rfl⟩
  | _ => exact ⟨rfl, rfl, rfl, rfl, .inl rfl⟩

/-! ### What edits store -/

section StoresBelow

variable {n : Arena → Nat}

/-- A module may be changed as long as it mentions nothing new. -/
lemma StoresBelow.modifyModule (h : mib.StoresBelow n) (m : ModuleId)
    {f : ModuleEntry → ModuleEntry} (held : ∀ x, Below n x.idents → Below n (f x).idents) :
    (mib.modifyModule m f).StoresBelow n :=
  { h with modules := forall_mem_modify h.modules fun x _ => held x }

/-- A tree node may be changed as long as it mentions nothing new. -/
lemma StoresBelow.modifyNode (h : mib.StoresBelow n) (i : NodeId) {f : OidNode → OidNode}
    (held : ∀ x, Below n x.idents → Below n (f x).idents) : (mib.modifyNode i f).StoresBelow n :=
  { h with nodes := forall_mem_modify h.nodes fun x _ => held x }

/-- An import may be added to a module if all that it mentions is stored. -/
lemma StoresBelow.addImport (h : mib.StoresBelow n) (m : ModuleId) (e : ImportEntry)
    (held : Below n e.idents) : (mib.addImport m e).StoresBelow n := by
  apply h.modifyModule m
  intro x below
  simp only [ModuleEntry.idents, below_append, below_cons, below_flatMap, List.forall_mem_append,
    List.forall_mem_singleton] at below ⊢
  tauto

/-- A type node may be added if there is room for it and all that it mentions is stored. -/
lemma StoresBelow.addType (h : mib.StoresBelow n) (m : ModuleId) (shape : TypeShape)
    (new : mib.types.size < n .types) (owned : m.index < n .modules) (held : Below n shape.idents) :
    (mib.addType m shape).2.StoresBelow n := by
  have pushed : StoresBelow { mib with
      types := mib.types.push ⟨⟨mib.types.size⟩, none, m, shape, none, .pending⟩ } n := by
    refine { h with types := forall_mem_push h.types ?_ }
    simp only [TypeNode.idents, below_append, below_cons, below_anyOf]
    exact ⟨⟨new, owned, by simp⟩, held⟩
  apply pushed.modifyModule m
  intro x below
  simp only [ModuleEntry.idents, List.map_append, List.map_cons, List.map_nil, below_append,
    below_cons, below_nil, and_true] at below ⊢
  exact ⟨below.1, below.2, new⟩

/-- A node of the OID tree is stored in its arena, in the index and by the node above it, or as a
root. -/
lemma StoresBelow.addNode (h : mib.StoresBelow n) (oid : Oid) (arc : Arc) (parent : Option NodeId)
    (new : mib.nodes.size < n .nodes) (held : ∀ p, parent = some p → p.index < n .nodes) :
    (mib.addNode oid arc parent).2.StoresBelow n := by
  have pushed : StoresBelow { mib with
      nodes := mib.nodes.push (.unnamed ⟨mib.nodes.size⟩ arc parent)
      oidIndex := mib.oidIndex.insert oid ⟨mib.nodes.size⟩ } n := by
    refine { h with nodes := forall_mem_push h.nodes ?_, oidIndex := ?_ }
    · simp only [OidNode.idents, OidNode.unnamed, List.map_nil, below_append, below_cons,
        below_anyOf, below_nil, and_true]
      exact ⟨⟨new, held⟩, by simp⟩
    · exact Table.forall_mem_insert h.oidIndex (by simpa using new)
  cases parent with
  | none =>
    refine { pushed with roots := ?_ }
    exact List.forall_mem_append.2 ⟨h.roots, by simpa using new⟩
  | some p =>
    apply pushed.modifyNode p
    intro x below
    simp only [OidNode.idents, List.map_append, List.map_cons, List.map_nil, below_append,
      below_cons, below_nil, and_true] at below ⊢
    tauto

end StoresBelow

/-- An edit stores identifiers that have entries. -/
lemma Edit.closed (e : mib.Edit mib') (h : mib.Closed) : mib'.Closed := by
  have le := e.grows
  -- What was stored before has its entries still, so only what is new is left to look at.
  have old := StoresBelow.mono h le
  cases e with
  | intern s => exact { old with }
  | addFile path =>
    refine { old with files := forall_mem_push old.files ?_ }
    have named := intern_lt mib path
    simp only [FileEntry.idents, below_cons, below_nil, and_true]
    exact ⟨by simp [size, Mib.addFile, Mib.intern], named⟩
  | addImport m e held => exact old.addImport m e (held.mono le)
  | addType m shape owned held =>
    apply old.addType m shape
    · simp [size, Mib.addType, Mib.modifyModule]
    · exact Nat.lt_of_lt_of_le owned (le .modules)
    · exact held.mono le
  | @addNode arc parent path above =>
    apply old.addNode
    · simp [size, size_nodes_addNode]
    · rintro p rfl
      exact Nat.lt_of_lt_of_le above.lt (le .nodes)
  | claim i definition shadowed held =>
    apply old.modifyNode i
    intro x below
    have new := held.mono le
    simp only [OidNode.idents, below_append, below_cons] at below new ⊢
    tauto
  | reassign as kept held =>
    exact { old with assignments := fun a ha => (held a ha).mono le }
  | retype ts kept held => exact { old with types := fun t ht => (held t ht).mono le }
  | record p held =>
    refine { old with problems := ?_ }
    simp only [Mib.record, Problems.toList_record, List.forall_mem_append,
      List.forall_mem_singleton]
    exact ⟨old.problems, held.mono le⟩

/-- A new node is the last, and the others keep their headings. -/
lemma heading_addNode (mib : Mib) (oid : Oid) (arc : Arc) (parent : Option NodeId) :
    (mib.addNode oid arc parent).2.nodes.map OidNode.heading =
      (mib.nodes.map OidNode.heading).push (.unnamed ⟨mib.nodes.size⟩ arc parent) := by
  have pushed : (mib.nodes.push (.unnamed ⟨mib.nodes.size⟩ arc parent)).map OidNode.heading =
      (mib.nodes.map OidNode.heading).push (.unnamed ⟨mib.nodes.size⟩ arc parent) :=
    Array.map_push
  cases parent with
  | none => exact pushed
  | some p =>
    refine Eq.trans ?_ pushed
    exact map_modify_of_keeps (g := OidNode.heading)
      (f := fun n => { n with children := n.children ++ [⟨mib.nodes.size⟩] }) _ p.index fun _ => rfl

/-- An added node is found at once, with its arc and its parent. -/
lemma node?_addNode (mib : Mib) (oid : Oid) (arc : Arc) (parent : Option NodeId) :
    ∃ n, (mib.addNode oid arc parent).2.node? (mib.addNode oid arc parent).1 = some n ∧
      n.arc = arc ∧ n.parent = parent := by
  have last := congrArg (·[mib.nodes.size]?) (heading_addNode mib oid arc parent)
  simp only [Array.getElem?_map, Array.getElem?_push, Array.size_map, if_pos,
    Option.map_eq_some_iff] at last
  obtain ⟨n, hn, same⟩ := last
  rw [fst_addNode]
  exact ⟨n, hn, (congrArg OidNode.arc same :), (congrArg OidNode.parent same :)⟩

/-- What an edit does to the tree: nothing, or it adds a node behind the others. -/
lemma Edit.tree (e : mib.Edit mib') :
    (mib'.nodes.map OidNode.heading = mib.nodes.map OidNode.heading ∧
      mib'.oidIndex = mib.oidIndex) ∨
    ∃ arc parent path, mib.Path parent path ∧
      mib'.nodes.map OidNode.heading =
        (mib.nodes.map OidNode.heading).push (.unnamed ⟨mib.nodes.size⟩ arc parent) ∧
      mib'.oidIndex = mib.oidIndex.insert (path.child arc) ⟨mib.nodes.size⟩ := by
  cases e with
  | @addNode arc parent path above =>
    exact .inr ⟨arc, parent, path, above, heading_addNode .., oidIndex_addNode ..⟩
  | claim m definition shadowed held =>
    refine .inl ⟨?_, rfl⟩
    exact map_modify_of_keeps (f := fun node : OidNode => { node with definition, shadowed })
      _ m.index fun _ => rfl
  | _ => exact .inl ⟨rfl, rfl⟩

end Mib

namespace Draft

variable {d d' d'' : Draft}

/-! ## Steps -/

/-- No arena shrinks in a step. -/
lemma Step.grows (s : d.Step d') (a : Arena) : d.mib.size a ≤ d'.mib.size a := by
  cases s with
  | edit e => exact e.grows a
  | bindImport => exact Nat.le_refl _
  | announce => cases a <;> simp [announced, Mib.addModule, Mib.size]
  | define m o x last =>
    have interned := (Strings.extends_intern d.mib.strings x.name).size_le
    cases h : d.scope.lookup? m.id x.name with
    | none =>
      rw [registerDefinition_free d m o x h]
      cases a <;> simp [Mib.size, interned]
    | some existing =>
      rw [registerDefinition_taken d m o x h]
      cases a <;> simp [Mib.size, interned]
  | list => exact Nat.le_refl _

/-- A new assignment and its module are all that registering a definition adds. -/
lemma StoresBelow.registerDefinition {n : Arena → Nat} (h : d.StoresBelow n)
    {m : RegisteredModule} (o : Origin) (x : Definition) (held : Below n m.idents)
    (named : (d.mib.strings.intern x.name).1.index < n .strings)
    (new : d.mib.assignments.size < n .assignments) (numbered : d.origins.size < n .assignments) :
    (d.registerDefinition m o x).StoresBelow n := by
  obtain ⟨owner, file⟩ : m.id.index < n .modules ∧ ∀ f, m.file = some f → f.index < n .files := by
    simpa [RegisteredModule.idents, below_append, below_anyOf, below_cons] using held
  have size : (d.origins.push o).size ≤ n .assignments := by
    rw [Array.size_push]
    exact numbered
  -- The state of an entry holds no identifiers, so either way to register it is as good.
  have entry : ∀ s, Below n { x.entry ⟨d.mib.assignments.size⟩ m.id
      (d.mib.strings.intern x.name).1 with state := s }.idents := by
    intro s
    simp only [Assignment.idents, Definition.entry, below_cons, below_anyOf]
    refine ⟨new, owner, named, ?_⟩
    rintro _ ⟨⟩
  cases free : d.scope.lookup? m.id x.name with
  | none =>
    rw [registerDefinition_free d m o x free]
    refine { h with
      mib := { h.mib with
        assignments := forall_mem_push h.mib.assignments (entry .pending)
        modules := ?_
        symbolIndex := Table.forall_mem_insertNew h.mib.symbolIndex ?_ }
      definitions := Table.forall_mem_insert h.definitions new
      numbered := size }
    · apply forall_mem_modify (i := m.id.index)
        (f := fun e => { e with assignments := e.assignments ++ [⟨d.mib.assignments.size⟩] })
        h.mib.modules
      intro e _ below
      simp only [ModuleEntry.idents, List.map_append, List.map_cons, List.map_nil, below_append,
        below_cons, below_nil, and_true] at below ⊢
      exact ⟨⟨below.1.1, below.1.2, new⟩, below.2⟩
    · simpa using ⟨owner, named, new⟩
  | some existing =>
    rw [registerDefinition_taken d m o x free]
    refine { h with
      mib := { h.mib with
        assignments := forall_mem_push h.mib.assignments (entry .excluded)
        problems := ?_ }
      numbered := size }
    rw [Problems.toList_record, List.forall_mem_append, List.forall_mem_singleton]
    refine ⟨h.mib.problems, ?_⟩
    simp only [Problem.idents, below_append, below_anyOf]
    refine ⟨⟨below_inModule owner file x.span, ?_⟩, ?_⟩
    · rintro _ ⟨⟩
      exact new
    · rintro _ ⟨⟩
      exact h.lookup? free

/-- Registering a definition changes nothing in the modules but what they list. -/
lemma map_modules_registerDefinition {β : Type} {f : ModuleEntry → β}
    (kept : ∀ e is, f { e with assignments := is } = f e) (d : Draft) (m : RegisteredModule)
    (o : Origin) (x : Definition) :
    (d.registerDefinition m o x).mib.modules.map f = d.mib.modules.map f := by
  cases free : d.scope.lookup? m.id x.name with
  | none =>
    rw [registerDefinition_free d m o x free]
    exact map_modify_of_keeps
      (f := fun e => { e with assignments := e.assignments ++ [⟨d.mib.assignments.size⟩] })
      d.mib.modules m.id.index fun e => kept e _
  | some existing => rw [registerDefinition_taken d m o x free]

/-- Registering a definition leaves the tree and the imports alone. -/
lemma prospects_registerDefinition (d : Draft) (m : RegisteredModule) (o : Origin)
    (x : Definition) : (d.registerDefinition m o x).prospects = d.prospects :=
  congrArg Surroundings.prospects (d.surroundings_registerDefinition m o x)

/-- A step leaves the headings of the nodes and the index alone, or it adds one node below the one
that a path ends at. -/
lemma Step.tree (s : d.Step d') :
    (d'.mib.nodes.map OidNode.heading = d.mib.nodes.map OidNode.heading ∧
      d'.mib.oidIndex = d.mib.oidIndex) ∨
    ∃ arc parent path, d.mib.Path parent path ∧
      d'.mib.nodes.map OidNode.heading =
        (d.mib.nodes.map OidNode.heading).push (.unnamed ⟨d.mib.nodes.size⟩ arc parent) ∧
      d'.mib.oidIndex = d.mib.oidIndex.insert (path.child arc) ⟨d.mib.nodes.size⟩ := by
  cases s with
  | edit e => exact e.tree
  | define m o x =>
    have kept := d.prospects_registerDefinition m o x
    exact .inl ⟨congrArg (·.nodes.map OidNode.heading) kept, congrArg Prospects.oidIndex kept⟩
  | _ => exact .inl ⟨rfl, rfl⟩

/-- A node that is there before a step is there after it, with the same heading. -/
lemma Step.node? (s : d.Step d') {i : NodeId} {n : OidNode} (h : d.mib.node? i = some n) :
    ∃ n', d'.mib.node? i = some n' ∧ n'.heading = n.heading := by
  have kept : (d.mib.nodes.map OidNode.heading)[i.index]? = some n.heading := by
    rw [Array.getElem?_map]
    exact congrArg (Option.map OidNode.heading) h
  have same : (d'.mib.nodes.map OidNode.heading)[i.index]? = some n.heading := by
    rcases s.tree with ⟨nodes, -⟩ | ⟨arc, parent, path, -, nodes, -⟩
    · rw [nodes, kept]
    · obtain ⟨lt, -⟩ := Array.getElem?_eq_some_iff.1 kept
      rw [nodes, Array.getElem?_push, if_neg (Nat.ne_of_lt lt), kept]
  rw [Array.getElem?_map, Option.map_eq_some_iff] at same
  exact same

/-- Whatever is mentioned after a step is stored after it. -/
lemma Step.closed (s : d.Step d') (h : d.Closed) : d'.Closed := by
  have le := s.grows
  have old := StoresBelow.mono h le
  cases s with
  | edit e => exact { old with mib := e.closed h.mib }
  | bindImport => exact { h with }
  | announce name file source free named held =>
    have new : d.mib.modules.size < (d.announced name file source).mib.size .modules := by
      simp [announced, Mib.addModule, Mib.size]
    have known : name.index < (d.announced name file source).mib.size .strings :=
      Nat.lt_of_lt_of_le (Strings.lt_of_find? named) (le .strings)
    refine { old with mib := { old.mib with modules := ?_, moduleIndex := ?_ }, names := ?_ }
    · apply forall_mem_push old.mib.modules
      simp only [ModuleEntry.idents, List.flatMap_nil, List.map_nil, below_append, below_cons,
        below_nil, and_true]
      exact ⟨new, known, held.mono le⟩
    · exact Table.forall_mem_insertNew old.mib.moduleIndex (by simpa using ⟨known, new⟩)
    · exact Table.forall_mem_insert old.names new
  | define m o x last held =>
    have size : (d.registerDefinition m o x).mib.assignments.size =
        d.mib.assignments.size + 1 := by simp
    -- The new assignment is the last entry.
    have numbered : d.origins.size ≤ d.mib.assignments.size := h.numbered
    apply old.registerDefinition
    · exact held.mono le
    · simpa using Strings.lt_of_find? (Strings.find?_intern d.mib.strings x.name)
    · simp
    · simpa using Nat.lt_succ_of_le numbered
  | list m held => exact { h with sources := forall_mem_push h.sources held }

/-! ## Runs of steps -/

/-- No step at all leads from a draft to itself. -/
lemma Steps.refl (d : Draft) : d.Steps d := Relation.ReflTransGen.refl

/-- Steps can be made one behind another. -/
lemma Steps.trans (h : d.Steps d') (h' : d'.Steps d'') : d.Steps d'' :=
  Relation.ReflTransGen.trans h h'

/-- One step is a way of steps. -/
lemma Step.steps (s : d.Step d') : d.Steps d' := Relation.ReflTransGen.single s

/-- Changes of single entries are a step. -/
lemma steps_edit {mib : Mib} (e : d.mib.Edit mib) : d.Steps { d with mib } := (Step.edit e).steps

/-- What every step keeps, a run of steps keeps. -/
theorem Steps.keeps {P : Draft → Prop} (step : ∀ {d d'}, P d → d.Step d' → P d')
    (h : d.Steps d') (start : P d) : P d' := by
  induction h with
  | refl => exact start
  | tail _ s ih => exact step ih s

/-- No arena shrinks on the way. -/
lemma Steps.grows (h : d.Steps d') (a : Arena) : d.mib.size a ≤ d'.mib.size a :=
  h.keeps (P := fun e => d.mib.size a ≤ e.mib.size a) (fun le s => Nat.le_trans le (s.grows a))
    (Nat.le_refl _)

/-- Whatever is mentioned at the end of a way is stored there, if so it was at its start. -/
lemma Steps.closed (h : d.Steps d') : d.Closed → d'.Closed := h.keeps fun c s => s.closed c

/-- The OID of a node stays what it is. -/
lemma Step.path (s : d.Step d') {p : Option NodeId} {o : Oid} (h : d.mib.Path p o) :
    d'.mib.Path p o := by
  induction h with
  | root => exact .root
  | child node above ih =>
    obtain ⟨n', hn, same⟩ := s.node? node
    have arc := (congrArg OidNode.arc same :)
    have parent := (congrArg OidNode.parent same :)
    simp only [OidNode.heading] at arc parent
    rw [← arc]
    exact .child hn (parent ▸ ih)

/-- Identifiers of stored entries stay such. -/
lemma Steps.below (h : d.Steps d') {is : List AnyIdent} (held : Below d.mib.size is) :
    Below d'.mib.size is :=
  held.mono h.grows

/-- A loop is a run of steps if each of its rounds is one from wherever the rounds before lead, as
long as something holds that the rounds keep. -/
lemma steps_foldl {σ α : Type} (draft : σ → Draft) {P : σ → Prop} {f : σ → α → σ} (xs : List α)
    (s : σ) (start : P s)
    (round : ∀ t, (draft s).Steps (draft t) → P t → ∀ x ∈ xs,
      (draft t).Steps (draft (f t x)) ∧ P (f t x)) :
    (draft s).Steps (draft (xs.foldl f s)) ∧ P (xs.foldl f s) := by
  induction xs generalizing s with
  | nil => exact ⟨.refl _, start⟩
  | cons x xs ih =>
    obtain ⟨head, next⟩ := round s (.refl _) start x (List.mem_cons_self ..)
    have tail := ih (f s x) next fun t h p y hy =>
      round t (head.trans h) p y (List.mem_cons_of_mem x hy)
    exact ⟨head.trans tail.1, tail.2⟩

/-- A loop goes from step to step if each round does. -/
lemma steps_loop {σ α : Type} (draft : σ → Draft) {f : σ → α → σ} (xs : List α) (s : σ)
    (round : ∀ t, (draft s).Steps (draft t) → ∀ x ∈ xs, (draft t).Steps (draft (f t x))) :
    (draft s).Steps (draft (xs.foldl f s)) :=
  (steps_foldl draft (P := fun _ => True) xs s trivial fun t h _ x hx =>
    ⟨round t h x hx, trivial⟩).1

end Draft

end MibCorpus
