import MibCorpus.Proofs.NameStores

/-!
# Well-formed models

A module lists the type nodes and the definitions that belong to it, and a node of the OID tree
lists the nodes below it. The entries themselves say where they belong, so everything is said twice.
The two agree in a well-formed model: every list has exactly what belongs there, in the order in
which it was added. The only definitions that no module lists are the refused duplicates.
-/

namespace MibCorpus

variable {a : Arena}

/-- A list has the identifiers with some property, each of them once and in increasing order. -/
def Lists (l : List (Ident a)) (P : Ident a → Prop) : Prop :=
  l.Pairwise (·.index < ·.index) ∧ ∀ i, i ∈ l ↔ P i

section Lists

variable {l : List (Ident a)} {P Q : Ident a → Prop}

/-- The empty list lists what has no members. -/
lemma lists_nil (none : ∀ i, ¬P i) : Lists [] P :=
  ⟨.nil, fun i => iff_of_false (List.not_mem_nil) (none i)⟩

/-- A list lists whatever has the same members. -/
lemma Lists.congr (h : Lists l P) (same : ∀ i, Q i ↔ P i) : Lists l Q :=
  ⟨h.1, fun i => (h.2 i).trans (same i).symm⟩

/-- One more identifier behind all others. -/
lemma Lists.snoc (h : Lists l P) {n : Nat} (below : ∀ i, P i → i.index < n)
    (new : ∀ i, Q i ↔ P i ∨ i = ⟨n⟩) : Lists (l ++ [⟨n⟩]) Q := by
  refine ⟨List.pairwise_append.2 ⟨h.1, List.pairwise_singleton .., fun i hi j hj => ?_⟩,
    fun i => ?_⟩
  · rw [List.mem_singleton.1 hj]
    exact below i ((h.2 i).1 hi)
  · rw [List.mem_append, List.mem_singleton, h.2, new]

end Lists

/-- A place is the identifier of an entry pushed last. -/
lemma index_eq_iff {i : Ident a} {n : Nat} : i.index = n ↔ i = ⟨n⟩ := by
  cases i
  simp

section Entries

variable {α β : Type} {as : Array α} {f : α → β}

/-- After a member is added, what is found is what was found before, or the new member at the
end. -/
lemma map_getElem?_push {x : α} {i : Nat} {k : β} :
    ((as.push x)[i]?).map f = some k ↔ (as[i]?).map f = some k ∨ i = as.size ∧ f x = k := by
  rw [Array.getElem?_push]
  split
  next last => simp [last]
  next => simp_all

/-- What is found at a position is within the array. -/
lemma lt_of_map_getElem? {i : Nat} {k : β} (h : (as[i]?).map f = some k) : i < as.size := by
  obtain ⟨x, hx, -⟩ := Option.map_eq_some_iff.1 h
  exact (Array.getElem?_eq_some_iff.1 hx).1

/-- One more entry has an empty list, and nothing is due in it. -/
lemma lists_push {list : α → List (Ident a)} {P : Nat → Ident a → Prop}
    (h : ∀ k l, (as[k]?).map list = some l → Lists l (P k)) {x : α} (empty : list x = [])
    (none : ∀ i, ¬P as.size i) :
    ∀ k l, ((as.push x)[k]?).map list = some l → Lists l (P k) := by
  intro k l hl
  rcases map_getElem?_push.1 hl with old | ⟨rfl, rfl⟩
  · exact h k l old
  · rw [empty]
    exact lists_nil none

/-- One entry gets one more identifier behind all others, and that is all that becomes due. -/
lemma lists_modify (as : Array α) (list : α → List (Ident a)) {P Q : Nat → Ident a → Prop}
    (h : ∀ k l, (as[k]?).map list = some l → Lists l (P k)) {m n : Nat} {g : α → α}
    (appended : ∀ x, list (g x) = list x ++ [⟨n⟩]) (before : ∀ k i, P k i → i.index < n)
    (due : ∀ k i, Q k i ↔ P k i ∨ i = ⟨n⟩ ∧ m = k) :
    ∀ k l, ((as.modify m g)[k]?).map list = some l → Lists l (Q k) := by
  intro k l hl
  rw [Array.getElem?_modify] at hl
  split at hl
  next here =>
    subst here
    rw [Option.map_map, Option.map_eq_some_iff] at hl
    obtain ⟨x, hx, rfl⟩ := hl
    have old := h m (list x) (Option.map_eq_some_iff.2 ⟨x, hx, rfl⟩)
    rw [Function.comp_apply, appended]
    exact old.snoc (before m) fun i => by simp [due]
  next elsewhere =>
    refine (h k l hl).congr fun i => ?_
    rw [due, or_iff_left]
    exact fun new => elsewhere new.2

end Entries

namespace Mib

/-- Every module lists its type nodes. -/
def TypesListed (mib : Mib) : Prop := ∀ m l, (mib.module? m).map (·.types) = some l →
  Lists l fun t => (mib.type? t).map (·.module) = some m

/-- Assignment `i` belongs to module `m` and is not a duplicate there. -/
def Defines (mib : Mib) (m : ModuleId) (i : AssignmentId) : Prop :=
  (mib.assignment? i).map (·.module) = some m ∧ ¬mib.IsDuplicate i

/-- Every module lists its definitions but for the duplicates. -/
def DefinitionsListed (mib : Mib) : Prop := ∀ m l, (mib.module? m).map (·.assignments) = some l →
  Lists l (mib.Defines m)

/-- Every node of the OID tree lists those below it, and the model lists those below none. -/
structure TreeListed (mib : Mib) : Prop where
  children : ∀ p l, (mib.node? p).map (·.children) = some l →
    Lists l fun i => (mib.node? i).map (·.parent) = some (some p)
  roots : Lists mib.roots fun i => (mib.node? i).map (·.parent) = some none

variable {mib mib' : Mib}

/-! ## Type nodes -/

/-- The lists of types stay right as long as the modules and the owners of the types stay. -/
lemma TypesListed.congr (h : mib.TypesListed)
    (lists : ∀ m, (mib'.module? m).map (·.types) = (mib.module? m).map (·.types))
    (owners : ∀ t, (mib'.type? t).map (·.module) = (mib.type? t).map (·.module)) :
    mib'.TypesListed := by
  intro m l hl
  simp only [lists] at hl
  simpa only [owners] using h m l hl

/-- A new type node is listed by its module. -/
lemma TypesListed.addType (h : mib.TypesListed) (m : ModuleId) (shape : TypeShape) :
    (mib.addType m shape).2.TypesListed := by
  have all := lists_modify mib.modules ModuleEntry.types
    (P := fun k t => (mib.type? t).map (·.module) = some ⟨k⟩)
    (Q := fun k t => ((mib.addType m shape).2.type? t).map (·.module) = some ⟨k⟩)
    (g := fun x => { x with types := x.types ++ [⟨mib.types.size⟩] })
    (fun k l hl => h ⟨k⟩ l hl) (m := m.index) (n := mib.types.size) (fun _ => rfl)
    (fun _ _ ht => lt_of_map_getElem? ht) ?_
  · exact fun k l hl => all k.index l hl
  · intro k t
    rw [← index_eq_iff, index_eq_iff (i := m)]
    exact map_getElem?_push

/-- A new module has no types, and none was its own before. -/
lemma TypesListed.addModule (h : mib.TypesListed) (c : mib.Closed) (name : StrId)
    (file : Option FileId) (span : Span) : (mib.addModule name file span).2.TypesListed := by
  intro k l hl
  refine lists_push (P := fun k t => (mib.type? t).map (·.module) = some ⟨k⟩)
    (fun k l hl => h ⟨k⟩ l hl) ?_ ?_ k.index l hl
  · rfl
  · intro t ht
    obtain ⟨n, hn, module⟩ := Option.map_eq_some_iff.1 ht
    have below := c.types n (Array.mem_of_getElem? hn)
    -- It would belong to a module that was not there.
    simp only [TypeNode.idents, below_append, below_cons, module] at below
    exact Nat.lt_irrefl _ below.1.2.1

/-- Changes of single entries leave the lists of types right. -/
lemma Edit.typesListed (e : mib.Edit mib') (h : mib.TypesListed) : mib'.TypesListed := by
  cases e with
  | addType m shape => exact h.addType m shape
  | addImport m e =>
    exact h.congr (fun k => map_getElem?_modify
      (g := fun x : ModuleEntry => { x with imports := x.imports ++ [e] }) (fun _ => rfl)
      m.index k.index) fun _ => rfl
  | @addNode arc parent => cases parent <;> exact h.congr (fun _ => rfl) fun _ => rfl
  | retype ts kept =>
    refine h.congr (fun _ => rfl) fun t => ?_
    have e := congrArg (fun cs => (cs[t.index]?).map Prod.snd) kept
    simpa [Function.comp_def, Mib.type?] using e
  | _ => exact h.congr (fun _ => rfl) fun _ => rfl

/-! ## Definitions -/

/-- The module and the name of an assignment. -/
def keyOf? (mib : Mib) (i : AssignmentId) : Option (ModuleId × StrId) :=
  (mib.assignment? i).map fun a => (a.module, a.name)

/-- The module of an assignment is a part of its key. -/
lemma module_eq_map_keyOf? (mib : Mib) (i : AssignmentId) :
    (mib.assignment? i).map (·.module) = (mib.keyOf? i).map Prod.fst := by
  rw [keyOf?, Option.map_map]
  rfl

/-- An assignment is a duplicate if an earlier one has its key. -/
lemma isDuplicate_iff {i : AssignmentId} : mib.IsDuplicate i ↔
    ∃ j k, j.index < i.index ∧ mib.keyOf? j = some k ∧ mib.keyOf? i = some k := by
  simp only [IsDuplicate, keyOf?, Option.map_eq_some_iff]
  constructor
  · rintro ⟨a, j, b, ha, hb, lt, module, name⟩
    exact ⟨j, _, lt, ⟨b, hb, rfl⟩, a, ha, by rw [module, name]⟩
  · rintro ⟨j, k, lt, ⟨b, hb, rfl⟩, a, ha, e⟩
    obtain ⟨module, name⟩ := Prod.mk.inj e
    exact ⟨a, j, b, ha, hb, lt, module.symm, name.symm⟩

/-- The lists of definitions stay right as long as the modules and the keys of the assignments
stay. -/
lemma DefinitionsListed.congr (h : mib.DefinitionsListed)
    (lists : ∀ m, (mib'.module? m).map (·.assignments) = (mib.module? m).map (·.assignments))
    (keys : ∀ i, mib'.keyOf? i = mib.keyOf? i) : mib'.DefinitionsListed := by
  intro m l hl
  simp only [lists] at hl
  refine (h m l hl).congr fun i => ?_
  simp only [Defines, module_eq_map_keyOf?, isDuplicate_iff, keys]

/-- Changes of single entries leave the lists of definitions right. -/
lemma Edit.definitionsListed (e : mib.Edit mib') (h : mib.DefinitionsListed) :
    mib'.DefinitionsListed := by
  refine h.congr (fun m => ?_) fun i => ?_
  · exact map_getElem?_of_heading ModuleEntry.heading (fun _ => rfl) e.keeps.modules m.index
  · exact map_getElem?_of_heading Assignment.heading (fun _ => rfl) e.keeps.assignments i.index

/-- A new module has no definitions, and none was its own before. -/
lemma DefinitionsListed.addModule (h : mib.DefinitionsListed) (c : mib.Closed) (name : StrId)
    (file : Option FileId) (span : Span) : (mib.addModule name file span).2.DefinitionsListed := by
  intro k l hl
  refine lists_push (P := fun k => mib.Defines ⟨k⟩) (fun k l hl => h ⟨k⟩ l hl) ?_ ?_ k.index l hl
  · rfl
  · intro i hi
    obtain ⟨a, ha, module⟩ := Option.map_eq_some_iff.1 hi.1
    have below := c.assignments a (Array.mem_of_getElem? ha)
    simp only [Assignment.idents, below_cons, module] at below
    exact Nat.lt_irrefl _ below.2.1

/-! ## The tree -/

/-- The lists of children stay right as long as the parents and the roots stay. -/
lemma TreeListed.congr (h : mib.TreeListed)
    (lists : ∀ p, (mib'.node? p).map (·.children) = (mib.node? p).map (·.children))
    (parents : ∀ i, (mib'.node? i).map (·.parent) = (mib.node? i).map (·.parent))
    (roots : mib'.roots = mib.roots) : mib'.TreeListed := by
  refine ⟨fun p l hl => ?_, ?_⟩
  · simp only [lists] at hl
    simpa only [parents] using h.children p l hl
  · simpa only [parents, roots] using h.roots

/-- A parent is that of a node from before or that of the new one. -/
lemma parent_addNode (mib : Mib) (oid : Oid) (arc : Arc) (parent p : Option NodeId) (i : NodeId) :
    ((mib.addNode oid arc parent).2.node? i).map (·.parent) = some p ↔
      (mib.node? i).map (·.parent) = some p ∨ i = ⟨mib.nodes.size⟩ ∧ parent = p := by
  have e := congrArg (fun ns => (ns[i.index]?).map (·.parent)) (mib.heading_addNode oid arc parent)
  have headings : ∀ ns : Array OidNode, ((ns.map OidNode.heading)[i.index]?).map (·.parent) =
      (ns[i.index]?).map (·.parent) := fun ns => by simp [Function.comp_def, OidNode.heading]
  simp only [headings] at e
  rw [node?, e, map_getElem?_push, headings, Array.size_map, index_eq_iff]
  rfl

/-- A new node is listed by its parent, or among the roots. -/
lemma TreeListed.addNode (h : mib.TreeListed) (c : mib.Closed) (oid : Oid) (arc : Arc)
    (parent : Option NodeId) : (mib.addNode oid arc parent).2.TreeListed := by
  have before : ∀ p i, (mib.node? i).map (·.parent) = some p → i.index < mib.nodes.size :=
    fun _ _ hi => lt_of_map_getElem? hi
  -- Nothing stands below the new node yet.
  have pushed : ∀ k l, ((mib.nodes.push (.unnamed ⟨mib.nodes.size⟩ arc parent))[k]?).map
      (·.children) = some l → Lists l fun i => (mib.node? i).map (·.parent) = some (some ⟨k⟩) := by
    refine lists_push (fun k l hl => h.children ⟨k⟩ l hl) rfl fun i hi => ?_
    obtain ⟨n, hn, at_parent⟩ := Option.map_eq_some_iff.1 hi
    have below := c.nodes n (Array.mem_of_getElem? hn)
    simp only [OidNode.idents, below_append, below_cons, below_anyOf, at_parent] at below
    exact Nat.lt_irrefl _ (below.1.1.1.2 _ rfl)
  have due := mib.parent_addNode oid arc parent
  cases parent with
  | none =>
    refine ⟨fun p l hl => (pushed p.index l hl).congr fun i => ?_, ?_⟩
    · simp [due]
    · exact h.roots.snoc (before none) fun i => by simp [due]
  | some p =>
    refine ⟨fun q l hl => ?_, h.roots.congr fun i => by simp [due]⟩
    have all := lists_modify _ OidNode.children pushed (m := p.index) (n := mib.nodes.size)
      (Q := fun k i => ((mib.addNode oid arc (some p)).2.node? i).map (·.parent) = some (some ⟨k⟩))
      (g := fun n => { n with children := n.children ++ [⟨mib.nodes.size⟩] }) (fun _ => rfl)
      (fun k i hi => before (some ⟨k⟩) i hi) fun k i => ?_
    · exact all q.index l hl
    · rw [due, Option.some.injEq, index_eq_iff]

/-- Changes of single entries leave the lists of children right. -/
lemma Edit.treeListed (e : mib.Edit mib') (c : mib.Closed) (h : mib.TreeListed) :
    mib'.TreeListed := by
  cases e with
  | addNode arc => exact h.addNode c _ arc _
  | claim n definition shadowed =>
    refine h.congr (fun p => ?_) (fun i => ?_) rfl <;>
    exact map_getElem?_modify (g := fun n : OidNode => { n with definition, shadowed })
      (fun _ => rfl) n.index _
  | _ => exact h.congr (fun _ => rfl) (fun _ => rfl) rfl

end Mib

namespace Draft

variable {d d' : Draft} {m : RegisteredModule} {o : Origin} {x : Definition}

/-- A key is that of an assignment from before or that of the one just registered. -/
lemma keyOf?_registerDefinition {i : AssignmentId} {k : ModuleId × StrId} :
    (d.registerDefinition m o x).mib.keyOf? i = some k ↔ d.mib.keyOf? i = some k ∨
      i.index = d.mib.assignments.size ∧ (m.id, (d.mib.strings.intern x.name).1) = k := by
  simp only [Mib.keyOf?, Mib.assignment?, assignments_registerDefinition]
  exact map_getElem?_push

/-- Only stored assignments have keys. -/
lemma lt_of_keyOf? {i : AssignmentId} {k : ModuleId × StrId} (h : d.mib.keyOf? i = some k) :
    i.index < d.mib.assignments.size :=
  lt_of_map_getElem? h

/-- A name is taken in a module if an assignment there has it. -/
lemma NamesAgree.lookup?_eq_none_iff (n : d.NamesAgree) (c : d.Closed) :
    d.scope.lookup? m.id x.name = none ↔
      ∀ j, d.mib.keyOf? j ≠ some (m.id, (d.mib.strings.intern x.name).1) := by
  rw [n.lookup?_intern c m.id x.name x.name, Strings.find?_intern, Option.bind_some, n.first,
    Option.map_eq_none_iff, List.findIdx?_eq_none_iff]
  constructor
  · intro h j hj
    obtain ⟨a, ha, key⟩ := Option.map_eq_some_iff.1 hj
    have other := h a (Array.mem_toList_iff.2 (Array.mem_of_getElem? ha))
    obtain ⟨module, name⟩ := Prod.mk.inj key
    simp [Assignment.isNamed, module, name] at other
  · intro h a ha
    obtain ⟨j, hj⟩ := Array.mem_iff_getElem?.1 (Array.mem_toList_iff.1 ha)
    have other := h ⟨j⟩
    simp only [Mib.keyOf?, Mib.assignment?, hj, Option.map_some, ne_eq, Option.some.injEq,
      Prod.mk.injEq] at other
    simpa [Assignment.isNamed] using other

/-- The new assignment is a duplicate exactly if its name is taken. -/
lemma NamesAgree.isDuplicate_registerDefinition (n : d.NamesAgree) (c : d.Closed)
    {i : AssignmentId} : (d.registerDefinition m o x).mib.IsDuplicate i ↔
      d.mib.IsDuplicate i ∨
        i.index = d.mib.assignments.size ∧ d.scope.lookup? m.id x.name ≠ none := by
  have taken := not_congr (n.lookup?_eq_none_iff (m := m) (x := x) c)
  simp only [Mib.isDuplicate_iff, keyOf?_registerDefinition]
  constructor
  · rintro ⟨j, k, lt, hj | ⟨hj, -⟩, hi | ⟨hi, key⟩⟩
    · exact .inl ⟨j, k, lt, hj, hi⟩
    · exact .inr ⟨hi, taken.2 fun none => none j (key ▸ hj)⟩
    · have := lt_of_keyOf? hi
      omega
    · omega
  · rintro (⟨j, k, lt, hj, hi⟩ | ⟨hi, ne⟩)
    · exact ⟨j, k, lt, .inl hj, .inl hi⟩
    · have found := taken.1 ne
      push Not at found
      obtain ⟨j, hj⟩ := found
      exact ⟨j, _, hi ▸ lt_of_keyOf? hj, .inl hj, .inr ⟨hi, rfl⟩⟩

/-- What a module has to list is what it had to list before, and the new definition if it counts. -/
lemma NamesAgree.defines_registerDefinition (n : d.NamesAgree) (c : d.Closed) {k : ModuleId}
    {i : AssignmentId} : (d.registerDefinition m o x).mib.Defines k i ↔
      d.mib.Defines k i ∨
        (i.index = d.mib.assignments.size ∧ m.id = k) ∧ d.scope.lookup? m.id x.name = none := by
  have owner : ((d.registerDefinition m o x).mib.assignment? i).map (·.module) = some k ↔
      (d.mib.assignment? i).map (·.module) = some k ∨
        i.index = d.mib.assignments.size ∧ m.id = k := by
    simp only [Mib.assignment?, assignments_registerDefinition]
    exact map_getElem?_push
  have old : (d.mib.assignment? i).map (·.module) = some k → i.index < d.mib.assignments.size :=
    fun hi => lt_of_map_getElem? hi
  have duplicate : d.mib.IsDuplicate i → i.index < d.mib.assignments.size := by
    intro hi
    obtain ⟨j, key, -, -, hi⟩ := Mib.isDuplicate_iff.1 hi
    exact lt_of_keyOf? hi
  rw [Mib.Defines, Mib.Defines, owner, n.isDuplicate_registerDefinition c]
  grind

/-- A definition that is registered is listed by its module if it is the first of its name. -/
lemma NamesAgree.definitionsListed (n : d.NamesAgree) (c : d.Closed)
    (h : d.mib.DefinitionsListed) (m : RegisteredModule) (o : Origin) (x : Definition) :
    (d.registerDefinition m o x).mib.DefinitionsListed := by
  cases free : d.scope.lookup? m.id x.name with
  | none =>
    have modules : (d.registerDefinition m o x).mib.modules =
        d.mib.modules.modify m.id.index fun e =>
          { e with assignments := e.assignments ++ [⟨d.mib.assignments.size⟩] } := by
      rw [registerDefinition_free d m o x free]
    have all := lists_modify d.mib.modules ModuleEntry.assignments
      (g := fun e => { e with assignments := e.assignments ++ [⟨d.mib.assignments.size⟩] })
      (fun k l hl => h ⟨k⟩ l hl) (m := m.id.index) (n := d.mib.assignments.size) (fun _ => rfl)
      (Q := fun k => (d.registerDefinition m o x).mib.Defines ⟨k⟩)
      (fun _ _ hi => lt_of_map_getElem? hi.1) fun k i => ?_
    · intro k l hl
      rw [Mib.module?, modules] at hl
      exact all k.index l hl
    · rw [n.defines_registerDefinition c, index_eq_iff, ← index_eq_iff (i := m.id)]
      simp [free]
  | some existing =>
    have modules : (d.registerDefinition m o x).mib.modules = d.mib.modules := by
      rw [registerDefinition_taken d m o x free]
    intro k l hl
    rw [Mib.module?, modules] at hl
    refine (h k l hl).congr fun i => ?_
    rw [n.defines_registerDefinition c]
    simp [free]

/-! ## Steps -/

/-- The lists of types are right after a step. -/
lemma Step.typesListed (s : d.Step d') (c : d.Closed) (h : d.mib.TypesListed) :
    d'.mib.TypesListed := by
  cases s with
  | edit e => exact e.typesListed h
  | announce name file source => exact h.addModule c.mib name file source.span
  | define m o x =>
    have types := congrArg Prospects.types (d.prospects_registerDefinition m o x)
    refine h.congr (fun k => ?_) fun t => congrArg (fun ts => (ts[t.index]?).map (·.module)) types
    have lists := map_modules_registerDefinition (f := ModuleEntry.types) (fun _ _ => rfl)
      d m o x
    simpa only [Mib.module?, Array.getElem?_map] using congrArg (·[k.index]?) lists
  | _ => exact h

/-- The lists of definitions are right after a step. -/
lemma Step.definitionsListed (s : d.Step d') (c : d.Closed) (n : d.NamesAgree)
    (h : d.mib.DefinitionsListed) : d'.mib.DefinitionsListed := by
  cases s with
  | edit e => exact e.definitionsListed h
  | announce name file source => exact h.addModule c.mib name file source.span
  | define m o x => exact n.definitionsListed c h m o x
  | _ => exact h

/-- The lists of children are right after a step. -/
lemma Step.treeListed (s : d.Step d') (c : d.Closed) (h : d.mib.TreeListed) :
    d'.mib.TreeListed := by
  cases s with
  | edit e => exact e.treeListed c.mib h
  | define m o x =>
    have kept := d.prospects_registerDefinition m o x
    exact h.congr (fun p => congrArg (fun k => (k.nodes[p.index]?).map (·.children)) kept)
      (fun i => congrArg (fun k => (k.nodes[i.index]?).map (·.parent)) kept)
      (congrArg Prospects.roots kept)
  | _ => exact ⟨h.children, h.roots⟩

end Draft

/-! ## Well-formed models -/

/-- A model is well-formed: entries carry the identifiers of their positions, stored identifiers
have entries, and the lists have what belongs there. -/
structure Mib.WellFormed (mib : Mib) : Prop where
  numbered : mib.Numbered
  closed : mib.Closed
  types : mib.TypesListed
  definitions : mib.DefinitionsListed
  tree : mib.TreeListed

/-- After any calls of phases, in any order, the model is well-formed. -/
theorem Draft.wellFormed_after (policy : Policy) (calls : List PhaseCall) (r : Recorder) :
    ((Draft.new policy).after calls r).mib.WellFormed := by
  have listed : ((Draft.new policy).after calls r).NamesAgree ∧
      ((Draft.new policy).after calls r).mib.TypesListed ∧
      ((Draft.new policy).after calls r).mib.DefinitionsListed ∧
      ((Draft.new policy).after calls r).mib.TreeListed := by
    apply after_induction (P := fun d => d.NamesAgree ∧ d.mib.TypesListed ∧
      d.mib.DefinitionsListed ∧ d.mib.TreeListed)
    · exact ⟨namesAgree_new policy, nofun, nofun, nofun, lists_nil nofun⟩
    · rintro d d' c ⟨names, types, definitions, tree⟩ s
      exact ⟨names.step c s, s.typesListed c types, s.definitionsListed c names definitions,
        s.treeListed c tree⟩
  obtain ⟨-, types, definitions, tree⟩ := listed
  exact ⟨numbered_after policy calls r, (closed_after policy calls r).mib, types, definitions, tree⟩

end MibCorpus
