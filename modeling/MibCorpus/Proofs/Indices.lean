import MibCorpus.Model.Parts
import MibCorpus.Proofs.Numbering

/-!
# Indices

The three indices of a model are kept current by different calls at different moments, and built in
one go when a model is put together again. Both ways lead to the same tables, the order of their
entries included. For the index by OID this rests on the parents: they lead from every node up to a
root, so the OID that a node was indexed under can be read off them at any later time.
-/

namespace MibCorpus

namespace Mib

variable {mib mib' : Mib}

/-! ## The index of modules -/

/-- Only the identifiers and the names of the modules matter. -/
lemma indexModules_congr {p q : MibParts}
    (same : q.modules.map (fun e => (e.id, e.name)) = p.modules.map fun e => (e.id, e.name)) :
    q.indexModules = p.indexModules := by
  have read : ∀ p : MibParts, p.indexModules =
      (p.modules.map fun e => (e.id, e.name)).foldl (fun t e => t.insertNew e.2 e.1) .empty := by
    intro p
    rw [Array.foldl_map]
    rfl
  rw [read, read, same]

/-! ## The index of definitions -/

/-- The definitions of a module are indexed alike by models that have the same names for them. -/
lemma indexDefinitions_congr {p q : MibParts} (t : Table (ModuleId × StrId) AssignmentId)
    (m : ModuleEntry) (same : ∀ i ∈ m.assignments, (q.assignments[i.index]?).map (·.name) =
      (p.assignments[i.index]?).map (·.name)) :
    q.indexDefinitions t m = p.indexDefinitions t m := by
  apply List.foldl_ext
  intro t i hi
  have e := same i hi
  cases hp : p.assignments[i.index]? <;> cases hq : q.assignments[i.index]? <;>
    simp_all

/-- A definition listed last in its module is indexed last. -/
lemma indexDefinitions_snoc {q : MibParts} (t : Table (ModuleId × StrId) AssignmentId)
    (m : ModuleEntry) {i : AssignmentId} {a : Assignment} (ha : q.assignments[i.index]? = some a) :
    q.indexDefinitions t { m with assignments := m.assignments ++ [i] } =
      (q.indexDefinitions t m).insertNew (m.id, a.name) i := by
  simp only [MibParts.indexDefinitions, List.foldl_append, List.foldl_cons, List.foldl_nil, ha]

/-- So are those of all modules. -/
lemma foldl_indexDefinitions_congr {p q : MibParts} {ms : List ModuleEntry}
    (same : ∀ m ∈ ms, ∀ i ∈ m.assignments, (q.assignments[i.index]?).map (·.name) =
      (p.assignments[i.index]?).map (·.name)) (t : Table (ModuleId × StrId) AssignmentId) :
    ms.foldl q.indexDefinitions t = ms.foldl p.indexDefinitions t :=
  List.foldl_ext _ _ _ fun t m hm => indexDefinitions_congr t m (same m hm)

/-- Only the headings of the modules matter, and the names of the assignments. -/
lemma indexSymbols_eq (p : MibParts) : p.indexSymbols =
    (p.modules.map ModuleEntry.heading).toList.foldl p.indexDefinitions .empty := by
  rw [Array.toList_map, List.foldl_map, Array.foldl_toList]
  rfl

/-! ## The index of nodes -/

/-- A node is at the end of one path. -/
lemma Path.unique {p : Option NodeId} {o o' : Oid} (h : mib.Path p o) (h' : mib.Path p o') :
    o = o' := by
  induction h generalizing o' with
  | root =>
    cases h' with
    | root => rfl
  | child node above ih =>
    cases h' with
    | child node' above' =>
      cases node.symm.trans node'
      rw [ih above']

/-- The arcs above a node are those of its OID, if enough of them are asked for. -/
lemma Path.arcsAbove {p : Option NodeId} {o : Oid} (h : mib.Path p o) {steps : Nat}
    (enough : o.length ≤ steps) (below : List Arc) :
    mib.arcsAbove steps p below = o.arcs ++ below := by
  induction h generalizing steps below with
  | root => cases steps <;> rfl
  | @child i n o node above ih =>
    cases steps with
    | zero => simp [Oid.length] at enough
    | succ steps =>
      have fewer : o.length ≤ steps := by simpa [Oid.length] using enough
      simp only [Mib.arcsAbove, node, ih fewer, Oid.arcs_child, List.append_assoc,
        List.singleton_append]

/-- Every node is below a path that is no longer than there are nodes before it. -/
def Grounded (mib : Mib) : Prop := ∀ i n, mib.node? i = some n →
  ∃ o, mib.Path n.parent o ∧ o.length ≤ i.index

/-- The OID of a node is read off the path to its parent and its own arc. -/
lemma Path.oidOf {n : OidNode} {o : Oid} (h : mib.Path n.parent o)
    (enough : o.length ≤ mib.nodes.size) : mib.oidOf n = o.child n.arc := by
  rw [Mib.oidOf, h.arcsAbove enough]
  rfl

/-- A path has no more nodes than there are. -/
lemma Grounded.length_le (g : mib.Grounded) {p : Option NodeId} {o : Oid} (h : mib.Path p o) :
    o.length ≤ mib.nodes.size := by
  cases h with
  | root => exact Nat.zero_le _
  | @child i n o node above =>
    obtain ⟨o', above', le⟩ := g i n node
    rw [above.unique above']
    have lt := (Array.getElem?_eq_some_iff.1 node).1
    simp only [Oid.length, Oid.arcs_child, List.length_append, List.length_singleton] at le ⊢
    omega

/-- The OIDs of nodes depend on the nodes only. -/
lemma oidOf_congr (nodes : mib'.nodes = mib.nodes) (n : OidNode) : mib'.oidOf n = mib.oidOf n := by
  have arcs : ∀ (steps : Nat) (p : Option NodeId) (below : List Arc),
      mib'.arcsAbove steps p below = mib.arcsAbove steps p below := by
    intro steps
    induction steps with
    | zero => exact fun _ _ => rfl
    | succ steps ih =>
      intro p below
      cases p with
      | none => rfl
      | some i => simp only [Mib.arcsAbove, node?, nodes, ih]
  rw [Mib.oidOf, Mib.oidOf, arcs, nodes]

/-- The index of OIDs depends on the headings of the nodes only. -/
lemma indexOids_eq (mib : Mib) : mib.toMibParts.indexOids =
    (mib.nodes.map OidNode.heading).toList.foldl
      (fun t n => t.insert (mib.oidOf n) n.id) .empty := by
  have read : mib.toMibParts.indexOids = mib.nodes.foldl
      (fun t n => t.insert (mib.oidOf n) n.id) .empty := by
    have same : (⟨mib.toMibParts, .empty, .empty, .empty⟩ : Mib).oidOf = mib.oidOf :=
      funext (oidOf_congr rfl)
    simp only [MibParts.indexOids, same]
  rw [read, Array.toList_map, List.foldl_map, Array.foldl_toList]
  rfl

/-- The indices of a model are those built from its contents. -/
structure Indexed (mib : Mib) : Prop where
  modules : mib.moduleIndex = mib.indexModules
  symbols : mib.symbolIndex = mib.indexSymbols
  oids : mib.oidIndex = mib.indexOids

/-- A model whose indices are right is put together again from its parts. -/
lemma Indexed.toMib_eq (h : mib.Indexed) : mib.toMibParts.toMib = mib := by
  calc mib.toMibParts.toMib
    _ = ⟨mib.toMibParts, mib.indexModules, mib.indexSymbols, mib.indexOids⟩ := rfl
    _ = ⟨mib.toMibParts, mib.moduleIndex, mib.symbolIndex, mib.oidIndex⟩ := by
      rw [h.modules, h.symbols, h.oids]
    _ = mib := rfl

end Mib

namespace Draft

variable {d d' : Draft}

/-! ## Steps -/

/-- Nodes are reached by paths from the root after a step, too. -/
lemma Step.grounded (s : d.Step d') (g : d.mib.Grounded) : d'.mib.Grounded := by
  have old : ∀ i n, (d.mib.nodes.map OidNode.heading)[i]? = some n →
      ∃ o, d'.mib.Path n.parent o ∧ o.length ≤ i := by
    intro i n hn
    rw [Array.getElem?_map, Option.map_eq_some_iff] at hn
    obtain ⟨m, hm, rfl⟩ := hn
    obtain ⟨o, above, le⟩ := g ⟨i⟩ m hm
    exact ⟨o, s.path above, le⟩
  intro i n hn
  have heading : (d'.mib.nodes.map OidNode.heading)[i.index]? = some n.heading := by
    rw [Array.getElem?_map]
    exact congrArg (Option.map OidNode.heading) hn
  -- The new node has the path that it was added at; the others keep theirs.
  rcases s.tree with ⟨nodes, -⟩ | ⟨arc, parent, path, above, nodes, -⟩
  · rw [nodes] at heading
    exact old i.index n.heading heading
  · rw [nodes, Array.getElem?_push] at heading
    split at heading
    next last =>
      have at_parent := (congrArg OidNode.parent (Option.some.inj heading) :)
      simp only [OidNode.heading, OidNode.unnamed] at at_parent
      refine ⟨path, at_parent ▸ s.path above, ?_⟩
      rw [last, Array.size_map]
      exact g.length_le above
    next => exact old i.index n.heading heading

/-- A step leaves the OIDs of the nodes that are there alone. -/
lemma Step.oidOf (s : d.Step d') (g : d.mib.Grounded) {n : OidNode}
    (hn : n ∈ (d.mib.nodes.map OidNode.heading).toList) : d'.mib.oidOf n = d.mib.oidOf n := by
  obtain ⟨m, hm, rfl⟩ := Array.mem_map.1 (Array.mem_toList_iff.1 hn)
  obtain ⟨i, hi⟩ := Array.mem_iff_getElem?.1 hm
  obtain ⟨o, above, -⟩ := g ⟨i⟩ m hi
  have before : d.mib.Path m.heading.parent o := above
  rw [before.oidOf (g.length_le above),
    (s.path before).oidOf ((s.grounded g).length_le (s.path before))]

/-- The index of OIDs is right after a step. -/
lemma Step.oids (s : d.Step d') (g : d.mib.Grounded) (h : d.mib.oidIndex = d.mib.indexOids) :
    d'.mib.oidIndex = d'.mib.indexOids := by
  have same : (d.mib.nodes.map OidNode.heading).toList.foldl
      (fun t n => t.insert (d'.mib.oidOf n) n.id) .empty = d.mib.indexOids := by
    rw [Mib.indexOids_eq]
    exact List.foldl_ext _ _ _ fun t n hn => by rw [s.oidOf g hn]
  rw [Mib.indexOids_eq]
  rcases s.tree with ⟨nodes, index⟩ | ⟨arc, parent, path, above, nodes, index⟩
  · rw [nodes, same, index, h]
  · have new : d'.mib.oidOf (.unnamed ⟨d.mib.nodes.size⟩ arc parent) = path.child arc :=
      (s.path above).oidOf ((s.grounded g).length_le (s.path above))
    rw [nodes, Array.toList_push, List.foldl_append, same, index, h, List.foldl_cons,
      List.foldl_nil, new]
    rfl

/-- The index of modules is right after a step. -/
lemma Step.modules (s : d.Step d') (h : d.mib.moduleIndex = d.mib.indexModules) :
    d'.mib.moduleIndex = d'.mib.indexModules := by
  cases s with
  | edit e =>
    have k := e.keeps
    have same := congrArg (Array.map fun e : ModuleEntry => (e.id, e.name)) k.modules
    simp only [Array.map_map, Function.comp_def, ModuleEntry.heading] at same
    exact (k.moduleIndex.trans h).trans (Mib.indexModules_congr same).symm
  | announce name file source =>
    simp only [announced, Mib.addModule, MibParts.indexModules, Array.foldl_push, h]
  | define m o x =>
    have index : (d.registerDefinition m o x).mib.moduleIndex = d.mib.moduleIndex := by
      cases free : d.scope.lookup? m.id x.name with
      | none => rw [registerDefinition_free d m o x free]
      | some existing => rw [registerDefinition_taken d m o x free]
    have same := map_modules_registerDefinition (f := fun e => (e.id, e.name)) (fun _ _ => rfl)
      d m o x
    exact (index.trans h).trans (Mib.indexModules_congr same).symm
  | _ => exact h

/-- The definitions listed so far are indexed as before when one more is registered. -/
lemma Closed.indexDefinitions_registerDefinition (c : d.Closed) (m : RegisteredModule) (o : Origin)
    (x : Definition) :
    d.mib.modules.toList.foldl (d.registerDefinition m o x).mib.indexDefinitions .empty =
      d.mib.indexSymbols := by
  rw [MibParts.indexSymbols, ← Array.foldl_toList]
  refine Mib.foldl_indexDefinitions_congr (fun k hk i hi => ?_) .empty
  have below := c.mib.modules k (Array.mem_toList_iff.1 hk)
  simp only [ModuleEntry.idents, below_append, below_map, Mib.size_assignments] at below
  rw [assignments_registerDefinition, Array.getElem?_push, if_neg (Nat.ne_of_lt (below.1.2 i hi))]

/-- A definition is indexed behind those of its module, which is the last. -/
lemma Closed.symbols_registerDefinition (c : d.Closed) (n : d.mib.Numbered)
    (h : d.mib.symbolIndex = d.mib.indexSymbols) {m : RegisteredModule}
    (last : m.id.index + 1 = d.mib.modules.size) (o : Origin) (x : Definition) :
    (d.registerDefinition m o x).mib.symbolIndex =
      (d.registerDefinition m o x).mib.indexSymbols := by
  have old := c.indexDefinitions_registerDefinition m o x
  rw [← h] at old
  cases free : d.scope.lookup? m.id x.name with
  | none =>
    rw [registerDefinition_free d m o x free] at old ⊢
    -- The module is the last one, so the built index grows behind everything else.
    obtain ⟨init, e, split⟩ := Array.exists_push_of_size_eq_add_one last.symm
    have place : m.id.index = init.size := by
      rw [split, Array.size_push] at last
      omega
    have id : e.id = m.id := n.modules m.id.index e (by simp [split, place])
    simp only [MibParts.indexSymbols, ← Array.foldl_toList, split, place, modify_size_push,
      Array.toList_push, List.foldl_append, List.foldl_cons, List.foldl_nil] at old ⊢
    rw [Mib.indexDefinitions_snoc _ e (Array.getElem?_push_size ..), old, id]
    rfl
  | some existing =>
    rw [registerDefinition_taken d m o x free] at old ⊢
    rw [MibParts.indexSymbols, ← Array.foldl_toList]
    exact old.symm

/-- The index of definitions is right after a step. -/
lemma Step.symbols (s : d.Step d') (c : d.Closed) (n : d.mib.Numbered)
    (h : d.mib.symbolIndex = d.mib.indexSymbols) : d'.mib.symbolIndex = d'.mib.indexSymbols := by
  cases s with
  | @edit mib e =>
    have k := e.keeps
    refine (k.symbolIndex.trans h).trans ?_
    rw [Mib.indexSymbols_eq d.mib.toMibParts, Mib.indexSymbols_eq mib.toMibParts, k.modules]
    exact (Mib.foldl_indexDefinitions_congr (fun _ _ i _ => map_getElem?_of_heading
      Assignment.heading (fun _ => rfl) k.assignments i.index) .empty).symm
  | announce name file source =>
    simp only [announced, Mib.addModule, MibParts.indexSymbols, Array.foldl_push]
    exact h
  | define m o x last => exact c.symbols_registerDefinition n h last o x
  | _ => exact h

/-- After any phase calls all indices are right. -/
lemma indexed_after (policy : Policy) (calls : List PhaseCall) (r : Recorder) :
    ((Draft.new policy).after calls r).mib.Indexed := by
  have all : ((Draft.new policy).after calls r).mib.Numbered ∧
      ((Draft.new policy).after calls r).mib.Grounded ∧
      ((Draft.new policy).after calls r).mib.Indexed := by
    apply after_induction (P := fun d => d.mib.Numbered ∧ d.mib.Grounded ∧ d.mib.Indexed)
    · exact ⟨Mib.numbered_empty, nofun, rfl, rfl, rfl⟩
    · rintro d d' c ⟨numbered, grounded, h⟩ s
      exact ⟨s.numbered numbered, s.grounded grounded, s.modules h.modules,
        s.symbols c numbered h.symbols, s.oids grounded h.oids⟩
  exact all.2.2

/-- After any calls of phases, in any order, taking the model apart and putting it together again
gives back the same model: the indices that were kept are those that are built. -/
theorem toMib_toMibParts_after (policy : Policy) (calls : List PhaseCall) (r : Recorder) :
    ((Draft.new policy).after calls r).mib.toMibParts.toMib =
      ((Draft.new policy).after calls r).mib :=
  (indexed_after policy calls r).toMib_eq

end Draft

end MibCorpus
