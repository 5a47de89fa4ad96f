import MibCorpus.Proofs.Binding
import MibCorpus.Proofs.Layout
import MibCorpus.Proofs.Lowering
import MibCorpus.Proofs.TypeStates
import MibCorpus.Typing.Phase

/-!
# What typing does

The typing phase lays the blocks of all definitions, binds what can be bound, and reads the states
off the references that stay unbound. Every node belongs to the SYNTAX of one assignment.
-/

namespace MibCorpus

/-- Node `t` stands in the SYNTAX of assignment `a`. -/
inductive Mib.InSyntax (mib : Mib) (a : AssignmentId) : TypeId → Prop where
  | top {x : Assignment} {t : TypeId} (ha : mib.assignment? a = some x) (ht : x.type = some t) :
    mib.InSyntax a t
  | part {t u : TypeId} {n : TypeNode} (ht : mib.InSyntax a t) (hn : mib.type? t = some n)
    (hu : u ∈ n.shape.parts) : mib.InSyntax a u

/-- What stands in the SYNTAX of an assignment depends on the nodes and the types alone. -/
lemma Mib.InSyntax.congr {mib mib' : Mib} (types : mib'.types = mib.types)
    (tops : ∀ i, (mib'.assignment? i).map (·.type) = (mib.assignment? i).map (·.type))
    {a : AssignmentId} {t : TypeId} (h : mib.InSyntax a t) : mib'.InSyntax a t := by
  induction h with
  | top ha ht =>
    have e := tops a
    rw [ha] at e
    obtain ⟨y, hy, e⟩ := Option.map_eq_some_iff.1 e
    exact .top hy (e.trans ht)
  | part _ hn hu ih =>
    refine .part ih ?_ hu
    rwa [Mib.type?, types]

namespace Draft

/-! ## The nodes after lowering -/

section Lowered

variable (d : Draft)

/-- The draft with all definitions lowered. -/
def lowered : Draft := (Lowering.lowerAll d).draft

/-- The references noted while all definitions are lowered. -/
def noted : List PendingReference := (Lowering.lowerAll d).references

/-- The identifiers of the strings after lowering. -/
def stringId : String → StrId := d.lowered.mib.strings.idOf

/-- The blocks of all definitions. -/
def blocks : List LaidBlock := layout d.stringId d.included 0

variable {d}

/-- Lowering continues the draft. -/
lemma continues_lowered (h : d.DefinitionsRegistered) : Continues d d.lowered :=
  (Lowering.laid_lowerAll h).1

/-- From a draft without types, lowering lays out the draft's blocks. -/
lemma laid_blocks (h : d.DefinitionsRegistered) (bare : d.mib.types = #[]) :
    Lowering.Laid d.blocks ⟨d, []⟩ (Lowering.lowerAll d) := by
  have laid := (Lowering.laid_lowerAll h).2 d.stringId (Strings.agrees_idOf _)
  rwa [bare] at laid

/-- The cores of the nodes are those of the blocks. -/
lemma cores_lowered (h : d.DefinitionsRegistered) (bare : d.mib.types = #[]) :
    d.lowered.mib.types.toList.map TypeNode.core = coresOf d.blocks := by
  have types := (laid_blocks h bare).types
  rw [bare] at types
  simp only [lowered, types, coresOf, List.nil_append, List.map_flatMap]
  rfl

/-- The references noted by lowering are those of the draft's blocks, in order. -/
lemma noted_eq (h : d.DefinitionsRegistered) (bare : d.mib.types = #[]) :
    d.noted = referencesOf d.blocks := by
  have references := (laid_blocks h bare).references
  rwa [List.nil_append] at references

/-- Every node stands at its identifier. -/
lemma core_of_type?_lowered (h : d.DefinitionsRegistered) (bare : d.mib.types = #[]) {t : TypeId}
    {n : TypeNode} (hn : d.lowered.mib.type? t = some n) :
    n.id = t ∧ n.core ∈ coresOf d.blocks := by
  obtain ⟨i⟩ := t
  have hc : (coresOf d.blocks)[i]? = some n.core := by
    rw [← cores_lowered h bare, List.getElem?_map, Array.getElem?_toList]
    exact congrArg (Option.map TypeNode.core) hn
  have id := id_of_getElem?_coresOf hc
  rw [Nat.zero_add] at id
  exact ⟨id, List.mem_of_getElem? hc⟩

/-- Every core is that of a node. -/
lemma exists_type?_lowered (h : d.DefinitionsRegistered) (bare : d.mib.types = #[]) {c : NodeCore}
    (hc : c ∈ coresOf d.blocks) : ∃ n, d.lowered.mib.type? c.id = some n ∧ n.core = c := by
  rw [← cores_lowered h bare] at hc
  obtain ⟨n, hn, rfl⟩ := List.mem_map.1 hc
  obtain ⟨i, hi⟩ := List.mem_iff_getElem?.1 hn
  rw [Array.getElem?_toList] at hi
  have at_i : d.lowered.mib.type? ⟨i⟩ = some n := hi
  have id := (core_of_type?_lowered h bare at_i).1
  refine ⟨n, ?_, rfl⟩
  rw [show n.core.id = ⟨i⟩ from id, at_i]

/-- The node of a noted reference. -/
lemma type?_of_mem_noted (h : d.DefinitionsRegistered) (bare : d.mib.types = #[])
    {r : PendingReference} (hr : r ∈ d.noted) :
    ∃ b ∈ d.blocks, b.Covers r.node ∧ r.referrer = b.owner.assignment ∧ ∃ n,
      d.lowered.mib.type? r.node = some n ∧ n.module = r.module ∧
        n.shape = .reference (d.stringId r.symbol) (r.qualifier.map d.stringId) none none := by
  rw [noted_eq h bare] at hr
  obtain ⟨c, b, hb, hc, notes⟩ := exists_notedIn hr
  obtain ⟨n, hn, core⟩ := exists_type?_lowered h bare (List.mem_flatMap.2 ⟨b, hb, hc⟩)
  refine ⟨b, hb, ?_, notes.referrer, n, ?_, ?_, ?_⟩
  · rw [notes.node]
    exact covers_of_mem_cores hb hc
  · rw [notes.node, hn]
  · obtain ⟨j, hj⟩ := List.mem_iff_getElem?.1 hc
    have place := (hangs_of_mem_layout hb).place j c hj
    rw [notes.module, ← place.2, ← core]
    rfl
  · rw [← notes.shape, ← core]
    rfl

/-- The names that a noted reference is written with are stored. -/
lemma find?_of_mem_noted (h : d.DefinitionsRegistered) (bare : d.mib.types = #[])
    {r : PendingReference} (hr : r ∈ d.noted) {s : String}
    (hs : s = r.symbol ∨ r.qualifier = some s) :
    d.lowered.mib.strings.find? s = some (d.stringId s) := by
  cases hi : d.lowered.mib.strings.find? s with
  | some i => exact congrArg some (Strings.agrees_idOf _ s i hi).symm
  | none =>
    -- Were the name not stored, the node could as well have any other identifier for it.
    let ι : String → StrId := fun x => if x = s then ⟨(d.stringId s).index + 1⟩ else d.stringId x
    have agrees : d.lowered.mib.strings.Agrees ι := by
      intro x i hx
      have ne : x ≠ s := by
        rintro rfl
        cases hi.symm.trans hx
      rw [show ι x = d.stringId x from if_neg ne]
      exact Strings.agrees_idOf _ x i hx
    have other := (Lowering.laid_lowerAll h).2 ι agrees
    have cores : coresOf (layout ι d.included 0) = coresOf d.blocks := by
      have types := other.types.symm.trans (laid_blocks h bare).types
      rw [bare] at types
      simpa [coresOf, List.map_flatMap, Block.cores] using congrArg (List.map TypeNode.core) types
    have mem : r ∈ referencesOf (layout ι d.included 0) := by
      have references := other.references
      rw [bare, List.nil_append] at references
      rw [noted, references] at hr
      exact hr
    rw [noted_eq h bare] at hr
    obtain ⟨c, b, hb, hc, notes⟩ := exists_notedIn hr
    obtain ⟨c', b', hb', hc', notes'⟩ := exists_notedIn mem
    have hc'' : c' ∈ coresOf d.blocks := cores ▸ List.mem_flatMap.2 ⟨b', hb', hc'⟩
    obtain rfl := eq_of_id (List.mem_flatMap.2 ⟨b, hb, hc⟩) hc''
      (notes.node.symm.trans notes'.node)
    have shape := notes.shape.symm.trans notes'.shape
    simp only [TypeShape.reference.injEq] at shape
    have same : d.stringId s = ι s := by
      rcases hs with rfl | hs
      · exact shape.1
      · simpa [hs] using shape.2.1
    rw [show ι s = _ from if_pos rfl] at same
    exact absurd (congrArg Ident.index same) (by simp)

/-- Every reference node has been noted. -/
lemma exists_mem_noted (h : d.DefinitionsRegistered) (bare : d.mib.types = #[]) {t : TypeId}
    {n : TypeNode} (hn : d.lowered.mib.type? t = some n) (hr : n.shape.isReference) :
    ∃ r ∈ d.noted, r.node = t := by
  obtain ⟨id, hc⟩ := core_of_type?_lowered h bare hn
  have mem : t ∈ d.noted.map (·.node) := by
    rw [noted_eq h bare, blocks, map_node_referencesOf]
    exact List.mem_map.2 ⟨n.core, List.mem_filter.2 ⟨hc, hr⟩, id⟩
  obtain ⟨r, hr, e⟩ := List.mem_map.1 mem
  exact ⟨r, hr, e⟩

/-- The references are noted in the order of their nodes. -/
lemma pairwise_noted (h : d.DefinitionsRegistered) (bare : d.mib.types = #[]) :
    (d.noted.map (·.node.index)).Pairwise (· < ·) := by
  have e : d.noted.map (·.node.index) =
      ((coresOf d.blocks).filter (·.shape.isReference)).map (·.id.index) := by
    have nodes := congrArg (List.map Ident.index) (map_node_referencesOf d.stringId d.included 0)
    rw [noted_eq h bare, blocks]
    simpa [List.map_map, Function.comp_def] using nodes
  rw [e]
  have sub := (List.filter_sublist (l := coresOf d.blocks) (p := (·.shape.isReference))).map
    (·.id.index)
  have all : (coresOf d.blocks).map (·.id.index) = _ := map_index_coresOf d.stringId d.included 0
  rw [all] at sub
  exact (List.pairwise_lt_range' ..).sublist sub

/-- No node is noted as a reference twice. -/
lemma nodup_noted (h : d.DefinitionsRegistered) (bare : d.mib.types = #[]) :
    (d.noted.map (·.node)).Nodup := by
  have indices := (pairwise_noted h bare).imp Nat.ne_of_lt
  refine List.Nodup.of_map Ident.index ?_
  rwa [List.map_map]

end Lowered

/-! ## The types of the assignments -/

section Assigned

variable {d : Draft}

/-- The node that becomes the type of an assignment. -/
def syntaxType? (d : Draft) (i : AssignmentId) : Option TypeId :=
  (d.blocks.find? (·.owner.assignment = i)).bind (·.top?)

/-- No assignment has two blocks. -/
lemma eq_of_owner {b c : LaidBlock} (hb : b ∈ d.blocks) (hc : c ∈ d.blocks)
    (e : b.owner.assignment = c.owner.assignment) : b = c := by
  have nodup : (d.blocks.map (·.owner.assignment)).Nodup := by
    rw [blocks, map_owner_layout]
    exact d.nodup_included
  exact List.inj_on_of_nodup_map nodup hb hc e

/-- The node that becomes the type is that of the block of the assignment. -/
lemma syntaxType?_of_mem {b : LaidBlock} (hb : b ∈ d.blocks) :
    d.syntaxType? b.owner.assignment = b.top? := by
  unfold syntaxType?
  cases hf : d.blocks.find? (·.owner.assignment = b.owner.assignment) with
  | none =>
    have no := List.find?_eq_none.1 hf b hb
    simp at no
  | some c =>
    have same : c.owner.assignment = b.owner.assignment := by
      simpa using List.find?_some hf
    rw [eq_of_owner (List.mem_of_find?_eq_some hf) hb same]
    rfl

/-- An entry's syntax type is the top of one of the draft's blocks, owned by that entry. -/
lemma exists_block_of_syntaxType? {i : AssignmentId} {t : TypeId} (h : d.syntaxType? i = some t) :
    ∃ b ∈ d.blocks, b.owner.assignment = i ∧ b.top? = some t := by
  obtain ⟨b, hf, ht⟩ := Option.bind_eq_some_iff.1 h
  exact ⟨b, List.mem_of_find?_eq_some hf, by simpa using List.find?_some hf, ht⟩

/-- Lowering gives the assignments their types and changes nothing else about them. -/
lemma assignment?_lowered (h : d.DefinitionsRegistered) (f : d.Fresh) (bare : d.mib.types = #[])
    (i : AssignmentId) :
    d.lowered.mib.assignment? i =
      (d.mib.assignment? i).map fun a => { a with type := d.syntaxType? i } := by
  have laid := laid_blocks h bare
  cases ht : d.syntaxType? i with
  | some t =>
    obtain ⟨b, hb, rfl, top⟩ := exists_block_of_syntaxType? ht
    exact laid.typed b hb t top
  | none =>
    have same : d.lowered.mib.assignment? i = d.mib.assignment? i := by
      refine laid.untyped i fun b hb e => ?_
      rw [← syntaxType?_of_mem hb, e, ht]
    rw [same]
    cases ha : d.mib.assignment? i with
    | none => rfl
    | some a =>
      have none := (f.undecided i a ha).1
      rw [Option.map_some, ← none]

/-- What has been refused is left out, and nothing else is. -/
lemma isIncluded_iff (h : d.DefinitionsRegistered) (f : d.Fresh) {i : AssignmentId} {m : ModuleId}
    {x : Definition} (hx : d.owner? i = some (m, x)) :
    d.isIncluded i = !d.isRefused i := by
  obtain ⟨a, ha, -, -⟩ := h.exists_assignment hx
  have state := (f.undecided i a ha).2.2
  simp only [isIncluded, ha, Option.any_some, state]
  cases d.isRefused i <;> rfl

/-- An assignment has a type if it has a SYNTAX and has not been refused. -/
lemma isSome_syntaxType? (h : d.DefinitionsRegistered) (f : d.Fresh) {i : AssignmentId}
    {m : ModuleId} {x : Definition} (hx : d.owner? i = some (m, x)) :
    (d.syntaxType? i).isSome = (x.body?.isSome && !d.isRefused i) := by
  have included := isIncluded_iff h f hx
  cases hr : d.isRefused i with
  | true =>
    rw [hr, Bool.not_true] at included
    cases ht : d.syntaxType? i with
    | none => simp
    | some t =>
      obtain ⟨b, hb, rfl, -⟩ := exists_block_of_syntaxType? ht
      obtain ⟨y, hy, -⟩ := mem_of_mem_layout hb
      have inc := (List.mem_filter.1 hy).2
      rw [included] at inc
      cases inc
  | false =>
    rw [hr, Bool.not_false] at included
    have mem : (i, m, x) ∈ d.included := List.mem_filter.2 ⟨mem_definitions.2 hx, included⟩
    obtain ⟨b, hb, owner, e⟩ : ∃ b ∈ d.blocks, b.owner = ⟨m, i⟩ ∧
        (b.top?, b.block) = definitionBlock d.stringId ⟨m, i⟩ x b.start := exists_mem_layout mem
    have top := syntaxType?_of_mem (d := d) hb
    rw [show b.owner.assignment = i by rw [owner]] at top
    rw [top, show b.top? = _ from congrArg Prod.fst e, isSome_definitionBlock]
    simp

end Assigned

/-! ## The draft after the phase -/

section Typed

variable (d : Draft) (r : Recorder)

/-- The references that the sweeps leave over, with the draft and the recorder after them. -/
def swept : List PendingReference × Draft × Recorder := referenceRule.run 0 d.noted d.lowered r

/-- The references that stay unbound. -/
def unboundReferences : List PendingReference := (d.swept r).2.1.unbindable (d.swept r).1

/-- The draft with all references settled. -/
def boundDraft : Draft := (settleLeftReferences (d.swept r).1 (d.swept r).2.1 (d.swept r).2.2).1

/-- The problem of a reference that the sweeps leave over, if it stays unbound. -/
def leftProblem? (p : PendingReference) : Option Problem :=
  (d.swept r).2.1.problemOf? (p, (d.swept r).2.1.judgeReference (d.swept r).1 p)

/-- Typing is binding, then settling the states of types, then those of assignments. -/
lemma resolveTypes_eq :
    (d.resolveTypes r).1 = (d.boundDraft r).settleTypes.settleTypeAssignments := rfl

variable {d r}

/-- The bound draft arises from the lowered one by binding all but the unbound references. -/
lemma binds_boundDraft (h : d.DefinitionsRegistered) (bare : d.mib.types = #[]) :
    Binds d.lowered d.noted (d.unboundReferences r) (d.boundDraft r) := by
  have distinct := nodup_noted h bare
  exact ((binds_run d.lowered d.noted distinct r).1.settleLeft distinct _).1

/-- The problems of the phase: the defects of the constraints and the unbound references. -/
lemma problems_boundDraft (h : d.DefinitionsRegistered) (bare : d.mib.types = #[]) :
    (d.boundDraft r).mib.problems.toList = d.mib.problems.toList ++
      ((d.blocks.flatMap fun b => b.block.defects.map (d.problemAbout · b.owner.assignment)) ++
        (d.swept r).1.filterMap (d.leftProblem? r)) := by
  have distinct := nodup_noted h bare
  obtain ⟨b, p⟩ := binds_run d.lowered d.noted distinct r
  have left := (b.settleLeft distinct (d.swept r).2.2).2
  rw [show (d.boundDraft r).mib.problems.toList = _ from left, p,
    show d.lowered.mib.problems.toList = _ from (laid_blocks h bare).problems, List.append_assoc,
    verdicts, List.filterMap_map]
  rfl

/-- The sweep that binds references keeps the registry. -/
lemma registry_swept (h : d.DefinitionsRegistered) (bare : d.mib.types = #[]) :
    (d.swept r).2.1.registry = d.registry := by
  have b := (binds_run d.lowered d.noted (nodup_noted h bare) r).1
  exact b.registry.trans (continues_lowered h).registry

/-- The phase keeps what is registered. -/
lemma continues_resolveTypes (h : d.DefinitionsRegistered) (bare : d.mib.types = #[]) :
    Continues d (d.resolveTypes r).1 := by
  have b := binds_boundDraft (r := r) h bare
  have c := continues_lowered h
  rw [resolveTypes_eq]
  refine ⟨?_, ?_⟩
  · refine Eq.trans ?_ (b.registry.trans c.registry)
    have e : ((d.boundDraft r).settleTypes.settleTypeAssignments).mib.assignments.map
        Assignment.heading = (d.boundDraft r).mib.assignments.map Assignment.heading := by
      simp only [settleTypeAssignments, settleTypes, Array.map_map]
      refine Array.map_congr_left fun a _ => ?_
      simp only [Function.comp_apply]
      split <;> rfl
    simp only [registry, e]
    rfl
  · rw [show ((d.boundDraft r).settleTypes.settleTypeAssignments).mib.strings = _ from b.strings]
    exact c.strings

/-- After lowering, typing interns no string. -/
lemma strings_resolveTypes (h : d.DefinitionsRegistered) (bare : d.mib.types = #[]) :
    (d.resolveTypes r).1.mib.strings = d.lowered.mib.strings :=
  (binds_boundDraft (r := r) h bare).strings

/-- Typing keeps the scope. -/
lemma scope_resolveTypes (h : d.DefinitionsRegistered) (bare : d.mib.types = #[]) :
    (d.resolveTypes r).1.scope = d.scope := by
  have b := binds_boundDraft (r := r) h bare
  exact b.scope.trans (laid_blocks h bare).scope

/-- Typing leaves each type as binding left it, with its settled state. -/
lemma type?_resolveTypes (t : TypeId) :
    (d.resolveTypes r).1.mib.type? t = ((d.boundDraft r).mib.type? t).map fun n =>
      { n with state := TypeStates.stateOf (d.boundDraft r).mib.types t } :=
  TypeStates.getElem?_settle _ _

/-- The states of the type assignments are those of their types. -/
lemma assignment?_resolveTypes (h : d.DefinitionsRegistered) (bare : d.mib.types = #[])
    (i : AssignmentId) :
    (d.resolveTypes r).1.mib.assignment? i = (d.lowered.mib.assignment? i).map fun a =>
      if a.kind.isType && a.state == .pending
      then { a with state := typeState (d.resolveTypes r).1.mib a } else a := by
  have b := binds_boundDraft (r := r) h bare
  rw [resolveTypes_eq, settleTypeAssignments]
  simp only [Mib.assignment?, Array.getElem?_map, settleTypes, b.assignments]
  rfl

/-- A node after the phase: it is as it was laid, or it is bound to what its name stands for. -/
inductive NodeTyped (d : Draft) (unbound : List PendingReference) (t : TypeId) (n : TypeNode) :
    Prop where
  | laid (m : TypeNode) (hm : d.lowered.mib.type? t = some m) (e : n = { m with state := n.state })
    (waits : m.shape.isReference → ∃ p ∈ unbound, p.node = t)
  | bound (m : TypeNode) (hm : d.lowered.mib.type? t = some m) (p : PendingReference)
    (hp : p ∈ d.noted) (node : p.node = t) (target : TypeTarget)
    (ht : d.lowered.targetOf? p = some target)
    (e : n = { m.bindTo p target with state := n.state })

/-- Every node is as it was laid or bound to what its name stands for. -/
lemma nodeTyped (h : d.DefinitionsRegistered) (bare : d.mib.types = #[]) {t : TypeId}
    {n : TypeNode} (hn : (d.resolveTypes r).1.mib.type? t = some n) :
    NodeTyped d (d.unboundReferences r) t n := by
  have b := binds_boundDraft (r := r) h bare
  rw [type?_resolveTypes] at hn
  obtain ⟨m, hm, rfl⟩ := Option.map_eq_some_iff.1 hn
  by_cases hp : ∃ p ∈ d.noted, p.node = t
  · obtain ⟨p, hp, node⟩ := hp
    by_cases hu : p ∈ d.unboundReferences r
    · have same := b.waiting p hu
      rw [node, hm] at same
      exact .laid m same.symm rfl fun _ => ⟨p, hu, node⟩
    · obtain ⟨target, ht, e⟩ := b.bound p hp hu
      rw [node, hm] at e
      obtain ⟨o, ho, e⟩ := Option.map_eq_some_iff.1 e.symm
      exact .bound o ho p hp node target ht (by rw [e])
  · have none : ∀ p ∈ d.noted, p.node ≠ t := fun p hp' node => hp ⟨p, hp', node⟩
    have same := b.others t none
    rw [hm] at same
    refine .laid m same.symm rfl fun hr => ?_
    obtain ⟨p, hp, node⟩ := exists_mem_noted h bare same.symm hr
    exact absurd node (none p hp)

/-- What a node is written with is decided by lowering. -/
lemma parts_resolveTypes (h : d.DefinitionsRegistered) (bare : d.mib.types = #[]) (t : TypeId) :
    ((d.resolveTypes r).1.mib.type? t).map (·.shape.parts) =
      (d.lowered.mib.type? t).map (·.shape.parts) := by
  have b := binds_boundDraft (r := r) h bare
  cases hn : (d.resolveTypes r).1.mib.type? t with
  | none =>
    have size : (d.boundDraft r).mib.types.size ≤ t.index := by
      rw [type?_resolveTypes, Option.map_eq_none_iff] at hn
      exact Array.getElem?_eq_none_iff.1 hn
    rw [b.size] at size
    rw [Mib.type?, Array.getElem?_eq_none size]
  | some n =>
    cases nodeTyped h bare hn with
    | laid m hm e _ => rw [hm, e]; rfl
    | bound m hm p _ _ target _ e =>
      rw [hm, e]
      simp only [Option.map_some, Option.some.injEq, TypeNode.bindTo]
      split
      next shape => simp [shape, TypeShape.parts]
      next => rfl

/-- An assignment after the phase has the type that lowering gave it. -/
lemma type_of_assignment?_resolveTypes (h : d.DefinitionsRegistered) (f : d.Fresh)
    (bare : d.mib.types = #[]) (i : AssignmentId) :
    ((d.resolveTypes r).1.mib.assignment? i).map (·.type) =
      (d.mib.assignment? i).map fun _ => d.syntaxType? i := by
  rw [assignment?_resolveTypes h bare, assignment?_lowered h f bare, Option.map_map, Option.map_map]
  cases d.mib.assignment? i with
  | none => rfl
  | some a =>
    simp only [Option.map_some, Function.comp_apply]
    split <;> rfl

/-- A node stands in the SYNTAX of the assignment whose block covers it. -/
lemma inSyntax_iff (h : d.DefinitionsRegistered) (f : d.Fresh) (bare : d.mib.types = #[])
    {a : AssignmentId} {t : TypeId} :
    (d.resolveTypes r).1.mib.InSyntax a t ↔
      ∃ b ∈ d.blocks, b.owner.assignment = a ∧ b.Covers t := by
  have parts := parts_resolveTypes (r := r) h bare
  have types := type_of_assignment?_resolveTypes (r := r) h f bare a
  refine ⟨fun ht => ?_, ?_⟩
  -- The parts of a node stand in its block, so the block that covers the top covers all.
  · induction ht with
    | top ha ht =>
      rw [ha, Option.map_some] at types
      obtain ⟨_, -, e⟩ := Option.map_eq_some_iff.1 types.symm
      obtain ⟨b, hb, owner, top⟩ := exists_block_of_syntaxType? (e.trans ht)
      exact ⟨b, hb, owner, covers_top hb top⟩
    | @part t u n _ hn hu ih =>
      obtain ⟨b, hb, owner, covers⟩ := ih
      have same := parts t
      rw [hn, Option.map_some] at same
      obtain ⟨m, hm, e⟩ := Option.map_eq_some_iff.1 same.symm
      obtain ⟨id, mem⟩ := core_of_type?_lowered h bare hm
      refine ⟨b, hb, owner, covers_of_isPart hb covers ⟨m.core, mem, id, ?_⟩⟩
      rw [← e] at hu
      exact hu
  · rintro ⟨b, hb, rfl, covers⟩
    obtain ⟨c, hc, rfl⟩ := exists_mem_cores_of_covers hb covers
    obtain ⟨t, top, path⟩ := exists_top_goesDown hb hc
    obtain ⟨x, hx, -⟩ := mem_of_mem_layout hb
    obtain ⟨o, ho, -, -⟩ := h.exists_assignment (mem_definitions.1 (List.mem_filter.1 hx).1)
    rw [ho, Option.map_some, syntaxType?_of_mem hb, top] at types
    obtain ⟨y, hy, type⟩ := Option.map_eq_some_iff.1 types
    generalize c.id = u at path
    -- The layout knows a way down from the top to the node, and typing keeps every step of it.
    induction path with
    | refl => exact .top hy type
    | tail _ step ih =>
      obtain ⟨e, he, rfl, hw⟩ := step
      obtain ⟨m, hm, rfl⟩ := exists_type?_lowered h bare he
      have same := parts m.core.id
      rw [hm, Option.map_some] at same
      obtain ⟨n, hn, e⟩ := Option.map_eq_some_iff.1 same
      exact .part ih hn (e ▸ hw)

end Typed

end Draft

end MibCorpus
