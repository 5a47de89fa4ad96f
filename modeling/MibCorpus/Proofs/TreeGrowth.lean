import MibCorpus.OidTree.Build
import MibCorpus.Proofs.Prefixes

/-!
# How the tree grows

A node is known from the list of the OIDs that have nodes and the claimants of its own OID: it
stands where its OID is listed, points to where the OID above is listed, and has as children those
that point to it. Adding a claim keeps this up, so the finished tree is read off the prefixes of the
claims.
-/

namespace MibCorpus

namespace Oid

/-- Where an identifier stands in a list. -/
def placeIn (os : List Oid) (o : Oid) : Option NodeId := (os.findIdx? (· = o)).map Ident.mk

/-- Where the identifiers right below one stand in a list, or those of one arc. -/
def placesBelow (os : List Oid) (above : Option Oid) : List NodeId :=
  os.zipIdx.filterMap fun x => if x.1.parent? = above then some ⟨x.2⟩ else none

/-- A further OID is placed behind the others, unless it is among them already. -/
lemma placeIn_append (os : List Oid) (o p : Oid) :
    placeIn (os ++ [p]) o = (placeIn os o).or (if p = o then some ⟨os.length⟩ else none) := by
  unfold placeIn
  rw [List.findIdx?_append]
  cases os.findIdx? (· = o) with
  | some i => rfl
  | none => by_cases h : p = o <;> simp [h]

/-- An OID that is not in the list has no place. -/
lemma placeIn_eq_none {os : List Oid} {o : Oid} : placeIn os o = none ↔ o ∉ os := by
  simp only [placeIn, Option.map_eq_none_iff, List.findIdx?_eq_none_iff, decide_eq_false_iff_not]
  exact ⟨fun h ho => h o ho rfl, fun h p hp e => h (e ▸ hp)⟩

/-- The OID stands at its place. -/
lemma getElem?_of_placeIn {os : List Oid} {o : Oid} {i : NodeId} (h : placeIn os o = some i) :
    os[i.index]? = some o := by
  obtain ⟨j, hj, rfl⟩ := Option.map_eq_some_iff.1 h
  obtain ⟨lt, at_j, -⟩ := List.findIdx?_eq_some_iff_getElem.1 hj
  rw [List.getElem?_eq_getElem lt]
  exact congrArg some (by simpa using at_j)

/-- The place of an OID is the one position that it has. -/
lemma placeIn_eq_some_iff {os : List Oid} (nodup : os.Nodup) {o : Oid} {i : NodeId} :
    placeIn os o = some i ↔ os[i.index]? = some o := by
  refine ⟨getElem?_of_placeIn, fun h => ?_⟩
  cases hp : placeIn os o with
  | none => exact absurd (List.mem_of_getElem? h) (placeIn_eq_none.1 hp)
  | some j =>
    have lt := (List.getElem?_eq_some_iff.1 h).1
    have same := (List.getElem?_inj lt nodup).1 (h.trans (getElem?_of_placeIn hp).symm)
    cases i
    cases j
    exact congrArg (some ∘ Ident.mk) same.symm

/-- A further OID is listed below its parent. -/
lemma placesBelow_append (os : List Oid) (p : Oid) (above : Option Oid) :
    placesBelow (os ++ [p]) above =
      placesBelow os above ++ if p.parent? = above then [⟨os.length⟩] else [] := by
  rw [placesBelow, List.zipIdx_append, List.filterMap_append]
  refine congrArg (placesBelow os above ++ ·) ?_
  by_cases h : p.parent? = above <;> simp [h]

/-- The places below an OID are the positions of its children. -/
lemma mem_placesBelow {os : List Oid} {above : Option Oid} {i : NodeId} :
    i ∈ placesBelow os above ↔ ∃ o, os[i.index]? = some o ∧ o.parent? = above := by
  rw [placesBelow, List.mem_filterMap]
  constructor
  · rintro ⟨⟨o, j⟩, ho, e⟩
    split at e
    next h =>
      cases e
      exact ⟨o, List.mem_zipIdx_iff_getElem?.1 ho, h⟩
    next => cases e
  · rintro ⟨o, ho, h⟩
    exact ⟨(o, i.index), List.mem_zipIdx_iff_getElem?.2 ho, by rw [if_pos h]⟩

end Oid

/-! ## Nodes -/

/-- The node of an OID that stands at place `i` of a list. -/
def OidNode.listed (os : List Oid) (claimants : Oid → List AssignmentId) (i : Nat) (o : Oid) :
    OidNode where
  id := ⟨i⟩
  arc := o.lastArc?.getD 0
  parent := o.parent?.bind (Oid.placeIn os)
  children := Oid.placesBelow os (some o)
  definition := (claimants o).head?
  shadowed := (claimants o).tail

/-- The tree of a model has the nodes of some OIDs with some claimants. -/
structure Mib.HasTree (mib : Mib) (os : List Oid) (claimants : Oid → List AssignmentId) :
    Prop where
  nodes : ∀ i : Nat, mib.nodes[i]? = (os[i]?).map (.listed os claimants i)
  roots : mib.roots = Oid.placesBelow os none
  index : ∀ o, mib.oidIndex.find? o = Oid.placeIn os o

/-- A path that the tree of some OIDs can be entered by. -/
def Oid.IsKnown (os : List Oid) (path : Oid) : Prop := path = .root ∨ path ∈ os

/-- A builder whose tree has the nodes of some OIDs and which finds all of them. -/
structure TreeBuilder.Grown (b : TreeBuilder) (os : List Oid)
    (claimants : Oid → List AssignmentId) : Prop where
  tree : b.mib.HasTree os claimants
  found : ∀ path, Oid.IsKnown os path → ∀ a,
    b.nodes.find? (Oid.placeIn os path, a) = Oid.placeIn os (path.child a)
  fresh : ∀ (i : NodeId) (a : Arc), os.length ≤ i.index → b.nodes.find? (some i, a) = none
  nodup : os.Nodup
  proper : .root ∉ os
  closed : Claim.Closed os

/-- What a new node changes about the others: its parent has it as its last child. -/
def OidNode.withChild (n : OidNode) (parent : Option NodeId) (child : NodeId) : OidNode :=
  if parent = some n.id then { n with children := n.children ++ [child] } else n

/-- The nodes of a model with one more. -/
lemma Mib.getElem?_nodes_addNode (mib : Mib) (oid : Oid) (arc : Arc) (parent : Option NodeId)
    (ids : ∀ (i : Nat) (n : OidNode), mib.nodes[i]? = some n → n.id = ⟨i⟩)
    (known : ∀ p, parent = some p → p.index < mib.nodes.size) (i : Nat) :
    (mib.addNode oid arc parent).2.nodes[i]? =
      if i = mib.nodes.size then some (.unnamed ⟨mib.nodes.size⟩ arc parent)
      else (mib.nodes[i]?).map (·.withChild parent ⟨mib.nodes.size⟩) := by
  cases parent with
  | none =>
    simp only [Mib.addNode, Array.getElem?_push, OidNode.withChild, reduceCtorEq, if_false,
      Option.map_id']
  | some p =>
    have lt := known p rfl
    simp only [Mib.addNode, Mib.modifyNode, Array.getElem?_modify, Array.getElem?_push]
    by_cases hi : i = mib.nodes.size
    · rw [if_neg (by omega), if_pos hi, if_pos hi]
    · rw [if_neg hi, if_neg hi]
      cases hn : mib.nodes[i]? with
      | none => simp
      | some n =>
        have id := ids i n hn
        by_cases hp : p.index = i
        · have same : p = n.id := by rw [id, ← hp]
          simp [hp, OidNode.withChild, ← same]
        · have other : p ≠ n.id := fun e => hp (by rw [e, id])
          simp [hp, OidNode.withChild, other]

/-- A node without a parent is a further root. -/
lemma Mib.roots_addNode (mib : Mib) (oid : Oid) (arc : Arc) (parent : Option NodeId) :
    (mib.addNode oid arc parent).2.roots =
      mib.roots ++ if parent = none then [⟨mib.nodes.size⟩] else [] := by
  cases parent <;> simp [Mib.addNode, Mib.modifyNode]

/-- The new node is found at its OID. -/
lemma Mib.oidIndex_addNode (mib : Mib) (oid : Oid) (arc : Arc) (parent : Option NodeId) :
    (mib.addNode oid arc parent).2.oidIndex = mib.oidIndex.insert oid ⟨mib.nodes.size⟩ := by
  cases parent <;> rfl

/-- The new node gets the next identifier. -/
lemma Mib.fst_addNode (mib : Mib) (oid : Oid) (arc : Arc) (parent : Option NodeId) :
    (mib.addNode oid arc parent).1 = ⟨mib.nodes.size⟩ := by
  cases parent <;> rfl

namespace TreeBuilder

variable {b : TreeBuilder} {os : List Oid} {claimants : Oid → List AssignmentId} {path : Oid}

/-- There are as many nodes as OIDs that were added. -/
lemma Grown.size (h : b.Grown os claimants) : b.mib.nodes.size = os.length := by
  rcases Nat.lt_trichotomy b.mib.nodes.size os.length with lt | eq | gt
  · have e := h.tree.nodes b.mib.nodes.size
    rw [Array.getElem?_eq_none (Nat.le_refl _), List.getElem?_eq_getElem lt] at e
    cases e
  · exact eq
  · have e := h.tree.nodes os.length
    rw [List.getElem?_eq_none (Nat.le_refl _), Array.getElem?_eq_getElem gt] at e
    cases e

/-- What has a place is in the list, and the place is within it. -/
lemma mem_of_placeIn {o : Oid} {i : NodeId} (h : Oid.placeIn os o = some i) :
    o ∈ os ∧ i.index < os.length := by
  have at_i := Oid.getElem?_of_placeIn h
  exact ⟨List.mem_of_getElem? at_i, (List.getElem?_eq_some_iff.1 at_i).1⟩

/-- A known path leads to a node unless it is empty. -/
lemma Grown.placeIn_eq_none_iff (h : b.Grown os claimants) (known : Oid.IsKnown os path) :
    Oid.placeIn os path = none ↔ path = .root := by
  rw [Oid.placeIn_eq_none]
  rcases known with rfl | mem
  · exact iff_of_true h.proper rfl
  · refine iff_of_false (not_not.2 mem) ?_
    rintro rfl
    exact h.proper mem

/-- Different paths into the tree lead to different nodes. -/
lemma Grown.eq_of_placeIn (h : b.Grown os claimants) {p : Oid} (known : Oid.IsKnown os path)
    (known' : Oid.IsKnown os p) (e : Oid.placeIn os path = Oid.placeIn os p) : path = p := by
  cases hi : Oid.placeIn os path with
  | none =>
    rw [(h.placeIn_eq_none_iff known).1 hi, (h.placeIn_eq_none_iff known').1 (e.symm.trans hi)]
  | some i =>
    have at_i := Oid.getElem?_of_placeIn hi
    have at_i' := Oid.getElem?_of_placeIn (e.symm.trans hi)
    exact Option.some.inj (at_i.symm.trans at_i')

/-- The parent of a child is the OID itself. The root does not count as a parent. -/
lemma parent?_child_eq_some_iff {a : Arc} {o : Oid} (ne : o ≠ .root) :
    (path.child a).parent? = some o ↔ path = o := by
  rw [Oid.parent?_child]
  split
  next empty =>
    have root : path = .root := by
      cases path
      simpa [Oid.isEmpty, Oid.root] using empty
    rw [root]
    exact iff_of_false (by simp) ne.symm
  next => exact Option.some_inj

/-- A child of the root has no parent. -/
lemma parent?_child_eq_none_iff {a : Arc} : (path.child a).parent? = none ↔ path = .root := by
  rw [Oid.parent?_child]
  obtain ⟨as⟩ := path
  cases as <;> simp [Oid.isEmpty, Oid.root]

/-- The parent of a child stands where the path to it leads. -/
lemma Grown.parent_child (h : b.Grown os claimants) (path : Oid) (a : Arc) :
    (path.child a).parent?.bind (Oid.placeIn os) = Oid.placeIn os path := by
  cases hp : (path.child a).parent? with
  | none =>
    rw [parent?_child_eq_none_iff.1 hp, Oid.placeIn_eq_none.2 h.proper]
    rfl
  | some o =>
    have ne : path ≠ .root := by
      intro root
      rw [parent?_child_eq_none_iff.2 root] at hp
      cases hp
    rw [(parent?_child_eq_some_iff ne).2 rfl] at hp
    rw [← Option.some.inj hp]
    rfl

/-- The parents of OIDs in the list are in the list. -/
lemma mem_of_parent? (closed : Claim.Closed os) {o p : Oid} (ho : o ∈ os)
    (hp : o.parent? = some p) : p ∈ os := by
  unfold Oid.parent? at hp
  split at hp
  · cases hp
  next long =>
    cases hp
    refine closed o ho _ (List.dropLast_prefix _) ?_
    intro root
    have none := congrArg (List.length ∘ Oid.arcs) root
    simp [Oid.root] at none
    omega

/-- A list of OIDs with a new one below a known path. -/
structure Extended (os : List Oid) (path : Oid) (a : Arc) : Prop where
  known : Oid.IsKnown os path
  new : path.child a ∉ os

/-- OIDs that are known keep their places when one is added. -/
lemma Extended.placeIn (e : Extended os path a) {o : Oid} (ho : Oid.IsKnown os o) :
    Oid.placeIn (os ++ [path.child a]) o = Oid.placeIn os o := by
  have ne : path.child a ≠ o := by
    rintro rfl
    exact ho.elim (Oid.child_ne_root path a) e.new
  rw [Oid.placeIn_append, if_neg ne, Option.or_none]

/-- The new OID has the last place. -/
lemma Extended.placeIn_self (e : Extended os path a) :
    Oid.placeIn (os ++ [path.child a]) (path.child a) = some ⟨os.length⟩ := by
  rw [Oid.placeIn_append, Oid.placeIn_eq_none.2 e.new, if_pos rfl]
  rfl

/-- A new node is listed without children and without a claimant. -/
lemma Grown.listed_new (h : b.Grown os claimants) {a : Arc} (e : Extended os path a)
    (unclaimed : claimants (path.child a) = []) :
    OidNode.listed (os ++ [path.child a]) claimants os.length (path.child a) =
      .unnamed ⟨os.length⟩ a (Oid.placeIn os path) := by
  have childless : Oid.placesBelow (os ++ [path.child a]) (some (path.child a)) = [] := by
    refine List.eq_nil_iff_forall_not_mem.2 fun j hj => ?_
    obtain ⟨o, ho, hp⟩ := Oid.mem_placesBelow.1 hj
    rcases List.mem_append.1 (List.mem_of_getElem? ho) with mem | mem
    -- The OIDs are closed, so a child of the new OID would have brought it with it.
    · exact e.new (mem_of_parent? h.closed mem hp)
    · rw [List.mem_singleton.1 mem] at hp
      have same := (parent?_child_eq_some_iff (Oid.child_ne_root path a)).1 hp
      exact Oid.ne_child path a same
  have parent : (path.child a).parent?.bind (Oid.placeIn (os ++ [path.child a])) =
      Oid.placeIn os path := by
    rw [← h.parent_child path a]
    refine Option.bind_congr fun p hp => e.placeIn ?_
    by_cases root : path = .root
    · rw [parent?_child_eq_none_iff.2 root] at hp
      cases hp
    · rw [(parent?_child_eq_some_iff root).2 rfl] at hp
      exact Option.some.inj hp ▸ e.known
  simp [OidNode.listed, OidNode.unnamed, Oid.lastArc?, childless, parent, unclaimed]

/-- A node that was there is listed with the new one as its last child if that is below it. -/
lemma Grown.listed_old (h : b.Grown os claimants) {a : Arc} (e : Extended os path a) {i : Nat}
    {o : Oid} (ho : os[i]? = some o) :
    OidNode.listed (os ++ [path.child a]) claimants i o =
      (OidNode.listed os claimants i o).withChild (Oid.placeIn os path) ⟨os.length⟩ := by
  have mem := List.mem_of_getElem? ho
  have ne : o ≠ .root := fun root => h.proper (root ▸ mem)
  have parent : o.parent?.bind (Oid.placeIn (os ++ [path.child a])) =
      o.parent?.bind (Oid.placeIn os) :=
    Option.bind_congr fun p hp => e.placeIn (.inr (mem_of_parent? h.closed mem hp))
  have child : (path.child a).parent? = some o ↔ Oid.placeIn os path = some ⟨i⟩ := by
    rw [parent?_child_eq_some_iff ne, Oid.placeIn_eq_some_iff h.nodup, ho, Option.some_inj,
      eq_comm]
  have id : (OidNode.listed os claimants i o).id = ⟨i⟩ := rfl
  rw [OidNode.withChild, id, OidNode.listed, parent, Oid.placesBelow_append]
  by_cases place : Oid.placeIn os path = some ⟨i⟩
  · rw [if_pos place, if_pos (child.2 place)]
    rfl
  · rw [if_neg place, if_neg (mt child.1 place), List.append_nil]
    rfl

/-- A new node is the last, and its parent has it as its last child. -/
lemma Grown.hasTree_addNode (h : b.Grown os claimants) {a : Arc} (e : Extended os path a)
    (unclaimed : claimants (path.child a) = []) :
    (b.mib.addNode (path.child a) a (Oid.placeIn os path)).2.HasTree (os ++ [path.child a])
      claimants where
  nodes i := by
    have size := h.size
    have ids : ∀ (i : Nat) (n : OidNode), b.mib.nodes[i]? = some n → n.id = ⟨i⟩ := by
      intro i n hn
      rw [h.tree.nodes, Option.map_eq_some_iff] at hn
      obtain ⟨o, -, rfl⟩ := hn
      rfl
    rw [Mib.getElem?_nodes_addNode _ _ _ _ ids fun p hp => size ▸ (mem_of_placeIn hp).2, size,
      h.tree.nodes]
    rcases Nat.lt_trichotomy i os.length with lt | rfl | gt
    · have ho := List.getElem?_eq_getElem lt
      rw [if_neg (Nat.ne_of_lt lt), List.getElem?_append_left lt, ho]
      exact congrArg some (h.listed_old e ho).symm
    · rw [if_pos rfl, List.getElem?_concat_length]
      exact congrArg some (h.listed_new e unclaimed).symm
    · rw [if_neg (Nat.ne_of_gt gt), List.getElem?_eq_none (Nat.le_of_lt gt), List.getElem?_eq_none]
      · rfl
      · rw [List.length_append, List.length_singleton]
        omega
  roots := by
    rw [Mib.roots_addNode, h.tree.roots, Oid.placesBelow_append, h.size]
    simp only [h.placeIn_eq_none_iff e.known, parent?_child_eq_none_iff]
  index o := by
    rw [Mib.oidIndex_addNode, Table.find?_insert, h.tree.index, Oid.placeIn_append, h.size]
    by_cases ho : path.child a = o
    · rw [if_pos ho, if_pos ho, ← ho, Oid.placeIn_eq_none.2 e.new]
      rfl
    · rw [if_neg ho, if_neg ho, Option.or_none]

/-- Adding a new node below a known path. -/
lemma Grown.addNode (h : b.Grown os claimants) {a : Arc} (e : Extended os path a)
    (unclaimed : claimants (path.child a) = []) :
    Grown ⟨(b.mib.addNode (path.child a) a (Oid.placeIn os path)).2,
      b.nodes.insert (Oid.placeIn os path, a) ⟨os.length⟩⟩ (os ++ [path.child a]) claimants where
  tree := h.hasTree_addNode e unclaimed
  found p known c := by
    rw [Table.find?_insert]
    by_cases hp : Oid.IsKnown os p
    · rw [e.placeIn hp, Oid.placeIn_append, h.found p hp]
      by_cases same : path = p ∧ a = c
      · obtain ⟨rfl, rfl⟩ := same
        rw [if_pos rfl, if_pos rfl, Oid.placeIn_eq_none.2 e.new]
        rfl
      · have other : path.child a ≠ p.child c := by
          intro eq
          have arcs := List.append_inj' (congrArg Oid.arcs eq) rfl
          obtain ⟨bs⟩ := path
          obtain ⟨cs⟩ := p
          exact same ⟨congrArg Oid.mk arcs.1, by simpa using arcs.2⟩
        rw [if_neg, if_neg other, Option.or_none]
        intro eq
        obtain ⟨place, arc⟩ := Prod.mk.injEq .. ▸ eq
        exact same ⟨h.eq_of_placeIn e.known hp place, arc⟩
    · -- Nothing lies below the new node yet.
      have last : p = path.child a := by
        rcases known with rfl | mem
        · exact absurd (.inl rfl) hp
        · exact (List.mem_append.1 mem).elim (fun hm => absurd (.inr hm) hp) List.mem_singleton.1
      subst last
      rw [e.placeIn_self, if_neg, h.fresh _ _ (Nat.le_refl _)]
      · refine (Oid.placeIn_eq_none.2 fun mem => ?_).symm
        rcases List.mem_append.1 mem with mem | mem
        · exact e.new (h.closed _ mem _ (Oid.above_child _ c) (Oid.child_ne_root path a))
        · exact (Oid.ne_child _ c) (List.mem_singleton.1 mem).symm
      · intro eq
        exact absurd (mem_of_placeIn (Prod.mk.injEq .. ▸ eq).1).2 (Nat.lt_irrefl _)
  fresh i c hi := by
    rw [List.length_append, List.length_singleton] at hi
    rw [Table.find?_insert, if_neg, h.fresh i c (by omega)]
    intro eq
    have lt := (mem_of_placeIn (Prod.mk.injEq .. ▸ eq).1).2
    omega
  nodup := by
    refine List.nodup_append.2 ⟨h.nodup, List.nodup_singleton _, fun q hq p hp => ?_⟩
    obtain rfl := List.mem_singleton.1 hp
    rintro rfl
    exact e.new hq
  proper mem := by
    rcases List.mem_append.1 mem with mem | mem
    · exact h.proper mem
    · exact Oid.child_ne_root path a (List.mem_singleton.1 mem).symm
  closed := h.closed.add e.known a

/-! ## Claims -/

/-- Going down adds the nodes on the way that are missing and ends at the last. -/
lemma Grown.descend (h : b.Grown os claimants) (known : Oid.IsKnown os path) (as : List Arc)
    (unclaimed : ∀ o, o ≠ .root → o ∉ os → claimants o = []) :
    (b.descend path (Oid.placeIn os path) as).2.Grown (Claim.grow os path as) claimants ∧
      (b.descend path (Oid.placeIn os path) as).1 =
        Oid.placeIn (Claim.grow os path as) (path.extend as) := by
  induction as generalizing b os path with
  | nil => exact ⟨h, by rw [show path.extend [] = path by simp [Oid.extend]]; rfl⟩
  | cons a as ih =>
    have there := h.found path known a
    rw [TreeBuilder.descend, TreeBuilder.ensure, there, Claim.grow, ← Oid.child_extend]
    by_cases mem : path.child a ∈ os
    · obtain ⟨n, hn⟩ := Option.ne_none_iff_exists'.1 (mt Oid.placeIn_eq_none.1 (not_not.2 mem))
      have entered : Oid.IsKnown os (path.child a) := .inr mem
      have rest := ih h entered unclaimed
      rw [hn] at rest ⊢
      rw [if_pos mem]
      exact rest
    · have e : Extended os path a := ⟨known, mem⟩
      have added := h.addNode e (unclaimed _ (Oid.child_ne_root path a) mem)
      have entered : Oid.IsKnown (os ++ [path.child a]) (path.child a) := .inr (by simp)
      have rest := ih added entered fun o ne absent =>
        unclaimed o ne fun ho => absent (List.mem_append_left _ ho)
      rw [e.placeIn_self] at rest
      rw [Oid.placeIn_eq_none.2 mem, if_neg mem]
      simp only [Mib.fst_addNode, h.size]
      exact rest

/-- The node of a claimed OID gets its claimants. -/
lemma Grown.claim (h : b.Grown os claimants) {o : Oid} {i : NodeId} (hi : Oid.placeIn os o = some i)
    (as : List AssignmentId) :
    Grown { b with mib := b.mib.modifyNode i fun n =>
      { n with definition := as.head?, shadowed := as.tail } } os
      (fun p => if p = o then as else claimants p) := by
  refine ⟨⟨fun j => ?_, h.tree.roots, h.tree.index⟩, h.found, h.fresh, h.nodup, h.proper, h.closed⟩
  have at_i := (Oid.placeIn_eq_some_iff h.nodup).1 hi
  simp only [Mib.modifyNode, Array.getElem?_modify, h.tree.nodes]
  by_cases hj : i.index = j
  · rw [if_pos hj, ← hj, at_i]
    simp [OidNode.listed]
  · rw [if_neg hj]
    refine Option.map_congr fun p hp => ?_
    have ne : p ≠ o := by
      rintro rfl
      have lt := (List.getElem?_eq_some_iff.1 at_i).1
      exact hj ((List.getElem?_inj lt h.nodup).1 (at_i.trans hp.symm))
    simp [OidNode.listed, ne]

/-- Adding a claim adds the nodes that are missing and its claimants. -/
lemma Grown.addClaim (h : b.Grown os claimants) (c : Claim)
    (unclaimed : ∀ o, o ≠ .root → o ∉ os → claimants o = []) :
    (b.addClaim c).Grown (Claim.grow os .root c.1.arcs)
      (fun p => if p = c.1 then c.2 else claimants p) := by
  have entered : Oid.IsKnown os .root := .inl rfl
  obtain ⟨grown, last⟩ := h.descend entered c.1.arcs unclaimed
  rw [Oid.placeIn_eq_none.2 h.proper, Oid.root_extend] at last
  rw [Oid.placeIn_eq_none.2 h.proper] at grown
  unfold TreeBuilder.addClaim
  generalize b.descend .root none c.1.arcs = out at grown last
  obtain ⟨_ | i, b'⟩ := out
  · -- Only the root has no node, and no node is listed for it.
    have absent := Oid.placeIn_eq_none.1 last.symm
    refine ⟨⟨fun j => ?_, grown.tree.roots, grown.tree.index⟩, grown.found, grown.fresh,
      grown.nodup, grown.proper, grown.closed⟩
    rw [grown.tree.nodes]
    refine Option.map_congr fun p hp => ?_
    have ne : p ≠ c.1 := by
      rintro rfl
      exact absent (List.mem_of_getElem? hp)
    simp [OidNode.listed, ne]
  · exact grown.claim last.symm c.2

/-- A tree without nodes has grown from nothing. -/
lemma grown_empty {mib : Mib} (nodes : mib.nodes = #[]) (roots : mib.roots = [])
    (index : mib.oidIndex = .empty) : Grown ⟨mib, .empty⟩ [] fun _ => [] := by
  refine ⟨⟨fun i => ?_, roots, fun o => ?_⟩, fun _ _ _ => rfl, fun _ _ _ => rfl, .nil, nofun, nofun⟩
  · simp [nodes]
  · rw [index]
    rfl

/-- The claimants of an OID that some claims list. -/
def claimantsIn (cs : List Claim) (o : Oid) : List AssignmentId := (cs.lookup o).getD []

/-- The builder after some claims in the order of their OIDs. -/
lemma grown_foldl {mib : Mib} (nodes : mib.nodes = #[]) (roots : mib.roots = [])
    (index : mib.oidIndex = .empty) {cs : List Claim} (sorted : Claim.Sorted cs) :
    (cs.foldl addClaim ⟨mib, .empty⟩).Grown (Claim.prefixes cs) (claimantsIn cs) := by
  induction cs using List.reverseRecOn with
  | nil => exact grown_empty nodes roots index
  | append_singleton cs c ih =>
    obtain ⟨before, -, last⟩ := List.pairwise_append.1 sorted
    have prefixes := Claim.Sorted.arePrefixes before
    have absent : ∀ o : Oid, (∀ c' ∈ cs, o ≠ c'.1) → cs.lookup o = none := by
      intro o ne
      refine List.lookup_eq_none_iff.2 fun c' hc' => ?_
      simpa using ne c' hc'
    have unclaimed : ∀ o, o ≠ .root → o ∉ Claim.prefixes cs → claimantsIn cs o = [] := by
      intro o ne missing
      rw [claimantsIn, absent]
      · rfl
      · rintro c' hc' rfl
        exact missing ((prefixes.mem _).2 ⟨ne, c', hc', .refl _⟩)
    have step := (ih before).addClaim c unclaimed
    -- The last claim comes behind the others, so its OID has not been claimed before.
    have claimants : (fun p => if p = c.1 then c.2 else claimantsIn cs p) =
        claimantsIn (cs ++ [c]) := by
      funext p
      have new : cs.lookup c.1 = none := by
        refine absent _ fun c' hc' => ?_
        exact (Oid.Before.ne (last c' hc' c (List.mem_singleton_self c))).symm
      obtain ⟨o, as⟩ := c
      rw [claimantsIn, claimantsIn, List.lookup_append]
      by_cases hp : p = o
      · subst hp
        rw [if_pos rfl, new, List.lookup_cons_self]
        rfl
      · rw [if_neg hp, Claim.lookup_cons_of_ne hp, List.lookup_nil, Option.or_none]
    rw [claimants] at step
    rw [List.foldl_append, Claim.prefixes, List.foldl_append]
    exact step

/-- Building makes the tree of the prefixes of the claimed OIDs. -/
theorem hasTree_build {mib : Mib} (nodes : mib.nodes = #[]) (roots : mib.roots = [])
    (index : mib.oidIndex = .empty) {cs : List Claim} (sorted : Claim.Sorted cs) :
    (build mib cs).HasTree (Claim.prefixes cs) (claimantsIn cs) :=
  (grown_foldl nodes roots index sorted).tree

end TreeBuilder

end MibCorpus
