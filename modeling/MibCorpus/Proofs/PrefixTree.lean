import MibCorpus.Proofs.Backdrop
import MibCorpus.Proofs.Claims
import MibCorpus.Proofs.TreeGrowth
import MibCorpus.Proofs.TreeWalks

/-!
# The tree of a run

The OID tree of a run is the tree of the prefixes of the claimed OIDs. Nodes are numbered in the
order of their OIDs, and a walk from the roots meets them in that order.
-/

namespace MibCorpus

/-! ## Orders and subtrees -/

namespace Oid

variable {os : List Oid}

/-- No two OIDs come before each other. -/
lemma Before.asymm {o p : Oid} (h : o.Before p) : ¬p.Before o :=
  fun h' => not_before_self o (h.trans h')

/-- No OID stands twice in a sorted list. -/
lemma nodup_of_sorted (sorted : os.Pairwise Before) : os.Nodup := sorted.imp Before.ne

/-- Sorted lists with the same members are equal. -/
lemma eq_of_mem_iff {ps : List Oid} (sorted : os.Pairwise Before) (sorted' : ps.Pairwise Before)
    (same : ∀ o, o ∈ os ↔ o ∈ ps) : os = ps := by
  have perm :=
    (List.perm_ext_iff_of_nodup (nodup_of_sorted sorted) (nodup_of_sorted sorted')).2 same
  exact perm.eq_of_pairwise (fun o p _ _ h h' => absurd h' h.asymm) sorted sorted'

/-- In a sorted list what comes before stands before. -/
lemma lt_of_before (sorted : os.Pairwise Before) {i j : Nat} {o p : Oid} (hi : os[i]? = some o)
    (hj : os[j]? = some p) (h : o.Before p) : i < j := by
  obtain ⟨lt, rfl⟩ := List.getElem?_eq_some_iff.1 hi
  obtain ⟨lt', rfl⟩ := List.getElem?_eq_some_iff.1 hj
  have all := List.pairwise_iff_getElem.1 sorted
  rcases Nat.lt_trichotomy i j with first | rfl | second
  · exact first
  · exact absurd h (not_before_self _)
  · exact absurd (all j i lt' lt second) h.asymm

/-- The OIDs at or below one. -/
def under (os : List Oid) (o : Oid) : List Oid := os.filter (o.isPrefixOf ·)

/-- The OIDs right below one, or those of one arc. -/
def rightBelow (os : List Oid) (above : Option Oid) : List Oid := os.filter (·.parent? = above)

/-- The OIDs at or below one are those of the list that it is above of. -/
lemma mem_under {o p : Oid} : p ∈ under os o ↔ p ∈ os ∧ o.Above p := by
  rw [under, List.mem_filter, isPrefixOf_iff]

/-- The OIDs right below one are those of the list that have it as their parent. -/
lemma mem_rightBelow {above : Option Oid} {o : Oid} :
    o ∈ rightBelow os above ↔ o ∈ os ∧ o.parent? = above := by
  simp [rightBelow]

/-- What lies below a path lies at or below a child of it. -/
lemma exists_child_above {path p : Oid} (above : path.Above p) (ne : path ≠ p) :
    ∃ a, (path.child a).Above p := by
  obtain ⟨as, rfl⟩ := above.exists_extend
  cases as with
  | nil => exact absurd (by simp [extend]) ne
  | cons a as => exact ⟨a, by rw [← child_extend]; exact above_extend _ _⟩

/-- Children of one path come in the order of their arcs. -/
lemma lt_of_before_child {path : Oid} {a b : Arc} (h : (path.child a).Before (path.child b)) :
    a < b := by
  have arcs : (path.extend [a]).Before (path.extend [b]) := h
  rw [before_extend_iff, compareLex_cons_cons] at arcs
  split at arcs
  · cases arcs
  · exact Std.compare_eq_lt.1 arcs

/-- The subtrees of the children of a path make up what lies below it, in order. -/
lemma flatMap_under (sorted : os.Pairwise Before) (closed : Claim.Closed os) (path : Oid)
    {above : Option Oid}
    (children : ∀ c ∈ os, c.parent? = above ↔ ∃ a, c = path.child a) :
    (rightBelow os above).flatMap (under os) =
      os.filter fun p => path.isPrefixOf p && p ≠ path := by
  -- Both sides are in order, so it is enough that they have the same members.
  refine eq_of_mem_iff ?_ (sorted.filter _) fun p => ?_
  · rw [List.pairwise_flatMap]
    refine ⟨fun c _ => sorted.filter _, ?_⟩
    refine (sorted.filter _).imp_of_mem fun {c c'} hc hc' lt p hp q hq => ?_
    obtain ⟨mem, e⟩ := mem_rightBelow.1 hc
    obtain ⟨mem', e'⟩ := mem_rightBelow.1 hc'
    obtain ⟨a, rfl⟩ := (children c mem).1 e
    obtain ⟨b, rfl⟩ := (children c' mem').1 e'
    obtain ⟨as, rfl⟩ := (mem_under.1 hp).2.exists_extend
    obtain ⟨bs, rfl⟩ := (mem_under.1 hq).2.exists_extend
    rw [child_extend, child_extend]
    exact before_of_arc_lt path (lt_of_before_child lt) as bs
  · rw [List.mem_flatMap, List.mem_filter]
    simp only [Bool.and_eq_true, isPrefixOf_iff, ne_eq, decide_not, Bool.not_eq_eq_eq_not,
      Bool.not_true, decide_eq_false_iff_not]
    constructor
    · rintro ⟨c, hc, hp⟩
      obtain ⟨mem, e⟩ := mem_rightBelow.1 hc
      obtain ⟨a, rfl⟩ := (children c mem).1 e
      obtain ⟨hp, below⟩ := mem_under.1 hp
      refine ⟨hp, (above_child path a).trans below, ?_⟩
      rintro rfl
      exact ne_child p a ((above_child p a).antisymm below)
    · rintro ⟨hp, below, ne⟩
      obtain ⟨a, hc⟩ := exists_child_above below (Ne.symm ne)
      have mem := closed p hp _ hc (child_ne_root path a)
      exact ⟨_, mem_rightBelow.2 ⟨mem, (children _ mem).2 ⟨a, rfl⟩⟩, mem_under.2 ⟨hp, hc⟩⟩

/-- An OID is right below another if it is a child of it. The root does not count as a parent. -/
lemma parent?_eq_some_iff {o c : Oid} (ne : o ≠ .root) (proper : c ≠ .root) :
    c.parent? = some o ↔ ∃ a, c = o.child a := by
  obtain ⟨p, b, rfl⟩ := exists_child proper
  rw [TreeBuilder.parent?_child_eq_some_iff ne]
  constructor
  · rintro rfl
    exact ⟨b, rfl⟩
  · rintro ⟨a, e⟩
    have arcs := (List.append_inj' (congrArg Oid.arcs e) rfl).1
    obtain ⟨as⟩ := p
    obtain ⟨bs⟩ := o
    exact congrArg Oid.mk arcs

/-- The topmost OIDs are the children of the root. -/
lemma parent?_eq_none_iff {c : Oid} (proper : c ≠ .root) :
    c.parent? = none ↔ ∃ a, c = root.child a := by
  obtain ⟨p, b, rfl⟩ := exists_child proper
  rw [TreeBuilder.parent?_child_eq_none_iff]
  constructor
  · rintro rfl
    exact ⟨b, rfl⟩
  · rintro ⟨a, e⟩
    have arcs := (List.append_inj' (congrArg Oid.arcs e) rfl).1
    obtain ⟨as⟩ := p
    exact congrArg Oid.mk arcs

/-- A subtree is its top and the subtrees of its children. -/
lemma under_eq (sorted : os.Pairwise Before) (closed : Claim.Closed os) (proper : .root ∉ os)
    {o : Oid} (ho : o ∈ os) : under os o = o :: (rightBelow os (some o)).flatMap (under os) := by
  have ne : o ≠ .root := fun e => proper (e ▸ ho)
  rw [flatMap_under sorted closed o fun c hc =>
    parent?_eq_some_iff ne fun e => proper (e ▸ hc)]
  refine eq_of_mem_iff (sorted.filter _) ?_ fun p => ?_
  · refine List.pairwise_cons.2 ⟨fun p hp => ?_, sorted.filter _⟩
    obtain ⟨-, hp⟩ := List.mem_filter.1 hp
    simp only [Bool.and_eq_true, isPrefixOf_iff, ne_eq, decide_not, Bool.not_eq_eq_eq_not,
      Bool.not_true, decide_eq_false_iff_not] at hp
    exact hp.1.before (Ne.symm hp.2)
  · rw [mem_under, List.mem_cons, List.mem_filter]
    simp only [Bool.and_eq_true, isPrefixOf_iff, ne_eq, decide_not, Bool.not_eq_eq_eq_not,
      Bool.not_true, decide_eq_false_iff_not]
    by_cases hp : p = o
    · subst hp
      exact iff_of_true ⟨ho, .refl _⟩ (.inl rfl)
    · simp [hp]

/-- The subtrees of the roots make up the tree. -/
lemma flatMap_under_roots (sorted : os.Pairwise Before) (closed : Claim.Closed os)
    (proper : .root ∉ os) : (rightBelow os none).flatMap (under os) = os := by
  rw [flatMap_under sorted closed .root fun c hc =>
    parent?_eq_none_iff fun e => proper (e ▸ hc)]
  refine List.filter_eq_self.2 fun p hp => ?_
  have ne : p ≠ .root := fun e => proper (e ▸ hp)
  simp [isPrefixOf_iff, root_above, ne]

/-- An OID has no more arcs than there are OIDs up to it. -/
lemma length_le (sorted : os.Pairwise Before) (closed : Claim.Closed os) {i : Nat} {o : Oid}
    (hi : os[i]? = some o) : o.length ≤ i + 1 := by
  induction i using Nat.strongRecOn generalizing o with
  | ind i ih =>
    by_cases ne : o = .root
    · rw [ne]
      exact Nat.zero_le _
    obtain ⟨p, a, rfl⟩ := exists_child ne
    by_cases root : p = .root
    · subst root
      exact Nat.le_add_left 1 i
    have mem := closed _ (List.mem_of_getElem? hi) p (above_child p a) root
    obtain ⟨j, hj⟩ := List.mem_iff_getElem?.1 mem
    have lt := lt_of_before sorted hj hi ((above_child p a).before (ne_child p a))
    have le := ih j lt hj
    simp only [length, arcs_child, List.length_append, List.length_singleton] at le ⊢
    omega

end Oid

/-! ## Reading a tree -/

/-- The tree of a model has the nodes of some OIDs in order, all those above them among them. -/
structure Mib.HasSortedTree (mib : Mib) (os : List Oid) (claimants : Oid → List AssignmentId) :
    Prop extends mib.HasTree os claimants where
  sorted : os.Pairwise Oid.Before
  closed : Claim.Closed os
  proper : .root ∉ os

/-- The node of an OID among those listed. -/
def OidNode.among (os : List Oid) (claimants : Oid → List AssignmentId) (o : Oid) : OidNode :=
  .listed os claimants (os.idxOf o) o

/-- The nodes of the OIDs at or below one, in order. -/
def OidNode.subtree (os : List Oid) (claimants : Oid → List AssignmentId) (o : Oid) :
    List OidNode :=
  (Oid.under os o).map (.among os claimants)

namespace Mib.HasSortedTree

variable {mib : Mib} {os : List Oid} {claimants : Oid → List AssignmentId}

/-- The OIDs of a tree are different. -/
lemma nodup (h : mib.HasSortedTree os claimants) : os.Nodup := Oid.nodup_of_sorted h.sorted

/-- The node at a position is that of the OID there. -/
lemma node?_eq (h : mib.HasSortedTree os claimants) (i : NodeId) :
    mib.node? i = (os[i.index]?).map (.among os claimants) := by
  rw [Mib.node?, h.nodes]
  refine Option.map_congr fun o ho => ?_
  obtain ⟨lt, rfl⟩ := List.getElem?_eq_some_iff.1 ho
  rw [OidNode.among, h.nodup.idxOf_getElem]

/-- The nodes are those of the OIDs, in order. -/
lemma toList_nodes (h : mib.HasSortedTree os claimants) :
    mib.nodes.toList = os.map (.among os claimants) := by
  refine List.ext_getElem? fun i => ?_
  rw [Array.getElem?_toList, List.getElem?_map]
  exact h.node?_eq ⟨i⟩

/-- There are as many nodes as OIDs. -/
lemma size (h : mib.HasSortedTree os claimants) : mib.nodes.size = os.length := by
  have e := congrArg List.length h.toList_nodes
  simpa using e

/-- The node of an OID has the position of the OID as its identifier. -/
lemma node?_of_mem (h : mib.HasSortedTree os claimants) {o : Oid} (ho : o ∈ os) :
    mib.node? ⟨os.idxOf o⟩ = some (.among os claimants o) := by
  rw [h.node?_eq, List.getElem?_eq_getElem (List.idxOf_lt_length_of_mem ho), List.getElem_idxOf]
  rfl

/-- Each node is that of an OID. -/
lemma exists_of_node? (h : mib.HasSortedTree os claimants) {i : NodeId} {n : OidNode}
    (hn : mib.node? i = some n) :
    ∃ o, os[i.index]? = some o ∧ i = ⟨os.idxOf o⟩ ∧ n = .among os claimants o := by
  rw [h.node?_eq, Option.map_eq_some_iff] at hn
  obtain ⟨o, ho, rfl⟩ := hn
  obtain ⟨i⟩ := i
  obtain ⟨lt, rfl⟩ := List.getElem?_eq_some_iff.1 ho
  exact ⟨_, ho, congrArg Ident.mk (h.nodup.idxOf_getElem i lt).symm, rfl⟩

/-- An OID is placed at its position. -/
lemma placeIn_eq (h : mib.HasSortedTree os claimants) {o : Oid} (ho : o ∈ os) :
    Oid.placeIn os o = some ⟨os.idxOf o⟩ := by
  rw [Oid.placeIn_eq_some_iff h.nodup, List.getElem?_eq_getElem (List.idxOf_lt_length_of_mem ho),
    List.getElem_idxOf]

/-- A node is found at each OID of the tree and at no other. -/
lemma nodeAt?_eq (h : mib.HasSortedTree os claimants) (o : Oid) :
    mib.nodeAt? o = if o ∈ os then some (.among os claimants o) else none := by
  rw [Mib.nodeAt?, h.index]
  split
  next ho => rw [h.placeIn_eq ho, Option.bind_some, h.node?_of_mem ho]
  next ho => rw [Oid.placeIn_eq_none.2 ho, Option.bind_none]

/-! ### OIDs of nodes -/

/-- Going up from a node reads off its OID. -/
lemma arcsAbove_eq (h : mib.HasSortedTree os claimants) {o : Oid} (ho : o ∈ os) {steps : Nat}
    (enough : os.idxOf o < steps) (below : List Arc) :
    mib.arcsAbove steps (some ⟨os.idxOf o⟩) below = o.arcs ++ below := by
  induction steps generalizing o below with
  | zero => omega
  | succ steps ih =>
    obtain ⟨p, a, rfl⟩ := Oid.exists_child (fun e => h.proper (e ▸ ho) : o ≠ .root)
    have arc : (OidNode.among os claimants (p.child a)).arc = a := by
      simp [OidNode.among, OidNode.listed, Oid.lastArc?]
    rw [Mib.arcsAbove, h.node?_of_mem ho]
    simp only [arc]
    by_cases root : p = .root
    · have top : (OidNode.among os claimants (p.child a)).parent = none := by
        rw [OidNode.among, OidNode.listed, TreeBuilder.parent?_child_eq_none_iff.2 root]
        rfl
      rw [top, root]
      cases steps <;> rfl
    · have mem := h.closed _ ho p (Oid.above_child p a) root
      have up : (OidNode.among os claimants (p.child a)).parent = some ⟨os.idxOf p⟩ := by
        rw [OidNode.among, OidNode.listed, (TreeBuilder.parent?_child_eq_some_iff root).2 rfl]
        exact h.placeIn_eq mem
      have lt : os.idxOf p < os.idxOf (p.child a) :=
        Oid.lt_of_before h.sorted (Oid.getElem?_of_placeIn (h.placeIn_eq mem))
          (Oid.getElem?_of_placeIn (h.placeIn_eq ho))
          ((Oid.above_child p a).before (Oid.ne_child p a))
      rw [up, ih mem (by omega)]
      simp

/-- The OID of a node is read off the arcs on the way up. -/
lemma oidOf_among (h : mib.HasSortedTree os claimants) {o : Oid} (ho : o ∈ os) :
    mib.oidOf (.among os claimants o) = o := by
  have lt := List.idxOf_lt_length_of_mem ho
  have enough : os.idxOf o < mib.nodes.size + 1 := by rw [h.size]; omega
  have up := h.arcsAbove_eq ho enough []
  rw [Mib.arcsAbove, h.node?_of_mem ho, List.append_nil] at up
  exact congrArg Oid.mk up

/-- Nodes are numbered in the order of their OIDs. -/
lemma pairwise_oidOf (h : mib.HasSortedTree os claimants) :
    mib.nodes.toList.Pairwise fun n m => compare (mib.oidOf n) (mib.oidOf m) = .lt := by
  rw [h.toList_nodes, List.pairwise_map]
  refine h.sorted.imp_of_mem fun {o p} ho hp before => ?_
  rw [h.oidOf_among ho, h.oidOf_among hp]
  exact before

/-! ### Walks -/

/-- The places below an OID are those of its children. -/
lemma placesBelow_eq (h : mib.HasSortedTree os claimants) (above : Option Oid) :
    Oid.placesBelow os above = (Oid.rightBelow os above).map fun o => ⟨os.idxOf o⟩ := by
  have split : ∀ l : List (Oid × Nat),
      (l.filterMap fun x => if x.1.parent? = above then some (⟨x.2⟩ : NodeId) else none) =
        (l.filter (·.1.parent? = above)).map fun x => ⟨x.2⟩ := by
    intro l
    induction l with
    | nil => rfl
    | cons x l ih =>
      by_cases hx : x.1.parent? = above
      · simp [hx, ih]
      · simp [hx, ih]
  have fsts : Oid.rightBelow os above = (os.zipIdx.filter (·.1.parent? = above)).map Prod.fst := by
    rw [Oid.rightBelow, ← List.zipIdx_map_fst 0 os, List.filter_map, List.zipIdx_map_fst]
    rfl
  rw [Oid.placesBelow, split, fsts, List.map_map]
  refine List.map_congr_left fun x hx => ?_
  have at_x := List.mem_zipIdx_iff_getElem?.1 (List.mem_filter.1 hx).1
  obtain ⟨lt, e⟩ := List.getElem?_eq_some_iff.1 at_x
  rw [Function.comp_apply, ← e, h.nodup.idxOf_getElem]

/-- A subtree of nodes is its top and the subtrees of its children. -/
lemma subtree_eq (h : mib.HasSortedTree os claimants) {o : Oid} (ho : o ∈ os) :
    OidNode.subtree os claimants o = .among os claimants o ::
      (Oid.rightBelow os (some o)).flatMap (OidNode.subtree os claimants) := by
  rw [OidNode.subtree, Oid.under_eq h.sorted h.closed h.proper ho, List.map_cons, List.map_flatMap]
  rfl

/-- The subtrees of the roots make up the tree. -/
lemma flatMap_subtree_roots (h : mib.HasSortedTree os claimants) :
    (Oid.rightBelow os none).flatMap (OidNode.subtree os claimants) = mib.nodes.toList := by
  have all := congrArg (List.map (OidNode.among os claimants))
    (Oid.flatMap_under_roots h.sorted h.closed h.proper)
  rwa [List.map_flatMap, ← h.toList_nodes] at all

/-- A walk with enough levels is a tour of the subtree. -/
lemma makesTour_walkLevels (h : mib.HasSortedTree os claimants) {σ : Type}
    (visitor : OidNode → σ → Bool × σ) (depth : Nat) {o : Oid} (ho : o ∈ os)
    (deep : ∀ p ∈ os, p.length < depth + o.length) (s : σ) :
    mib.MakesTour visitor (mib.walkLevels visitor depth) ⟨os.idxOf o⟩
      (OidNode.subtree os claimants o) s := by
  induction depth generalizing o s with
  | zero =>
    have lt := deep o ho
    omega
  | succ depth ih =>
    have node := h.node?_of_mem ho
    have children : (OidNode.among os claimants o).children =
        (Oid.rightBelow os (some o)).map fun c => ⟨os.idxOf c⟩ := h.placesBelow_eq (some o)
    rw [h.subtree_eq ho]
    rcases hv : visitor (.among os claimants o) s with ⟨answer, s'⟩
    cases answer with
    | true =>
      have tours : ∀ c ∈ Oid.rightBelow os (some o), ∀ s, mib.MakesTour visitor
          (mib.walkLevels visitor depth) ⟨os.idxOf c⟩ (OidNode.subtree os claimants c) s := by
        intro c hc s
        obtain ⟨mem, parent⟩ := Oid.mem_rightBelow.1 hc
        -- A child is one arc longer, so one level less is enough below it.
        refine ih mem (fun p hp => ?_) s
        have ne : o ≠ .root := fun e => h.proper (e ▸ ho)
        obtain ⟨a, rfl⟩ := (Oid.parent?_eq_some_iff ne fun e => h.proper (e ▸ mem)).1 parent
        have lt := deep p hp
        simp only [Oid.length, Oid.arcs_child, List.length_append, List.length_singleton] at lt ⊢
        omega
      obtain ⟨course, result⟩ := walksOver_of_makesTour tours s'
      rw [← children] at course result
      constructor
      · rw [tour_cons_of_true hv]
        exact .entered node hv course
      · simp only [Mib.walkLevels, node, hv, result, tour_cons_of_true hv]
    | false =>
      constructor
      · rw [tour_cons_of_false hv]
        exact .refused node hv
      · simp only [Mib.walkLevels, node, hv, tour_cons_of_false hv]

/-- A walk is a tour of the subtree of the node that it starts from. -/
lemma makesTour_walk (h : mib.HasSortedTree os claimants) {σ : Type}
    (visitor : OidNode → σ → Bool × σ) {o : Oid} (ho : o ∈ os) (s : σ) :
    mib.MakesTour visitor (mib.walk · visitor) ⟨os.idxOf o⟩
      (OidNode.subtree os claimants o) s := by
  refine h.makesTour_walkLevels visitor mib.nodes.size ho (fun p hp => ?_) s
  obtain ⟨i, hi⟩ := List.mem_iff_getElem?.1 hp
  have lt := (List.getElem?_eq_some_iff.1 hi).1
  have le := Oid.length_le h.sorted h.closed hi
  have pos : 0 < o.length := by
    obtain ⟨q, a, rfl⟩ := Oid.exists_child (fun e => h.proper (e ▸ ho) : o ≠ .root)
    simp [Oid.length]
  rw [h.size]
  omega

/-- A walk from the roots visits all nodes in the order of their numbers. -/
lemma walk_roots (h : mib.HasSortedTree os claimants) {σ : Type} (visit : OidNode → σ → σ) (s : σ) :
    Mib.visitAll (fun i s => mib.walk i (fun n s => (true, visit n s)) s) mib.roots s =
      (true, mib.nodes.toList.foldl (fun s n => visit n s) s) := by
  have roots : mib.roots = (Oid.rightBelow os none).map fun c => ⟨os.idxOf c⟩ := by
    rw [h.roots, h.placesBelow_eq]
  have tours : ∀ c ∈ Oid.rightBelow os none, ∀ s, mib.MakesTour _ _ ⟨os.idxOf c⟩ _ s :=
    fun c hc s => h.makesTour_walk (fun n s => (true, visit n s)) (Oid.mem_rightBelow.1 hc).1 s
  rw [roots, (walksOver_of_makesTour tours s).2, h.flatMap_subtree_roots, tour_eq_of_not_refusesAt]
  · rfl
  · rintro k ⟨n, -, no⟩
    cases no

/-! ### Children -/

/-- The children of a node are the nodes of the OIDs right below. -/
lemma children_among (h : mib.HasSortedTree os claimants) (o : Oid) :
    (OidNode.among os claimants o).children =
      (Oid.rightBelow os (some o)).map fun c => ⟨os.idxOf c⟩ :=
  h.placesBelow_eq (some o)

/-- The places of nodes are listed at most once. -/
lemma count_places (h : mib.HasSortedTree os claimants) {above : Option Oid} {o : Oid}
    (ho : o ∈ os) (parent : o.parent? = above) :
    ((Oid.rightBelow os above).map fun c => (⟨os.idxOf c⟩ : NodeId)).count ⟨os.idxOf o⟩ = 1 := by
  refine List.count_eq_one_of_mem ?_ (List.mem_map_of_mem (Oid.mem_rightBelow.2 ⟨ho, parent⟩))
  refine List.Nodup.map_on (fun c hc c' hc' e => ?_) (h.nodup.filter _)
  have mem := (Oid.mem_rightBelow.1 hc).1
  exact (List.idxOf_inj mem).1 (congrArg Ident.index e)

/-- The nodes that are listed are there. -/
lemma filterMap_places (h : mib.HasSortedTree os claimants) (above : Option Oid) :
    ((Oid.rightBelow os above).map fun c => (⟨os.idxOf c⟩ : NodeId)).filterMap mib.node? =
      (Oid.rightBelow os above).map (.among os claimants) := by
  rw [List.filterMap_map, ← List.filterMap_eq_map]
  refine List.filterMap_congr fun c hc => ?_
  exact h.node?_of_mem (Oid.mem_rightBelow.1 hc).1

/-- OIDs right below one path are in the order of their last arcs. -/
lemma sorted_arcs (h : mib.HasSortedTree os claimants) (path : Oid) {above : Option Oid}
    (children : ∀ c ∈ os, c.parent? = above ↔ ∃ a, c = path.child a) :
    (((Oid.rightBelow os above).map (OidNode.among os claimants)).map (·.arc)).Pairwise
      (· < ·) := by
  rw [List.map_map, List.pairwise_map]
  refine (h.sorted.filter _).imp_of_mem fun {c c'} hc hc' before => ?_
  obtain ⟨mem, e⟩ := Oid.mem_rightBelow.1 hc
  obtain ⟨mem', e'⟩ := Oid.mem_rightBelow.1 hc'
  obtain ⟨a, rfl⟩ := (children c mem).1 e
  obtain ⟨b, rfl⟩ := (children c' mem').1 e'
  have arc : ∀ a, (OidNode.among os claimants (path.child a)).arc = a := by
    intro a
    simp [OidNode.among, OidNode.listed, Oid.lastArc?]
  rw [Function.comp_apply, Function.comp_apply, arc, arc]
  exact Oid.lt_of_before_child before

end Mib.HasSortedTree

/-! ## The tree of a run -/

/-- Assignment `i` is resolved, in full or degraded, and has OID `o`. -/
def Mib.Claims (mib : Mib) (i : AssignmentId) (o : Oid) : Prop :=
  ∃ a, mib.assignment? i = some a ∧ (a.state = .resolved ∨ a.state = .degraded) ∧ a.oid = some o

/-- Some assignment claims the OID. -/
def Mib.Claimed (mib : Mib) (o : Oid) : Prop := ∃ i, mib.Claims i o

/-- The OID tree of a model is the tree of the prefixes of the claimed OIDs. -/
structure Mib.IsPrefixTree (mib : Mib) : Prop where
  /-- There is a node for every prefix but the empty one, and for nothing else. -/
  found : ∀ o, (mib.nodeAt? o).isSome ↔ o ≠ .root ∧ ∃ p, mib.Claimed p ∧ o.isPrefixOf p
  /-- The node found at an OID is the node of this OID. -/
  oidOf_nodeAt : ∀ o n, mib.nodeAt? o = some n → mib.oidOf n = o
  /-- Every node has its own number and is found at its OID. -/
  nodeAt_oidOf : ∀ i n, mib.node? i = some n → n.id = i ∧ mib.nodeAt? (mib.oidOf n) = some n
  /-- The nodes of one arc are the roots, each listed once. -/
  root : ∀ a n, mib.nodeAt? (Oid.root.child a) = some n →
    n.parent = none ∧ mib.roots.count n.id = 1
  /-- Every other node is listed once below the node of its OID without the last arc. -/
  child : ∀ o a n, o ≠ .root → mib.nodeAt? (o.child a) = some n →
    ∃ m, mib.nodeAt? o = some m ∧ n.parent = some m.id ∧ m.children.count n.id = 1
  /-- Nothing but nodes of one arc is listed as a root. -/
  of_root : ∀ i, i ∈ mib.roots → ∃ a n, mib.node? i = some n ∧ mib.oidOf n = Oid.root.child a
  /-- Nothing but nodes with one arc more is listed below a node. -/
  of_child : ∀ j m i, mib.node? j = some m → i ∈ m.children →
    ∃ a n, mib.node? i = some n ∧ mib.oidOf n = (mib.oidOf m).child a
  /-- Roots are in the order of their arcs. -/
  rootArcs : (mib.rootNodes.map (·.arc)).Pairwise (· < ·)
  /-- The children of a node are in the order of their arcs. -/
  childArcs : ∀ j m, mib.node? j = some m → ((mib.children m).map (·.arc)).Pairwise (· < ·)
  /-- Nodes are numbered in the order of their OIDs. -/
  ordered : mib.nodes.toList.Pairwise fun n m => compare (mib.oidOf n) (mib.oidOf m) = .lt
  /-- A walk from the roots that nothing ends visits the nodes as they are numbered. -/
  walked : ∀ {σ : Type} (visit : OidNode → σ → σ) (s : σ),
    Mib.visitAll (fun i => mib.walk i fun n s => (true, visit n s)) mib.roots s =
      (true, mib.nodes.toList.foldl (fun s n => visit n s) s)

namespace Mib.HasSortedTree

variable {mib : Mib} {os : List Oid} {claimants : Oid → List AssignmentId}

/-- What is found at an OID is its node. -/
lemma eq_among (h : mib.HasSortedTree os claimants) {o : Oid} {n : OidNode}
    (hn : mib.nodeAt? o = some n) : o ∈ os ∧ n = .among os claimants o := by
  rw [h.nodeAt?_eq] at hn
  split at hn
  next mem => exact ⟨mem, (Option.some.inj hn).symm⟩
  next => cases hn

/-- The node of an OID in the tree is found there. -/
lemma nodeAt?_of_mem (h : mib.HasSortedTree os claimants) {o : Oid} (ho : o ∈ os) :
    mib.nodeAt? o = some (.among os claimants o) := by
  rw [h.nodeAt?_eq, if_pos ho]

/-- The roots are the nodes of the topmost OIDs. -/
lemma roots_eq (h : mib.HasSortedTree os claimants) :
    mib.roots = (Oid.rightBelow os none).map fun c => ⟨os.idxOf c⟩ :=
  h.roots.trans (h.placesBelow_eq none)

/-- The parent of the node of a child is the node of the OID. -/
lemma parent_among (h : mib.HasSortedTree os claimants) {o : Oid} (ho : o ∈ os) (a : Arc) :
    (OidNode.among os claimants (o.child a)).parent = some ⟨os.idxOf o⟩ := by
  have ne : o ≠ .root := fun e => h.proper (e ▸ ho)
  rw [OidNode.among, OidNode.listed, (TreeBuilder.parent?_child_eq_some_iff ne).2 rfl]
  exact h.placeIn_eq ho

/-- What is listed at the places right below a path is a child of it. -/
lemma exists_child_of_mem (h : mib.HasSortedTree os claimants) {path : Oid} {above : Option Oid}
    (children : ∀ c ∈ os, c.parent? = above ↔ ∃ a, c = path.child a) {i : NodeId}
    (hi : i ∈ (Oid.rightBelow os above).map fun c => (⟨os.idxOf c⟩ : NodeId)) :
    ∃ a n, mib.node? i = some n ∧ mib.oidOf n = path.child a := by
  obtain ⟨c, hc, rfl⟩ := List.mem_map.1 hi
  obtain ⟨mem, parent⟩ := Oid.mem_rightBelow.1 hc
  obtain ⟨a, rfl⟩ := (children c mem).1 parent
  exact ⟨a, _, h.node?_of_mem mem, h.oidOf_among mem⟩

/-- A sorted tree of the prefixes of the claimed OIDs. -/
lemma isPrefixTree (h : mib.HasSortedTree os claimants)
    (prefixes : ∀ o, o ∈ os ↔ o ≠ .root ∧ ∃ p, mib.Claimed p ∧ o.Above p) : mib.IsPrefixTree := by
  have proper : ∀ c ∈ os, c ≠ .root := fun c hc e => h.proper (e ▸ hc)
  -- The roots stand to the empty path as the children of a node stand to its own.
  have tops : ∀ c ∈ os, c.parent? = none ↔ ∃ a, c = Oid.root.child a :=
    fun c hc => Oid.parent?_eq_none_iff (proper c hc)
  have below : ∀ {o}, o ∈ os → ∀ c ∈ os, c.parent? = some o ↔ ∃ a, c = o.child a :=
    fun ho c hc => Oid.parent?_eq_some_iff (proper _ ho) (proper c hc)
  constructor
  case found =>
    intro o
    have same : (∃ p, mib.Claimed p ∧ o.isPrefixOf p) ↔ ∃ p, mib.Claimed p ∧ o.Above p := by
      simp only [Oid.isPrefixOf_iff]
    rw [same, ← prefixes, h.nodeAt?_eq]
    by_cases mem : o ∈ os <;> simp [mem]
  case oidOf_nodeAt =>
    intro o n hn
    obtain ⟨mem, rfl⟩ := h.eq_among hn
    exact h.oidOf_among mem
  case nodeAt_oidOf =>
    intro i n hn
    obtain ⟨o, ho, rfl, rfl⟩ := h.exists_of_node? hn
    have mem := List.mem_of_getElem? ho
    rw [h.oidOf_among mem]
    exact ⟨rfl, h.nodeAt?_of_mem mem⟩
  case root =>
    intro a n hn
    obtain ⟨mem, rfl⟩ := h.eq_among hn
    have top : (Oid.root.child a).parent? = none := (tops _ mem).2 ⟨a, rfl⟩
    refine ⟨?_, h.roots_eq ▸ h.count_places mem top⟩
    rw [OidNode.among, OidNode.listed, top]
    rfl
  case child =>
    intro o a n ne hn
    obtain ⟨mem, rfl⟩ := h.eq_among hn
    have above := h.closed _ mem o (Oid.above_child o a) ne
    refine ⟨_, h.nodeAt?_of_mem above, h.parent_among above a, ?_⟩
    rw [h.children_among]
    exact h.count_places mem ((below above _ mem).2 ⟨a, rfl⟩)
  case of_root =>
    intro i hi
    exact h.exists_child_of_mem tops (h.roots_eq ▸ hi)
  case of_child =>
    intro j m i hm hi
    obtain ⟨o, ho, -, rfl⟩ := h.exists_of_node? hm
    have mem := List.mem_of_getElem? ho
    rw [h.oidOf_among mem]
    exact h.exists_child_of_mem (below mem) (h.children_among o ▸ hi)
  case rootArcs =>
    rw [Mib.rootNodes, h.roots_eq, h.filterMap_places]
    exact h.sorted_arcs .root tops
  case childArcs =>
    intro j m hm
    obtain ⟨o, ho, -, rfl⟩ := h.exists_of_node? hm
    rw [Mib.children, h.children_among, h.filterMap_places]
    exact h.sorted_arcs o (below (List.mem_of_getElem? ho))
  case ordered => exact h.pairwise_oidOf
  case walked =>
    intro σ visit s
    exact h.walk_roots visit s

end Mib.HasSortedTree

namespace Draft

variable {d : Draft}

/-- Finalizing without a tree builds the tree of the prefixes of the claims. -/
lemma hasSortedTree_finalize (bare : d.mib.canopy = ⟨#[], [], .empty⟩) :
    d.finalize.mib.HasSortedTree (Claim.prefixes d.claims) (TreeBuilder.claimantsIn d.claims) := by
  have sorted := (Claim.lookup_collect d.claimants).1
  have canopy := (canopy_recordAll d (d.claims.flatMap d.claimProblems)).trans bare
  simp only [Mib.canopy, Canopy.mk.injEq] at canopy
  obtain ⟨nodes, roots, index⟩ := canopy
  have prefixes := Claim.Sorted.arePrefixes sorted
  refine ⟨?_, prefixes.sorted, prefixes.closed, fun mem => ((prefixes.mem _).1 mem).1 rfl⟩
  rw [finalize, foldl_reportClaim]
  exact TreeBuilder.hasTree_build nodes roots index sorted

/-- An assignment claims its OID if it is resolved or degraded. -/
lemma claim?_eq_some_iff {a : Assignment} {o : Oid} :
    a.claim? = some o ↔ (a.state = .resolved ∨ a.state = .degraded) ∧ a.oid = some o := by
  unfold Assignment.claim?
  cases a.state <;> simp

/-- The claimants that a draft lists are the assignments that claim the OID. -/
lemma DefinitionsRegistered.mem_claimantsOf (h : d.DefinitionsRegistered) {i : AssignmentId}
    {o : Oid} : i ∈ d.claimantsOf o ↔ d.mib.Claims i o := by
  rw [(h.claimantsOf o).2, ClaimsOid, Mib.Claims]
  simp only [claim?_eq_some_iff]

/-- The claims list what is claimed. -/
lemma DefinitionsRegistered.exists_claim_iff (h : d.DefinitionsRegistered) (o : Oid) :
    (∃ c ∈ d.claims, c.1 = o) ↔ d.mib.Claimed o := by
  constructor
  · rintro ⟨⟨_, as⟩, hc, rfl⟩
    obtain ⟨rfl, ne⟩ := mem_claims.1 hc
    obtain ⟨i, hi⟩ := List.exists_mem_of_ne_nil _ ne
    exact ⟨i, h.mem_claimantsOf.1 hi⟩
  · rintro ⟨i, hi⟩
    exact ⟨_, mem_claims.2 ⟨rfl, List.ne_nil_of_mem (h.mem_claimantsOf.2 hi)⟩, rfl⟩

/-- Finalizing does not change what is claimed. -/
lemma claims_finalize (i : AssignmentId) (o : Oid) :
    d.finalize.mib.Claims i o ↔ d.mib.Claims i o := by
  unfold Mib.Claims Mib.assignment?
  rw [(finalizes_finalize d).assignments]

/-- Finalizing without a tree builds the tree of the prefixes of the claimed OIDs. -/
theorem DefinitionsRegistered.isPrefixTree_finalize (h : d.DefinitionsRegistered)
    (bare : d.mib.canopy = ⟨#[], [], .empty⟩) : d.finalize.mib.IsPrefixTree := by
  refine (hasSortedTree_finalize bare).isPrefixTree fun o => ?_
  have sorted : Claim.Sorted d.claims := (Claim.lookup_collect d.claimants).1
  rw [sorted.arePrefixes.mem]
  refine and_congr_right fun _ => ?_
  have claimed : ∀ p, d.finalize.mib.Claimed p ↔ ∃ c ∈ d.claims, c.1 = p := fun p =>
    (exists_congr fun i => claims_finalize i p).trans (h.exists_claim_iff p).symm
  simp only [claimed]
  constructor
  · rintro ⟨c, hc, above⟩
    exact ⟨c.1, ⟨c, hc, rfl⟩, above⟩
  · rintro ⟨_, ⟨c, hc, rfl⟩, above⟩
    exact ⟨c, hc, above⟩

/-- The definitions stay registered up to the last phase. -/
lemma Stages.definitions {linked final : Draft} {types oids : Recorder}
    (s : Stages linked types oids final) :
    ((linked.resolveTypes types).1.resolveOids oids).1.DefinitionsRegistered := by
  have typed := s.untyped.continues types
  have c := typed.trans ((s.untyped.oidsPending types).continues (r := oids))
  exact s.untyped.definitions.of_registry c.registry c.strings

end Draft

/-- After every run the OID tree is the tree of the prefixes of the claimed OIDs, numbered and
walked in the order of the OIDs. -/
theorem Pipeline.isPrefixTree_runParsed (p : Pipeline) (files : List ParsedFile) :
    modelOf (p.runParsed files).1 = some (p.resolve files).1.mib ∧
      (p.resolve files).1.mib.IsPrefixTree := by
  obtain ⟨linked, types, oids, s, -, bare, final⟩ := Draft.exists_finalized p files
  refine ⟨modelOf_runParsed p files, ?_⟩
  rw [final]
  exact s.definitions.isPrefixTree_finalize bare

end MibCorpus
