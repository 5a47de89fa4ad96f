import MibCorpus.Proofs.BlockStructure

/-!
# Blocks in their places

Blocks that are laid one behind the other share no position. Going down a SYNTAX therefore never
leaves the block that it starts in, and every node belongs to the SYNTAX of one definition alone.
-/

namespace MibCorpus

/-- The cores of the nodes of some blocks. -/
def coresOf (bs : List LaidBlock) : List NodeCore := bs.flatMap (·.block.cores)

/-- The references noted in some blocks. -/
def referencesOf (bs : List LaidBlock) : List PendingReference := bs.flatMap (·.block.references)

/-- Whether a position lies in a block. -/
def LaidBlock.Covers (b : LaidBlock) (t : TypeId) : Prop :=
  b.start ≤ t.index ∧ t.index < b.start + b.block.length

section

variable {ι : String → StrId} {xs : List OwnedDefinition} {k : Nat} {b c : LaidBlock}

/-- Every block of a layout hangs together. -/
lemma hangs_of_mem_layout (h : b ∈ layout ι xs k) :
    Hangs ι b.owner b.start b.top?.toList b.block.cores b.block.references := by
  induction xs generalizing k with
  | nil => simp [layout] at h
  | cons x xs ih =>
    obtain ⟨a, m, x⟩ := x
    rcases List.mem_cons.1 h with rfl | h
    · exact hangs_definitionBlock ι ⟨m, a⟩ x k
    · exact ih h

/-- No block of a layout starts before the layout. -/
lemma le_start_of_mem_layout (h : b ∈ layout ι xs k) : k ≤ b.start := by
  induction xs generalizing k with
  | nil => simp [layout] at h
  | cons x xs ih =>
    obtain ⟨a, m, x⟩ := x
    rcases List.mem_cons.1 h with rfl | h
    · exact Nat.le_refl k
    · exact Nat.le_trans (Nat.le_add_right _ _) (ih h)

/-- No block of a layout starts before those ahead of it end. -/
lemma pairwise_layout (ι : String → StrId) (xs : List OwnedDefinition) (k : Nat) :
    (layout ι xs k).Pairwise fun b c => b.start + b.block.length ≤ c.start := by
  induction xs generalizing k with
  | nil => exact .nil
  | cons x xs ih => exact .cons (fun c hc => le_start_of_mem_layout hc) (ih _)

/-- Blocks of a layout that cover the same position are the same. -/
lemma eq_of_covers (hb : b ∈ layout ι xs k) (hc : c ∈ layout ι xs k) {t : TypeId}
    (ht : b.Covers t) (ht' : c.Covers t) : b = c := by
  have apart : (layout ι xs k).Pairwise fun b c => ∀ t, b.Covers t → ¬c.Covers t := by
    refine (pairwise_layout ι xs k).imp fun h t h1 h2 => ?_
    have hi := h1.2
    have lo := h2.1
    omega
  have same : ∀ ⦃b⦄, b ∈ layout ι xs k → ∀ ⦃c⦄, c ∈ layout ι xs k →
      ∀ t, b.Covers t → c.Covers t → b = c := by
    refine List.Pairwise.forall_of_forall_of_flip (fun _ _ _ _ _ => rfl) ?_ ?_
    · exact apart.imp fun h t h1 h2 => absurd h2 (h t h1)
    · exact apart.imp fun h t h1 h2 => absurd h1 (h t h2)
  exact same hb hc t ht ht'

/-- A node of a block stands where the block is. -/
lemma covers_of_mem_cores (hb : b ∈ layout ι xs k) {n : NodeCore} (hn : n ∈ b.block.cores) :
    b.Covers n.id := by
  obtain ⟨j, hj, rfl⟩ := List.getElem_of_mem hn
  have place := (hangs_of_mem_layout hb).place j _ (List.getElem?_eq_getElem hj)
  rw [Block.length_cores] at hj
  rw [LaidBlock.Covers, place.1]
  exact ⟨Nat.le_add_right _ _, Nat.add_lt_add_left hj _⟩

/-- At every position that a block covers it has a node. -/
lemma exists_mem_cores_of_covers (hb : b ∈ layout ι xs k) {t : TypeId} (ht : b.Covers t) :
    ∃ n ∈ b.block.cores, n.id = t := by
  obtain ⟨lo, hi⟩ := ht
  have lt : t.index - b.start < b.block.cores.length := by
    rw [Block.length_cores]
    omega
  refine ⟨_, List.getElem_mem lt, ?_⟩
  rw [((hangs_of_mem_layout hb).place _ _ (List.getElem?_eq_getElem lt)).1]
  obtain ⟨i⟩ := t
  simp only at lo ⊢
  rw [Nat.add_sub_cancel' lo]

/-- Every definition has its block. -/
lemma exists_mem_layout {a : AssignmentId} {m : ModuleId} {x : Definition} (h : (a, m, x) ∈ xs) :
    ∃ b ∈ layout ι xs k, b.owner = ⟨m, a⟩ ∧
      (b.top?, b.block) = definitionBlock ι ⟨m, a⟩ x b.start := by
  induction xs generalizing k with
  | nil => simp at h
  | cons y ys ih =>
    rcases List.mem_cons.1 h with rfl | h
    · exact ⟨_, List.mem_cons_self .., rfl, rfl⟩
    · obtain ⟨b, hb, rest⟩ := ih (k := k + (definitionBlock ι ⟨y.2.1, y.1⟩ y.2.2 k).2.length) h
      exact ⟨b, List.mem_cons_of_mem _ hb, rest⟩

/-- Every block is that of a definition. -/
lemma mem_of_mem_layout (h : b ∈ layout ι xs k) :
    ∃ x, (b.owner.assignment, b.owner.module, x) ∈ xs ∧
      (b.top?, b.block) = definitionBlock ι b.owner x b.start := by
  induction xs generalizing k with
  | nil => simp [layout] at h
  | cons y ys ih =>
    obtain ⟨a, m, x⟩ := y
    rcases List.mem_cons.1 h with rfl | h
    · exact ⟨x, List.mem_cons_self .., rfl⟩
    · obtain ⟨x, hx, rest⟩ := ih h
      exact ⟨x, List.mem_cons_of_mem _ hx, rest⟩

/-- The nodes of a layout stand one behind the other. -/
lemma id_of_getElem?_coresOf {j : Nat} {n : NodeCore}
    (h : (coresOf (layout ι xs k))[j]? = some n) : n.id = ⟨k + j⟩ := by
  induction xs generalizing k j with
  | nil => simp [layout, coresOf] at h
  | cons x xs ih =>
    obtain ⟨a, m, x⟩ := x
    have hangs := hangs_definitionBlock ι ⟨m, a⟩ x k
    simp only [layout, coresOf, List.flatMap_cons] at h ih
    rcases Nat.lt_or_ge j (definitionBlock ι ⟨m, a⟩ x k).2.cores.length with hj | hj
    · rw [List.getElem?_append_left hj] at h
      exact (hangs.place j n h).1
    · rw [List.getElem?_append_right hj] at h
      rw [ih h, Block.length_cores]
      rw [Block.length_cores] at hj
      congr 1
      omega

/-- No two nodes of a layout have one identifier. -/
lemma eq_of_id {c e : NodeCore} (hc : c ∈ coresOf (layout ι xs k))
    (he : e ∈ coresOf (layout ι xs k)) (same : c.id = e.id) : c = e := by
  obtain ⟨i, hi⟩ := List.mem_iff_getElem?.1 hc
  obtain ⟨j, hj⟩ := List.mem_iff_getElem?.1 he
  rw [id_of_getElem?_coresOf hi, id_of_getElem?_coresOf hj, Ident.mk.injEq] at same
  rw [Nat.add_left_cancel same, hj] at hi
  exact (Option.some.inj hi).symm

/-- What a node of a block is written with lies in the same block. -/
lemma covers_of_isPart (hb : b ∈ layout ι xs k) {t u : TypeId} (ht : b.Covers t)
    (h : IsPart (coresOf (layout ι xs k)) t u) : b.Covers u := by
  obtain ⟨n, hn, rfl, hu⟩ := h
  obtain ⟨c, hc, hn⟩ := List.mem_flatMap.1 hn
  have covers := covers_of_mem_cores hc hn
  obtain rfl := eq_of_covers hb hc ht covers
  obtain ⟨lo, hi⟩ := (hangs_of_mem_layout hc).parts n hn u hu
  exact ⟨lo, Nat.lt_trans hi covers.2⟩

/-- A block covers its top node. -/
lemma covers_top (hb : b ∈ layout ι xs k) {t : TypeId} (ht : b.top? = some t) : b.Covers t := by
  have range := (hangs_of_mem_layout hb).range t (by simp [ht])
  rwa [Block.length_cores] at range

/-- Every node of a block is held by the block's top. -/
lemma exists_top_goesDown (hb : b ∈ layout ι xs k) {n : NodeCore} (hn : n ∈ b.block.cores) :
    ∃ t, b.top? = some t ∧ GoesDown (coresOf (layout ι xs k)) t n.id := by
  obtain ⟨t, ht, path⟩ := (hangs_of_mem_layout hb).held n hn
  refine ⟨t, Option.mem_toList.1 ht, path.mono fun e he => ?_⟩
  exact List.mem_flatMap.2 ⟨b, hb, he⟩

/-- The node that a reference of some block is noted for. -/
def NotedIn (ι : String → StrId) (bs : List LaidBlock) (r : PendingReference) (n : NodeCore) :
    Prop :=
  ∃ b ∈ bs, n ∈ b.block.cores ∧ Notes ι b.owner r n

/-- The references noted in a layout are its reference nodes, in order. -/
lemma forall₂_notedIn (ι : String → StrId) (xs : List OwnedDefinition) (k : Nat) :
    List.Forall₂ (NotedIn ι (layout ι xs k)) (referencesOf (layout ι xs k))
      ((coresOf (layout ι xs k)).filter (·.shape.isReference)) := by
  have blocks : ∀ bs : List LaidBlock, bs ⊆ layout ι xs k →
      List.Forall₂ (NotedIn ι (layout ι xs k)) (referencesOf bs)
        ((coresOf bs).filter (·.shape.isReference)) := by
    intro bs sub
    induction bs with
    | nil => exact .nil
    | cons b bs ih =>
      obtain ⟨hb, sub⟩ := List.cons_subset.1 sub
      simp only [referencesOf, coresOf, List.flatMap_cons, List.filter_append] at ih ⊢
      refine List.rel_append ?_ (ih sub)
      have noted := (hangs_of_mem_layout hb).noted
      rw [List.forall₂_iff_get] at noted ⊢
      refine ⟨noted.1, fun i h h' => ⟨b, hb, ?_, noted.2 i h h'⟩⟩
      exact (List.mem_filter.1 (List.get_mem _ _)).1
  exact blocks _ (List.Subset.refl _)

/-- Every noted reference has its node in the layout. -/
lemma exists_notedIn {r : PendingReference} (hr : r ∈ referencesOf (layout ι xs k)) :
    ∃ n, NotedIn ι (layout ι xs k) r n := by
  have all := List.forall₂_iff_get.1 (forall₂_notedIn ι xs k)
  obtain ⟨i, hi, rfl⟩ := List.getElem_of_mem hr
  exact ⟨_, all.2 i hi (all.1 ▸ hi)⟩

/-- The nodes of the noted references are those of the layout that are references, in order. -/
lemma map_node_referencesOf (ι : String → StrId) (xs : List OwnedDefinition) (k : Nat) :
    (referencesOf (layout ι xs k)).map (·.node) =
      ((coresOf (layout ι xs k)).filter (·.shape.isReference)).map (·.id) := by
  rw [← List.forall₂_eq_eq_eq, List.forall₂_map_left_iff, List.forall₂_map_right_iff]
  exact (forall₂_notedIn ι xs k).imp fun r n ⟨_, _, _, notes⟩ => notes.node

/-- The nodes of a layout have the identifiers of their positions. -/
lemma map_index_coresOf (ι : String → StrId) (xs : List OwnedDefinition) (k : Nat) :
    (coresOf (layout ι xs k)).map (·.id.index) =
      List.range' k (coresOf (layout ι xs k)).length := by
  apply List.ext_getElem (by simp)
  intro j h h'
  rw [List.length_map] at h
  simp [id_of_getElem?_coresOf (List.getElem?_eq_getElem h)]

end

end MibCorpus
