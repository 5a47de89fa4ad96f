import MibCorpus.Proofs.Embedding
import MibCorpus.Proofs.MirrorBlocks
import MibCorpus.Proofs.Run

/-!
# Embedded type nodes

Every definition that the smaller draft keeps is lowered to a block of the same form in the larger
one. So the type nodes of the smaller draft are found again in the larger one, by the definition
whose SYNTAX they stand in and their places in the block.
-/

namespace MibCorpus

section Groups

variable {α ι κ : Type} [DecidableEq κ] {key : α → κ} {name : ι → κ} {groups : List ι}
  {members : ι → List α}

/-- Groups are filtered as a whole by what their members have in common. -/
lemma filter_flatMap_groups {p : ι → Bool} {q : α → Bool}
    (same : ∀ g ∈ groups, ∀ a ∈ members g, q a = p g) :
    (groups.flatMap members).filter q = (groups.filter p).flatMap members := by
  induction groups with
  | nil => rfl
  | cons g groups ih =>
    have ih := ih fun g hg => same g (List.mem_cons_of_mem _ hg)
    have here := same g (List.mem_cons_self ..)
    rw [List.flatMap_cons, List.filter_append, ih]
    cases hg : p g with
    | true =>
      rw [List.filter_cons_of_pos hg, List.flatMap_cons,
        List.filter_eq_self.2 fun a ha => (here a ha).trans hg]
    | false =>
      rw [List.filter_cons_of_neg (by simp [hg]),
        List.filter_eq_nil_iff.2 fun a ha => by simp [here a ha, hg], List.nil_append]

/-- The members of a group are found by its name. -/
lemma filter_flatMap_eq (named : ∀ g ∈ groups, ∀ a ∈ members g, key a = name g)
    (nodup : (groups.map name).Nodup) {g : ι} (hg : g ∈ groups) :
    (groups.flatMap members).filter (key · = name g) = members g := by
  rw [filter_flatMap_groups (p := (name · = name g)) fun h hh a ha => by rw [named h hh a ha],
    filter_key_eq nodup hg, List.flatMap_singleton]

/-- What is listed group by group, and nothing else, falls into its groups. -/
lemma eq_flatMap_filter (named : ∀ g ∈ groups, ∀ a ∈ members g, key a = name g)
    (nodup : (groups.map name).Nodup) {xs : List α} (sub : xs.Sublist (groups.flatMap members)) :
    xs = groups.flatMap fun g => xs.filter (key · = name g) := by
  induction groups generalizing xs with
  | nil => simpa using sub
  | cons g groups ih =>
    have named' : ∀ g ∈ groups, ∀ a ∈ members g, key a = name g :=
      fun g hg => named g (List.mem_cons_of_mem _ hg)
    rw [List.map_cons, List.nodup_cons] at nodup
    obtain ⟨ys, zs, rfl, hy, hz⟩ := List.sublist_append_iff.1 sub
    have first : ∀ a ∈ ys, key a = name g := fun a ha =>
      named g (List.mem_cons_self ..) a (hy.subset ha)
    have own : zs.filter (key · = name g) = [] := by
      refine List.filter_eq_nil_iff.2 fun a ha => ?_
      obtain ⟨h, hh, ha⟩ := List.mem_flatMap.1 (hz.subset ha)
      simpa [named' h hh a ha] using fun same => nodup.1 (List.mem_map.2 ⟨h, hh, same⟩)
    have rest : ∀ h ∈ groups, ys.filter (key · = name h) = [] := by
      refine fun h hh => List.filter_eq_nil_iff.2 fun a ha => ?_
      simpa [first a ha] using fun same => nodup.1 (List.mem_map.2 ⟨h, hh, same.symm⟩)
    rw [List.flatMap_cons, List.filter_append, own, List.append_nil,
      List.filter_eq_self.2 fun a ha => by simpa using first a ha]
    refine congrArg (ys ++ ·) ((ih named' nodup.2 hz).trans (List.flatMap_congr fun h hh => ?_))
    rw [List.filter_append, rest h hh, List.nil_append]

end Groups

/-! ## Addresses -/

/-- A block that the definition has elsewhere is mirrored. -/
lemma mirrors_definitionBlock_elsewhere (ι ι' : String → StrId) (o o' : TypeOwner) (x : Definition)
    (k k' : Nat) : ∃ σ τ,
      Block.Mirrors σ τ (definitionBlock ι o x k).2 (definitionBlock ι' o' x k').2 := by
  let σ : Renaming := ⟨Equiv.swap o.module o'.module, Equiv.swap o.assignment o'.assignment⟩
  have same : σ.owner o = o' := by simp [Renaming.owner, σ]
  have mirrors := (mirrors_definitionBlock σ (fun t => ⟨t.index - k + k'⟩) ι ι' o x k k'
    fun c _ => by rw [Nat.add_sub_cancel_left, Nat.add_comm]).2
  rw [same] at mirrors
  exact ⟨σ, _, mirrors⟩

/-- The block of a definition that stands nowhere in particular. -/
def Definition.block (x : Definition) : Block :=
  (definitionBlock (fun _ => ⟨0⟩) ⟨⟨0⟩, ⟨0⟩⟩ x 0).2

/-- Neither the length nor the defects of a block depend on where or by whom it is laid out. -/
lemma definitionBlock_eq (ι : String → StrId) (o : TypeOwner) (x : Definition) (k : Nat) :
    (definitionBlock ι o x k).2.length = x.block.length ∧
      (definitionBlock ι o x k).2.defects = x.block.defects := by
  obtain ⟨σ, τ, h⟩ := mirrors_definitionBlock_elsewhere (fun _ => ⟨0⟩) ι ⟨⟨0⟩, ⟨0⟩⟩ o x 0 k
  exact ⟨h.length, h.defects⟩

/-- What is collected from a layout, if it does not depend on where the blocks stand. -/
lemma flatMap_layout {β : Type} {ι : String → StrId} {F : LaidBlock → List β}
    {G : OwnedDefinition → List β}
    (h : ∀ (x : OwnedDefinition) (k : Nat),
      F ⟨⟨x.2.1, x.1⟩, k, (definitionBlock ι ⟨x.2.1, x.1⟩ x.2.2 k).1,
        (definitionBlock ι ⟨x.2.1, x.1⟩ x.2.2 k).2⟩ = G x)
    (xs : List OwnedDefinition) (k : Nat) : (layout ι xs k).flatMap F = xs.flatMap G := by
  induction xs generalizing k with
  | nil => rfl
  | cons x xs ih =>
    rw [layout, List.flatMap_cons, List.flatMap_cons, ih]
    exact congrArg (· ++ _) (h x k)

/-- The assignments that the nodes of some blocks belong to, with the places in the blocks. -/
def addresses (bs : List LaidBlock) : List (AssignmentId × Nat) :=
  bs.flatMap fun b => (List.range b.block.length).map (b.owner.assignment, ·)

/-- The address of a node of a layout. -/
lemma getElem?_addresses {ι : String → StrId} {xs : List OwnedDefinition} {k : Nat} {b : LaidBlock}
    (hb : b ∈ layout ι xs k) {j : Nat} (hj : j < b.block.length) :
    k ≤ b.start ∧ (addresses (layout ι xs k))[b.start - k + j]? = some (b.owner.assignment, j) := by
  induction xs generalizing k with
  | nil => simp [layout] at hb
  | cons x xs ih =>
    rcases List.mem_cons.1 hb with rfl | hb
    · refine ⟨Nat.le_refl k, ?_⟩
      simp only [layout, addresses, List.flatMap_cons, Nat.sub_self, Nat.zero_add]
      rw [List.getElem?_append_left (by simpa using hj), List.getElem?_map,
        List.getElem?_range hj]
      rfl
    · obtain ⟨le, at_j⟩ := ih hb
      refine ⟨by omega, ?_⟩
      simp only [layout, addresses, List.flatMap_cons] at at_j ⊢
      rw [List.getElem?_append_right (by rw [List.length_map, List.length_range]; omega), ← at_j]
      congr 1
      rw [List.length_map, List.length_range]
      omega

/-- The addresses that a definition has in a layout. -/
def definitionAddresses (x : OwnedDefinition) : List (AssignmentId × Nat) :=
  (List.range x.2.2.block.length).map (x.1, ·)

/-- The addresses in a layout are those of its definitions, in order. -/
lemma addresses_layout (ι : String → StrId) (xs : List OwnedDefinition) (k : Nat) :
    addresses (layout ι xs k) = xs.flatMap definitionAddresses := by
  refine flatMap_layout (fun x k => ?_) xs k
  rw [definitionAddresses, ← (definitionBlock_eq ι ⟨x.2.1, x.1⟩ x.2.2 k).1]

/-- No two nodes of a layout have one address. -/
lemma nodup_addresses (ι : String → StrId) {xs : List OwnedDefinition}
    (nodup : (xs.map Prod.fst).Nodup) (k : Nat) : (addresses (layout ι xs k)).Nodup := by
  rw [addresses_layout, List.nodup_flatMap]
  constructor
  · intro x _
    exact List.nodup_range.map fun i j e => congrArg Prod.snd e
  · refine (List.pairwise_map.1 nodup).imp fun {x y} ne => ?_
    refine List.disjoint_left.2 fun p hp hp' => ?_
    obtain ⟨i, -, rfl⟩ := List.mem_map.1 hp
    obtain ⟨j, -, e⟩ := List.mem_map.1 hp'
    exact ne (congrArg Prod.fst e).symm

/-- Every reference of a block is noted for a node of the block. -/
lemma exists_notes {ι : String → StrId} {xs : List OwnedDefinition} {k : Nat} {b : LaidBlock}
    (hb : b ∈ layout ι xs k) {r : PendingReference} (hr : r ∈ b.block.references) :
    ∃ c, Notes ι b.owner r c := by
  have all := List.forall₂_iff_get.1 (hangs_of_mem_layout hb).noted
  obtain ⟨i, hi, rfl⟩ := List.getElem_of_mem hr
  exact ⟨_, all.2 i hi (all.1 ▸ hi)⟩

namespace Draft

variable {σ : Renaming} {d d' : Draft}

/-! ## The definitions of embedded drafts -/

/-- A definition with its assignment and its module, renamed. -/
def renamed (σ : Renaming) (x : OwnedDefinition) : OwnedDefinition :=
  (σ.assignment x.1, σ.module x.2.1, x.2.2)

/-- The included definitions are exactly the kept ones. -/
lemma Untyped.mem_included_iff (h : d.Untyped) {x : OwnedDefinition} :
    x ∈ d.included ↔ d.Keeps x.1 x.2.1 x.2.2 := by
  rw [included, List.mem_filter, mem_definitions, Keeps]
  refine and_congr_right fun hx => ?_
  rw [isIncluded_iff h.definitions h.fresh hx]
  simp

/-- What has been refused is left out. -/
lemma Untyped.not_mem_included_of_isRefused (h : d.Untyped) {x : OwnedDefinition}
    (refused : d.isRefused x.1 = true) : x ∉ d.included := by
  intro included
  have kept := (h.mem_included_iff.1 included).2
  rw [refused] at kept
  cases kept

/-- Embedded drafts that are linked and in which nothing is typed. -/
structure EmbedsLinked (σ : Renaming) (d d' : Draft) : Prop where
  embeds : Embeds σ d d'
  scope : Scope.Embeds σ d.HasModule d.scope d'.scope
  untyped : d.Untyped
  untyped' : d'.Untyped

/-- Included definitions, renamed, are included in the larger draft. -/
lemma EmbedsLinked.renamed_mem (h : EmbedsLinked σ d d') {x : OwnedDefinition}
    (hx : x ∈ d.included) : renamed σ x ∈ d'.included :=
  h.untyped'.mem_included_iff.2 (h.embeds.keeps_renamed (h.untyped.mem_included_iff.1 hx))

/-- A reference is noted for a definition that is kept, and its qualifier is written there. -/
lemma Untyped.keeps_of_mem_noted (h : d.Untyped) {r : PendingReference} (hr : r ∈ d.noted) :
    ∃ x, d.Keeps r.referrer r.module x ∧ ∀ q, r.qualifier = some q → q ∈ x.qualifiers := by
  rw [noted_eq h.definitions h.bare] at hr
  obtain ⟨b, hb, hr⟩ := List.mem_flatMap.1 hr
  obtain ⟨x, hx, laid⟩ := mem_of_mem_layout hb
  have block : b.block = (definitionBlock d.stringId b.owner x b.start).2 := congrArg Prod.snd laid
  obtain ⟨c, notes⟩ := exists_notes hb hr
  rw [block] at hr
  rw [notes.module, notes.referrer]
  exact ⟨x, h.mem_included_iff.1 hx, fun q hq => mem_qualifiers_of_reference hr hq⟩

/-- A definition that is kept has its block. -/
lemma Untyped.exists_block (h : d.Untyped) {i : AssignmentId} (hi : d.Kept i) :
    ∃ b ∈ d.blocks, b.owner.assignment = i := by
  obtain ⟨m, x, hx⟩ := hi
  obtain ⟨b, hb, owner, -⟩ : ∃ b ∈ d.blocks, b.owner = ⟨m, i⟩ ∧
      (b.top?, b.block) = definitionBlock d.stringId ⟨m, i⟩ x b.start :=
    exists_mem_layout (h.mem_included_iff.2 hx)
  exact ⟨b, hb, congrArg TypeOwner.assignment owner⟩

/-- The references noted for an assignment are those of its block. -/
lemma Untyped.filter_noted_owner (h : d.Untyped) {b : LaidBlock} (hb : b ∈ d.blocks) :
    d.noted.filter (·.referrer = b.owner.assignment) = b.block.references := by
  have named : ∀ c ∈ d.blocks, ∀ r ∈ c.block.references, r.referrer = c.owner.assignment := by
    intro c hc r hr
    obtain ⟨_, notes⟩ := exists_notes hc hr
    exact notes.referrer
  have nodup : (d.blocks.map (·.owner.assignment)).Nodup := by
    rw [blocks, map_owner_layout]
    exact d.nodup_included
  rw [noted_eq h.definitions h.bare]
  exact filter_flatMap_eq named nodup hb

/-! ## The renaming of the type nodes -/

/-- Renaming takes a type node of the first draft to the type node of the second that has the same
place in the block of the same assignment. -/
structure EmbedsNodes (σ : Renaming) (τ : Equiv.Perm TypeId) (d d' : Draft) : Prop
    extends EmbedsLinked σ d d' where
  address : ∀ (t : TypeId) p, (addresses d.blocks)[t.index]? = some p →
    (addresses d'.blocks)[(τ t).index]? = some (Prod.map σ.assignment id p)

/-- The type nodes of embedded drafts can be renamed. -/
theorem EmbedsLinked.exists_embedsNodes (h : EmbedsLinked σ d d') : ∃ τ, EmbedsNodes σ τ d d' := by
  have nodup : (addresses d.blocks).Nodup := nodup_addresses _ d.nodup_included 0
  have nodup' : (addresses d'.blocks).Nodup := nodup_addresses _ d'.nodup_included 0
  have injective : Function.Injective (Prod.map σ.assignment (id : Nat → Nat)) :=
    Function.Injective.prodMap σ.assignment.injective Function.injective_id
  have sub : (addresses d.blocks).map (Prod.map σ.assignment id) ⊆ addresses d'.blocks := by
    intro p hp
    obtain ⟨q, hq, rfl⟩ := List.mem_map.1 hp
    rw [blocks, addresses_layout] at hq ⊢
    obtain ⟨x, hx, hq⟩ := List.mem_flatMap.1 hq
    obtain ⟨j, hj, rfl⟩ := List.mem_map.1 hq
    exact List.mem_flatMap.2 ⟨_, h.renamed_mem hx, List.mem_map.2 ⟨j, hj, rfl⟩⟩
  obtain ⟨f, hf⟩ := exists_positions (nodup.map injective) nodup' sub
  refine ⟨Ident.permute f, h, fun t p hp => hf t.index _ ?_⟩
  rw [List.getElem?_map, hp]
  rfl

section EmbedsNodes

variable {τ : Equiv.Perm TypeId}

/-- The block of a definition has its counterpart. -/
lemma EmbedsNodes.exists_block (h : EmbedsNodes σ τ d d') {b : LaidBlock} (hb : b ∈ d.blocks) :
    ∃ b' ∈ d'.blocks, b'.owner = σ.owner b.owner ∧ b'.top? = b.top?.map τ ∧
      Block.Mirrors σ τ b.block b'.block := by
  obtain ⟨x, hx, laid⟩ := mem_of_mem_layout hb
  obtain ⟨b', hb', owner, laid'⟩ : ∃ b' ∈ d'.blocks, b'.owner = σ.owner b.owner ∧
      (b'.top?, b'.block) = definitionBlock d'.stringId (σ.owner b.owner) x b'.start :=
    exists_mem_layout (h.renamed_mem hx)
  have block : b.block = (definitionBlock d.stringId b.owner x b.start).2 := congrArg Prod.snd laid
  have block' : b'.block = (definitionBlock d'.stringId (σ.owner b.owner) x b'.start).2 :=
    congrArg Prod.snd laid'
  have length : b'.block.length = b.block.length := by
    rw [block, block', (definitionBlock_eq ..).1, (definitionBlock_eq ..).1]
  -- The nodes of both blocks have the same addresses, so they are taken to each other.
  have near : ∀ c < b.block.length, τ ⟨b.start + c⟩ = ⟨b'.start + c⟩ := by
    intro c hc
    obtain ⟨-, here⟩ := getElem?_addresses hb hc
    obtain ⟨-, there⟩ := getElem?_addresses hb' (length ▸ hc)
    rw [Nat.sub_zero] at here there
    have matched := h.address ⟨b.start + c⟩ _ here
    rw [owner] at there
    have nodup : (addresses d'.blocks).Nodup := nodup_addresses _ d'.nodup_included 0
    have lt := (List.getElem?_eq_some_iff.1 matched).1
    exact congrArg Ident.mk ((List.getElem?_inj lt nodup).1 (matched.trans there.symm))
  rw [block] at near
  obtain ⟨top, mirrors⟩ :=
    mirrors_definitionBlock σ τ d.stringId d'.stringId b.owner x b.start b'.start near
  refine ⟨b', hb', owner, ?_, ?_⟩
  · rw [show b'.top? = _ from congrArg Prod.fst laid', show b.top? = _ from congrArg Prod.fst laid]
    exact top
  · rw [block, block']
    exact mirrors

/-- A lowered node has its counterpart. -/
lemma EmbedsNodes.exists_type? (h : EmbedsNodes σ τ d d') {t : TypeId} {n : TypeNode}
    (hn : d.lowered.mib.type? t = some n) :
    ∃ n', d'.lowered.mib.type? (τ t) = some n' ∧ n'.view = n.view.rename τ := by
  obtain ⟨rfl, hc⟩ := core_of_type?_lowered h.untyped.definitions h.untyped.bare hn
  obtain ⟨b, hb, hc⟩ := List.mem_flatMap.1 hc
  obtain ⟨b', hb', -, -, mirrors⟩ := h.exists_block hb
  have view : n.view.rename τ ∈ b'.block.cores.map NodeCore.view := by
    rw [mirrors.views]
    exact List.mem_map.2 ⟨_, hc, rfl⟩
  obtain ⟨c', hc', e⟩ := List.mem_map.1 view
  obtain ⟨n', hn', rfl⟩ := exists_type?_lowered h.untyped'.definitions h.untyped'.bare
    (List.mem_flatMap.2 ⟨b', hb', hc'⟩)
  have id : n'.core.id = τ n.id := congrArg NodeView.id e
  rw [id] at hn'
  exact ⟨n', hn', e⟩

/-- The node that becomes the type of a definition has its counterpart. -/
lemma EmbedsNodes.syntaxType? (h : EmbedsNodes σ τ d d') {i : AssignmentId} (hi : d.Kept i) :
    d'.syntaxType? (σ.assignment i) = (d.syntaxType? i).map τ := by
  obtain ⟨b, hb, rfl⟩ := h.untyped.exists_block hi
  obtain ⟨b', hb', owner', top, -⟩ := h.exists_block hb
  have there := syntaxType?_of_mem hb'
  rw [owner'] at there
  rw [syntaxType?_of_mem hb, ← top]
  exact there

/-- The node that becomes a type is there. -/
lemma Untyped.exists_type?_of_syntaxType? (h : d.Untyped) {i : AssignmentId} {t : TypeId}
    (ht : d.syntaxType? i = some t) : ∃ n, d.lowered.mib.type? t = some n := by
  obtain ⟨b, hb, -, top⟩ := exists_block_of_syntaxType? ht
  obtain ⟨c, hc, rfl⟩ := exists_mem_cores_of_covers hb (covers_top hb top)
  obtain ⟨n, hn, -⟩ := exists_type?_lowered h.definitions h.bare (List.mem_flatMap.2 ⟨b, hb, hc⟩)
  exact ⟨n, hn⟩

/-- A lowered node is built from what it is written with, since no reference has a target yet. -/
lemma Untyped.mem_parts_of_mem_dependencies (h : d.Untyped) {t u : TypeId} {n : TypeNode}
    (hn : d.lowered.mib.type? t = some n) (hu : u ∈ n.shape.dependencies) : u ∈ n.shape.parts := by
  cases hs : n.shape with
  | reference symbol qualifier target from? =>
    obtain ⟨r, hr, e⟩ := exists_mem_noted h.definitions h.bare hn (by rw [hs]; rfl)
    obtain ⟨m, hm, -, shape⟩ := h.exists_noted_node hr
    rw [e, hn] at hm
    obtain rfl := Option.some.inj hm
    rw [shape] at hu
    cases hu
  | builtin | enumeration | sequence | sequenceOf | choice | textualConvention =>
    rwa [hs] at hu

/-- What a lowered node is built from is there. -/
lemma Untyped.exists_type?_of_mem_dependencies (h : d.Untyped) {t u : TypeId} {n : TypeNode}
    (hn : d.lowered.mib.type? t = some n) (hu : u ∈ n.shape.dependencies) :
    ∃ o, d.lowered.mib.type? u = some o := by
  have part := h.mem_parts_of_mem_dependencies hn hu
  obtain ⟨rfl, hc⟩ := core_of_type?_lowered h.definitions h.bare hn
  obtain ⟨b, hb, hb'⟩ := List.mem_flatMap.1 hc
  have covers := covers_of_isPart hb (covers_of_mem_cores hb hb') ⟨n.core, hc, rfl, part⟩
  obtain ⟨c, hc, rfl⟩ := exists_mem_cores_of_covers hb covers
  obtain ⟨o, ho, -⟩ := exists_type?_lowered h.definitions h.bare (List.mem_flatMap.2 ⟨b, hb, hc⟩)
  exact ⟨o, ho⟩

/-! ## Noted references -/

/-- A noted reference, renamed, is noted in the larger draft. -/
lemma EmbedsNodes.reference_mem_noted (h : EmbedsNodes σ τ d d') {r : PendingReference}
    (hr : r ∈ d.noted) : σ.reference τ r ∈ d'.noted := by
  rw [noted_eq h.untyped.definitions h.untyped.bare] at hr
  rw [noted_eq h.untyped'.definitions h.untyped'.bare]
  obtain ⟨b, hb, hr⟩ := List.mem_flatMap.1 hr
  obtain ⟨b', hb', -, -, mirrors⟩ := h.exists_block hb
  refine List.mem_flatMap.2 ⟨b', hb', ?_⟩
  rw [mirrors.references]
  exact List.mem_map_of_mem hr

/-- A reference noted for the counterpart of a node is the counterpart of one noted for the node. -/
lemma EmbedsNodes.exists_noted (h : EmbedsNodes σ τ d d') {r' : PendingReference}
    (hr' : r' ∈ d'.noted) {t : TypeId} {n : TypeNode} (hn : d.lowered.mib.type? t = some n)
    (node : r'.node = τ t) : ∃ r ∈ d.noted, r.node = t ∧ r' = σ.reference τ r := by
  obtain ⟨m, hm, view⟩ := h.exists_type? hn
  obtain ⟨m', hm', -, shape⟩ := h.untyped'.exists_noted_node hr'
  rw [node, hm] at hm'
  obtain rfl := Option.some.inj hm'
  have unbound : n.shape.isUnbound := by
    have same : m.shape.isUnbound = n.shape.isUnbound := congrArg NodeView.isUnbound view
    rw [← same, shape]
    rfl
  obtain ⟨r, hr, rfl⟩ := exists_mem_noted h.untyped.definitions h.untyped.bare hn (by
    cases hs : n.shape with
    | reference => rfl
    | builtin | enumeration | sequence | sequenceOf | choice | textualConvention =>
      rw [hs] at unbound
      cases unbound)
  refine ⟨r, hr, rfl, ?_⟩
  exact List.inj_on_of_nodup_map h.untyped'.nodup_noted hr'
    (h.reference_mem_noted hr) node

/-- The references noted for a definition that is kept have their counterparts, in the same
order. -/
lemma EmbedsNodes.filter_noted (h : EmbedsNodes σ τ d d') {i : AssignmentId} (hi : d.Kept i) :
    d'.noted.filter (·.referrer = σ.assignment i) =
      (d.noted.filter (·.referrer = i)).map (σ.reference τ) := by
  obtain ⟨b, hb, rfl⟩ := h.untyped.exists_block hi
  obtain ⟨b', hb', owner', -, mirrors⟩ := h.exists_block hb
  have there := h.untyped'.filter_noted_owner hb'
  rw [owner', mirrors.references] at there
  rw [h.untyped.filter_noted_owner hb]
  exact there

end EmbedsNodes

end Draft

end MibCorpus
