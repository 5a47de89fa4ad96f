import MibCorpus.Proofs.Readback
import MibCorpus.Proofs.References

/-!
# Lowering is faithful

From the type of a definition its SYNTAX can be read back. Only the topmost node of a type has a
name, lowering a definition leaves the nodes of the others alone, and the references that it notes
are the names in its SYNTAX, in order.
-/

namespace MibCorpus

/-! ## References -/

/-- The name that is noted, with the module and the assignment that it is noted for. -/
def PendingReference.mention (r : PendingReference) :
    ModuleId × AssignmentId × Option String × String :=
  (r.module, r.referrer, r.qualifier, r.symbol)

section

variable (ι : String → StrId) (owner : String) (o : TypeOwner)

mutual

/-- Lowering a SYNTAX notes the names in it. -/
lemma map_mention_syntaxBlock : ∀ (s : TypeSyntax) (k : Nat),
    (syntaxBlock ι owner o s k).2.references.map (·.mention) =
      s.references.map (o.module, o.assignment, ·)
  | .named _, _ | .qualified .., _ | .integer, _ | .octetString, _ | .objectIdentifier, _
  | .enumeration _, _ | .bits _, _ => rfl
  | .constrained base _, k => map_mention_syntaxBlock base k
  | .sequence fields, k | .choice fields, k => by
    have inner := map_mention_fieldsBlock fields k
    simpa [syntaxBlock, TypeSyntax.references] using inner
  | .sequenceOf element, k => by
    have inner := map_mention_syntaxBlock element k
    simpa [syntaxBlock, TypeSyntax.references] using inner

/-- Lowering some fields notes the names in them. -/
lemma map_mention_fieldsBlock : ∀ (fields : List (String × TypeSyntax)) (k : Nat),
    (fieldsBlock ι owner o fields k).2.references.map (·.mention) =
      (TypeSyntax.fieldReferences fields).map (o.module, o.assignment, ·)
  | [], _ => rfl
  | (_, body) :: rest, k => by
    have head := map_mention_syntaxBlock body k
    have tail := map_mention_fieldsBlock rest (k + (syntaxBlock ι owner o body k).2.length)
    simp only [fieldsBlock, Block.references_append, List.map_append, head, tail,
      TypeSyntax.fieldReferences]

end

end

/-- Lowering a definition notes the names in its SYNTAX. -/
lemma map_mention_definitionBlock {ι : String → StrId} {o : TypeOwner} {x : Definition} {k : Nat}
    {body : TypeSyntax} (hx : x.body? = some body) :
    (definitionBlock ι o x k).2.references.map (·.mention) =
      body.references.map (o.module, o.assignment, ·) := by
  obtain ⟨name, clauses, span⟩ := x
  cases clauses with
  | type written hint? status | objectType written access status oid =>
    obtain rfl : written = body := Option.some.inj hx
    exact map_mention_syntaxBlock ι name o written k
  | textualConvention written hint? status =>
    obtain rfl : written = body := Option.some.inj hx
    refine Eq.trans ?_ (map_mention_syntaxBlock ι name o written k)
    simp [definitionBlock, Block.modify]
  | value | objectIdentity | moduleIdentity | notification => cases hx

/-! ## One definition after another -/

namespace Lowering

/-- The lowering of some definitions one after another. -/
def lowerEach (d : Draft) (xs : List OwnedDefinition) : Lowering :=
  xs.foldl (fun l x => l.lowerDefinition ⟨x.2.1, x.1⟩ x.2.2) ⟨d, []⟩

/-- From `l` to `l'` the nodes, the references and the other assignments than `i` stay as they
are. -/
structure LeavesOthers (i : AssignmentId) (l l' : Lowering) : Prop where
  nodes : ∀ t n, l.draft.mib.type? t = some n → l'.draft.mib.type? t = some n
  references : l.references <+: l'.references
  assignments : ∀ j, j ≠ i → l'.draft.mib.assignment? j = l.draft.mib.assignment? j

/-- Laying out one block touches its own assignment only. -/
lemma Laid.leavesOthers {b : LaidBlock} {l l' : Lowering} (h : Laid [b] l l') :
    LeavesOthers b.owner.assignment l l' where
  nodes t n hn := by
    rw [Mib.type?, ← Array.getElem?_toList] at hn ⊢
    obtain ⟨lt, -⟩ := List.getElem?_eq_some_iff.1 hn
    rw [h.types, List.getElem?_append_left lt, hn]
  references := ⟨_, h.references.symm⟩
  assignments j ne := by
    refine h.untyped j fun c hc e => ?_
    obtain rfl := List.mem_singleton.1 hc
    exact absurd e.symm ne

/-- Lowering one definition leaves what was lowered before as it is. -/
lemma leavesOthers_lowerDefinition {d : Draft} (r : d.DefinitionsRegistered)
    {before : List OwnedDefinition} {i : AssignmentId} {m : ModuleId} {x : Definition}
    (part : before ++ [(i, m, x)] <+: d.included) :
    LeavesOthers i (lowerEach d before) (lowerEach d (before ++ [(i, m, x)])) := by
  have owners : ∀ y ∈ before ++ [(i, m, x)], d.owner? y.1 = some y.2 := fun y hy =>
    Draft.mem_definitions.1 (List.mem_filter.1 (part.subset hy)).1
  have nodup : (before.map Prod.fst).Nodup :=
    d.nodup_included.sublist (((List.prefix_append _ _).trans part).sublist.map _)
  obtain ⟨continues, -⟩ := laid_foldl before ⟨d, []⟩ r
    (fun y hy => owners y (List.mem_append_left _ hy)) nodup
  have registered := r.of_registry continues.registry continues.strings
  have here : (lowerEach d before).draft.owner? i = some (m, x) := by
    rw [show (lowerEach d before).draft.owner? = d.owner? from
      Draft.owner?_of_registry continues.registry]
    exact owners _ (List.mem_append_right _ (List.mem_singleton_self _))
  have laid := (laid_lowerDefinition (l := lowerEach d before) registered here).2
  have step : lowerEach d (before ++ [(i, m, x)]) =
      (lowerEach d before).lowerDefinition ⟨m, i⟩ x := by
    simp [lowerEach]
  rw [step]
  exact (laid _ (Strings.agrees_idOf _)).leavesOthers

end Lowering

namespace Draft

/-! ## Runs -/

/-- Definition `x` of module `m`, which is assignment `i` and has the SYNTAX `body`, was lowered to
type `t`. -/
structure LoweredTo (linked final : Draft) (i : AssignmentId) (m : ModuleId) (x : Definition)
    (body : TypeSyntax) (a : Assignment) (t : TypeId) : Prop where
  assignment : final.mib.assignment? i = some a
  type : a.type = some t
  named : final.mib.str a.name = x.name
  /-- What is left of the SYNTAX is read back. -/
  read : final.mib.readType? t = some (x.convention?, body.left)
  /-- It is what was written if there is no more than one constraint on a node and no range that
  cannot hold. -/
  faithful : body.ConstrainedOnce → TypeSyntax.AllHold body.constraints →
    final.mib.readType? t = some (x.convention?, body.spelledOut)
  names : ∀ u n, final.mib.InSyntax i u → final.mib.type? u = some n →
    n.name = if u = t ∧ x.kind.isType = true then some a.name else none
  /-- The references noted are the names in the SYNTAX, in order. -/
  references : (linked.noted.filter (·.referrer = i)).map (·.mention) =
    body.references.map (m, i, ·)
  /-- They are noted for the reference nodes in the SYNTAX, in order. -/
  ordered : ((linked.noted.filter (·.referrer = i)).map (·.node.index)).Pairwise (· < ·)
  noted : ∀ u, u ∈ (linked.noted.filter (·.referrer = i)).map (·.node) ↔
    final.mib.InSyntax i u ∧ (final.mib.writtenShape? u).any (·.isReference) = true

/-- Every definition of draft `linked` with a SYNTAX that was not refused is lowered, and leaves
alone what was lowered before. What was refused is not lowered. -/
structure LowersFaithfully (linked final : Draft) : Prop where
  lowered : ∀ i m x body, linked.Keeps i m x → x.body? = some body →
    ∃ a t, LoweredTo linked final i m x body a t
  all : Lowering.lowerAll linked = Lowering.lowerEach linked linked.included
  /-- What has been refused is not among the definitions lowered and has no type. -/
  refused : ∀ i m x, linked.owner? i = some (m, x) → linked.isRefused i = true →
    (i, m, x) ∉ linked.included ∧ ∃ a, final.mib.assignment? i = some a ∧ a.type = none
  apart : ∀ before i m x, before ++ [(i, m, x)] <+: linked.included →
    Lowering.LeavesOthers i (Lowering.lowerEach linked before)
      (Lowering.lowerEach linked (before ++ [(i, m, x)]))

section Stages

variable {linked final : Draft} {types oids : Recorder} {i : AssignmentId} {m : ModuleId}
  {x : Definition} {a : Assignment}

/-- The identifier of the name of a definition is that of its assignment. -/
lemma Stages.stringId_eq (s : Stages linked types oids final) (kept : linked.Keeps i m x)
    (ha : final.mib.assignment? i = some a) : linked.stringId x.name = a.name := by
  have agrees := Strings.agrees_idOf linked.lowered.mib.strings
  have c := continues_lowered s.untyped.definitions
  obtain ⟨name, hn, -⟩ := s.untyped.definitions.entry i m x kept.1
  obtain ⟨y, hy, -, -, hn'⟩ := (s.registered.of_continues s.continues).definitions.owner ha
  rw [owner?_of_registry s.continues.registry, kept.1] at hy
  obtain ⟨-, rfl⟩ : m = a.module ∧ x = y := by simpa using hy
  have here : linked.stringId x.name = name := agrees x.name name (c.strings.find? hn)
  have there := s.continues.strings.find? hn
  rw [here]
  exact Option.some.inj (there.symm.trans hn')

/-- The topmost node of a type has the name of its definition, and no other node has one. -/
lemma Stages.name_of_inSyntax (s : Stages linked types oids final) (kept : linked.Keeps i m x)
    (ha : final.mib.assignment? i = some a) {t : TypeId} (ht : a.type = some t) {u : TypeId}
    {n : TypeNode} (hu : final.mib.InSyntax i u) (hn : final.mib.type? u = some n) :
    n.name = if u = t ∧ x.kind.isType = true then some a.name else none := by
  have h := s.untyped
  obtain ⟨b, hb, rfl, covers⟩ := (Draft.inSyntax_iff h.definitions h.fresh h.bare).1
    (s.inSyntax_iff.1 hu)
  obtain ⟨b', hb', n', hn', rfl, -, name⟩ := s.exists_laid hn
  obtain rfl : b = b' := eq_of_covers hb hb' covers
    (covers_of_mem_cores hb' (List.mem_map_of_mem (f := TypeNode.core) hn'))
  obtain ⟨y, hy, e⟩ := mem_of_mem_layout hb
  obtain ⟨-, rfl⟩ : b.owner.module = m ∧ y = x := by
    simpa using (h.mem_included_iff.1 hy).1.symm.trans kept.1
  have type := s.type_eq b.owner.assignment
  rw [type_of_assignment?_resolveTypes h.definitions h.fresh h.bare, ha, Option.map_some,
    syntaxType?_of_mem hb] at type
  obtain ⟨-, -, type⟩ := Option.map_eq_some_iff.1 type.symm
  rw [show b.block = _ from congrArg Prod.snd e] at hn'
  obtain ⟨plain, -, -, e'⟩ := exists_isPlain_of_mem_definitionBlock hn'
  have top : (definitionBlock linked.stringId b.owner y b.start).1 = some t :=
    (congrArg Prod.fst e).symm.trans (type.trans ht)
  have named := congrArg TypeNode.name e'
  rw [name, named, top, s.stringId_eq kept ha]
  simp only [Option.some.injEq, eq_comm]

/-- The references noted for a definition are the names in its SYNTAX. -/
lemma Stages.map_mention_noted (s : Stages linked types oids final) (kept : linked.Keeps i m x)
    {body : TypeSyntax} (hx : x.body? = some body) :
    (linked.noted.filter (·.referrer = i)).map (·.mention) = body.references.map (m, i, ·) := by
  obtain ⟨b, hb, owner, e⟩ : ∃ b ∈ linked.blocks, b.owner = ⟨m, i⟩ ∧
      (b.top?, b.block) = definitionBlock linked.stringId ⟨m, i⟩ x b.start :=
    exists_mem_layout (s.untyped.mem_included_iff.2 kept)
  have own := s.untyped.filter_noted_owner hb
  rw [owner] at own
  rw [own, show b.block = _ from congrArg Prod.snd e, map_mention_definitionBlock hx]

/-- What is written of a reference is a reference. -/
@[simp]
lemma isReference_asWritten (shape : TypeShape) :
    shape.asWritten.isReference = shape.isReference := by
  cases shape <;> rfl

/-- References are noted for the reference nodes in the SYNTAX. -/
lemma Stages.mem_noted_iff (s : Stages linked types oids final) {u : TypeId} :
    u ∈ (linked.noted.filter (·.referrer = i)).map (·.node) ↔
      final.mib.InSyntax i u ∧ (final.mib.writtenShape? u).any (·.isReference) = true := by
  have h := s.untyped
  simp only [s.writtenShape?_eq, s.inSyntax_iff, List.mem_map, List.mem_filter, decide_eq_true_eq]
  constructor
  · rintro ⟨r, ⟨hr, rfl⟩, rfl⟩
    obtain ⟨n, hn, -, shape⟩ := h.exists_noted_node hr
    refine ⟨h.inSyntax_referrer hr, ?_⟩
    rw [Mib.writtenShape?, hn, Option.map_some, shape]
    rfl
  · rintro ⟨hu, isReference⟩
    obtain ⟨shape, hs, isReference⟩ := (Option.any_eq_true _ _).1 isReference
    obtain ⟨n, hn, rfl⟩ := Option.map_eq_some_iff.1 hs
    obtain ⟨r, hr, rfl⟩ := exists_mem_noted h.definitions h.bare hn (by simpa using isReference)
    exact ⟨r, ⟨hr, h.inSyntax_unique (h.inSyntax_referrer hr) hu⟩, rfl⟩

/-- In each run with a closed model the definitions are lowered faithfully. -/
lemma Stages.lowersFaithfully (s : Stages linked types oids final) (closed : final.mib.Closed) :
    LowersFaithfully linked final where
  lowered i m x body kept hx := by
    obtain ⟨a, t, u, ha, ht, wraps, shows⟩ := s.exists_shows closed kept hx
    have read := shows.readType? wraps
    refine ⟨a, t, ha, ht, ?_, read, fun once hold => ?_, fun u n hu hn => ?_, ?_, ?_, fun u => ?_⟩
    · have registered := (s.registered.of_continues s.continues).definitions
      have named := registered.nameOf_eq (i := i) (m := m) (x := x)
        (by rw [owner?_of_registry s.continues.registry]; exact kept.1)
      rwa [Mib.nameOf, ha] at named
    · rw [read, body.left_eq_spelledOut once hold]
    · exact s.name_of_inSyntax kept ha ht hu hn
    · exact s.map_mention_noted kept hx
    · have all := pairwise_noted s.untyped.definitions s.untyped.bare
      exact all.sublist (List.filter_sublist.map _)
    · exact s.mem_noted_iff
  all := rfl
  refused i m x hx refused := by
    have registered := (s.registered.of_continues s.continues).definitions
    obtain ⟨a, ha, -⟩ := registered.exists_assignment (i := i) (m := m) (x := x)
      (by rw [owner?_of_registry s.continues.registry]; exact hx)
    exact ⟨s.untyped.not_mem_included_of_isRefused refused,
      a, ha, s.type_eq_none_of_isRefused hx refused ha⟩
  apart before i m x part := Lowering.leavesOthers_lowerDefinition s.untyped.definitions part

end Stages

end Draft

/-- In every run, the SYNTAX of every type and object that was not refused can be read back from its
type, as it was written if no constraint stands directly before another one and every range can
hold, but for constraints without ranges. Only the topmost node of a type is named, and the
references noted are the names in the SYNTAX. -/
theorem Pipeline.lowersFaithfully_runParsed (p : Pipeline) (files : List ParsedFile) :
    modelOf (p.runParsed files).1 = some (Draft.built p.policy files).mib ∧
      Draft.LowersFaithfully (Draft.linked p.policy files) (Draft.built p.policy files) := by
  refine ⟨?_, (Draft.stages_built p.policy files).lowersFaithfully (Draft.closed_built _ _)⟩
  rw [modelOf_runParsed, resolve_eq_told]

/-- A type with a constraint that has no ranges, and a second definition of its name. -/
def rangelessCorpus : List ParsedFile :=
  [⟨"a.mib", .ok [⟨"A-MIB", [],
    [⟨"N", .type (.constrained .integer (.value [])) none .current, .synthetic⟩,
      ⟨"N", .type .integer none .current, .synthetic⟩], .synthetic⟩]⟩]

/-- A constraint without ranges is not read back, and what has been refused has no type. -/
theorem Pipeline.unread_rangeless :
    let body : TypeSyntax := .constrained .integer (.value [])
    let mib := (Draft.built .usual rangelessCorpus).mib
    modelOf ((Pipeline.new .usual .error).runParsed rangelessCorpus).1 = some mib ∧
      body.ConstrainedOnce ∧ TypeSyntax.AllHold body.constraints ∧
      (mib.assignment? ⟨0⟩).map (·.type) = some (some ⟨0⟩) ∧
      mib.readType? ⟨0⟩ = some (none, .integer) ∧
      (mib.assignment? ⟨1⟩).map (·.type) = some none := by
  intro body mib
  have shape : mib.writtenShape? ⟨0⟩ = some (.builtin .integer) := by decide +kernel
  have bare : mib.constraint? ⟨0⟩ = none := by decide +kernel
  refine ⟨?_, fun p base c hp covered => ?_, fun c hc r hr => ?_, by decide +kernel, ?_,
    by decide +kernel⟩
  · rw [modelOf_runParsed, resolve_eq_told]
    rfl
  · match p, hp with
    | .base :: step :: rest, hp => cases step <;> cases hp
  · obtain rfl := List.mem_singleton.1 hc
    cases hr
  · simp only [Mib.readType?, Mib.readSyntax?, Mib.readDown?, shape, bare, Option.map_some,
      TypeSyntax.restrict]

end MibCorpus
