import MibCorpus.Draft.Registration
import MibCorpus.Proofs.Registry
import Mathlib.Data.List.Nodup

/-!
# What registration establishes

The definitions of the registered modules stand behind the assignments one by one, a module is
found by its name, and a definition by its module and name where the first of a name counts. A
definition that is not found by its own name has been refused: it is left out, and a problem is
about it.
-/

namespace MibCorpus

/-- The assignment that registration makes for a definition. -/
def Definition.entry (x : Definition) (i : AssignmentId) (m : ModuleId) (name : StrId) :
    Assignment :=
  ⟨i, m, name, x.kind, x.span, none, none, .pending, x.status, x.access?⟩

/-- Assignment `i` has the name of an earlier one of its module. -/
def Mib.IsDuplicate (mib : Mib) (i : AssignmentId) : Prop :=
  ∃ a j b, mib.assignment? i = some a ∧ mib.assignment? j = some b ∧ j.index < i.index ∧
    b.module = a.module ∧ b.name = a.name

namespace Draft

/-- Whether definition `o` is one of `name` in module `m`. -/
def defines (m : ModuleId) (name : String) (o : ModuleId × Definition) : Bool :=
  o.1 = m ∧ o.2.name = name

/-- The definitions behind the assignments in order, with their modules. -/
def owners (d : Draft) : List (ModuleId × Definition) := d.origins.toList.filterMap d.written?

/-- The places of the definitions of modules that are listed in this order. -/
def places (ms : List RegisteredModule) : List Origin :=
  ms.zipIdx.flatMap fun m => m.1.source.definitions.zipIdx.map fun x => ⟨m.2, x.2⟩

/-- The assignments of a draft are those of its definitions, which are found by name. -/
structure DefinitionsRegistered (d : Draft) : Prop where
  /-- Something is written at the place of each assignment. -/
  written : ∀ o ∈ d.origins.toList, (d.written? o).isSome
  size : d.mib.assignments.size = d.origins.size
  entry : ∀ (i : AssignmentId) (m : ModuleId) (x : Definition), d.owner? i = some (m, x) →
    ∃ name, d.mib.strings.find? x.name = some name ∧
      (d.mib.assignment? i).map Assignment.heading = some (x.entry i m name)
  lookup? : ∀ m name, d.scope.lookup? m name = (d.owners.findIdx? (defines m name)).map Ident.mk

/-- The modules of a draft are those registered, which are found by name. -/
structure ModulesRegistered (d : Draft) : Prop where
  size : d.mib.modules.size = d.modules.size
  entry : ∀ (i : Nat) (r : RegisteredModule), d.modules[i]? = some r →
    r.id = ⟨i⟩ ∧ ∃ name, d.mib.strings.find? r.source.name = some name ∧
      (d.mib.modules[i]?).map (fun e => (e.id, e.name, e.file)) = some (⟨i⟩, name, r.file)
  module? : ∀ name,
    d.scope.module? name = (d.modules.toList.findIdx? (·.source.name = name)).map Ident.mk
  origins : d.origins.toList = places d.modules.toList

/-- A draft with a consistent registry. -/
structure Registered (d : Draft) : Prop where
  definitions : d.DefinitionsRegistered
  modules : d.ModulesRegistered

/-- Whether an assignment was refused because its module has an earlier one of its name. -/
def isRefused (d : Draft) (i : AssignmentId) : Bool :=
  (d.owner? i).any fun o => d.scope.lookup? o.1 o.2.name ≠ some i

/-- Nothing has been decided but which definitions are refused, and these are reported. -/
structure Fresh (d : Draft) : Prop where
  undecided : ∀ i a, d.mib.assignment? i = some a → a.type = none ∧ a.oid = none ∧
    a.state = if d.isRefused i then .excluded else .pending
  reported : ∀ i, d.isRefused i → ∃ p ∈ d.mib.problems.toList,
    p.kind = .duplicateDefinition ∧ p.subject = some i

/-! ## The list of definitions -/

/-- Where something comes of every entry of a list, it keeps the number of its entry. -/
lemma filterMap_zipIdx_of_isSome {α β γ : Type} {f : α → Option β} (g : Nat → β → γ)
    {xs : List α} (k : Nat) (total : ∀ x ∈ xs, (f x).isSome) :
    ((xs.zipIdx k).filterMap fun x => (f x.1).map (g x.2)) =
      ((xs.filterMap f).zipIdx k).map fun y => g y.2 y.1 := by
  induction xs generalizing k with
  | nil => rfl
  | cons x xs ih =>
    obtain ⟨here, later⟩ := List.forall_mem_cons.1 total
    obtain ⟨y, hy⟩ := Option.isSome_iff_exists.1 here
    simp [hy, ih (k + 1) later]

/-- What is listed is what stands behind the assignments. -/
lemma mem_definitions {d : Draft} {x : AssignmentId × ModuleId × Definition} :
    x ∈ d.definitions ↔ d.owner? x.1 = some x.2 := by
  rw [definitions, List.mem_filterMap, owner?, Option.bind_eq_some_iff]
  constructor
  · rintro ⟨⟨o, i⟩, mem, here⟩
    obtain ⟨y, written, rfl⟩ := Option.map_eq_some_iff.1 here
    rw [List.mem_zipIdx_iff_getElem?, Array.getElem?_toList] at mem
    exact ⟨o, mem, written⟩
  · rintro ⟨o, at_i, written⟩
    refine ⟨(o, x.1.index), ?_, Option.map_eq_some_iff.2 ⟨x.2, written, rfl⟩⟩
    rwa [List.mem_zipIdx_iff_getElem?, Array.getElem?_toList]

/-- The list is that of the definitions, with the numbers of their assignments. -/
lemma map_snd_definitions (d : Draft) : d.definitions.map Prod.snd = d.owners := by
  rw [definitions, owners, List.map_filterMap]
  conv_rhs => rw [← List.zipIdx_map_fst 0 d.origins.toList, List.filterMap_map]
  simp [Function.comp_def]

/-- Assignments are numbered in the order of their definitions. -/
lemma pairwise_definitions (d : Draft) :
    d.definitions.Pairwise fun x y => x.1.index < y.1.index := by
  have numbers : d.origins.toList.zipIdx.Pairwise (·.2 < ·.2) :=
    List.pairwise_map.1 (by rw [List.zipIdx_map_snd]; exact List.pairwise_lt_range')
  rw [definitions, List.pairwise_filterMap]
  refine numbers.imp fun lt x hx y hy => ?_
  obtain ⟨_, -, rfl⟩ := Option.map_eq_some_iff.1 hx
  obtain ⟨_, -, rfl⟩ := Option.map_eq_some_iff.1 hy
  exact lt

/-- Every assignment is listed once. -/
lemma nodup_definitions (d : Draft) : (d.definitions.map Prod.fst).Nodup :=
  List.pairwise_map.2 (d.pairwise_definitions.imp fun lt same => by simp [same] at lt)

/-- The definitions that have not been left out. -/
def included (d : Draft) : List (AssignmentId × ModuleId × Definition) :=
  d.definitions.filter fun x => d.isIncluded x.1

/-- No assignment is included twice. -/
lemma nodup_included (d : Draft) : (d.included.map Prod.fst).Nodup :=
  d.nodup_definitions.sublist (List.filter_sublist.map _)

/-! ## Consequences -/

section Consequences

variable {d d' : Draft}

/-- Who owns the assignments can be read off the registry. -/
lemma owners_of_registry (e : d'.registry = d.registry) : d'.owners = d.owners := by
  rw [owners, owners, origins_of_registry e, written?_of_modules (modules_of_registry e)]

/-- A registry and a growing string table keep the definitions registered. -/
lemma DefinitionsRegistered.of_registry (h : d.DefinitionsRegistered)
    (e : d'.registry = d.registry) (s : d.mib.strings.Extends d'.mib.strings) :
    d'.DefinitionsRegistered where
  written := by
    rw [origins_of_registry e, written?_of_modules (modules_of_registry e)]
    exact h.written
  size := by rw [size_of_registry e, origins_of_registry e, h.size]
  entry i m x ho := by
    rw [owner?_of_registry e] at ho
    obtain ⟨name, hn, ha⟩ := h.entry i m x ho
    exact ⟨name, s.find? hn, by rw [heading_of_registry e, ha]⟩
  lookup? m name := by rw [lookup?_of_registry e, owners_of_registry e, h.lookup?]

/-- A registry and a growing string table keep the modules registered. -/
lemma ModulesRegistered.of_registry (h : d.ModulesRegistered)
    (e : d'.registry = d.registry) (s : d.mib.strings.Extends d'.mib.strings) :
    d'.ModulesRegistered where
  size := by
    have es := congrArg (fun r => r.modules.size) e
    simp only [registry, Array.size_map] at es
    rw [es, modules_of_registry e, h.size]
  entry i r hr := by
    rw [modules_of_registry e] at hr
    obtain ⟨hi, name, hn, hm⟩ := h.entry i r hr
    refine ⟨hi, name, s.find? hn, ?_⟩
    have em := congrArg (Option.map fun e : ModuleEntry => (e.id, e.name, e.file))
      (moduleHeading_of_registry e ⟨i⟩)
    simp only [Mib.module?, Option.map_map, Function.comp_def, ModuleEntry.heading] at em
    rw [em, hm]
  module? name := by rw [module?_of_registry e, modules_of_registry e, h.module?]
  origins := by rw [origins_of_registry e, modules_of_registry e, h.origins]

/-- A draft stays registered as long as its registry stays. -/
lemma Registered.of_continues (h : d.Registered) (c : Continues d d') : d'.Registered :=
  ⟨h.definitions.of_registry c.registry c.strings, h.modules.of_registry c.registry c.strings⟩

/-- Which assignments are refused can be read off the registry. -/
lemma isRefused_of_registry (e : d'.registry = d.registry) (i : AssignmentId) :
    d'.isRefused i = d.isRefused i := by
  simp only [isRefused, owner?_of_registry e, lookup?_of_registry e]

/-- Every place leads to a definition, so the definitions stand in the order of the assignments. -/
lemma DefinitionsRegistered.getElem?_owners (h : d.DefinitionsRegistered) (i : Nat) :
    d.owners[i]? = d.owner? ⟨i⟩ := by
  have total : d.origins.toList.map d.written? = d.owners.map some := by
    rw [owners, List.map_filterMap_some_eq_filter_map_isSome, List.filter_eq_self.2]
    exact List.forall_mem_map.2 h.written
  have at_i := congrArg (fun os => os[i]?) total
  simp only [List.getElem?_map, Array.getElem?_toList] at at_i
  rw [owner?]
  cases ho : d.origins[i]? with
  | none => simpa [ho] using at_i.symm
  | some o =>
    rw [ho, Option.map_some] at at_i
    cases hd : d.owners[i]? with
    | none => simp [hd] at at_i
    | some x =>
      rw [hd, Option.map_some] at at_i
      exact (Option.some.inj at_i).symm

/-- A definition behind an assignment is one of those listed. -/
lemma mem_owners_of_owner? {i : AssignmentId} {y : ModuleId × Definition}
    (h : d.owner? i = some y) : y ∈ d.owners := by
  obtain ⟨o, ho, hy⟩ := Option.bind_eq_some_iff.1 h
  exact List.mem_filterMap.2 ⟨o, List.mem_of_getElem? (by rwa [Array.getElem?_toList]), hy⟩

/-- There is an owner for each place where a definition is written. -/
lemma DefinitionsRegistered.length_owners (h : d.DefinitionsRegistered) :
    d.owners.length = d.origins.size := by
  rw [owners, List.length_filterMap_eq_countP, List.countP_eq_length.2 h.written,
    Array.length_toList]

/-- The definitions are listed in the order of their assignments. -/
lemma DefinitionsRegistered.definitions_eq (h : d.DefinitionsRegistered) :
    d.definitions = d.owners.zipIdx.map fun o => (⟨o.2⟩, o.1) :=
  filterMap_zipIdx_of_isSome (fun i x => ((⟨i⟩ : AssignmentId), x)) 0 h.written

/-- The definition at a position is that of the assignment with this index. -/
lemma DefinitionsRegistered.getElem?_definitions (h : d.DefinitionsRegistered) (i : Nat) :
    d.definitions[i]? = (d.owner? ⟨i⟩).map (⟨i⟩, ·) := by
  simp [h.definitions_eq, List.getElem?_zipIdx, Function.comp_def, h.getElem?_owners]

/-- What is found by a name is a definition of that name in that module. -/
lemma DefinitionsRegistered.owner_of_lookup? (h : d.DefinitionsRegistered) {m : ModuleId}
    {name : String} {i : AssignmentId} (hi : d.scope.lookup? m name = some i) :
    ∃ x, d.owner? i = some (m, x) ∧ x.name = name := by
  rw [h.lookup?, Option.map_eq_some_iff] at hi
  obtain ⟨n, hn, rfl⟩ := hi
  obtain ⟨hlt, hd, -⟩ := List.findIdx?_eq_some_iff_getElem.1 hn
  simp only [defines, decide_eq_true_eq] at hd
  refine ⟨d.owners[n].2, ?_, hd.2⟩
  rw [← h.getElem?_owners, List.getElem?_eq_getElem hlt]
  exact congrArg some (Prod.ext hd.1 rfl)

/-- Every definition has one of its name that is found, at its own place or before. -/
lemma DefinitionsRegistered.lookup?_of_owner (h : d.DefinitionsRegistered) {i : AssignmentId}
    {m : ModuleId} {x : Definition} (hi : d.owner? i = some (m, x)) :
    ∃ j, d.scope.lookup? m x.name = some ⟨j⟩ ∧ j ≤ i.index := by
  rw [← h.getElem?_owners] at hi
  obtain ⟨hlt, hx⟩ := List.getElem?_eq_some_iff.1 hi
  have hd : defines m x.name d.owners[i.index] = true := by simp [defines, hx]
  cases hf : d.owners.findIdx? (defines m x.name) with
  | none =>
    have no := List.findIdx?_eq_none_iff.1 hf _ (List.getElem_mem hlt)
    rw [hd] at no
    cases no
  | some j =>
    refine ⟨j, by rw [h.lookup?, hf]; rfl, ?_⟩
    obtain ⟨_, _, hmin⟩ := List.findIdx?_eq_some_iff_getElem.1 hf
    by_contra hji
    exact absurd hd (by simpa using hmin i.index (by omega))

/-- What a module defines by a name was not refused. -/
lemma DefinitionsRegistered.not_isRefused_of_lookup? (h : d.DefinitionsRegistered) {m : ModuleId}
    {name : String} {i : AssignmentId} (hi : d.scope.lookup? m name = some i) :
    d.isRefused i = false := by
  obtain ⟨x, hx, rfl⟩ := h.owner_of_lookup? hi
  simp [isRefused, hx, hi]

/-- The definition behind an assignment, and what the assignment has from it. -/
lemma DefinitionsRegistered.owner (h : d.DefinitionsRegistered) {i : AssignmentId}
    {a : Assignment} (hi : d.mib.assignment? i = some a) :
    ∃ x, d.owner? i = some (a.module, x) ∧ a.id = i ∧ a.kind = x.kind ∧
      d.mib.strings.find? x.name = some a.name := by
  have hlt : i.index < d.owners.length := by
    obtain ⟨hlt, -⟩ := Array.getElem?_eq_some_iff.1 hi
    rwa [h.length_owners, ← h.size]
  obtain ⟨⟨m, x⟩, ho⟩ : ∃ o, d.owner? i = some o :=
    ⟨_, (h.getElem?_owners i.index).symm.trans (List.getElem?_eq_getElem hlt)⟩
  obtain ⟨name, hn, ha⟩ := h.entry i m x ho
  simp only [hi, Option.map_some, Option.some.injEq] at ha
  have hid := congrArg Assignment.id ha
  have hmod := congrArg Assignment.module ha
  have hkind := congrArg Assignment.kind ha
  have hname := congrArg Assignment.name ha
  simp only [Assignment.heading, Definition.entry] at hid hmod hkind hname
  exact ⟨x, by rw [ho, hmod], hid, hkind, by rw [hn, hname]⟩

/-- Every definition stands behind an assignment. -/
lemma DefinitionsRegistered.exists_assignment (h : d.DefinitionsRegistered) {i : AssignmentId}
    {m : ModuleId} {x : Definition} (hi : d.owner? i = some (m, x)) :
    ∃ a, d.mib.assignment? i = some a ∧ a.module = m ∧ a.kind = x.kind := by
  obtain ⟨name, -, ha⟩ := h.entry i m x hi
  obtain ⟨a, ha, e⟩ := Option.map_eq_some_iff.1 ha
  refine ⟨a, ha, ?_, ?_⟩
  · exact congrArg Assignment.module e
  · exact congrArg Assignment.kind e

/-- What has no definition is no assignment. -/
lemma DefinitionsRegistered.assignment?_eq_none (h : d.DefinitionsRegistered) {i : AssignmentId}
    (hi : d.owner? i = none) : d.mib.assignment? i = none := by
  cases ha : d.mib.assignment? i with
  | none => rfl
  | some a =>
    obtain ⟨x, hx, -⟩ := h.owner ha
    cases hi.symm.trans hx

/-- The name of an assignment is that of its definition. -/
lemma DefinitionsRegistered.nameOf_eq (h : d.DefinitionsRegistered) {i : AssignmentId}
    {m : ModuleId} {x : Definition} (hi : d.owner? i = some (m, x)) :
    d.mib.nameOf i = x.name := by
  obtain ⟨a, ha, hm, -⟩ := h.exists_assignment hi
  obtain ⟨y, hy, -, -, hn⟩ := h.owner ha
  rw [hi, hm] at hy
  cases hy
  simp only [Mib.nameOf, ha, Mib.str]
  exact Strings.get_of_find? hn

/-- The name of an assignment stays what it is. -/
lemma DefinitionsRegistered.nameOf_of_continues (h : d.DefinitionsRegistered)
    (c : Continues d d') (i : AssignmentId) : d'.mib.nameOf i = d.mib.nameOf i := by
  cases ha : d.mib.assignment? i with
  | none =>
    have e := heading_of_registry c.registry i
    rw [ha, Option.map_none, Option.map_eq_none_iff] at e
    simp [Mib.nameOf, ha, e]
  | some a =>
    obtain ⟨x, hx, -⟩ := h.owner ha
    have hx' : d'.owner? i = some (a.module, x) := by
      rw [owner?_of_registry c.registry, hx]
    rw [h.nameOf_eq hx, (h.of_registry c.registry c.strings).nameOf_eq hx']

/-- What has been refused has a name that its module has before. -/
theorem DefinitionsRegistered.isRefused_iff (h : d.DefinitionsRegistered) (i : AssignmentId) :
    d.isRefused i = true ↔ d.mib.IsDuplicate i := by
  constructor
  · intro hr
    simp only [isRefused, Option.any_eq_true, decide_eq_true_eq] at hr
    obtain ⟨⟨m, x⟩, hx, ne⟩ := hr
    -- The name finds the first definition of that name, which is another one.
    obtain ⟨j, hj, le⟩ := h.lookup?_of_owner hx
    obtain ⟨y, hy, same⟩ := h.owner_of_lookup? hj
    obtain ⟨a, ha, am, -⟩ := h.exists_assignment hx
    obtain ⟨b, hb, bm, -⟩ := h.exists_assignment hy
    obtain ⟨x', hx', -, -, an⟩ := h.owner ha
    obtain ⟨y', hy', -, -, bn⟩ := h.owner hb
    obtain ⟨-, rfl⟩ : m = a.module ∧ x = x' := by simpa using hx.symm.trans hx'
    obtain ⟨-, rfl⟩ : m = b.module ∧ y = y' := by simpa using hy.symm.trans hy'
    refine ⟨a, ⟨j⟩, b, ha, hb, ?_, bm.trans am.symm, ?_⟩
    · refine Nat.lt_of_le_of_ne le fun e => ne ?_
      obtain rfl : j = i.index := e
      exact hj
    · rw [same, an] at bn
      exact (Option.some.inj bn).symm
  · rintro ⟨a, j, b, ha, hb, lt, modules, names⟩
    obtain ⟨x, hx, -, -, an⟩ := h.owner ha
    obtain ⟨y, hy, -, -, bn⟩ := h.owner hb
    have same : y.name = x.name := by
      rw [← Strings.get_of_find? an, ← Strings.get_of_find? bn, names]
    obtain ⟨k, hk, le⟩ := h.lookup?_of_owner hy
    simp only [isRefused, hx, Option.any_some, decide_eq_true_eq]
    rw [← modules, ← same, hk]
    intro e
    have eq := congrArg Ident.index (Option.some.inj e)
    simp only at eq
    omega

end Consequences

/-! ## Definitions -/

/-- Changing the entry pushed last is pushing the changed entry. -/
lemma modify_size_push {α : Type} (as : Array α) (a : α) (f : α → α) :
    (as.push a).modify as.size f = as.push (f a) := by
  apply Array.ext (by simp)
  intro i h1 h2
  simp only [Array.size_push] at h2
  simp only [Array.getElem_modify, Array.getElem_push]
  rcases Nat.lt_succ_iff_lt_or_eq.1 h2 with h | h
  · rw [if_neg (by omega), dif_pos h, dif_pos h]
  · rw [if_pos h.symm, dif_neg (by omega), dif_neg (by omega)]

section Definition

variable (d : Draft) (m : RegisteredModule) (o : Origin) (x : Definition)

/-- The draft after a definition whose name is free. -/
lemma registerDefinition_free (h : d.scope.lookup? m.id x.name = none) :
    let i : AssignmentId := ⟨d.mib.assignments.size⟩
    let name := (d.mib.strings.intern x.name).1
    d.registerDefinition m o x = { d with
      origins := d.origins.push o
      scope := { d.scope with definitions := d.scope.definitions.insert (m.id, x.name) i }
      mib := { d.mib with
        strings := (d.mib.strings.intern x.name).2
        assignments := d.mib.assignments.push (x.entry i m.id name)
        modules := d.mib.modules.modify m.id.index fun e =>
          { e with assignments := e.assignments ++ [i] }
        symbolIndex := d.mib.symbolIndex.insertNew (m.id, name) i } } := by
  simp [registerDefinition, Mib.addAssignment, Mib.intern, Scope.define, h, Mib.addDefinition,
    Mib.assignment?, Mib.modifyModule, Definition.entry]

/-- The draft after a definition whose name is taken. -/
lemma registerDefinition_taken {existing : AssignmentId}
    (h : d.scope.lookup? m.id x.name = some existing) :
    let i : AssignmentId := ⟨d.mib.assignments.size⟩
    let name := (d.mib.strings.intern x.name).1
    d.registerDefinition m o x = { d with
      origins := d.origins.push o
      mib := { d.mib with
        strings := (d.mib.strings.intern x.name).2
        assignments := d.mib.assignments.push { x.entry i m.id name with state := .excluded }
        problems := d.mib.problems.record
          { (Finding.duplicateDefinition x.name m.source.name).toProblem
              (.inModule m.file m.id x.span) with
            subject := some i
            other := some existing } } } := by
  simp [registerDefinition, Mib.addAssignment, Mib.intern, Scope.define, h, setState, Mib.setState,
    Mib.modifyAssignment, modify_size_push, record, Mib.record, Definition.entry]

/-- The place of the definition is noted at the end. -/
@[simp]
lemma origins_registerDefinition :
    (d.registerDefinition m o x).origins = d.origins.push o := by
  cases h : d.scope.lookup? m.id x.name with
  | none => rw [registerDefinition_free d m o x h]
  | some _ => rw [registerDefinition_taken d m o x h]

/-- No module is listed by registering a definition. -/
@[simp]
lemma modules_registerDefinition : (d.registerDefinition m o x).modules = d.modules := by
  cases h : d.scope.lookup? m.id x.name with
  | none => rw [registerDefinition_free d m o x h]
  | some _ => rw [registerDefinition_taken d m o x h]

/-- So it does not matter for what is written where. -/
@[simp]
lemma written?_registerDefinition : (d.registerDefinition m o x).written? = d.written? :=
  written?_of_modules (modules_registerDefinition d m o x)

/-- The definition stands behind the new assignment if it is written where that says. -/
lemma owner?_registerDefinition (here : d.written? o = some (m.id, x)) (i : AssignmentId) :
    (d.registerDefinition m o x).owner? i =
      if i.index = d.origins.size then some (m.id, x) else d.owner? i := by
  rw [owner?, origins_registerDefinition, written?_registerDefinition, Array.getElem?_push]
  split
  · rw [Option.bind_some, here]
  · rfl

/-- The definition is listed behind the others. -/
lemma owners_registerDefinition (here : d.written? o = some (m.id, x)) :
    (d.registerDefinition m o x).owners = d.owners ++ [(m.id, x)] := by
  simp [owners, here]

/-- The name of the definition is interned. -/
@[simp]
lemma strings_registerDefinition :
    (d.registerDefinition m o x).mib.strings = (d.mib.strings.intern x.name).2 := by
  cases h : d.scope.lookup? m.id x.name with
  | none => rw [registerDefinition_free d m o x h]
  | some _ => rw [registerDefinition_taken d m o x h]

/-- The assignment of the definition comes last. It is excluded if the module defines its name
already. -/
@[simp]
lemma assignments_registerDefinition :
    (d.registerDefinition m o x).mib.assignments = d.mib.assignments.push
      { x.entry ⟨d.mib.assignments.size⟩ m.id (d.mib.strings.intern x.name).1 with
        state := if (d.scope.lookup? m.id x.name).isSome then .excluded else .pending } := by
  cases h : d.scope.lookup? m.id x.name with
  | none => rw [registerDefinition_free d m o x h]; rfl
  | some _ => rw [registerDefinition_taken d m o x h]; rfl

/-- The definition is found by its name unless that was taken. -/
lemma lookup?_registerDefinition (m' : ModuleId) (name : String) :
    (d.registerDefinition m o x).scope.lookup? m' name =
      (d.scope.lookup? m' name).or
        (if defines m' name (m.id, x) then some ⟨d.mib.assignments.size⟩ else none) := by
  cases h : d.scope.lookup? m.id x.name with
  | none =>
    rw [registerDefinition_free d m o x h]
    simp only [Scope.lookup?, Table.find?_insert, defines, Prod.mk.injEq, decide_eq_true_eq]
    by_cases hk : m.id = m' ∧ x.name = name
    · obtain ⟨rfl, rfl⟩ := hk
      have h' : d.scope.definitions.find? (m.id, x.name) = none := h
      simp [h']
    · simp [hk]
  | some _ =>
    rw [registerDefinition_taken d m o x h]
    simp only [Scope.lookup?, defines, decide_eq_true_eq]
    by_cases hk : m.id = m' ∧ x.name = name
    · obtain ⟨rfl, rfl⟩ := hk
      have h' : d.scope.definitions.find? (m.id, x.name) = some _ := h
      simp [h']
    · simp [hk]

/-- A definition whose name is taken is reported. -/
lemma problems_registerDefinition :
    (d.registerDefinition m o x).mib.problems.toList = d.mib.problems.toList ++
      (d.scope.lookup? m.id x.name).toList.map fun existing =>
        { (Finding.duplicateDefinition x.name m.source.name).toProblem
            (.inModule m.file m.id x.span) with
          subject := some ⟨d.mib.assignments.size⟩
          other := some existing } := by
  cases h : d.scope.lookup? m.id x.name with
  | none => rw [registerDefinition_free d m o x h]; simp
  | some _ => rw [registerDefinition_taken d m o x h]; simp

/-- What stands in the places before is not refused later. -/
lemma DefinitionsRegistered.isRefused_registerDefinition (h : d.DefinitionsRegistered)
    (here : d.written? o = some (m.id, x)) (i : AssignmentId) :
    (d.registerDefinition m o x).isRefused i =
      if i.index = d.origins.size then (d.scope.lookup? m.id x.name).isSome
      else d.isRefused i := by
  simp only [isRefused, owner?_registerDefinition d m o x here, lookup?_registerDefinition]
  by_cases hi : i.index = d.origins.size
  · rw [if_pos hi, if_pos hi]
    cases hl : d.scope.lookup? m.id x.name with
    | none =>
      have e : (⟨d.mib.assignments.size⟩ : AssignmentId) = i := by
        rw [h.size, ← hi]
      simp [defines, e, hl]
    | some j =>
      obtain ⟨y, hy, -⟩ := h.owner_of_lookup? hl
      have hj : j ≠ i := by
        rintro rfl
        simp [owner?, hi] at hy
      simp [hl, hj]
  · rw [if_neg hi, if_neg hi]
    cases ho : d.owner? i with
    | none => rfl
    | some y =>
      obtain ⟨j, hj, -⟩ := h.lookup?_of_owner ho
      simp [hj]

/-- Registering a definition keeps the definitions registered. -/
lemma DefinitionsRegistered.registerDefinition (h : d.DefinitionsRegistered)
    (here : d.written? o = some (m.id, x)) :
    (d.registerDefinition m o x).DefinitionsRegistered where
  written := by
    rw [origins_registerDefinition, written?_registerDefinition, Array.toList_push,
      List.forall_mem_append, List.forall_mem_singleton, here]
    exact ⟨h.written, rfl⟩
  size := by simp [h.size]
  entry i m' y ho := by
    rw [owner?_registerDefinition d m o x here] at ho
    rw [strings_registerDefinition, Mib.assignment?, assignments_registerDefinition,
      Array.getElem?_push]
    by_cases hi : i.index = d.origins.size
    · rw [if_pos hi, Option.some.injEq, Prod.mk.injEq] at ho
      obtain ⟨rfl, rfl⟩ := ho
      refine ⟨_, Strings.find?_intern _ _, ?_⟩
      rw [h.size, if_pos hi]
      simp [Assignment.heading, Definition.entry, ← hi]
    · rw [if_neg hi] at ho
      obtain ⟨name, hn, ha⟩ := h.entry i m' y ho
      refine ⟨name, (Strings.extends_intern _ _).find? hn, ?_⟩
      rwa [h.size, if_neg hi]
  lookup? m' name := by
    rw [lookup?_registerDefinition, owners_registerDefinition d m o x here, h.lookup?,
      List.findIdx?_append, h.size, ← h.length_owners]
    cases hf : d.owners.findIdx? (defines m' name) with
    | some _ => rfl
    | none =>
      cases hd : defines m' name (m.id, x) with
      | true => simp [hd]
      | false => simp [hd]

/-- Registering a definition decides nothing but whether it is refused. -/
lemma Fresh.registerDefinition (h : d.Fresh) (r : d.DefinitionsRegistered)
    (here : d.written? o = some (m.id, x)) : (d.registerDefinition m o x).Fresh where
  undecided i a ha := by
    rw [r.isRefused_registerDefinition d m o x here]
    rw [Mib.assignment?, assignments_registerDefinition, Array.getElem?_push] at ha
    by_cases hi : i.index = d.mib.assignments.size
    · rw [if_pos hi] at ha
      cases ha
      exact ⟨rfl, rfl, by simp [r.size ▸ hi]⟩
    · rw [if_neg hi] at ha
      rw [← r.size, if_neg hi]
      exact h.undecided i a ha
  reported i hi := by
    rw [r.isRefused_registerDefinition d m o x here] at hi
    rw [problems_registerDefinition]
    by_cases hn : i.index = d.origins.size
    · rw [if_pos hn] at hi
      obtain ⟨existing, he⟩ := Option.isSome_iff_exists.1 hi
      refine ⟨_, List.mem_append_right _ (by rw [he]; exact List.mem_singleton_self _), rfl, ?_⟩
      simp [r.size, ← hn]
    · rw [if_neg hn] at hi
      obtain ⟨p, hp, hk, hs⟩ := h.reported i hi
      exact ⟨p, List.mem_append_left _ hp, hk, hs⟩

end Definition

/-! ## Modules -/

/-- The part of a draft that is left to the phases after registration. -/
structure Prospects where
  policy : Policy
  imports : Table (ModuleId × String) (List (Option ModuleId))
  types : Array TypeNode
  nodes : Array OidNode
  roots : List NodeId
  oidIndex : Table Oid NodeId

/-- The part of a draft that is left to the phases after registration. -/
def prospects (d : Draft) : Prospects :=
  ⟨d.policy, d.scope.imports, d.mib.types, d.mib.nodes, d.mib.roots, d.mib.oidIndex⟩

/-- What stays as it is while the definitions of a module are registered. -/
structure Surroundings where
  sources : Array RegisteredModule
  names : Table String ModuleId
  modules : Array (ModuleId × StrId × Option FileId)
  prospects : Prospects

/-- The surroundings of the definitions in a draft. -/
def surroundings (d : Draft) : Surroundings where
  sources := d.modules
  names := d.scope.modules
  modules := d.mib.modules.map fun e => (e.id, e.name, e.file)
  prospects := d.prospects

/-- Registering a definition keeps its surroundings. -/
lemma surroundings_registerDefinition (d : Draft) (m : RegisteredModule) (o : Origin)
    (x : Definition) : (d.registerDefinition m o x).surroundings = d.surroundings := by
  cases h : d.scope.lookup? m.id x.name with
  | none =>
    rw [registerDefinition_free d m o x h]
    have kept := map_modify_of_keeps (g := fun e : ModuleEntry => (e.id, e.name, e.file))
      (f := fun e => { e with assignments := e.assignments ++ [⟨d.mib.assignments.size⟩] })
      d.mib.modules m.id.index fun _ => rfl
    simp [surroundings, prospects, kept]
  | some _ =>
    rw [registerDefinition_taken d m o x h]
    rfl

/-- What registering definitions that are written at these places does. -/
structure RegistersDefinitions (os : List Origin) (d d' : Draft) : Prop where
  surroundings : d'.surroundings = d.surroundings
  origins : d'.origins.toList = d.origins.toList ++ os
  strings : d.mib.strings.Extends d'.mib.strings
  definitions : d.DefinitionsRegistered → d'.DefinitionsRegistered
  fresh : d.DefinitionsRegistered → d.Fresh → d'.Fresh
  reports : Reports .registration d d'

/-- Definitions that a module has at these positions are registered one by one. -/
lemma registersDefinitions (m : RegisteredModule) (position : Nat) (xs : List (Definition × Nat))
    (d : Draft) (here : ∀ x ∈ xs, d.written? ⟨position, x.2⟩ = some (m.id, x.1)) :
    RegistersDefinitions (xs.map fun x => ⟨position, x.2⟩) d
      (xs.foldl (fun d x => d.registerDefinition m ⟨position, x.2⟩ x.1) d) := by
  induction xs generalizing d with
  | nil => exact ⟨rfl, by simp, .refl _, id, fun _ => id, .of_eq rfl⟩
  | cons x xs ih =>
    obtain ⟨first, later⟩ := List.forall_mem_cons.1 here
    have ih := ih (d.registerDefinition m ⟨position, x.2⟩ x.1)
      (by rwa [written?_registerDefinition])
    constructor
    case surroundings => exact ih.surroundings.trans (surroundings_registerDefinition d m _ x.1)
    case origins => simpa using ih.origins
    case strings =>
      refine Strings.Extends.trans ?_ ih.strings
      rw [strings_registerDefinition]
      exact Strings.extends_intern _ _
    case definitions => exact fun h => ih.definitions (h.registerDefinition d m _ x.1 first)
    case fresh =>
      exact fun h f => ih.fresh (h.registerDefinition d m _ x.1 first)
        (f.registerDefinition d m _ x.1 h first)
    case reports =>
      refine Reports.trans ⟨_, problems_registerDefinition d m _ x.1, ?_⟩ ih.reports
      intro p hp
      obtain ⟨existing, -, rfl⟩ := List.mem_map.1 hp
      rfl

/-- What registering a definition keeps, registering those of a module keeps, if they are written
where they are registered. -/
lemma DefinitionsRegistered.registerDefinitions_keeps {P : Draft → Prop} {m : RegisteredModule}
    {position : Nat} {d : Draft} (h : d.DefinitionsRegistered)
    (here : ∀ x ∈ m.source.definitions.zipIdx, d.written? ⟨position, x.2⟩ = some (m.id, x.1))
    (step : ∀ {e : Draft} {o : Origin} {x : Definition}, e.DefinitionsRegistered →
      e.written? o = some (m.id, x) → P e → P (e.registerDefinition m o x))
    (start : P d) : P (d.registerDefinitions m position) := by
  unfold registerDefinitions
  generalize m.source.definitions.zipIdx = xs at here ⊢
  induction xs generalizing d with
  | nil => exact start
  | cons x xs ih =>
    obtain ⟨first, later⟩ := List.forall_mem_cons.1 here
    exact ih (h.registerDefinition d m _ x.1 first) (step h first start)
      fun y hy => (congrFun (written?_registerDefinition d m _ x.1) _).trans (later y hy)

/-- What a step of registration does to a consistent draft. -/
structure Registers (d d' : Draft) : Prop where
  registered : d.Registered → d'.Registered
  fresh : d.Registered → d.Fresh → d'.Fresh
  prospects : d'.prospects = d.prospects
  reports : Reports .registration d d'

/-- Nothing need be registered. -/
lemma Registers.refl (d : Draft) : Registers d d := ⟨id, fun _ => id, rfl, .of_eq rfl⟩

/-- What is registered later comes behind what was registered before. -/
lemma Registers.trans {d d' d'' : Draft} (h : Registers d d') (h' : Registers d' d'') :
    Registers d d'' where
  registered r := h'.registered (h.registered r)
  fresh r f := h'.fresh (h.registered r) (h.fresh r f)
  prospects := h'.prospects.trans h.prospects
  reports := h.reports.trans h'.reports

/-- A draft with the same registry and more strings and problems is as consistent. -/
lemma Registers.of_continues {d d' : Draft} (c : Continues d d')
    (a : d'.mib.assignments = d.mib.assignments) (p : d'.prospects = d.prospects)
    (r : Reports .registration d d') : Registers d d' where
  registered h := h.of_continues c
  fresh _ f := by
    refine ⟨fun i x hx => ?_, fun i hi => ?_⟩
    · rw [isRefused_of_registry c.registry]
      rw [Mib.assignment?, a] at hx
      exact f.undecided i x hx
    · rw [isRefused_of_registry c.registry] at hi
      obtain ⟨q, hq, hk, hs⟩ := f.reported i hi
      obtain ⟨new, hn, -⟩ := r
      exact ⟨q, by rw [hn]; exact List.mem_append_left _ hq, hk, hs⟩
  prospects := p
  reports := r

/-! ### Listing -/

/-- The draft in which a module is listed behind the others. -/
def list (d : Draft) (m : RegisteredModule) : Draft := { d with modules := d.modules.push m }

section Listing

variable (d : Draft) (m : RegisteredModule)

/-- What is written in the modules before is written there still. -/
lemma written?_list {o : Origin} (h : (d.written? o).isSome) :
    (d.list m).written? o = d.written? o := by
  obtain ⟨x, hx⟩ := Option.isSome_iff_exists.1 h
  obtain ⟨r, hr, -⟩ := Option.bind_eq_some_iff.1 hx
  obtain ⟨lt, -⟩ := Array.getElem?_eq_some_iff.1 hr
  rw [written?, written?, list, Array.getElem?_push, if_neg (Nat.ne_of_lt lt)]

/-- The definitions of the module listed last are written behind the others. -/
lemma written?_list_self {k : Nat} {x : Definition} (h : m.source.definitions[k]? = some x) :
    (d.list m).written? ⟨d.modules.size, k⟩ = some (m.id, x) := by
  simp [written?, list, h]

/-- Listing a module behind the others leaves the owners of the assignments as they are. -/
lemma owners_list (h : d.DefinitionsRegistered) : (d.list m).owners = d.owners :=
  List.filterMap_congr fun o ho => written?_list d m (h.written o ho)

/-- Each assignment has the same owner after a module is listed. -/
lemma owner?_list (h : d.DefinitionsRegistered) (i : AssignmentId) :
    (d.list m).owner? i = d.owner? i := by
  refine Option.bind_congr fun o ho => written?_list d m (h.written o ?_)
  exact List.mem_of_getElem? (by rwa [Array.getElem?_toList])

/-- What is refused stays so when a module is listed. -/
lemma isRefused_list (h : d.DefinitionsRegistered) (i : AssignmentId) :
    (d.list m).isRefused i = d.isRefused i := by
  rw [isRefused, owner?_list d m h]
  rfl

/-- Another module makes no difference to the definitions that are registered. -/
lemma DefinitionsRegistered.list (h : d.DefinitionsRegistered) :
    (d.list m).DefinitionsRegistered where
  written o ho := by
    rw [written?_list d m (h.written o ho)]
    exact h.written o ho
  size := h.size
  entry i r x ho := h.entry i r x (by rwa [owner?_list d m h] at ho)
  lookup? r name := by
    rw [owners_list d m h]
    exact h.lookup? r name

/-- Assignments stand for the same definitions after a module is listed. -/
lemma definitions_list (h : d.DefinitionsRegistered) : (d.list m).definitions = d.definitions := by
  rw [(h.list d m).definitions_eq, h.definitions_eq, owners_list d m h]

/-- What is fresh in a draft is fresh with one module more. -/
lemma Fresh.list (h : d.DefinitionsRegistered) (f : d.Fresh) : (d.list m).Fresh where
  undecided i a ha := by
    rw [isRefused_list d m h]
    exact f.undecided i a ha
  reported i hi := f.reported i (by rwa [isRefused_list d m h] at hi)

/-- Registering a definition does not ask which modules are listed. -/
lemma registerDefinition_list (r : RegisteredModule) (o : Origin) (x : Definition) :
    (d.list m).registerDefinition r o x = (d.registerDefinition r o x).list m := by
  cases h : d.scope.lookup? r.id x.name with
  | none =>
    rw [registerDefinition_free d r o x h, registerDefinition_free (d.list m) r o x h]
    rfl
  | some existing =>
    rw [registerDefinition_taken d r o x h, registerDefinition_taken (d.list m) r o x h]
    rfl

/-- It does not matter whether a module is listed before or after its definitions are registered. -/
lemma registerDefinitions_list (r : RegisteredModule) (position : Nat) :
    (d.list m).registerDefinitions r position = (d.registerDefinitions r position).list m :=
  List.foldl_hom (Draft.list · m) fun e x => registerDefinition_list e m r _ x.1

end Listing

/-- The places in a further module come behind those in the others. -/
lemma places_concat (ms : List RegisteredModule) (m : RegisteredModule) :
    places (ms ++ [m]) =
      places ms ++ m.source.definitions.zipIdx.map fun x => ⟨ms.length, x.2⟩ := by
  simp [places, List.zipIdx_append]

/-- The definitions of the modules listed stand behind the assignments in this order. -/
lemma ModulesRegistered.owners_eq {d : Draft} (h : d.ModulesRegistered) :
    d.owners = d.modules.toList.flatMap fun r => r.source.definitions.map (r.id, ·) := by
  have each : ∀ r ∈ d.modules.toList.zipIdx,
      (r.1.source.definitions.zipIdx.map fun x => (⟨r.2, x.2⟩ : Origin)).filterMap d.written? =
        r.1.source.definitions.map (r.1.id, ·) := by
    intro r hr
    rw [List.mem_zipIdx_iff_getElem?, Array.getElem?_toList] at hr
    have here : ∀ x ∈ r.1.source.definitions.zipIdx,
        (d.written? ∘ fun x => ⟨r.2, x.2⟩) x = some (r.1.id, x.1) := by
      intro x hx
      have at_x := List.mem_zipIdx_iff_getElem?.1 hx
      simp [written?, hr, at_x]
    rw [List.filterMap_map, List.filterMap_congr here, List.filterMap_eq_map']
    conv_rhs => rw [← List.zipIdx_map_fst 0 r.1.source.definitions, List.map_map]
    rfl
  rw [owners, h.origins, places, List.filterMap_flatMap, List.flatMap_congr each]
  conv_rhs => rw [← List.zipIdx_map_fst 0 d.modules.toList, List.flatMap_map]

section Module

variable (d : Draft) (name : StrId) (file : Option FileId) (source : Module)

/-- A module as it is listed when it has been accepted. -/
def accepted : RegisteredModule := ⟨⟨d.mib.modules.size⟩, file, source⟩

/-- A module is accepted by announcing it, registering its definitions and listing it. -/
def announced : Draft := { d with
  mib := (d.mib.addModule name file source.span).2
  scope := { d.scope with
    modules := d.scope.modules.insert source.name ⟨d.mib.modules.size⟩ } }

/-- The draft after the definitions of an announced module. -/
def defined : Draft :=
  (d.announced name file source).registerDefinitions (d.accepted file source) d.modules.size

/-- Accepting a module is to announce it, to register its definitions and to list it. -/
lemma acceptModule_eq : (d.acceptModule name file source).2 =
    (d.defined name file source).list (d.accepted file source) := rfl

/-- The module might as well be listed before its definitions are registered. -/
lemma acceptModule_eq_registerDefinitions : (d.acceptModule name file source).2 =
    ((d.announced name file source).list (d.accepted file source)).registerDefinitions
      (d.accepted file source) d.modules.size := by
  rw [acceptModule_eq, registerDefinitions_list]
  rfl

/-- Once the module is listed its definitions are written where they are registered. -/
lemma written?_announced : ∀ x ∈ source.definitions.zipIdx,
    ((d.announced name file source).list (d.accepted file source)).written?
      ⟨d.modules.size, x.2⟩ = some (⟨d.mib.modules.size⟩, x.1) := fun _ hx =>
  written?_list_self (d.announced name file source) (d.accepted file source)
    (List.mem_zipIdx_iff_getElem?.1 hx)

/-- Seen from a draft that lists the module already, accepting it registers definitions only. -/
lemma registers_defined :
    RegistersDefinitions (source.definitions.zipIdx.map fun x => ⟨d.modules.size, x.2⟩)
      ((d.announced name file source).list (d.accepted file source))
      (d.acceptModule name file source).2 := by
  rw [acceptModule_eq_registerDefinitions]
  exact registersDefinitions _ _ _ _ (written?_announced d name file source)

/-- A module is listed behind the modules before it. -/
lemma modules_acceptModule :
    (d.acceptModule name file source).2.modules = d.modules.push (d.accepted file source) :=
  congrArg Surroundings.sources (registers_defined d name file source).surroundings

/-- Announcing a module leaves the definitions that are registered as they are. -/
lemma DefinitionsRegistered.announced (h : d.DefinitionsRegistered) :
    (d.announced name file source).DefinitionsRegistered :=
  ⟨h.written, h.size, h.entry, h.lookup?⟩

/-- The entry of an accepted module is pushed behind the others. -/
lemma headings_acceptModule : (d.acceptModule name file source).2.mib.modules.map
      (fun e => (e.id, e.name, e.file)) =
    (d.mib.modules.map fun e => (e.id, e.name, e.file)).push
      (⟨d.mib.modules.size⟩, name, file) := by
  have same := congrArg Surroundings.modules (registers_defined d name file source).surroundings
  simpa [surroundings, Draft.list, Draft.announced, Mib.addModule] using same

/-- An accepted module is looked up under its name, and every other one as before. -/
lemma ModulesRegistered.module?_acceptModule (h : d.ModulesRegistered)
    (free : d.scope.module? source.name = none) (s : String) :
    (d.acceptModule name file source).2.scope.module? s =
      ((d.acceptModule name file source).2.modules.toList.findIdx? (·.source.name = s)).map
        Ident.mk := by
  have names : (d.acceptModule name file source).2.scope.modules =
      d.scope.modules.insert source.name ⟨d.mib.modules.size⟩ :=
    congrArg Surroundings.names (registers_defined d name file source).surroundings
  have before := h.module? s
  simp only [Scope.module?, names, Table.find?_insert, modules_acceptModule, Array.toList_push,
    List.findIdx?_append] at before ⊢
  by_cases hs : source.name = s
  · subst hs
    rw [show d.scope.modules.find? source.name = none from free] at before
    cases hx : d.modules.toList.findIdx? (·.source.name = source.name) with
    | some _ => simp [hx] at before
    | none => simp [accepted, h.size, List.findIdx?_cons]
  · rw [if_neg hs, before]
    cases hx : d.modules.toList.findIdx? (·.source.name = s) <;> simp [accepted, hs]

/-- Accepting a module keeps the modules registered. -/
lemma ModulesRegistered.acceptModule (h : d.ModulesRegistered)
    (free : d.scope.module? source.name = none)
    (hn : d.mib.strings.find? source.name = some name) :
    (d.acceptModule name file source).2.ModulesRegistered := by
  have r := registers_defined d name file source
  have modules := modules_acceptModule d name file source
  have headings := headings_acceptModule d name file source
  refine ⟨?size, fun i q hq => ?entry, h.module?_acceptModule d name file source free, ?origins⟩
  case size =>
    have same := congrArg Array.size headings
    simpa [modules, h.size] using same
  case entry =>
    -- The entry at a position is one of those before, or the one pushed behind them.
    rw [modules, Array.getElem?_push] at hq
    have here := congrArg (fun as => as[i]?) headings
    simp only [Array.getElem?_map, Array.getElem?_push, Array.size_map] at here
    simp only [here]
    by_cases hi : i = d.modules.size
    · rw [if_pos hi] at hq
      cases hq
      refine ⟨by rw [accepted, h.size, hi], name, r.strings.find? hn, ?_⟩
      rw [if_pos (by rw [h.size, hi]), h.size, hi]
      rfl
    · rw [if_neg hi] at hq
      obtain ⟨hid, n, hs, hm⟩ := h.entry i q hq
      refine ⟨hid, n, r.strings.find? hs, ?_⟩
      rw [if_neg (by rw [h.size]; exact hi), hm]
  case origins =>
    rw [r.origins, modules, Array.toList_push, places_concat, Array.length_toList, ← h.origins]
    rfl

/-- Accepting a module is a step of registration. -/
lemma registers_acceptModule (free : d.scope.module? source.name = none)
    (hn : d.mib.strings.find? source.name = some name) :
    Registers d (d.acceptModule name file source).2 := by
  have r := registers_defined d name file source
  refine ⟨fun h => ⟨?_, ?_⟩, fun h f => ?_, ?_, ?_⟩
  · exact r.definitions ((h.definitions.announced d name file source).list _ _)
  · exact h.modules.acceptModule d name file source free hn
  · have announced := h.definitions.announced d name file source
    exact r.fresh (announced.list _ _) (.list _ _ announced ⟨f.undecided, f.reported⟩)
  · exact (congrArg Surroundings.prospects r.surroundings :)
  · exact r.reports

end Module

/-- Registering a module is a step of registration. -/
lemma registers_registerModule (file : Option FileId) (d : Draft) (r : Recorder)
    (source : Module) : Registers d (registerModule file (d, r) source).1 := by
  have named : Registers d { d with mib := (d.mib.intern source.name).2 } :=
    .of_continues ⟨rfl, Strings.extends_intern _ _⟩ rfl rfl (.of_eq rfl)
  refine named.trans ?_
  unfold registerModule
  simp only
  split
  next existing h =>
    exact .of_continues ⟨rfl, .refl _⟩ rfl rfl (.record rfl)
  next h =>
    exact registers_acceptModule _ _ file source h (Strings.find?_intern _ _)

/-! ## Files -/

/-- Steps of registration one after another. -/
lemma registers_foldl {α : Type} {f : Draft × Recorder → α → Draft × Recorder} (xs : List α)
    (h : ∀ dr, ∀ x ∈ xs, Registers dr.1 (f dr x).1) (dr : Draft × Recorder) :
    Registers dr.1 (xs.foldl f dr).1 := by
  induction xs generalizing dr with
  | nil => exact .refl _
  | cons x xs ih =>
    exact (h dr x (by simp)).trans (ih (fun dr y hy => h dr y (List.mem_cons_of_mem x hy)) _)

/-- Adding a file is a step of registration. -/
lemma registers_addFile (d : Draft) (path : String) :
    Registers d { d with mib := (d.mib.addFile path).2 } := by
  refine ⟨fun h => ⟨⟨h.definitions.written, h.definitions.size, fun i m x hx => ?_,
    h.definitions.lookup?⟩, ⟨h.modules.size, fun i q hq => ?_, h.modules.module?,
    h.modules.origins⟩⟩,
    fun _ f => ⟨f.undecided, f.reported⟩, rfl, .of_eq rfl⟩
  · obtain ⟨name, hn, ha⟩ := h.definitions.entry i m x hx
    exact ⟨name, (Strings.extends_intern _ _).find? hn, ha⟩
  · obtain ⟨hid, name, hn, hm⟩ := h.modules.entry i q hq
    exact ⟨hid, name, (Strings.extends_intern _ _).find? hn, hm⟩

/-- Registering a file is a step of registration. -/
lemma registers_registerFile (dr : Draft × Recorder) (file : ParsedFile) :
    Registers dr.1 (registerFile dr file).1 := by
  obtain ⟨d, r⟩ := dr
  refine (registers_addFile d file.path).trans ?_
  unfold registerFile
  cases file.result with
  | ok modules =>
    exact registers_foldl (f := registerModule (some ⟨d.mib.files.size⟩)) (byName modules)
      (fun dr x _ => registers_registerModule _ dr.1 dr.2 x) (_, r)
  | error failure => exact .of_continues ⟨rfl, .refl _⟩ rfl rfl (.record rfl)

/-- Generating base modules is a step of registration. -/
lemma registers_generateLacking (candidates : List BaseModule) (dr : Draft × Recorder) :
    Registers dr.1 (generateLacking candidates dr).1 := by
  fun_induction generateLacking candidates dr with
  | case1 candidates dr others h ih =>
    refine Registers.trans ?_ ih
    exact registers_foldl _ (fun dr b _ => registers_registerModule none dr.1 dr.2 b.source) _
  | case2 => exact .refl _

/-- Registration keeps a draft consistent and leaves the later phases their part. -/
theorem registers_register (d : Draft) (files : List ParsedFile) (r : Recorder) :
    Registers d (d.register files r).1 := by
  have files' := registers_foldl files (fun dr f _ => registers_registerFile dr f) (d, r)
  unfold register
  simp only
  split
  · exact files'.trans (registers_generateLacking _ _)
  · exact files'

/-- A new draft is registered, since it has nothing to register. -/
lemma registered_new (policy : Policy) : (Draft.new policy).Registered :=
  ⟨⟨nofun, rfl, fun i m x h => by simp [new, owner?] at h, fun m name => rfl⟩,
    ⟨rfl, fun i r h => by simp [new] at h, fun name => rfl, rfl⟩⟩

/-- In a new draft everything is fresh. -/
lemma fresh_new (policy : Policy) : (Draft.new policy).Fresh :=
  ⟨fun i a h => by simp [new, Mib.empty, MibParts.empty, Mib.assignment?] at h,
    fun i h => by simp [new, isRefused, owner?] at h⟩

/-- Nothing is imported before linking. -/
lemma imports_register (policy : Policy) (files : List ParsedFile) (r : Recorder) :
    ((Draft.new policy).register files r).1.scope.imports = .empty :=
  congrArg Prospects.imports (registers_register (Draft.new policy) files r).prospects

end Draft

end MibCorpus
