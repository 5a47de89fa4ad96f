import MibCorpus.Draft.Basic
import Mathlib.Tactic.Lemma

/-!
# Stored identifiers

Entries of the model refer to each other by identifiers, and a query answers an identifier without
an entry with nothing or with the empty string. A model is closed if that never happens: every
identifier that it stores, in an entry or in an index, has an entry. The identifiers of a record are
listed without regard to their arenas, and what is asked of them is asked of the whole list.
-/

namespace MibCorpus

/-- An identifier of any arena. -/
abbrev AnyIdent := (a : Arena) × Ident a

namespace Ident

/-- An identifier without regard to its arena. -/
def any {a : Arena} (i : Ident a) : AnyIdent := ⟨a, i⟩

/-- An optional identifier as a list. -/
def anyOf {a : Arena} (i : Option (Ident a)) : List AnyIdent := i.toList.map any

end Ident

/-- Every identifier in a list is one of the first `n a` of its arena `a`. -/
def Below (n : Arena → Nat) (is : List AnyIdent) : Prop := ∀ i ∈ is, i.2.index < n i.1

section Below

variable {n n' : Arena → Nat} {is js : List AnyIdent} {a : Arena}

/-- Identifiers below some bounds are below greater ones. -/
lemma Below.mono (h : Below n is) (le : ∀ a, n a ≤ n' a) : Below n' is :=
  fun i hi => Nat.lt_of_lt_of_le (h i hi) (le i.1)

/-- Some of the identifiers below a bound are below it. -/
lemma Below.subset (h : Below n is) (sub : js ⊆ is) : Below n js := fun i hi => h i (sub hi)

/-- There is nothing to be shown of no identifiers. -/
@[simp]
lemma below_nil : Below n [] := nofun

/-- Identifiers are below the bounds if the first is below that of its arena and the others are. -/
@[simp]
lemma below_cons {i : Ident a} : Below n (i.any :: is) ↔ i.index < n a ∧ Below n is :=
  List.forall_mem_cons

/-- Two lists are below the bounds if each of them is. -/
@[simp]
lemma below_append : Below n (is ++ js) ↔ Below n is ∧ Below n js := List.forall_mem_append

/-- An identifier that may be missing is below the bounds if it is missing or below that of its
arena. -/
@[simp]
lemma below_anyOf {i : Option (Ident a)} :
    Below n (Ident.anyOf i) ↔ ∀ j, i = some j → j.index < n a := by
  cases i <;> simp [Below, Ident.anyOf, Ident.any]

/-- Identifiers of one arena are below the bounds if all are below that of the arena. -/
@[simp]
lemma below_map {l : List (Ident a)} : Below n (l.map (·.any)) ↔ ∀ i ∈ l, i.index < n a :=
  List.forall_mem_map

/-- What several entries mention is below the bounds if it is for each of them. -/
@[simp]
lemma below_flatMap {α : Type} {f : α → List AnyIdent} {l : List α} :
    Below n (l.flatMap f) ↔ ∀ x ∈ l, Below n (f x) := by
  unfold Below
  constructor
  · exact fun h x hx i hi => h i (List.mem_flatMap.2 ⟨x, hx, hi⟩)
  · intro h i hi
    obtain ⟨x, hx, hi⟩ := List.mem_flatMap.1 hi
    exact h x hx i hi

end Below

/-! ## The identifiers of the entries

Every identifier that a record has counts, its own included. -/

/-- The identifiers in the entry of a file. -/
def FileEntry.idents (f : FileEntry) : List AnyIdent := [f.id.any, f.path.any]

/-- The identifiers in the entry of an import. -/
def ImportEntry.idents (e : ImportEntry) : List AnyIdent :=
  e.symbol.any :: e.sourceName.any :: Ident.anyOf e.source

/-- The identifiers in the entry of a module, those of its definitions and imports included. -/
def ModuleEntry.idents (m : ModuleEntry) : List AnyIdent :=
  m.id.any :: m.name.any :: Ident.anyOf m.file ++ m.imports.flatMap ImportEntry.idents ++
    m.assignments.map (·.any) ++ m.types.map (·.any)

/-- The identifiers in an assignment. -/
def Assignment.idents (a : Assignment) : List AnyIdent :=
  a.id.any :: a.module.any :: a.name.any :: Ident.anyOf a.type

/-- The identifiers in the fields of a sequence or a choice. -/
def Field.identsOf (fields : List Field) : List AnyIdent :=
  fields.flatMap fun f => [f.name.any, f.type.any]

/-- The identifiers in the shape of a type node. -/
def TypeShape.idents : TypeShape → List AnyIdent
  | builtin _ => []
  | reference symbol qualifier target importedFrom =>
    symbol.any :: Ident.anyOf qualifier ++ Ident.anyOf target ++ Ident.anyOf importedFrom
  | enumeration base items => base.any :: items.map (·.name.any)
  | sequence fields | choice fields => Field.identsOf fields
  | sequenceOf element => [element.any]
  | textualConvention base hint _ => base.any :: Ident.anyOf hint

/-- The identifiers in a type node. -/
def TypeNode.idents (t : TypeNode) : List AnyIdent :=
  t.id.any :: t.module.any :: Ident.anyOf t.name ++ t.shape.idents

/-- The identifiers in a node of the tree, those of its children and claimants included. -/
def OidNode.idents (n : OidNode) : List AnyIdent :=
  n.id.any :: Ident.anyOf n.parent ++ n.children.map (·.any) ++ Ident.anyOf n.definition ++
    n.shadowed.map (·.any)

/-- The identifiers in the place of a problem. -/
def Location.idents (l : Location) : List AnyIdent := Ident.anyOf l.file ++ Ident.anyOf l.module

/-- The identifiers in a problem: its place and the assignments that it is about. -/
def Problem.idents (p : Problem) : List AnyIdent :=
  p.location.idents ++ Ident.anyOf p.subject ++ Ident.anyOf p.other

/-- The identifiers in what is registered of a module. -/
def RegisteredModule.idents (m : RegisteredModule) : List AnyIdent :=
  m.id.any :: Ident.anyOf m.file

/-! ## Closed models and drafts -/

/-- The number of entries of each arena. -/
def Mib.size (mib : Mib) : Arena → Nat
  | .strings => mib.strings.size
  | .files => mib.files.size
  | .modules => mib.modules.size
  | .assignments => mib.assignments.size
  | .types => mib.types.size
  | .nodes => mib.nodes.size

section Sizes

variable (mib : Mib)

/-- The arena of strings is the list of the strings. -/
@[simp]
lemma Mib.size_strings : mib.size .strings = mib.strings.size := rfl

/-- The arena of files is the list of the files. -/
@[simp]
lemma Mib.size_files : mib.size .files = mib.files.size := rfl

/-- The arena of modules is the list of the modules. -/
@[simp]
lemma Mib.size_modules : mib.size .modules = mib.modules.size := rfl

/-- The arena of assignments is the list of the assignments. -/
@[simp]
lemma Mib.size_assignments : mib.size .assignments = mib.assignments.size := rfl

/-- The arena of types is the list of the type nodes. -/
@[simp]
lemma Mib.size_types : mib.size .types = mib.types.size := rfl

/-- The arena of nodes is the list of the nodes of the tree. -/
@[simp]
lemma Mib.size_nodes : mib.size .nodes = mib.nodes.size := rfl

end Sizes

/-- Every identifier stored in a model is one of the first `n a` of its arena `a`. -/
structure Mib.StoresBelow (mib : Mib) (n : Arena → Nat) : Prop where
  files : ∀ f ∈ mib.files, Below n f.idents
  modules : ∀ m ∈ mib.modules, Below n m.idents
  assignments : ∀ a ∈ mib.assignments, Below n a.idents
  types : ∀ t ∈ mib.types, Below n t.idents
  nodes : ∀ m ∈ mib.nodes, Below n m.idents
  roots : ∀ i ∈ mib.roots, i.index < n .nodes
  problems : ∀ p ∈ mib.problems.toList, Below n p.idents
  moduleIndex : ∀ e ∈ mib.moduleIndex.entries, Below n [e.1.any, e.2.any]
  symbolIndex : ∀ e ∈ mib.symbolIndex.entries, Below n [e.1.1.any, e.1.2.any, e.2.any]
  oidIndex : ∀ e ∈ mib.oidIndex.entries, Below n [e.2.any]

/-- Every identifier stored in a model has an entry. -/
def Mib.Closed (mib : Mib) : Prop := mib.StoresBelow mib.size

/-- Every identifier stored in a draft is one of the first `n a` of its arena `a`. What a module
imports does not count: look-ups end in definitions. -/
structure Draft.StoresBelow (d : Draft) (n : Arena → Nat) : Prop where
  mib : d.mib.StoresBelow n
  names : ∀ e ∈ d.scope.modules.entries, e.2.index < n .modules
  definitions : ∀ e ∈ d.scope.definitions.entries, e.2.index < n .assignments
  sources : ∀ m ∈ d.modules, Below n m.idents
  numbered : d.origins.size ≤ n .assignments

/-- Every identifier stored in a draft has an entry in its model. -/
def Draft.Closed (d : Draft) : Prop := d.StoresBelow d.mib.size

/-- A model that mentions nothing beyond some bounds mentions nothing beyond greater ones. -/
lemma Mib.StoresBelow.mono {mib : Mib} {n n' : Arena → Nat} (h : mib.StoresBelow n)
    (le : ∀ a, n a ≤ n' a) : mib.StoresBelow n' where
  files f hf := (h.files f hf).mono le
  modules m hm := (h.modules m hm).mono le
  assignments a ha := (h.assignments a ha).mono le
  types t ht := (h.types t ht).mono le
  nodes m hm := (h.nodes m hm).mono le
  roots i hi := Nat.lt_of_lt_of_le (h.roots i hi) (le _)
  problems p hp := (h.problems p hp).mono le
  moduleIndex e he := (h.moduleIndex e he).mono le
  symbolIndex e he := (h.symbolIndex e he).mono le
  oidIndex e he := (h.oidIndex e he).mono le

/-- Nor does a draft. -/
lemma Draft.StoresBelow.mono {d : Draft} {n n' : Arena → Nat} (h : d.StoresBelow n)
    (le : ∀ a, n a ≤ n' a) : d.StoresBelow n' where
  mib := h.mib.mono le
  names e he := Nat.lt_of_lt_of_le (h.names e he) (le _)
  definitions e he := Nat.lt_of_lt_of_le (h.definitions e he) (le _)
  sources m hm := (h.sources m hm).mono le
  numbered := Nat.le_trans h.numbered (le _)

/-- A new draft mentions nothing. -/
lemma Draft.closed_new (policy : Policy) : (Draft.new policy).Closed := by
  refine ⟨⟨?_, ?_, ?_, ?_, ?_, ?_, ?_, ?_, ?_, ?_⟩, ?_, ?_, ?_, ?_⟩ <;>
    simp [new, Mib.empty, MibParts.empty, Scope.empty, Table.empty, Problems.empty, Problems.toList]

/-! ## What a draft refers to -/

/-- A place in a module and a file is below them. -/
lemma below_inModule {n : Arena → Nat} {file : Option FileId} {m : ModuleId}
    (hm : m.index < n .modules) (hf : ∀ f, file = some f → f.index < n .files) (span : Span) :
    Below n (Location.inModule file m span).idents := by
  simp only [Location.idents, Location.inModule, below_append, below_anyOf]
  refine ⟨hf, ?_⟩
  rintro _ ⟨⟩
  exact hm

namespace Draft.StoresBelow

variable {d : Draft} {n : Arena → Nat}

/-- An assignment mentions nothing beyond the bounds of its model. -/
lemma assignment (h : d.StoresBelow n) {i : AssignmentId} {a : Assignment}
    (ha : d.mib.assignment? i = some a) : Below n a.idents :=
  h.mib.assignments a (Array.mem_of_getElem? ha)

/-- The scope leads to modules within the bounds. -/
lemma module? (h : d.StoresBelow n) {name : String} {m : ModuleId}
    (hm : d.scope.module? name = some m) : m.index < n .modules :=
  h.names _ (Table.mem_entries_of_find? hm)

/-- The scope leads to assignments within the bounds. -/
lemma lookup? (h : d.StoresBelow n) {m : ModuleId} {name : String} {a : AssignmentId}
    (ha : d.scope.lookup? m name = some a) : a.index < n .assignments :=
  h.definitions _ (Table.mem_entries_of_find? ha)

/-- A place in a module is in its file. -/
lemma inModule (h : d.StoresBelow n) {m : ModuleId} (hm : m.index < n .modules) (span : Span) :
    Below n (Location.inModule (d.fileOf m) m span).idents := by
  refine below_inModule hm (fun f hf => ?_) span
  obtain ⟨e, he, hf⟩ := Option.bind_eq_some_iff.1 hf
  have below := h.mib.modules e (Array.mem_of_getElem? he)
  simp only [ModuleEntry.idents, below_append, below_cons, below_anyOf] at below
  exact below.1.1.1.2.2 f hf

/-- The place of an assignment is in its module. -/
lemma locationOf (h : d.StoresBelow n) (a : AssignmentId) : Below n (d.locationOf a).idents := by
  unfold Draft.locationOf
  cases ha : d.mib.assignment? a with
  | none => simp [Location.idents, Location.unknown]
  | some e =>
    have below := h.assignment ha
    simp only [Assignment.idents, below_cons] at below
    exact h.inModule below.2.1 e.span

end Draft.StoresBelow

end MibCorpus
