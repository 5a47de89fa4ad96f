import MibCorpus.Proofs.Numbering

/-!
# Two stores of names

Resolution looks names up as strings in the scope of a draft, and queries look their identifiers up
in the indices of the model. The two stores are filled by different calls, but they answer alike:
strings are told apart by their identifiers, and in both stores the first definition counts.
-/

namespace MibCorpus

/-- Whether an assignment is one of a name in a module. -/
def Assignment.isNamed (m : ModuleId) (s : StrId) (a : Assignment) : Bool :=
  a.module = m ∧ a.name = s

/-- A name is one of the heading. -/
lemma findIdx?_isNamed_of_heading {as bs : Array Assignment} (m : ModuleId) (s : StrId)
    (same : bs.map Assignment.heading = as.map Assignment.heading) :
    bs.toList.findIdx? (·.isNamed m s) = as.toList.findIdx? (·.isNamed m s) := by
  have e := congrArg (fun l => l.toList.findIdx? (·.isNamed m s)) same
  have spared : (fun a : Assignment => a.heading.isNamed m s) = fun a => a.isNamed m s := rfl
  simpa [List.findIdx?_map, Function.comp_def, spared] using e

namespace Draft

/-- The scope of a draft and the indices of its model answer alike, and what they answer is the
first assignment of the name in the module. -/
structure NamesAgree (d : Draft) : Prop where
  modules : ∀ name, d.scope.module? name = (d.mib.findStr? name).bind d.mib.moduleIndex.find?
  definitions : ∀ m name,
    d.scope.lookup? m name = (d.mib.findStr? name).bind fun s => d.mib.symbolIndex.find? (m, s)
  first : ∀ m s,
    d.mib.symbolIndex.find? (m, s) =
      (d.mib.assignments.toList.findIdx? (·.isNamed m s)).map Ident.mk

/-- In a new draft the stores agree, all being empty. -/
lemma namesAgree_new (policy : Policy) : (Draft.new policy).NamesAgree where
  modules name := by cases (new policy).mib.findStr? name <;> rfl
  definitions m name := by cases (new policy).mib.findStr? name <;> rfl
  first _ _ := rfl

variable {d d' : Draft}

/-! ## Names that are stored -/

/-- The names in the index of modules are interned. -/
lemma Closed.lt_of_moduleIndex (c : d.Closed) (s : StrId) (m : ModuleId)
    (h : d.mib.moduleIndex.find? s = some m) : s.index < d.mib.strings.size := by
  have below := c.mib.moduleIndex _ (Table.mem_entries_of_find? h)
  simp only [below_cons] at below
  exact below.1

/-- The names in the index of symbols are interned. -/
lemma Closed.lt_of_symbolIndex (c : d.Closed) (m : ModuleId) (s : StrId) (a : AssignmentId)
    (h : d.mib.symbolIndex.find? (m, s) = some a) : s.index < d.mib.strings.size := by
  have below := c.mib.symbolIndex _ (Table.mem_entries_of_find? h)
  simp only [below_cons] at below
  exact below.2.1

/-! ## Steps -/

/-- Edits keep the stores, and a string that is interned was in none of them. -/
lemma NamesAgree.edit (h : d.NamesAgree) (c : d.Closed) {mib : Mib} (e : d.mib.Edit mib) :
    ({ d with mib } : Draft).NamesAgree := by
  have k := e.keeps
  refine ⟨fun name => ?_, fun m name => ?_, fun m s => ?_⟩
  · refine (h.modules name).trans ?_
    simp only [Mib.findStr?, k.moduleIndex]
    exact (k.extends.bind_find? c.lt_of_moduleIndex name).symm
  · refine (h.definitions m name).trans ?_
    simp only [Mib.findStr?, k.symbolIndex]
    exact (k.extends.bind_find? (c.lt_of_symbolIndex m) name).symm
  · rw [findIdx?_isNamed_of_heading m s k.assignments]
    exact (congrArg (·.find? (m, s)) k.symbolIndex).trans (h.first m s)

/-- A module that is announced gets its name in both stores. -/
lemma NamesAgree.announced (h : d.NamesAgree) {name : StrId} {file : Option FileId}
    {source : Module} (free : d.scope.module? source.name = none)
    (named : d.mib.findStr? source.name = some name) :
    (d.announced name file source).NamesAgree := by
  refine ⟨fun other => ?_, h.definitions, h.first⟩
  have absent : d.mib.moduleIndex.find? name = none := by
    rwa [h.modules, named] at free
  have old := h.modules other
  simp only [Draft.announced, Mib.addModule, Scope.module?, Mib.findStr?, Table.find?_insert]
    at old ⊢
  by_cases same : source.name = other
  · subst same
    rw [if_pos rfl]
    simp only [Mib.findStr?] at named
    simp only [named, Option.bind_some, Table.find?_insertNew, absent, and_self, if_pos]
  · rw [if_neg same, old]
    refine Option.bind_congr fun s hs => ?_
    have ne : name ≠ s := by
      rintro rfl
      exact same ((Strings.get_of_find? named).symm.trans (Strings.get_of_find? hs))
    rw [Table.find?_insertNew, if_neg fun e => ne e.1]

/-- What was in the index stays the answer for a name that is interned. -/
lemma NamesAgree.lookup?_intern (h : d.NamesAgree) (c : d.Closed) (m : ModuleId)
    (name s : String) : d.scope.lookup? m name =
      ((d.mib.strings.intern s).2.find? name).bind fun t => d.mib.symbolIndex.find? (m, t) := by
  rw [h.definitions]
  exact ((Strings.extends_intern _ s).bind_find? (c.lt_of_symbolIndex m) name).symm

/-- A new assignment is the first of its name if there was none. -/
lemma NamesAgree.first_push (h : d.NamesAgree) (a : Assignment) (m : ModuleId) (s : StrId) :
    ((d.mib.assignments.push a).toList.findIdx? (·.isNamed m s)).map Ident.mk =
      (d.mib.symbolIndex.find? (m, s)).or
        (if (a.module, a.name) = (m, s) then some ⟨d.mib.assignments.size⟩ else none) := by
  rw [h.first, Array.toList_push, List.findIdx?_append]
  cases d.mib.assignments.toList.findIdx? (·.isNamed m s) with
  | some i => rfl
  | none =>
    by_cases key : (a.module, a.name) = (m, s)
    · have named : a.isNamed m s = true := by simpa [Assignment.isNamed] using key
      simp [named, key]
    · have other : a.isNamed m s = false := by simpa [Assignment.isNamed] using key
      simp [other, key]

/-- A definition whose name is free is found by it in both stores. -/
lemma NamesAgree.lookup?_insert (h : d.NamesAgree) (c : d.Closed) {m : ModuleId} {name : String}
    (free : d.scope.lookup? m name = none) (i : AssignmentId) (k : ModuleId) (other : String) :
    (d.scope.definitions.insert (m, name) i).find? (k, other) =
      ((d.mib.strings.intern name).2.find? other).bind fun s =>
        (d.mib.symbolIndex.insertNew (m, (d.mib.strings.intern name).1) i).find? (k, s) := by
  have named := Strings.find?_intern d.mib.strings name
  have absent := h.lookup?_intern c m name name
  rw [named, Option.bind_some, free] at absent
  rw [Table.find?_insert]
  by_cases key : (m, name) = (k, other)
  · cases key
    rw [if_pos rfl, named, Option.bind_some, Table.find?_insertNew, ← absent]
    simp
  · rw [if_neg key]
    refine (h.lookup?_intern c k other name).trans ?_
    refine Option.bind_congr fun s hs => ?_
    -- Another name has another identifier, so its entry is not the new one.
    rw [Table.find?_insertNew, if_neg]
    rintro ⟨e, -⟩
    cases e
    have same := (Strings.get_of_find? named).symm.trans (Strings.get_of_find? hs)
    exact key (congrArg (Prod.mk m) same)

/-- A definition is entered in both stores or, if its name is taken, in none. -/
lemma NamesAgree.registerDefinition (h : d.NamesAgree) (c : d.Closed)
    (m : RegisteredModule) (o : Origin) (x : Definition) :
    (d.registerDefinition m o x).NamesAgree := by
  have known := h.lookup?_intern c m.id x.name x.name
  rw [Strings.find?_intern, Option.bind_some] at known
  have modules : ∀ name, d.scope.module? name =
      ((d.mib.strings.intern x.name).2.find? name).bind d.mib.moduleIndex.find? := fun name =>
    (h.modules name).trans
      ((Strings.extends_intern _ x.name).bind_find? c.lt_of_moduleIndex name).symm
  -- A free name gets an entry in every store; a name that is taken keeps its own in all of them.
  cases free : d.scope.lookup? m.id x.name with
  | none =>
    rw [registerDefinition_free d m o x free]
    rw [free] at known
    refine ⟨modules, h.lookup?_insert c free _, fun k s => ?_⟩
    simp only [Table.find?_insertNew, h.first_push]
    by_cases key : (m.id, (d.mib.strings.intern x.name).1) = (k, s)
    · rw [if_pos ⟨key, known.symm⟩, ← key, ← known]
      simp [Definition.entry]
    · rw [if_neg fun e => key e.1]
      simp [Definition.entry, key]
  | some existing =>
    rw [registerDefinition_taken d m o x free]
    rw [free] at known
    refine ⟨modules, fun k name => h.lookup?_intern c k name x.name,
      fun k s => ?_⟩
    rw [h.first_push]
    by_cases key : (m.id, (d.mib.strings.intern x.name).1) = (k, s)
    · cases key
      rw [← known]
      rfl
    · simp [Definition.entry, key]

/-- A step keeps the stores in agreement. -/
lemma NamesAgree.step (h : d.NamesAgree) (c : d.Closed) (s : d.Step d') : d'.NamesAgree := by
  cases s with
  | edit e => exact h.edit c e
  | announce name file source free named _ => exact h.announced free named
  | define m o x => exact h.registerDefinition c m o x
  | bindImport => exact ⟨h.modules, h.definitions, h.first⟩
  | list => exact ⟨h.modules, h.definitions, h.first⟩

/-- After any calls of phases the two stores answer alike. -/
theorem namesAgree_after (policy : Policy) (calls : List PhaseCall) (r : Recorder) :
    ((Draft.new policy).after calls r).NamesAgree :=
  after_induction policy (namesAgree_new policy) (fun c h s => h.step c s) calls r

/-! ## Queries -/

/-- What queries answer by name is what the scope answers, and it is the first of its name. -/
structure QueriesAgree (mib : Mib) (t : Scope) : Prop where
  module : ∀ name, (mib.moduleNamed? name).map (·.id) = t.module? name
  definition : ∀ m name, (mib.lookupIn? m name).map (·.id) = t.lookup? m name
  first : ∀ m name a, mib.lookupIn? m name = some a → a.module = m ∧ mib.str a.name = name ∧
    ∀ i b, mib.assignment? i = some b → b.module = m → mib.str b.name = name →
      a.id.index ≤ i.index

/-- The entry of an identifier that has one carries it. -/
lemma map_id_getElem? {a : Arena} {α : Type} {id : α → Ident a} {as : Array α} (h : Numbers id as)
    {i : Ident a} (lt : i.index < as.size) : (as[i.index]?).map id = some i := by
  rw [Array.getElem?_eq_getElem lt]
  exact congrArg some (h i.index _ (Array.getElem?_eq_getElem lt))

/-- What is found by a name in a module is the first assignment there that has it. -/
lemma NamesAgree.first_of_lookupIn? (h : d.NamesAgree) (c : d.Closed) (n : d.mib.Numbered)
    {m : ModuleId} {name : String} {a : Assignment} (found : d.mib.lookupIn? m name = some a) :
    a.module = m ∧ d.mib.str a.name = name ∧ ∀ i b, d.mib.assignment? i = some b → b.module = m →
      d.mib.str b.name = name → a.id.index ≤ i.index := by
  obtain ⟨s, hs, found⟩ := Option.bind_eq_some_iff.1 found
  obtain ⟨i, hi, ha⟩ := Option.bind_eq_some_iff.1 found
  rw [h.first, Option.map_eq_some_iff] at hi
  obtain ⟨k, hk, rfl⟩ := hi
  obtain ⟨lt, named, before⟩ := List.findIdx?_eq_some_iff_getElem.1 hk
  have at_k : d.mib.assignments.toList[k] = a := by
    obtain ⟨_, e⟩ := Array.getElem?_eq_some_iff.1 ha
    simpa using e
  rw [at_k, Assignment.isNamed, decide_eq_true_eq] at named
  obtain ⟨module, sameName⟩ := named
  refine ⟨module, by rw [sameName]; exact Strings.get_of_find? hs, fun i b hb owner string => ?_⟩
  -- Identifiers tell strings apart, so whatever is called alike has the same identifier.
  have below := c.assignment hb
  simp only [Assignment.idents, below_cons] at below
  have same := d.mib.strings.find?_get below.2.2.1
  rw [show d.mib.strings.get b.name = name from string,
    show d.mib.strings.find? name = some s from hs, Option.some.injEq] at same
  rw [n.assignments k a ha]
  refine Nat.le_of_not_lt fun earlier => before i.index earlier ?_
  obtain ⟨_, e⟩ := Array.getElem?_eq_some_iff.1 hb
  rw [Array.getElem_toList, e, Assignment.isNamed, decide_eq_true_eq]
  exact ⟨owner, same.symm⟩

/-- Where the stores agree, so do the answers of the model and the scope. -/
lemma NamesAgree.queriesAgree (h : d.NamesAgree) (c : d.Closed) (n : d.mib.Numbered) :
    QueriesAgree d.mib d.scope where
  module name := by
    rw [h.modules, Mib.moduleNamed?, Option.map_bind]
    refine Option.bind_congr fun s _ => ?_
    rw [Function.comp_apply, Option.map_bind]
    cases hm : d.mib.moduleIndex.find? s with
    | none => rfl
    | some m =>
      have below := c.mib.moduleIndex _ (Table.mem_entries_of_find? hm)
      simp only [below_cons] at below
      exact map_id_getElem? n.modules below.2.1
  definition m name := by
    rw [h.definitions, Mib.lookupIn?, Option.map_bind]
    refine Option.bind_congr fun s _ => ?_
    rw [Function.comp_apply, Option.map_bind]
    cases ha : d.mib.symbolIndex.find? (m, s) with
    | none => rfl
    | some a =>
      have below := c.mib.symbolIndex _ (Table.mem_entries_of_find? ha)
      simp only [below_cons] at below
      exact map_id_getElem? n.assignments below.2.2.1
  first _ _ _ found := h.first_of_lookupIn? c n found

/-- After any calls of phases, in any order, a query by name answers what the scope answers: the
first assignment of the name in the module, or nothing. -/
theorem queriesAgree_after (policy : Policy) (calls : List PhaseCall) (r : Recorder) :
    QueriesAgree ((Draft.new policy).after calls r).mib ((Draft.new policy).after calls r).scope :=
  (namesAgree_after policy calls r).queriesAgree (closed_after policy calls r)
    (numbered_after policy calls r)

end Draft

end MibCorpus
