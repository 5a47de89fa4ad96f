import MibCorpus.Proofs.Mirror
import MibCorpus.Proofs.Scope

/-!
# What imports bind

The sources of a name in a module are those of the imports that the module is written with. What is
looked up through them, and what linking reports about them, depends on the modules that these name.
-/

namespace MibCorpus

namespace Scope

/-! ## What imports bind -/

/-- The sources of a name with one more. -/
def addSource (sources : List (Option ModuleId)) (source : Option ModuleId) :
    List (Option ModuleId) :=
  if sources.contains source then sources else sources ++ [source]

/-- The sources of a name after some imports. -/
def boundSources (source? : String → Option ModuleId) (name : String)
    (old : Option (List (Option ModuleId))) (is : List Import) :
    Option (List (Option ModuleId)) :=
  is.foldl (fun old i =>
    if i.symbol = name then some (addSource (old.getD []) (source? i.source)) else old) old

/-- Binding an import adds a source to that name in that module, and to no other. -/
lemma bindings_bindImport (t : Scope) (m m' : ModuleId) (n n' : String) (s : Option ModuleId) :
    (t.bindImport m n s).bindings m' n' =
      if (m, n) = (m', n') then some (addSource ((t.bindings m n).getD []) s)
      else t.bindings m' n' := by
  refine (Table.find?_insert ..).trans ?_
  simp only [addSource, List.contains_iff_mem]
  rfl

/-- The sources after some imports of a module. -/
lemma bindings_bindImports (t : Scope) (m m' : ModuleId) (name : String) (is : List Import) :
    (t.bindImports m is).bindings m' name =
      if m = m' then boundSources t.module? name (t.bindings m' name) is
      else t.bindings m' name := by
  induction is generalizing t with
  | nil => simp [bindImports, boundSources]
  | cons i is ih =>
    have step : t.bindImports m (i :: is) =
        (t.bindImport m i.symbol (t.module? i.source)).bindImports m is := rfl
    rw [step, ih, bindings_bindImport]
    by_cases hm : m = m'
    · subst hm
      by_cases hn : i.symbol = name
      · subst hn
        simp [boundSources]
        rfl
      · simp [boundSources, hn]
        rfl
    · simp [hm]

end Scope

namespace Draft

/-- The sources after the imports of some modules. -/
lemma bindings_bindModules (t : Scope) (ms : List RegisteredModule) (m : ModuleId)
    (name : String) :
    (bindModules t ms).bindings m name = Scope.boundSources t.module? name (t.bindings m name)
      ((ms.filter (·.id = m)).flatMap boundImports) := by
  induction ms generalizing t with
  | nil => rfl
  | cons r ms ih =>
    have step : bindModules t (r :: ms) = bindModules (t.bindImports r.id (boundImports r)) ms :=
      rfl
    have names : (t.bindImports r.id (boundImports r)).module? = t.module? := by
      have all : ∀ (is : List Import) (t : Scope), (t.bindImports r.id is).module? = t.module? := by
        intro is
        induction is with
        | nil => exact fun _ => rfl
        | cons i is ih => exact fun t => (ih _).trans rfl
      exact all _ t
    rw [step, ih, Scope.bindings_bindImports, names, List.filter_cons]
    by_cases hm : r.id = m
    · simp [hm, Scope.boundSources]
    · simp [hm]

/-- The imports that a module written so binds. -/
def writtenImports (is : List Import) : List Import := newImports [] (is.filter (!·.isMacro))

/-- Where modules are numbered in order, each number picks out one of them. -/
lemma filter_id_eq (rs : List RegisteredModule) (k : Nat)
    (ids : ∀ (i : Nat) (r : RegisteredModule), rs[i]? = some r → r.id = ⟨k + i⟩) (j : Nat) :
    rs.filter (·.id = ⟨k + j⟩) = (rs[j]?).toList := by
  induction rs generalizing k j with
  | nil => simp
  | cons r rs ih =>
    have head := ids 0 r rfl
    have tail := ih (k + 1) fun i s hs => by
      rw [ids (i + 1) s hs, Nat.add_right_comm, Nat.add_assoc]
    cases j with
    | zero =>
      have none : rs.filter (·.id = ⟨k + 0⟩) = [] := by
        refine List.filter_eq_nil_iff.2 fun s hs => ?_
        obtain ⟨i, hi⟩ := List.mem_iff_getElem?.1 hs
        simp [ids (i + 1) s hi]
      simp only [List.filter_cons, head, decide_true, if_true, none]
      rfl
    | succ j =>
      have e := tail j
      rw [Nat.add_right_comm, Nat.add_assoc] at e
      rw [List.filter_cons, if_neg (by simp [head]), e]
      rfl

/-- The imports bound for a module are those that it is written with. -/
lemma flatMap_boundImports {d : Draft} (h : d.ModulesRegistered) (m : ModuleId) :
    (d.modules.toList.filter (·.id = m)).flatMap boundImports =
      (d.sources[m.index]?).elim [] fun s => writtenImports s.imports := by
  have at_m := filter_id_eq d.modules.toList 0 (fun i r hr => by
    rw [Array.getElem?_toList] at hr
    rw [(h.entry i r hr).1, Nat.zero_add]) m.index
  rw [Nat.zero_add] at at_m
  rw [at_m, getElem?_sources, Array.getElem?_toList]
  cases d.modules[m.index]? <;> simp [writtenImports, boundImports]

end Draft

namespace Scope

/-! ## Looking names up -/

variable {σ : Renaming}

/-- Renaming modules commutes with adding a source. -/
lemma addSource_map (σ : Renaming) (sources : List (Option ModuleId)) (source : Option ModuleId) :
    addSource (sources.map (Option.map σ.module)) (source.map σ.module) =
      (addSource sources source).map (Option.map σ.module) := by
  have injective := Option.map_injective σ.module.injective
  simp only [addSource, List.contains_iff_mem, List.mem_map_of_injective injective]
  split <;> simp

/-- Imports of the same names have mirrored sources. -/
lemma boundSources_map {source? source?' : String → Option ModuleId} (name : String)
    (old : Option (List (Option ModuleId))) (is : List Import)
    (h : ∀ i ∈ is, source?' i.source = (source? i.source).map σ.module) :
    boundSources source?' name (old.map (List.map (Option.map σ.module))) is =
      (boundSources source? name old is).map (List.map (Option.map σ.module)) := by
  induction is generalizing old with
  | nil => rfl
  | cons i is ih =>
    have rest := fun old => ih old fun j hj => h j (List.mem_cons_of_mem _ hj)
    unfold boundSources at rest ⊢
    rw [List.foldl_cons, List.foldl_cons, ← rest]
    congr 1
    split
    · rw [h i (List.mem_cons_self ..), Option.map_some, ← addSource_map]
      cases old <;> rfl
    · rfl

/-- The sources that count are mirrored. -/
lemma realSources_map (σ : Renaming) (sources : List (Option ModuleId)) (hint : Option ModuleId) :
    realSources (sources.map (Option.map σ.module)) (hint.map σ.module) =
      (realSources sources hint).map σ.module := by
  have same : ∀ m, (hint.map σ.module).all (· == σ.module m) = hint.all (· == m) := by
    intro m
    cases hint with
    | none => rfl
    | some n => simp
  unfold realSources
  induction sources with
  | nil => rfl
  | cons source sources ih =>
    cases source with
    | none => simpa using ih
    | some m =>
      simp only [List.map_cons, Option.map_some, List.filterMap_cons, id_eq, List.filter_cons,
        same m]
      split
      · rw [List.map_cons]
        exact congrArg (σ.module m :: ·) ih
      · exact ih

/-- One step of following imports. -/
lemma follow_eq (t : Scope) (name : String) (visited : List ModuleId) (m : ModuleId)
    (hint : Option ModuleId) :
    t.follow name visited m hint =
      if m ∈ visited then .notFound
      else
        match t.bindings m name with
        | none => .notFound
        | some sources =>
          match realSources sources hint with
          | [] => .notFound
          | [source] =>
            match t.lookup? source name with
            | some a => .found a
            | none => t.follow name (m :: visited) source none
          | several => .ambiguous several := by
  rw [follow]
  split
  · rfl
  · split
    next hb => exact hb ▸ rfl
    next sources hb => exact hb ▸ rfl

end Scope

namespace Draft

/-! ## What linking reports -/

variable {d : Draft}

/-- The name of a registered module. -/
lemma Registered.moduleName_eq (h : d.Registered) {m : ModuleId} {s : Module}
    (hs : d.sources[m.index]? = some s) : d.mib.moduleName m = s.name := by
  rw [getElem?_sources] at hs
  obtain ⟨r, hr, rfl⟩ := Option.map_eq_some_iff.1 hs
  obtain ⟨-, name, hn, e⟩ := h.modules.entry m.index r hr
  obtain ⟨entry, he, e⟩ := Option.map_eq_some_iff.1 e
  simp only [Prod.mk.injEq] at e
  simp only [Mib.moduleName, show d.mib.module? m = _ from he, e.2.1]
  exact Strings.get_of_find? hn

/-- What an import is checked for depends on the names involved. -/
def checkContents (d : Draft) (is : List Import) : List (ProblemKind × Severity × String) :=
  (writtenImports is).filterMap fun i => (d.scope.module? i.source).bind fun s =>
    if d.scope.resolve s i.symbol = .notFound ∧ intrinsicRoot? i.symbol = none then
      some (Finding.unresolvedImport i.symbol (d.mib.moduleName s)).content
    else none

/-- The findings of the checks, module by module. -/
lemma contents_checks {e : Draft} (same : e.scope.module? = d.scope.module?) :
    ((d.modules.toList.flatMap (moduleImportChecks d.scope.module?)).filterMap
        e.checkProblem?).map (·.content) = d.sources.flatMap fun s =>
          e.checkContents s.imports := by
  rw [sources, List.flatMap_map, List.filterMap_flatMap, List.map_flatMap]
  congr 1
  funext r
  rw [moduleImportChecks, checkContents, same, List.filterMap_filterMap, List.map_filterMap]
  refine List.filterMap_congr fun i _ => ?_
  rw [importCheck?]
  cases d.scope.module? i.source with
  | none => rfl
  | some s =>
    simp only [Option.map_some, Option.bind_some, checkProblem?]
    split <;> rfl

/-- What is found while imports are linked depends on which sources are missing. -/
lemma contents_importProblems {source? source?' : String → Option ModuleId} (policy : Policy)
    (m m' : RegisteredModule) (seen : List (String × String)) (absent : List String)
    (is : List Import) (h : ∀ i ∈ is, (source?' i.source).isNone = (source? i.source).isNone) :
    (importProblems policy source?' m' seen absent is).map (·.content) =
      (importProblems policy source? m seen absent is).map (·.content) := by
  induction is generalizing seen absent with
  | nil => rfl
  | cons i is ih =>
    have rest := fun seen absent => ih seen absent fun j hj => h j (List.mem_cons_of_mem _ hj)
    have newly : isNewlyAbsent source?' absent i.source =
      isNewlyAbsent source? absent i.source := by
      rw [isNewlyAbsent, isNewlyAbsent, h i (List.mem_cons_self ..)]
    unfold importProblems
    split
    · rw [List.map_cons, List.map_cons, rest]
      rfl
    · rw [List.map_append, List.map_append, newly, rest]
      congr 1
      rw [newImportProblems, newImportProblems, newly, List.map_append, List.map_append]
      congr 1
      · cases seen.lookup i.symbol <;> rfl
      · split <;> rfl

end Draft

end MibCorpus
