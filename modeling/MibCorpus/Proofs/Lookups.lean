import MibCorpus.Proofs.BoundImports
import MibCorpus.Proofs.Firsts
import Mathlib.Data.List.Chain

/-!
# What look-ups follow

A look-up leads along a chain of modules that pass a name on, each of which has one module to get it
from. No module occurs twice in a chain, so every look-up ends: where the name is defined, where
there are several modules or none to get it from, or where the chain would come back to a module
that has passed the name on already.
-/

namespace MibCorpus

/-! ## Filling a table -/

/-- A call that makes a name visible. -/
inductive ScopeCall where
  | registerModule (name : String) (m : ModuleId)
  | define (m : ModuleId) (name : String) (a : AssignmentId)
  | bindImport (m : ModuleId) (name : String) (source : Option ModuleId)

namespace ScopeCall

/-- The visible names after a call. A refused call changes nothing. -/
def apply (t : Scope) : ScopeCall → Scope
  | registerModule name m => (t.registerModule name m).toOption.getD t
  | define m name a => (t.define m name a).toOption.getD t
  | bindImport m name source => t.bindImport m name source

/-- The definition that a call gives a name of a module. -/
def defines? (m : ModuleId) (name : String) : ScopeCall → Option AssignmentId
  | define m' name' a => if (m', name') = (m, name) then some a else none
  | registerModule .. | bindImport .. => none

/-- The source that a call imports a name of a module from. -/
def binds? (m : ModuleId) (name : String) : ScopeCall → Option (Option ModuleId)
  | bindImport m' name' source => if (m', name') = (m, name) then some source else none
  | registerModule .. | define .. => none

end ScopeCall

/-- The visible names after some calls. -/
def Scope.after (calls : List ScopeCall) : Scope := calls.foldl ScopeCall.apply .empty

/-- What the modules have to say of one name: the definition of it in a module itself, and the
modules that exist among those that it is imported from, in the order in which they were bound. -/
@[ext]
structure NameView where
  own : ModuleId → Option AssignmentId
  sources : ModuleId → List ModuleId

/-- What some calls say of a name: the first definition counts, and each source counts once. -/
def NameView.ofCalls (calls : List ScopeCall) (name : String) : NameView where
  own m := calls.findSome? (·.defines? m name)
  sources m := (firstsBy id [] (calls.filterMap (·.binds? m name))).filterMap id

/-- The sources of a name in a module that agree with a hint. -/
def NameView.hinted (v : NameView) (m : ModuleId) (hint : Option ModuleId) : List ModuleId :=
  (v.sources m).filter fun s => hint.all (· == s)

namespace Scope

/-- What a table says of a name. -/
def view (t : Scope) (name : String) : NameView where
  own m := t.lookup? m name
  sources m := ((t.bindings m name).getD []).filterMap id

/-- A definition is found if there was one before, or else if the call makes it. -/
lemma lookup?_apply (t : Scope) (c : ScopeCall) (m : ModuleId) (name : String) :
    (c.apply t).lookup? m name = (t.lookup? m name).or (c.defines? m name) := by
  cases c with
  | registerModule name' m' =>
    have same : ((ScopeCall.registerModule name' m').apply t).definitions = t.definitions := by
      simp only [ScopeCall.apply, registerModule]
      cases t.module? name' <;> rfl
    rw [lookup?, same, ScopeCall.defines?, Option.or_none]
    rfl
  | define m' name' a =>
    simp only [ScopeCall.apply, define, ScopeCall.defines?]
    cases old : t.lookup? m' name' with
    | some b =>
      change t.lookup? m name = _
      split
      next same =>
        cases same
        rw [old]
        rfl
      next => rw [Option.or_none]
    | none =>
      refine (Table.find?_insert ..).trans ?_
      split
      next same =>
        cases same
        rw [old]
        rfl
      next => exact (Option.or_none).symm
  | bindImport m' name' source => exact (Option.or_none).symm

/-- A source is added at the end unless it is there. -/
lemma bindings_apply (t : Scope) (c : ScopeCall) (m : ModuleId) (name : String) :
    ((c.apply t).bindings m name).getD [] =
      (t.bindings m name).getD [] ++
        firstsBy id ((t.bindings m name).getD []) (c.binds? m name).toList := by
  cases c with
  | registerModule name' m' =>
    have same : ((ScopeCall.registerModule name' m').apply t).imports = t.imports := by
      simp only [ScopeCall.apply, registerModule]
      cases t.module? name' <;> rfl
    rw [bindings, same]
    exact (List.append_nil _).symm
  | define m' name' a =>
    have same : ((ScopeCall.define m' name' a).apply t).imports = t.imports := by
      simp only [ScopeCall.apply, define]
      cases t.lookup? m' name' <;> rfl
    rw [bindings, same]
    exact (List.append_nil _).symm
  | bindImport m' name' source =>
    rw [ScopeCall.apply, bindings_bindImport, ScopeCall.binds?]
    split
    next same =>
      cases same
      simp only [Option.getD_some, Option.toList_some, firstsBy, addSource, id_eq,
        List.contains_iff_mem]
      split <;> simp
    next => simp [firstsBy]

/-- The first call that defines a name in a module stays, unless the table has it before. -/
lemma lookup?_foldl_apply (calls : List ScopeCall) (t : Scope) (m : ModuleId) (name : String) :
    (calls.foldl ScopeCall.apply t).lookup? m name =
      (t.lookup? m name).or (calls.findSome? (·.defines? m name)) := by
  induction calls generalizing t with
  | nil => exact Option.or_none.symm
  | cons c calls ih =>
    rw [List.foldl_cons, ih, lookup?_apply, Option.or_assoc, List.findSome?_cons]
    cases c.defines? m name <;> rfl

/-- Sources are added in the order of the calls, each once. -/
lemma bindings_foldl_apply (calls : List ScopeCall) (t : Scope) (m : ModuleId) (name : String) :
    ((calls.foldl ScopeCall.apply t).bindings m name).getD [] =
      (t.bindings m name).getD [] ++
        firstsBy id ((t.bindings m name).getD []) (calls.filterMap (·.binds? m name)) := by
  induction calls generalizing t with
  | nil => exact (List.append_nil _).symm
  | cons c calls ih =>
    rw [List.foldl_cons, ih, bindings_apply, List.append_assoc, List.filterMap_cons]
    congr 1
    cases c.binds? m name with
    | none => simp [firstsBy]
    | some source =>
      by_cases old : source ∈ (t.bindings m name).getD []
      · simp [firstsBy, old]
      · rw [Option.toList_some, firstsBy_cons_of_notMem old, firstsBy_cons_of_notMem old]
        refine congrArg (source :: ·) (firstsBy_congr (fun k => ?_) _)
        simp [firstsBy, or_comm]

/-- The table that some calls fill says what the calls say. -/
lemma view_after (calls : List ScopeCall) (name : String) :
    (after calls).view name = .ofCalls calls name := by
  refine NameView.ext (funext fun m => ?_) (funext fun m => congrArg (List.filterMap id) ?_)
  · exact lookup?_foldl_apply calls .empty m name
  · exact bindings_foldl_apply calls .empty m name

end Scope

/-! ## Chains -/

namespace NameView

variable {v : NameView} {chain : List ModuleId} {m s last : ModuleId}

/-- Modules from `m` to `last`, each once, that pass a name on: all but the last have no definition
of it and import it from the next module alone. -/
structure Chain (v : NameView) (chain : List ModuleId) (m last : ModuleId) : Prop where
  first : chain.head? = some m
  last : chain.getLast? = some last
  distinct : chain.Nodup
  links : chain.IsChain fun m s => v.own m = none ∧ v.sources m = [s]

namespace Chain

/-- A module is a chain of its own. -/
lemma single (v : NameView) (m : ModuleId) : v.Chain [m] m m :=
  ⟨rfl, rfl, List.nodup_singleton m, .singleton m⟩

/-- A chain can be started one module earlier, at one that has the name from its first module
only. -/
lemma cons (h : v.Chain chain s last) (undefined : v.own m = none) (source : v.sources m = [s])
    (new : m ∉ chain) : v.Chain (m :: chain) m last := by
  obtain ⟨rest, rfl⟩ := List.head?_eq_some_iff.1 h.first
  refine ⟨rfl, ?_, List.nodup_cons.2 ⟨new, h.distinct⟩, .cons_cons ⟨undefined, source⟩ h.links⟩
  rw [List.getLast?_cons_cons]
  exact h.last

/-- A chain is one module, or a module in front of a chain from its source. -/
@[elab_as_elim]
lemma induction {motive : (chain : List ModuleId) → (m : ModuleId) → v.Chain chain m last → Prop}
    (single : motive [last] last (.single v last))
    (cons : ∀ {chain m s} (undefined : v.own m = none) (source : v.sources m = [s])
      (new : m ∉ chain) (rest : v.Chain chain s last),
      motive chain s rest → motive (m :: chain) m (rest.cons undefined source new))
    {chain : List ModuleId} {m : ModuleId} (h : v.Chain chain m last) : motive chain m h := by
  induction chain generalizing m with
  | nil => cases h.first
  | cons m' rest ih =>
    obtain rfl := Option.some.inj h.first
    cases rest with
    | nil =>
      obtain rfl := Option.some.inj h.last
      exact single
    | cons s rest =>
      obtain ⟨new, distinct⟩ := List.nodup_cons.1 h.distinct
      obtain ⟨⟨undefined, source⟩, links⟩ := List.isChain_cons_cons.1 h.links
      have last := h.last
      rw [List.getLast?_cons_cons] at last
      have rest : v.Chain (s :: rest) s _ := ⟨rfl, last, distinct, links⟩
      exact cons undefined source new rest (ih rest)

/-- There is a module in every chain. -/
lemma ne_nil (h : v.Chain chain m last) : chain ≠ [] := by
  rintro rfl
  cases h.first

/-- The last module stands behind the others of a chain. -/
lemma dropLast_append (h : v.Chain chain m last) : chain.dropLast ++ [last] = chain :=
  List.dropLast_append_getLast? last h.last

/-- The last module of a chain is not among those before it. -/
lemma last_notMem_dropLast (h : v.Chain chain m last) : last ∉ chain.dropLast := by
  have distinct := h.distinct
  rw [← h.dropLast_append, List.nodup_append] at distinct
  exact fun mem => distinct.2.2 last mem last (List.mem_singleton_self _) rfl

/-- The modules of a chain are those before the last one, and that. -/
lemma mem_iff (h : v.Chain chain m last) {x : ModuleId} :
    x ∈ chain ↔ x ∈ chain.dropLast ∨ x = last := by
  rw [← List.mem_singleton, ← List.mem_append, h.dropLast_append]

/-- All but the last module of a chain have a source. -/
lemma exists_source (h : v.Chain chain m last) :
    ∀ x ∈ chain.dropLast, v.own x = none ∧ ∃ s, v.sources x = [s] := by
  induction h using Chain.induction with
  | single => exact nofun
  | cons undefined source _ rest ih =>
    rw [List.dropLast_cons_of_ne_nil rest.ne_nil, List.forall_mem_cons]
    exact ⟨⟨undefined, _, source⟩, ih⟩

end Chain

/-- How a chain ends that comes behind the `passed` modules: with a definition, or with a module
that did not come before and has no source, several, or one that came before. -/
inductive Ends (v : NameView) (passed chain : List ModuleId) (last : ModuleId) : Lookup → Prop where
  | own {a : AssignmentId} (defined : v.own last = some a) : Ends v passed chain last (.found a)
  | missing (undefined : v.own last = none) (new : last ∉ passed) (none : v.sources last = []) :
    Ends v passed chain last .notFound
  | again {s : ModuleId} (undefined : v.own last = none) (new : last ∉ passed)
      (one : v.sources last = [s]) (undefined' : v.own s = none) (old : s ∈ passed ∨ s ∈ chain) :
    Ends v passed chain last .notFound
  | several {ss : List ModuleId} (undefined : v.own last = none) (new : last ∉ passed)
      (sources : v.sources last = ss) (many : 2 ≤ ss.length) :
    Ends v passed chain last (.ambiguous ss)

/-- Where a module that has passed a name on is come to again, it defines the name. -/
lemma Ends.exists_own {passed : List ModuleId} {o : Lookup} (h : Ends v passed chain last o)
    (old : last ∈ passed) : ∃ a, v.own last = some a := by
  cases h with
  | own defined => exact ⟨_, defined⟩
  | missing _ new | again _ new | several _ new => exact absurd old new

/-- A module that has passed a name on may be seen as the first of the chain. -/
lemma Ends.of_cons {passed : List ModuleId} {o : Lookup} (h : Ends v (m :: passed) chain last o) :
    Ends v passed (m :: chain) last o := by
  have fresh : last ∉ m :: passed → last ∉ passed := mt (List.mem_cons_of_mem m)
  cases h with
  | own defined => exact .own defined
  | missing undefined new none => exact .missing undefined (fresh new) none
  | again undefined new one undefined' old =>
    refine .again undefined (fresh new) one undefined' ?_
    rwa [List.mem_cons, or_assoc, or_left_comm, ← List.mem_cons] at old
  | several undefined new sources many => exact .several undefined (fresh new) sources many

end NameView

/-! ## Visits -/

namespace Scope

open NameView

variable {t : Scope} {name : String} {passed chain : List ModuleId} {m s last : ModuleId}
  {a : AssignmentId} {o : Lookup}

/-- What a name stands for in a module that it is looked up in behind the `passed` modules. -/
def visit (t : Scope) (name : String) (passed : List ModuleId) (m : ModuleId) : Lookup :=
  match t.lookup? m name with
  | some a => .found a
  | none => t.follow name passed m none

/-- What a name stands for if it comes from one of some modules. -/
def visitAny (t : Scope) (name : String) (passed : List ModuleId) : List ModuleId → Lookup
  | [] => .notFound
  | [s] => t.visit name passed s
  | several => .ambiguous several

/-- Resolving a name is visiting the module, with none passed before. -/
lemma resolve_eq_visit (t : Scope) (m : ModuleId) (name : String) :
    t.resolve m name = t.visit name [] m := rfl

/-- Following imports is visiting the sources, with the module passed. -/
lemma follow_eq_visitAny (new : m ∉ passed) (hint : Option ModuleId) :
    t.follow name passed m hint =
      t.visitAny name (m :: passed) ((t.view name).hinted m hint) := by
  have sources : (t.view name).hinted m hint = realSources ((t.bindings m name).getD []) hint := rfl
  rw [follow_eq, if_neg new, sources]
  cases t.bindings m name with
  | none => rfl
  | some sources =>
    rw [Option.getD_some]
    simp only
    split
    next none => rw [none, visitAny]
    next s one =>
      rw [one]
      rfl
    next none one => rw [visitAny.eq_3 _ _ _ _ none one]

/-- Looking up an imported name is visiting the sources that the hint admits. -/
lemma lookupImported_eq_visitAny (t : Scope) (m : ModuleId) (name : String)
    (hint : Option ModuleId) :
    t.lookupImported m name hint = t.visitAny name [m] ((t.view name).hinted m hint) :=
  follow_eq_visitAny List.not_mem_nil hint

/-- Without a hint all sources are admitted. -/
lemma hinted_none (v : NameView) (m : ModuleId) : v.hinted m none = v.sources m :=
  List.filter_eq_self.2 fun _ _ => rfl

/-- A visit ends at a module that defines the name. -/
lemma visit_of_own (defined : (t.view name).own m = some a) : t.visit name passed m = .found a := by
  have defined : t.lookup? m name = some a := defined
  rw [visit, defined]

/-- A module that has passed a name on and is come to again has nothing to add. -/
lemma visit_of_mem (undefined : (t.view name).own m = none) (old : m ∈ passed) :
    t.visit name passed m = .notFound := by
  have undefined : t.lookup? m name = none := undefined
  rw [visit, undefined]
  exact (follow_eq ..).trans (if_pos old)

/-- A visit to a new module that does not define the name goes on to its sources. -/
lemma visit_of_new (undefined : (t.view name).own m = none) (new : m ∉ passed) :
    t.visit name passed m = t.visitAny name (m :: passed) ((t.view name).sources m) := by
  have undefined : t.lookup? m name = none := undefined
  rw [visit, undefined, ← hinted_none]
  exact follow_eq_visitAny new none

/-- Several sources are ambiguous. -/
lemma visitAny_of_many {ss : List ModuleId} (many : 2 ≤ ss.length) :
    t.visitAny name passed ss = .ambiguous ss := by
  match ss, many with
  | _ :: _ :: _, _ => rfl

end Scope

open Scope

namespace NameView

variable {t : Scope} {name : String} {passed chain : List ModuleId} {m s last : ModuleId}
  {o : Lookup}

/-- A visit to the first module of a chain is one to the last, behind all others. -/
lemma Chain.visit_eq (h : (t.view name).Chain chain m last)
    (new : ∀ x ∈ chain.dropLast, x ∉ passed) :
    ∃ passed', t.visit name passed m = t.visit name passed' last ∧
      ∀ x, x ∈ passed' ↔ x ∈ passed ∨ x ∈ chain.dropLast := by
  induction h using Chain.induction generalizing passed with
  | single => exact ⟨passed, rfl, by simp⟩
  | @cons chain m s undefined source fresh rest ih =>
    rw [List.dropLast_cons_of_ne_nil rest.ne_nil] at new ⊢
    obtain ⟨newHead, newTail⟩ := List.forall_mem_cons.1 new
    have newTail : ∀ x ∈ chain.dropLast, x ∉ m :: passed := by
      intro x hx old
      rcases List.mem_cons.1 old with rfl | old
      · exact fresh (List.dropLast_subset chain hx)
      · exact newTail x hx old
    obtain ⟨passed', same, mem⟩ := ih newTail
    refine ⟨passed', ?_, fun x => ?_⟩
    · rw [visit_of_new undefined newHead, source, visitAny, same]
    · rw [mem, List.mem_cons, List.mem_cons, or_assoc, or_left_comm]

/-- What a visit finds is decided at the end of a chain. -/
lemma Ends.visit_eq (ends : (t.view name).Ends passed chain last o)
    (h : (t.view name).Chain chain m last) (new : ∀ x ∈ chain.dropLast, x ∉ passed) :
    t.visit name passed m = o := by
  obtain ⟨passed', same, mem⟩ := h.visit_eq new
  have fresh : last ∉ passed → last ∉ passed' := fun new old =>
    ((mem last).1 old).elim new h.last_notMem_dropLast
  rw [same]
  cases ends with
  | own defined => exact visit_of_own defined
  | missing undefined new none => rw [visit_of_new undefined (fresh new), none, visitAny]
  | again undefined new one undefined' old =>
    rw [visit_of_new undefined (fresh new), one, visitAny, visit_of_mem undefined']
    rw [List.mem_cons, mem]
    rcases old with old | old
    · exact .inr (.inl old)
    · rcases h.mem_iff.1 old with old | rfl
      · exact .inr (.inr old)
      · exact .inl rfl
  | several undefined new sources many =>
    rw [visit_of_new undefined (fresh new), sources, visitAny_of_many many]

/-- Every visit to a module that is new or defines the name follows a chain to an end. -/
lemma exists_ends (new : (t.view name).own m = none → m ∉ passed) :
    ∃ chain last, (t.view name).Chain chain m last ∧ (∀ x ∈ chain.dropLast, x ∉ passed) ∧
      (t.view name).Ends passed chain last (t.visit name passed m) := by
  induction hn : (t.unvisited passed).length using Nat.strongRecOn generalizing passed m with
  | ind n ih =>
    cases own : (t.view name).own m with
    | some a => exact ⟨[m], m, .single _ m, nofun, visit_of_own own ▸ .own own⟩
    | none =>
      have fresh := new own
      have visit := visit_of_new own fresh
      match sources : (t.view name).sources m with
      | [] =>
        rw [sources, visitAny] at visit
        exact ⟨[m], m, .single _ m, nofun, visit ▸ .missing own fresh sources⟩
      | s :: s' :: ss =>
        have many : 2 ≤ (s :: s' :: ss).length := by simp
        rw [sources, visitAny_of_many many] at visit
        exact ⟨[m], m, .single _ m, nofun, visit ▸ .several own fresh sources many⟩
      | [s] =>
        rw [sources, visitAny] at visit
        by_cases again : (t.view name).own s = none ∧ s ∈ m :: passed
        · rw [visit_of_mem again.1 again.2] at visit
          refine ⟨[m], m, .single _ m, nofun, visit ▸ .again own fresh sources again.1 ?_⟩
          rw [List.mem_singleton, or_comm]
          exact List.mem_cons.1 again.2
        -- Behind a module with imports fewer are left.
        obtain ⟨bound, hb⟩ : ∃ bound, t.bindings m name = some bound := by
          rw [← Option.ne_none_iff_exists']
          intro none
          simp [view, none] at sources
        have fewer := length_unvisited_cons_lt fresh hb
        obtain ⟨chain, last, h, apart, ends⟩ :=
          ih _ (hn ▸ fewer) (fun undefined old => again ⟨undefined, old⟩) rfl
        have new : m ∉ chain := by
          intro mem
          rcases h.mem_iff.1 mem with mem | rfl
          · exact apart m mem (List.mem_cons_self ..)
          · obtain ⟨a, defined⟩ := ends.exists_own (List.mem_cons_self ..)
            cases own.symm.trans defined
        refine ⟨m :: chain, last, h.cons own sources new, ?_, visit ▸ ends.of_cons⟩
        rw [List.dropLast_cons_of_ne_nil h.ne_nil, List.forall_mem_cons]
        exact ⟨fresh, fun x hx old => apart x hx (List.mem_cons_of_mem m old)⟩

/-- What a visit finds is what some chain ends with. -/
theorem visit_eq_iff (new : (t.view name).own m = none → m ∉ passed) :
    t.visit name passed m = o ↔ ∃ chain last, (t.view name).Chain chain m last ∧
      (∀ x ∈ chain.dropLast, x ∉ passed) ∧ (t.view name).Ends passed chain last o := by
  constructor
  · rintro rfl
    exact exists_ends new
  · rintro ⟨chain, last, h, apart, ends⟩
    exact ends.visit_eq h apart

/-- A module to which a single source leads back has nothing to add unless it defines the name. -/
lemma visit_source_eq_iff : t.visit name [m] s = o ↔
    (s = m ∧ (t.view name).own m = none ∧ o = .notFound) ∨
      ∃ chain last, (t.view name).Chain chain s last ∧ m ∉ chain.dropLast ∧
        (t.view name).Ends [m] chain last o := by
  have apart : ∀ chain : List ModuleId,
      (∀ x ∈ chain.dropLast, x ∉ [m]) ↔ m ∉ chain.dropLast := by
    intro chain
    simp only [List.mem_singleton]
    exact ⟨fun h mem => h m mem rfl, fun h x hx e => h (e ▸ hx)⟩
  simp only [← apart]
  by_cases back : s = m ∧ (t.view name).own m = none
  · obtain ⟨rfl, undefined⟩ := back
    rw [visit_of_mem undefined (List.mem_singleton_self s)]
    refine ⟨fun e => .inl ⟨rfl, undefined, e.symm⟩, ?_⟩
    rintro (⟨-, -, rfl⟩ | ⟨chain, last, h, new, ends⟩)
    · rfl
    · rw [← ends.visit_eq h new, visit_of_mem undefined (List.mem_singleton_self s)]
  · rw [visit_eq_iff fun undefined mem => ?_]
    · refine ⟨.inr, Or.rec (fun ⟨e, undefined, _⟩ => absurd ⟨e, undefined⟩ back) id⟩
    · obtain rfl := List.mem_singleton.1 mem
      exact back ⟨rfl, undefined⟩

end NameView

/-! ## Look-ups -/

/-- The module that a call imports a name into. -/
def ScopeCall.importer? : ScopeCall → Option ModuleId
  | bindImport m _ _ => some m
  | registerModule .. | define .. => none

/-- What looking up a name comes to in the table that some calls fill, said of the chains along
which the name is passed on. -/
structure LookupsFollow (t : Scope) (name : String) (v : NameView) : Prop where
  found : ∀ m a, t.resolve m name = .found a ↔
    ∃ chain last, v.Chain chain m last ∧ v.own last = some a
  ambiguous : ∀ m ss, t.resolve m name = .ambiguous ss ↔
    ∃ chain last, v.Chain chain m last ∧ v.own last = none ∧ v.sources last = ss ∧ 2 ≤ ss.length
  /-- The last module of the chain has no source, or one that is in the chain. -/
  notFound : ∀ m, t.resolve m name = .notFound ↔
    ∃ chain last, v.Chain chain m last ∧ v.own last = none ∧
      (v.sources last = [] ∨ ∃ s ∈ chain, v.sources last = [s])
  /-- The chain may end by coming back to the module whose imports are looked through. -/
  importedFound : ∀ m hint a, t.lookupImported m name hint = .found a ↔
    ∃ s chain last, v.hinted m hint = [s] ∧ v.Chain chain s last ∧ m ∉ chain.dropLast ∧
      v.own last = some a
  importedAmbiguous : ∀ m hint ss, t.lookupImported m name hint = .ambiguous ss ↔
    2 ≤ ss.length ∧ (v.hinted m hint = ss ∨
      ∃ s chain last, v.hinted m hint = [s] ∧ v.Chain chain s last ∧ m ∉ chain ∧
        v.own last = none ∧ v.sources last = ss)
  importedNotFound : ∀ m hint, t.lookupImported m name hint = .notFound ↔
    v.hinted m hint = [] ∨ (v.hinted m hint = [m] ∧ v.own m = none) ∨
      ∃ s chain last, v.hinted m hint = [s] ∧ v.Chain chain s last ∧ m ∉ chain ∧
        v.own last = none ∧
        (v.sources last = [] ∨ ∃ u ∈ m :: chain, v.own u = none ∧ v.sources last = [u])

namespace NameView

variable {t : Scope} {name : String} {chain : List ModuleId} {m s last : ModuleId}

/-- No module of a chain that ends without a definition defines the name. -/
lemma Chain.own_eq_none {v : NameView} (h : v.Chain chain m last) (undefined : v.own last = none)
    (hs : s ∈ chain) : v.own s = none := by
  rcases h.mem_iff.1 hs with hs | rfl
  · exact (h.exists_source s hs).1
  · exact undefined

/-- The modules of a chain but the last are modules that a name is imported into. -/
lemma Chain.length_le {calls : List ScopeCall} (h : (ofCalls calls name).Chain chain m last) :
    chain.length ≤ (calls.filterMap ScopeCall.importer?).length + 1 := by
  have sub : chain.dropLast ⊆ calls.filterMap ScopeCall.importer? := by
    intro x hx
    obtain ⟨-, s, sources⟩ := h.exists_source x hx
    have bound : some s ∈ calls.filterMap (·.binds? x name) := by
      refine (firstsBy_sublist id [] _).subset ?_
      have mem : s ∈ (ofCalls calls name).sources x := sources ▸ List.mem_singleton_self s
      simpa [ofCalls] using mem
    obtain ⟨c, hc, binds⟩ := List.mem_filterMap.1 bound
    refine List.mem_filterMap.2 ⟨c, hc, ?_⟩
    cases c with
    | registerModule | define => cases binds
    | bindImport m' name' source =>
      simp only [ScopeCall.binds?, Option.ite_none_right_eq_some, Prod.mk.injEq] at binds
      exact congrArg some binds.1.1
  have distinct : chain.dropLast.Nodup := h.distinct.sublist (List.dropLast_sublist chain)
  have le := (List.subperm_of_subset distinct sub).length_le
  rw [List.length_dropLast] at le
  omega

variable {v : NameView} {passed : List ModuleId}

/-- A chain ends with a find where the last module defines the name. -/
lemma ends_found_iff {a : AssignmentId} :
    v.Ends passed chain last (.found a) ↔ v.own last = some a := by
  constructor
  · rintro ⟨defined⟩
    exact defined
  · exact .own

/-- A chain ends ambiguously where the last module is new and has the name from several others. -/
lemma ends_ambiguous_iff {ss : List ModuleId} : v.Ends passed chain last (.ambiguous ss) ↔
    v.own last = none ∧ last ∉ passed ∧ v.sources last = ss ∧ 2 ≤ ss.length := by
  constructor
  · rintro (_ | _ | _ | ⟨undefined, new, sources, many⟩)
    exact ⟨undefined, new, sources, many⟩
  · rintro ⟨undefined, new, sources, many⟩
    exact .several undefined new sources many

/-- A chain ends in vain where the last module has the name from nowhere, or from a module that was
passed already. -/
lemma ends_notFound_iff : v.Ends passed chain last .notFound ↔
    v.own last = none ∧ last ∉ passed ∧ (v.sources last = [] ∨
      ∃ s, v.sources last = [s] ∧ v.own s = none ∧ (s ∈ passed ∨ s ∈ chain)) := by
  constructor
  · rintro (_ | ⟨undefined, new, none⟩ | ⟨undefined, new, one, undefined', old⟩ | _)
    · exact ⟨undefined, new, .inl none⟩
    · exact ⟨undefined, new, .inr ⟨_, one, undefined', old⟩⟩
  · rintro ⟨undefined, new, none | ⟨s, one, undefined', old⟩⟩
    · exact .missing undefined new none
    · exact .again undefined new one undefined' old

/-- A visit to one of some modules finds nothing without a module to visit, finds what a visit to
a single one finds, and is ambiguous with more. -/
lemma visitAny_eq_iff {ss : List ModuleId} {o : Lookup} : t.visitAny name passed ss = o ↔
    (ss = [] ∧ o = .notFound) ∨ (∃ s, ss = [s] ∧ t.visit name passed s = o) ∨
      (2 ≤ ss.length ∧ o = .ambiguous ss) := by
  match ss with
  | [] => simp [visitAny, eq_comm]
  | [s] => simp [visitAny]
  | s :: s' :: ss => simp [visitAny, eq_comm]

/-- A module is not in a chain if it does not come before the last and is not the last. -/
lemma Chain.notMem (h : v.Chain chain s last) (before : m ∉ chain.dropLast) (new : last ∉ [m]) :
    m ∉ chain := by
  rw [h.mem_iff]
  rintro (mem | rfl)
  · exact before mem
  · exact new (List.mem_singleton_self m)

/-- A module that is not in a chain neither comes before the last nor is the last. -/
lemma Chain.apart (h : v.Chain chain s last) (new : m ∉ chain) :
    m ∉ chain.dropLast ∧ last ∉ [m] := by
  refine ⟨fun mem => new (List.dropLast_subset chain mem), fun mem => new ?_⟩
  rw [← List.mem_singleton.1 mem]
  exact List.mem_of_getLast? h.last

/-- A look-up follows the chain from its module, where nothing has been passed before. -/
lemma resolve_eq_iff {o : Lookup} : t.resolve m name = o ↔ ∃ chain last,
    (t.view name).Chain chain m last ∧ (t.view name).Ends [] chain last o := by
  rw [resolve_eq_visit, visit_eq_iff fun _ => List.not_mem_nil]
  simp only [List.not_mem_nil, not_false_eq_true, implies_true, true_and]

/-- A look-up among imports finds nothing without a source and nothing where the only source is the
module itself, which does not define the name. It follows the chain from a single other source, and
is ambiguous with more. -/
lemma lookupImported_eq_iff {hint : Option ModuleId} {o : Lookup} :
    t.lookupImported m name hint = o ↔
      ((t.view name).hinted m hint = [] ∧ o = .notFound) ∨
      ((t.view name).hinted m hint = [m] ∧ (t.view name).own m = none ∧ o = .notFound) ∨
      (∃ s chain last, (t.view name).hinted m hint = [s] ∧ (t.view name).Chain chain s last ∧
        m ∉ chain.dropLast ∧ (t.view name).Ends [m] chain last o) ∨
      (2 ≤ ((t.view name).hinted m hint).length ∧
        o = .ambiguous ((t.view name).hinted m hint)) := by
  rw [lookupImported_eq_visitAny, visitAny_eq_iff]
  constructor
  · rintro (none | ⟨s, one, visit⟩ | many)
    · exact .inl none
    · obtain ⟨rfl, undefined, e⟩ | ⟨chain, last, h, before, ends⟩ := visit_source_eq_iff.1 visit
      · exact .inr (.inl ⟨one, undefined, e⟩)
      · exact .inr (.inr (.inl ⟨s, chain, last, one, h, before, ends⟩))
    · exact .inr (.inr (.inr many))
  · rintro (none | ⟨one, undefined, e⟩ | ⟨s, chain, last, one, h, before, ends⟩ | many)
    · exact .inl none
    · exact .inr (.inl ⟨m, one, visit_source_eq_iff.2 (.inl ⟨rfl, undefined, e⟩)⟩)
    · exact .inr (.inl ⟨s, one, visit_source_eq_iff.2 (.inr ⟨chain, last, h, before, ends⟩)⟩)
    · exact .inr (.inr many)

/-- A look-up follows the chains in the table. -/
lemma lookupsFollow_view (t : Scope) (name : String) : LookupsFollow t name (t.view name) := by
  constructor
  case found =>
    intro m a
    simp only [resolve_eq_iff, ends_found_iff]
  case ambiguous =>
    intro m ss
    simp only [resolve_eq_iff, ends_ambiguous_iff, List.not_mem_nil, not_false_eq_true, true_and]
  case notFound =>
    intro m
    simp only [resolve_eq_iff, ends_notFound_iff, List.not_mem_nil, not_false_eq_true, true_and,
      false_or]
    constructor
    · rintro ⟨chain, last, h, undefined, none | ⟨s, one, -, old⟩⟩
      · exact ⟨chain, last, h, undefined, .inl none⟩
      · exact ⟨chain, last, h, undefined, .inr ⟨s, old, one⟩⟩
    · rintro ⟨chain, last, h, undefined, none | ⟨s, old, one⟩⟩
      · exact ⟨chain, last, h, undefined, .inl none⟩
      · exact ⟨chain, last, h, undefined, .inr ⟨s, one, h.own_eq_none undefined old, old⟩⟩
  case importedFound =>
    intro m hint a
    rw [lookupImported_eq_iff]
    constructor
    · rintro (⟨-, ⟨⟩⟩ | ⟨-, -, ⟨⟩⟩ | ⟨s, chain, last, one, h, before, ends⟩ | ⟨-, ⟨⟩⟩)
      exact ⟨s, chain, last, one, h, before, ends_found_iff.1 ends⟩
    · rintro ⟨s, chain, last, one, h, before, defined⟩
      exact .inr (.inr (.inl ⟨s, chain, last, one, h, before, .own defined⟩))
  case importedAmbiguous =>
    intro m hint ss
    rw [lookupImported_eq_iff]
    constructor
    · rintro (⟨-, ⟨⟩⟩ | ⟨-, -, ⟨⟩⟩ | ⟨s, chain, last, one, h, before, ends⟩ | ⟨many, ⟨⟩⟩)
      · obtain ⟨undefined, new, sources, many⟩ := ends_ambiguous_iff.1 ends
        exact ⟨many, .inr ⟨s, chain, last, one, h, h.notMem before new, undefined, sources⟩⟩
      · exact ⟨many, .inl rfl⟩
    · rintro ⟨many, rfl | ⟨s, chain, last, one, h, new, undefined, sources⟩⟩
      · exact .inr (.inr (.inr ⟨many, rfl⟩))
      · obtain ⟨before, new⟩ := h.apart new
        refine .inr (.inr (.inl ⟨s, chain, last, one, h, before, ?_⟩))
        exact .several undefined new sources many
  case importedNotFound =>
    intro m hint
    rw [lookupImported_eq_iff]
    -- Coming back to the chain or to the module that asked is one case in what is stated.
    constructor
    · rintro (⟨none, -⟩ | ⟨one, undefined, -⟩ | ⟨s, chain, last, one, h, before, ends⟩ | ⟨-, ⟨⟩⟩)
      · exact .inl none
      · exact .inr (.inl ⟨one, undefined⟩)
      · obtain ⟨undefined, new, sources⟩ := ends_notFound_iff.1 ends
        refine .inr (.inr ⟨s, chain, last, one, h, h.notMem before new, undefined, ?_⟩)
        refine sources.imp_right ?_
        rintro ⟨u, one', undefined', old⟩
        rw [List.mem_singleton, ← List.mem_cons] at old
        exact ⟨u, old, undefined', one'⟩
    · rintro (none | ⟨one, undefined⟩ | ⟨s, chain, last, one, h, new, undefined, sources⟩)
      · exact .inl ⟨none, rfl⟩
      · exact .inr (.inl ⟨one, undefined, rfl⟩)
      · obtain ⟨before, new⟩ := h.apart new
        refine .inr (.inr (.inl ⟨s, chain, last, one, h, before, ?_⟩))
        refine ends_notFound_iff.2 ⟨undefined, new, sources.imp_right ?_⟩
        rintro ⟨u, old, undefined', one'⟩
        rw [List.mem_cons, ← List.mem_singleton] at old
        exact ⟨u, one', undefined', old⟩

end NameView

/-- A look-up in the table that some calls fill follows the chains that the calls make, and so does
one among the imports of a module, which may come back to that module. A chain has at most one
module more than there are imports, so no look-up goes on for ever. -/
theorem Scope.lookupsFollow_after (calls : List ScopeCall) (name : String) :
    LookupsFollow (after calls) name (.ofCalls calls name) ∧
      ∀ chain m last, (NameView.ofCalls calls name).Chain chain m last →
        chain.length ≤ (calls.filterMap ScopeCall.importer?).length + 1 := by
  refine ⟨?_, fun chain m last h => h.length_le⟩
  rw [← view_after]
  exact NameView.lookupsFollow_view (after calls) name

end MibCorpus
