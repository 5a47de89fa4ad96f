import MibCorpus.Proofs.Admission
import MibCorpus.Proofs.Renaming
import Mathlib.Data.List.Perm.Basic

/-!
# Rearranged corpora

The files of a corpus, the modules of a file and the definitions of a module may come in another
order. If all names are distinct, registration then lists the same modules in another order, each
with its definitions in another order, and has the same findings.
-/

namespace MibCorpus

/-- Module `n` is module `m` with its definitions in another order. -/
structure Module.Rearranged (m n : Module) : Prop where
  name : n.name = m.name
  imports : n.imports = m.imports
  span : n.span = m.span
  definitions : n.definitions.Perm m.definitions

/-- The same modules in another order, each with its definitions in another order. -/
def ModulesRearranged (ms ns : List Module) : Prop :=
  ∃ ks, List.Forall₂ Module.Rearranged ms ks ∧ ks.Perm ns

/-- File `g` is file `f` with its modules rearranged. -/
inductive ParsedFile.Rearranged : ParsedFile → ParsedFile → Prop where
  | ok {path : String} {ms ns : List Module} (h : ModulesRearranged ms ns) :
    ParsedFile.Rearranged ⟨path, .ok ms⟩ ⟨path, .ok ns⟩
  | error {path : String} {failure : ParseFailure} :
    ParsedFile.Rearranged ⟨path, .error failure⟩ ⟨path, .error failure⟩

/-- The same files in another order, each with its modules rearranged. -/
def CorpusRearranged (fs gs : List ParsedFile) : Prop :=
  ∃ ks, List.Forall₂ ParsedFile.Rearranged fs ks ∧ ks.Perm gs

/-- A module is a rearrangement of itself. -/
lemma Module.Rearranged.refl (m : Module) : m.Rearranged m := ⟨rfl, rfl, rfl, .refl _⟩

namespace ModulesRearranged

variable {ms ns ms' ns' : List Module}

/-- A list of modules is a rearrangement of itself. -/
lemma refl (ms : List Module) : ModulesRearranged ms ms :=
  ⟨ms, List.forall₂_same.2 fun m _ => .refl m, .refl _⟩

/-- Rearranged lists can be joined. -/
lemma append (h : ModulesRearranged ms ns) (h' : ModulesRearranged ms' ns') :
    ModulesRearranged (ms ++ ms') (ns ++ ns') := by
  obtain ⟨ks, hks, p⟩ := h
  obtain ⟨ks', hks', p'⟩ := h'
  exact ⟨ks ++ ks', List.rel_append hks hks', p.append p'⟩

/-- Rearranged lists can be permuted. -/
lemma perm (h : ModulesRearranged ms ns) (p : ms.Perm ms') (q : ns.Perm ns') :
    ModulesRearranged ms' ns' := by
  obtain ⟨ks, hks, r⟩ := h
  obtain ⟨ks', hks', r'⟩ := List.perm_comp_forall₂ p.symm hks
  exact ⟨ks', hks', (r'.trans r).trans q⟩

/-- Rearranged modules have the same names and imports. -/
lemma headings (h : ModulesRearranged ms ns) :
    (ns.map fun m => (m.name, m.imports)).Perm (ms.map fun m => (m.name, m.imports)) := by
  obtain ⟨ks, hks, p⟩ := h
  have same : ks.map (fun m => (m.name, m.imports)) = ms.map fun m => (m.name, m.imports) := by
    clear p
    induction hks with
    | nil => rfl
    | cons hm _ ih => simp [hm.name, hm.imports, ih]
  rw [← same]
  exact (p.map _).symm

/-- Rearranging keeps names distinct. -/
lemma distinctNames (h : ModulesRearranged ms ns) (distinct : DistinctNames ms) :
    DistinctNames ns where
  modules := by
    have names := (h.headings.map Prod.fst).nodup_iff
    simp only [List.map_map, Function.comp_def] at names
    exact names.2 distinct.modules
  definitions n hn := by
    obtain ⟨ks, hks, p⟩ := h
    obtain ⟨i, hi, rfl⟩ := List.getElem_of_mem (p.mem_iff.2 hn)
    have all := List.forall₂_iff_get.1 hks
    have lt : i < ms.length := all.1 ▸ hi
    have r := all.2 i lt hi
    exact (r.definitions.map _).nodup_iff.2 (distinct.definitions _ (List.getElem_mem lt))

/-- Which base modules are lacking depends on the names and imports of the modules. -/
lemma lackedBy_congr (h : (ns.map fun m => (m.name, m.imports)).Perm
    (ms.map fun m => (m.name, m.imports))) (b : BaseModule) :
    Draft.lackedBy ns b = Draft.lackedBy ms b := by
  have imports := (h.map Prod.snd).any_eq (f := fun is => is.any (·.source == b.name))
  have names := (h.map Prod.fst).contains_eq (a := b.name)
  simp only [List.map_map, Function.comp_def, List.any_map] at imports names
  rw [Draft.lackedBy, Draft.lackedBy, names]
  exact congrArg (· && _) imports

/-- The same base modules are generated for modules of the same names and imports. -/
lemma generated_congr (candidates : List BaseModule)
    (h : (ns.map fun m => (m.name, m.imports)).Perm (ms.map fun m => (m.name, m.imports))) :
    Draft.generated ns candidates = Draft.generated ms candidates := by
  fun_induction Draft.generated ms candidates generalizing ns with
  | case1 ms candidates lt ih =>
    have same : Draft.lackedBy ns = Draft.lackedBy ms := funext (lackedBy_congr h)
    have lacked : Draft.lacked ns candidates = Draft.lacked ms candidates := by
      rw [Draft.lacked, same, Draft.lacked]
    have notLacked : Draft.notLacked ns candidates = Draft.notLacked ms candidates := by
      rw [Draft.notLacked, same, Draft.notLacked]
    have longer := h.append_right
      (((Draft.lacked ms candidates).map (·.source)).map fun m => (m.name, m.imports))
    rw [← List.map_append, ← List.map_append] at longer
    have rest := ih longer
    rw [Draft.generated, notLacked, if_pos lt, lacked, rest]
  | case2 ms candidates lt =>
    have same : Draft.lackedBy ns = Draft.lackedBy ms := funext (lackedBy_congr h)
    have notLacked : Draft.notLacked ns candidates = Draft.notLacked ms candidates := by
      rw [Draft.notLacked, same, Draft.notLacked]
    rw [Draft.generated, notLacked, if_neg lt]

/-- Rearranged modules are completed to rearranged modules. -/
lemma completed (h : ModulesRearranged ms ns) (policy : Policy) :
    ModulesRearranged (Draft.completed policy ms) (Draft.completed policy ns) := by
  unfold Draft.completed
  split
  · rw [generated_congr _ h.headings]
    exact h.append (.refl _)
  · exact h

end ModulesRearranged

namespace CorpusRearranged

variable {fs gs : List ParsedFile}

/-- Rearranged corpora have rearranged modules. -/
lemma modules (h : CorpusRearranged fs gs) :
    ModulesRearranged (fs.flatMap (·.modules)) (gs.flatMap (·.modules)) := by
  obtain ⟨ks, hks, p⟩ := h
  have files : ModulesRearranged (fs.flatMap (·.modules)) (ks.flatMap (·.modules)) := by
    clear p
    induction hks with
    | nil => exact .refl []
    | cons hf _ ih =>
      rw [List.flatMap_cons, List.flatMap_cons]
      cases hf with
      | ok hm => exact hm.append ih
      | error => exact (ModulesRearranged.refl []).append ih
  exact files.perm (.refl _) (p.flatMap_right _)

/-- Rearranged corpora have the same files that could not be parsed. -/
lemma findings (h : CorpusRearranged fs gs) :
    (gs.filterMap (·.finding?)).Perm (fs.filterMap (·.finding?)) := by
  obtain ⟨ks, hks, p⟩ := h
  have same : ks.filterMap (·.finding?) = fs.filterMap (·.finding?) := by
    clear p
    induction hks with
    | nil => rfl
    | cons hf _ ih =>
      rw [List.filterMap_cons, List.filterMap_cons, ih]
      cases hf <;> rfl
  rw [← same]
  exact (p.filterMap _).symm

end CorpusRearranged

/-- What registration makes of rearranged corpora of distinct names. -/
structure RegisteredApart (d d' : Draft) : Prop where
  registered : d.Registered
  registered' : d'.Registered
  policy : d'.policy = d.policy
  distinct : DistinctNames d.sources
  sources : ModulesRearranged d.sources d'.sources
  contents : d'.contents.Perm d.contents

/-- Rearranged corpora of distinct names are registered alike. -/
theorem registeredApart_register (policy : Policy) {fs gs : List ParsedFile}
    (h : CorpusRearranged fs gs) (distinct : DistinctNames (fs.flatMap (·.modules)))
    (r r' : Recorder) :
    RegisteredApart ((Draft.new policy).register fs r).1 ((Draft.new policy).register gs r').1 := by
  have distinct' := h.modules.distinctNames distinct
  have accounts := Draft.accounts_register policy fs r
  have accounts' := Draft.accounts_register policy gs r'
  refine ⟨accounts.registered, accounts'.registered,
    accounts'.same_policy.trans accounts.same_policy.symm, ?_, ?_, ?_⟩
  · rw [accounts.sources]
    exact Draft.distinctNames_registeredSources policy distinct
  · rw [accounts.sources, accounts'.sources, Draft.registeredSources_of_distinct policy distinct,
      Draft.registeredSources_of_distinct policy distinct']
    exact (h.modules.perm (Draft.perm_offered fs).symm (Draft.perm_offered gs).symm).completed
      policy
  · rw [Draft.contents_register policy distinct, Draft.contents_register policy distinct']
    exact h.findings.map _

end MibCorpus
