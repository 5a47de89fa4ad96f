import MibCorpus.Proofs.PhaseChanges

/-!
# Numbered entries

An entry carries the identifier of its own position, because entries are only ever added at the end
of their arena and keep the identifier that they got there.
-/

namespace MibCorpus

/-- Every entry carries the identifier of its position. -/
def Numbers {a : Arena} {α : Type} (id : α → Ident a) (as : Array α) : Prop :=
  ∀ (i : Nat) (x : α), as[i]? = some x → id x = ⟨i⟩

section Numbers

variable {a : Arena} {α : Type} {id : α → Ident a} {as bs : Array α}

/-- The empty array is numbered. -/
lemma numbers_empty : Numbers id #[] := by
  intro i x hx
  simp at hx

/-- Pushing an element with the next number keeps the array numbered. -/
lemma Numbers.push (h : Numbers id as) {x : α} (hx : id x = ⟨as.size⟩) :
    Numbers id (as.push x) := by
  intro i y hy
  rw [Array.getElem?_push] at hy
  split at hy
  next last =>
    cases hy
    rw [hx, last]
  next => exact h i y hy

/-- Only the identifiers of the entries matter. -/
lemma Numbers.of_map (h : Numbers id as) (same : bs.map id = as.map id) : Numbers id bs := by
  intro i y hy
  have at_i := congrArg (·[i]?) same
  simp only [Array.getElem?_map, hy, Option.map_some] at at_i
  obtain ⟨x, hx, e⟩ := Option.map_eq_some_iff.1 at_i.symm
  rw [← e, h i x hx]

/-- Changing an element without its number keeps the array numbered. -/
lemma Numbers.modify (h : Numbers id as) (i : Nat) {f : α → α} (kept : ∀ x, id (f x) = id x) :
    Numbers id (as.modify i f) :=
  h.of_map (map_modify_of_keeps as i kept)

/-- Numbers are part of the headings, so arrays of equal headings are numbered alike. -/
lemma Numbers.of_heading (h : Numbers id as) (heading : α → α) (kept : ∀ x, id (heading x) = id x)
    (same : bs.map heading = as.map heading) : Numbers id bs := by
  apply h.of_map
  have e := congrArg (Array.map id) same
  simpa [Function.comp_def, kept] using e

end Numbers

/-- Every entry of a model carries the identifier of its position. -/
structure Mib.Numbered (mib : Mib) : Prop where
  files : Numbers FileEntry.id mib.files
  modules : Numbers ModuleEntry.id mib.modules
  assignments : Numbers Assignment.id mib.assignments
  types : Numbers TypeNode.id mib.types
  nodes : Numbers OidNode.id mib.nodes

namespace Mib

variable {mib mib' : Mib}

/-- The empty model is numbered. -/
lemma numbered_empty : Mib.empty.Numbered :=
  ⟨numbers_empty, numbers_empty, numbers_empty, numbers_empty, numbers_empty⟩

/-- An edit keeps the model numbered. -/
lemma Edit.numbered (e : mib.Edit mib') (h : mib.Numbered) : mib'.Numbered := by
  cases e with
  | addFile path => exact { h with files := h.files.push rfl }
  | addImport m e => exact { h with modules := h.modules.modify m.index fun _ => rfl }
  | addType m shape =>
    exact { h with modules := h.modules.modify m.index fun _ => rfl, types := h.types.push rfl }
  | @addNode arc parent =>
    have nodes := h.nodes.push (x := .unnamed ⟨mib.nodes.size⟩ arc parent) rfl
    cases parent with
    | none => exact { h with nodes := nodes }
    | some p => exact { h with nodes := nodes.modify p.index fun _ => rfl }
  | claim n definition shadowed held =>
    exact { h with nodes := h.nodes.modify n.index fun _ => rfl }
  | reassign as kept =>
    exact { h with assignments := h.assignments.of_heading Assignment.heading (fun _ => rfl) kept }
  | retype ts kept =>
    have ids := congrArg (Array.map Prod.fst) kept
    simp only [Array.map_map, Function.comp_def] at ids
    exact { h with types := h.types.of_map ids }
  | _ => exact { h with }

end Mib

namespace Draft

variable {d d' : Draft}

/-- A step keeps the model of the draft numbered. -/
lemma Step.numbered (s : d.Step d') (h : d.mib.Numbered) : d'.mib.Numbered := by
  cases s with
  | edit e => exact e.numbered h
  | announce => exact { h with modules := h.modules.push rfl }
  | define m o x last =>
    cases free : d.scope.lookup? m.id x.name with
    | none =>
      rw [registerDefinition_free d m o x free]
      exact { h with
        assignments := h.assignments.push rfl
        modules := h.modules.modify m.id.index fun _ => rfl }
    | some existing =>
      rw [registerDefinition_taken d m o x free]
      exact { h with assignments := h.assignments.push rfl }
  | _ => exact h

/-- After any calls of phases every entry carries the identifier of its position. -/
theorem numbered_after (policy : Policy) (calls : List PhaseCall) (r : Recorder) :
    ((Draft.new policy).after calls r).mib.Numbered :=
  after_induction policy Mib.numbered_empty (fun _ h s => s.numbered h) calls r

end Draft

end MibCorpus
