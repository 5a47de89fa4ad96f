import MibCorpus.Proofs.Mirror
import MibCorpus.Proofs.Run

/-!
# What is decided about assignments

Of an assignment that is renamed, the module, the kind, the type, the OID and the state count. Steps
that change assignments alike keep these the same up to the renaming.
-/

namespace MibCorpus

/-- What is decided about an assignment. -/
structure AssignmentView where
  module : ModuleId
  kind : AssignmentKind
  type : Option TypeId
  oid : Option Oid
  state : ResolutionState

/-- What is decided about an assignment. -/
def Assignment.view (a : Assignment) : AssignmentView :=
  ⟨a.module, a.kind, a.type, a.oid, a.state⟩

/-- The type that an assignment defines. -/
def AssignmentView.target? (v : AssignmentView) : Option Draft.TypeTarget :=
  if v.kind.isType then v.type.map (⟨·, v.module⟩) else none

namespace Renaming

/-- A target, renamed. -/
def target (σ : Renaming) (τ : TypeId → TypeId) (x : Draft.TypeTarget) : Draft.TypeTarget :=
  ⟨τ x.node, σ.module x.module⟩

/-- What is decided about an assignment, renamed. -/
def view (σ : Renaming) (τ : TypeId → TypeId) (v : AssignmentView) : AssignmentView :=
  { v with module := σ.module v.module, type := v.type.map τ }

/-- Renaming a look-up renames the entry that is found. -/
lemma found?_lookup (σ : Renaming) (l : Lookup) :
    (σ.lookup l).found? = l.found?.map σ.assignment := by
  cases l <;> rfl

/-- Renaming a view renames its target. -/
lemma target?_view (σ : Renaming) (τ : TypeId → TypeId) (v : AssignmentView) :
    (σ.view τ v).target? = v.target?.map (σ.target τ) := by
  by_cases hk : v.kind.isType <;> simp [AssignmentView.target?, view, target, hk, Function.comp_def]

end Renaming

/-- Renaming takes what is decided about the assignments of the first model to what is decided about
those of the second. -/
def Mib.AssignmentsMirror (σ : Renaming) (τ : TypeId → TypeId) (mib mib' : Mib) : Prop :=
  ∀ i, (mib'.assignment? (σ.assignment i)).map Assignment.view =
    (mib.assignment? i).map fun a => σ.view τ a.view

/-- Changing assignments alike keeps what is decided about them alike. -/
lemma view_map {σ : Renaming} {τ : TypeId → TypeId} {x x' : Option Assignment}
    (h : x'.map Assignment.view = x.map fun a => σ.view τ a.view) {f g : Assignment → Assignment}
    (alike : ∀ a a', x = some a → a'.view = σ.view τ a.view → (g a').view = σ.view τ (f a).view) :
    (x'.map g).map Assignment.view = (x.map f).map fun a => σ.view τ a.view := by
  cases x with
  | none =>
    rw [Option.map_none, Option.map_eq_none_iff] at h
    rw [h]
    rfl
  | some a =>
    obtain ⟨a', rfl, view⟩ := Option.map_eq_some_iff.1 h
    exact congrArg some (alike a a' rfl view)

namespace Draft

variable {σ : Renaming} {τ : TypeId → TypeId} {d : Draft}

/-- What is decided about a definition when it has been lowered. -/
lemma Untyped.view_lowered (h : d.Untyped) {i : AssignmentId} {m : ModuleId} {x : Definition}
    (hx : d.owner? i = some (m, x)) (kept : d.isRefused i = false) :
    (d.lowered.mib.assignment? i).map Assignment.view =
      some ⟨m, x.kind, d.syntaxType? i, none, .pending⟩ := by
  obtain ⟨a, ha, module, kind⟩ := h.definitions.exists_assignment hx
  obtain ⟨-, oid, state⟩ := h.fresh.undecided i a ha
  rw [assignment?_lowered h.definitions h.fresh h.bare, ha]
  simp [Assignment.view, module, kind, oid, state, kept]

/-- The type state of an assignment is the state of its type, or unresolved without one. -/
lemma typeState_eq (mib : Mib) (a : Assignment) :
    typeState mib a = ((a.type.bind mib.type?).map (·.state)).getD .unresolved := by
  unfold typeState
  cases a.type.bind mib.type? <;> rfl

/-- Mirrored assignments stay so if the pending types among them get one state. -/
lemma view_settle {a a' : Assignment} (view : a'.view = σ.view τ a.view) (s : ResolutionState) :
    (if a'.kind.isType && a'.state == .pending then { a' with state := s } else a').view =
      σ.view τ
        (if a.kind.isType && a.state == .pending then { a with state := s } else a).view := by
  have pending : (a'.kind.isType && a'.state == .pending) =
      (a.kind.isType && a.state == .pending) := by
    rw [show a'.kind = a.kind from congrArg AssignmentView.kind view,
      show a'.state = a.state from congrArg AssignmentView.state view]
  rw [pending]
  split
  · exact congrArg (fun v => { v with state := s }) view
  · exact view

end Draft

end MibCorpus
