import MibCorpus.Model.Query
import MibCorpus.Proofs.RangeChecks
import Mathlib.Data.List.Basic

/-!
# Nodes that render a SYNTAX

A node renders a SYNTAX if its shape is what the topmost constructor says and its parts render what
that is applied to. Binding gives a reference its target and nothing else, so the targets are left
out of what is rendered. A constraint is put on the node of the SYNTAX that it stands behind, which
it shares with the constraints before and behind it: a node keeps what the last of them leaves.
-/

namespace MibCorpus

/-! ## Nodes as written -/

/-- The shape without what a reference is bound to. -/
def TypeShape.asWritten : TypeShape → TypeShape
  | reference symbol qualifier _ _ => reference symbol qualifier none none
  | s => s

namespace Mib

/-- The shape of a node without what it is bound to. -/
def writtenShape? (mib : Mib) (t : TypeId) : Option TypeShape :=
  (mib.type? t).map (·.shape.asWritten)

/-- The constraint on a node. -/
def constraint? (mib : Mib) (t : TypeId) : Option Constraint :=
  (mib.type? t).bind (·.constraint)

end Mib

/-! ## What is written -/

namespace TypeSyntax

/-- What the check leaves of the constraint behind a SYNTAX. -/
def kept? : TypeSyntax → Option Constraint
  | constrained _ c => c.kept?
  | _ => none

mutual

/-- The constraints in a SYNTAX, a constraint behind those that it stands behind. -/
def constraints : TypeSyntax → List WrittenConstraint
  | constrained base c => base.constraints ++ [c]
  | sequence fields | choice fields => fieldConstraints fields
  | sequenceOf element => element.constraints
  | named _ | qualified .. | integer | octetString | objectIdentifier | enumeration _ | bits _ => []

/-- The constraints in some fields. -/
def fieldConstraints : List (String × TypeSyntax) → List WrittenConstraint
  | [] => []
  | (_, body) :: rest => body.constraints ++ fieldConstraints rest

end

mutual

/-- The names of types in a SYNTAX, each behind the module in front of it. -/
def references : TypeSyntax → List (Option String × String)
  | named name => [(none, name)]
  | qualified module name => [(some module, name)]
  | constrained base _ => base.references
  | sequence fields | choice fields => fieldReferences fields
  | sequenceOf element => element.references
  | integer | octetString | objectIdentifier | enumeration _ | bits _ => []

/-- The names of types in some fields. -/
def fieldReferences : List (String × TypeSyntax) → List (Option String × String)
  | [] => []
  | (_, body) :: rest => body.references ++ fieldReferences rest

end

end TypeSyntax

/-! ## Rendering -/

namespace Mib

/-- Node `t` has the named numbers `items` over a node for builtin type `base`. -/
structure Enumerates (mib : Mib) (base : BuiltinType) (items : List (String × Int)) (t : TypeId)
    (b : TypeId) (values : List NamedValue) : Prop where
  shape : mib.writtenShape? t = some (.enumeration b values)
  labels : values.map (fun v => (mib.str v.name, v.value)) = items
  base : mib.writtenShape? b = some (.builtin base)
  bare : mib.constraint? b = none

mutual

/-- Node `t` renders a SYNTAX, whatever the constraint on `t`. -/
inductive Renders (mib : Mib) : TypeSyntax → TypeId → Prop where
  | named {t : TypeId} {symbol : StrId}
      (shape : mib.writtenShape? t = some (.reference symbol none none none)) :
      mib.Renders (.named (mib.str symbol)) t
  | qualified {t : TypeId} {symbol module : StrId}
      (shape : mib.writtenShape? t = some (.reference symbol (some module) none none)) :
      mib.Renders (.qualified (mib.str module) (mib.str symbol)) t
  | integer {t : TypeId} (shape : mib.writtenShape? t = some (.builtin .integer)) :
      mib.Renders .integer t
  | octetString {t : TypeId} (shape : mib.writtenShape? t = some (.builtin .octetString)) :
      mib.Renders .octetString t
  | objectIdentifier {t : TypeId}
      (shape : mib.writtenShape? t = some (.builtin .objectIdentifier)) :
      mib.Renders .objectIdentifier t
  | enumeration {t b : TypeId} {values : List NamedValue} {items : List (String × Int)}
      (enumerates : mib.Enumerates .integer items t b values) : mib.Renders (.enumeration items) t
  | bits {t b : TypeId} {values : List NamedValue} {items : List (String × Nat)}
      (enumerates : mib.Enumerates .bits (items.map fun i => (i.1, (i.2 : Int))) t b values) :
      mib.Renders (.bits items) t
  /-- The constraint has no node of its own. -/
  | constrained {t : TypeId} {base : TypeSyntax} (c : WrittenConstraint)
      (rendered : mib.Renders base t) : mib.Renders (.constrained base c) t
  | sequence {t : TypeId} {fields : List Field} {written : List (String × TypeSyntax)}
      (shape : mib.writtenShape? t = some (.sequence fields))
      (rendered : mib.RendersFields written fields t) : mib.Renders (.sequence written) t
  | sequenceOf {t u : TypeId} {element : TypeSyntax}
      (shape : mib.writtenShape? t = some (.sequenceOf u)) (below : u.index < t.index)
      (rendered : mib.Renders element u) (constraint : mib.constraint? u = element.kept?) :
      mib.Renders (.sequenceOf element) t
  | choice {t : TypeId} {fields : List Field} {written : List (String × TypeSyntax)}
      (shape : mib.writtenShape? t = some (.choice fields))
      (rendered : mib.RendersFields written fields t) : mib.Renders (.choice written) t

/-- Fields of node `t` render the fields of a SYNTAX, with their constraints. -/
inductive RendersFields (mib : Mib) : List (String × TypeSyntax) → List Field → TypeId → Prop where
  | nil {t : TypeId} : mib.RendersFields [] [] t
  | cons {t : TypeId} {f : Field} {fields : List Field} {body : TypeSyntax}
      {written : List (String × TypeSyntax)} (below : f.type.index < t.index)
      (rendered : mib.Renders body f.type) (constraint : mib.constraint? f.type = body.kept?)
      (rest : mib.RendersFields written fields t) :
      mib.RendersFields ((mib.str f.name, body) :: written) (f :: fields) t

end

/-- Node `t` renders a SYNTAX, with the constraint on `t`. -/
structure Shows (mib : Mib) (s : TypeSyntax) (t : TypeId) : Prop where
  renders : mib.Renders s t
  constraint : mib.constraint? t = s.kept?

/-- The fields of a node render those of a SYNTAX one by one. -/
lemma RendersFields.getElem? {mib : Mib} {t : TypeId} {fields : List Field}
    {written : List (String × TypeSyntax)} (h : mib.RendersFields written fields t) {i : Nat}
    {x : String × TypeSyntax} (hx : written[i]? = some x) :
    ∃ f, fields[i]? = some f ∧ mib.str f.name = x.1 ∧ mib.Shows x.2 f.type := by
  induction i generalizing written fields with
  | zero =>
    cases h with
    | nil => cases hx
    | cons below rendered constraint rest =>
      cases hx
      exact ⟨_, rfl, rfl, rendered, constraint⟩
  | succ i ih =>
    cases h with
    | nil => cases hx
    | cons below rendered constraint rest => exact ih rest hx

end Mib

/-! ## Places -/

/-- A step down a SYNTAX: to what a constraint stands behind, to the element of a sequence, or to a
field or an alternative. -/
inductive SyntaxStep where
  | base
  | element
  | member (i : Nat)
  deriving DecidableEq

/-- A place in a SYNTAX: the steps down to it. -/
abbrev SyntaxPlace := List SyntaxStep

/-- The last step goes under a constraint, which then covers the place. -/
def SyntaxPlace.IsCovered (p : SyntaxPlace) : Prop := p.getLast? = some .base

namespace TypeSyntax

/-- What is one step down. -/
def part? (s : TypeSyntax) (step : SyntaxStep) : Option TypeSyntax :=
  match s, step with
  | constrained base _, .base => some base
  | sequenceOf element, .element => some element
  | sequence fields, .member i | choice fields, .member i => fields[i]?.map Prod.snd
  | _, _ => none

/-- What stands at a place. -/
def at? (s : TypeSyntax) : SyntaxPlace → Option TypeSyntax
  | [] => some s
  | step :: rest => (s.part? step).bind (·.at? rest)

end TypeSyntax

namespace Mib

variable {mib : Mib} {s s' : TypeSyntax} {t u : TypeId} {p : SyntaxPlace} {step : SyntaxStep}

/-- The node one step down. What a constraint stands behind shares its node. -/
def part? (mib : Mib) (t : TypeId) : SyntaxStep → Option TypeId
  | .base => some t
  | .element =>
    match mib.writtenShape? t with
    | some (.sequenceOf u) => some u
    | _ => none
  | .member i =>
    match mib.writtenShape? t with
    | some (.sequence fields) | some (.choice fields) => fields[i]?.map (·.type)
    | _ => none

/-- The node at a place. -/
def at? (mib : Mib) (t : TypeId) : SyntaxPlace → Option TypeId
  | [] => some t
  | step :: rest => (mib.part? t step).bind (mib.at? · rest)

/-- The node below a place below a node is found in two steps. -/
lemma at?_append (p q : SyntaxPlace) : mib.at? t (p ++ q) = (mib.at? t p).bind (mib.at? · q) := by
  induction p generalizing t with
  | nil => rfl
  | cons step p ih =>
    cases hu : mib.part? t step with
    | none => simp [at?, hu]
    | some u => simpa [at?, hu] using ih

/-- Going under constraints leads to no other node. -/
lemma at?_replicate_base (n : Nat) : mib.at? t (.replicate n .base) = some t := by
  induction n with
  | zero => rfl
  | succ n ih => exact ih

/-- One step down a SYNTAX its nodes lead one step down. -/
lemma Renders.part? (h : mib.Renders s t) (hs : s.part? step = some s') :
    ∃ u, mib.part? t step = some u ∧ mib.Renders s' u ∧
      (step ≠ .base → mib.constraint? u = s'.kept?) := by
  cases h with
  | constrained c rendered =>
    cases step with
    | base =>
      cases hs
      exact ⟨t, rfl, rendered, fun ne => absurd rfl ne⟩
    | element | member => cases hs
  | sequenceOf shape below rendered constraint =>
    cases step with
    | element =>
      cases hs
      refine ⟨_, ?_, rendered, fun _ => constraint⟩
      simp only [Mib.part?, shape]
    | base | member => cases hs
  | sequence shape rendered | choice shape rendered =>
    cases step with
    | member i =>
      obtain ⟨x, hx, rfl⟩ := Option.map_eq_some_iff.1 hs
      obtain ⟨f, hf, -, shows⟩ := rendered.getElem? hx
      refine ⟨f.type, ?_, shows.renders, fun _ => shows.constraint⟩
      simp only [Mib.part?, shape, hf, Option.map_some]
    | base | element => cases hs
  | _ => cases step <;> cases hs

/-- At every place the nodes render what is written there, and a place that no constraint covers has
the constraint that is written there. -/
lemma Renders.at? (h : mib.Renders s t) (hs : s.at? p = some s') :
    ∃ u, mib.at? t p = some u ∧ mib.Renders s' u ∧
      (p ≠ [] → ¬p.IsCovered → mib.constraint? u = s'.kept?) := by
  induction p generalizing s t with
  | nil =>
    cases hs
    exact ⟨t, rfl, h, fun ne => absurd rfl ne⟩
  | cons step p ih =>
    obtain ⟨s₁, hs₁, hs⟩ := Option.bind_eq_some_iff.1 hs
    obtain ⟨t₁, ht₁, first, constraint₁⟩ := h.part? hs₁
    obtain ⟨u, hu, rest, constraint⟩ := ih first hs
    refine ⟨u, by rw [Mib.at?, ht₁, Option.bind_some, hu], rest, fun _ free => ?_⟩
    cases p with
    | nil =>
      cases hs
      cases hu
      refine constraint₁ fun e => free ?_
      rw [e]
      rfl
    | cons step' p =>
      refine constraint (List.cons_ne_nil _ _) fun covered => free ?_
      rw [SyntaxPlace.IsCovered, List.getLast?_cons_cons]
      exact covered

/-- A node that shows a syntax has, at each of its places, a node that renders what is written
there. -/
lemma Shows.at? (h : mib.Shows s t) (hs : s.at? p = some s') :
    ∃ u, mib.at? t p = some u ∧ mib.Renders s' u ∧
      (¬p.IsCovered → mib.constraint? u = s'.kept?) := by
  obtain ⟨u, hu, renders, constraint⟩ := h.renders.at? hs
  refine ⟨u, hu, renders, fun free => ?_⟩
  cases p with
  | nil =>
    cases hs
    cases hu
    exact h.constraint
  | cons step p => exact constraint (List.cons_ne_nil _ _) free

end Mib

end MibCorpus
