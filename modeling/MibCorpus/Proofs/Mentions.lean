import MibCorpus.Proofs.Block

/-!
# What a module mentions

Other modules are mentioned as the sources of imports and as the qualifiers of names, in types and
in OID values. The references of a SYNTAX have the qualifiers that are written in it.
-/

namespace MibCorpus

mutual

/-- The modules in front of the type names of a SYNTAX. -/
def TypeSyntax.qualifiers : TypeSyntax → List String
  | .qualified module _ => [module]
  | .named _ | .integer | .octetString | .objectIdentifier | .enumeration _ | .bits _ => []
  | .constrained base _ => base.qualifiers
  | .sequence fields | .choice fields => TypeSyntax.fieldQualifiers fields
  | .sequenceOf element => element.qualifiers

/-- The modules in front of the type names of some fields. -/
def TypeSyntax.fieldQualifiers : List (String × TypeSyntax) → List String
  | [] => []
  | (_, body) :: rest => body.qualifiers ++ TypeSyntax.fieldQualifiers rest

end

/-- The module in front of a name in an OID value. -/
def OidComponent.qualifier? : OidComponent → Option String
  | qualified module _ => some module
  | arc _ | namedArc _ _ | name _ => none

/-- The modules in front of the names of a definition. -/
def Definition.qualifiers (x : Definition) : List String :=
  (x.body?.map (·.qualifiers)).getD [] ++ (x.oid?.getD []).filterMap (·.qualifier?)

/-- The modules that a module mentions. -/
def Module.mentions (m : Module) : List String :=
  m.imports.map (·.source) ++ m.definitions.flatMap (·.qualifiers)

section

variable (ι : String → StrId) (owner : String) (o : TypeOwner)

mutual

/-- The qualifiers of the noted references are those written in the syntax, in order. -/
lemma qualifiers_syntaxBlock : ∀ (s : TypeSyntax) (k : Nat),
    (syntaxBlock ι owner o s k).2.references.filterMap (·.qualifier) = s.qualifiers
  | .named _, _ | .qualified .., _ | .integer, _ | .octetString, _ | .objectIdentifier, _
  | .enumeration _, _ | .bits _, _ => by
    simp [syntaxBlock, referenceBlock, enumerationBlock, TypeSyntax.qualifiers]
  | .constrained base _, k => by
    rw [TypeSyntax.qualifiers, ← qualifiers_syntaxBlock base k]
    rfl
  | .sequence fields, k | .choice fields, k => by
    have inner := qualifiers_fieldsBlock fields k
    simpa [syntaxBlock, TypeSyntax.qualifiers] using inner
  | .sequenceOf element, k => by
    have inner := qualifiers_syntaxBlock element k
    simpa [syntaxBlock, TypeSyntax.qualifiers] using inner

/-- The qualifiers of the references in some fields are those written in them, in order. -/
lemma qualifiers_fieldsBlock : ∀ (fields : List (String × TypeSyntax)) (k : Nat),
    (fieldsBlock ι owner o fields k).2.references.filterMap (·.qualifier) =
      TypeSyntax.fieldQualifiers fields
  | [], _ => rfl
  | (_, body) :: rest, k => by
    have head := qualifiers_syntaxBlock body k
    have tail := qualifiers_fieldsBlock rest (k + (syntaxBlock ι owner o body k).2.length)
    simp only [fieldsBlock, Block.references_append, List.filterMap_append, head, tail,
      TypeSyntax.fieldQualifiers]

end

end

/-- The qualifier of a reference is written in the definition. -/
lemma mem_qualifiers_of_reference {ι : String → StrId} {o : TypeOwner} {x : Definition} {k : Nat}
    {r : PendingReference} (hr : r ∈ (definitionBlock ι o x k).2.references) {q : String}
    (hq : r.qualifier = some q) : q ∈ x.qualifiers := by
  refine List.mem_append_left _ ?_
  have written : ∀ s : TypeSyntax, r ∈ (syntaxBlock ι x.name o s k).2.references →
      q ∈ s.qualifiers := by
    intro s hr
    rw [← qualifiers_syntaxBlock ι x.name o s k]
    exact List.mem_filterMap.2 ⟨r, hr, hq⟩
  obtain ⟨name, clauses, span⟩ := x
  cases clauses with
  | type body hint? status => exact written body hr
  | textualConvention body hint? status =>
    refine written body ?_
    simpa [definitionBlock, Block.modify] using hr
  | objectType body access status oid => exact written body hr
  | value | objectIdentity | moduleIdentity | notification => cases hr

end MibCorpus
