import MibCorpus.Scope
import Mathlib.Tactic.Lemma

/-!
# What a look-up finds

However far an import is followed, what a look-up finds in the end is the definition of the name in
some module itself.
-/

namespace MibCorpus.Scope

variable {t : Scope} {name : String} {a : AssignmentId}

/-- What following imports finds is a definition of the name. -/
lemma exists_lookup?_of_follow {visited : List ModuleId} {m : ModuleId} {hint : Option ModuleId}
    (h : t.follow name visited m hint = .found a) : ∃ s, t.lookup? s name = some a := by
  fun_induction follow t name visited m hint with
  | case1 | case2 | case3 | case6 => cases h
  | case4 _ _ _ _ _ _ source _ b hb =>
    cases h
    exact ⟨source, hb⟩
  | case5 _ _ _ _ _ _ _ _ _ ih => exact ih h

/-- What is visible from a module is a definition of the name. -/
lemma exists_lookup?_of_resolve {m : ModuleId} (h : t.resolve m name = .found a) :
    ∃ s, t.lookup? s name = some a := by
  unfold resolve at h
  split at h
  next b hb =>
    cases h
    exact ⟨m, hb⟩
  next => exact exists_lookup?_of_follow h

/-- What a name with or without a module in front stands for is a definition of the name. -/
lemma exists_lookup?_of_resolveFrom {m : ModuleId} {qualifier : Option String}
    (h : t.resolveFrom m qualifier name = .found a) : ∃ s, t.lookup? s name = some a := by
  cases qualifier with
  | none => exact exists_lookup?_of_resolve h
  | some module =>
    unfold resolveFrom resolveQualified at h
    simp only at h
    split at h
    · exact exists_lookup?_of_resolve h
    · cases h

end MibCorpus.Scope
