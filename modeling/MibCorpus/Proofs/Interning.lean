import MibCorpus.Model.Mib
import Mathlib.Tactic.Lemma

/-!
# Growing string tables

Strings are only ever added to the table of a model. An identifier that stands for a string
therefore goes on standing for it, and what was read off an earlier table may be read off any later
one.
-/

namespace MibCorpus.Strings

/-- Table `u` holds the strings of `t` in their places, and perhaps more. -/
def Extends (t u : Strings) : Prop := t.stored.toList <+: u.stored.toList

/-- A table extends itself. -/
lemma Extends.refl (t : Strings) : t.Extends t := List.prefix_rfl

/-- What extends an extension extends the table. -/
lemma Extends.trans {t u v : Strings} (tu : t.Extends u) (uv : u.Extends v) : t.Extends v :=
  List.IsPrefix.trans tu uv

/-- A string keeps its identifier when the table grows. -/
lemma Extends.find? {t u : Strings} {s : String} {i : StrId}
    (e : t.Extends u) (h : t.find? s = some i) : u.find? s = some i := by
  rw [find?_eq_some_iff, ← Array.getElem?_toList] at h ⊢
  obtain ⟨rest, e⟩ := e
  obtain ⟨lt, -⟩ := List.getElem?_eq_some_iff.1 h
  rw [← e, List.getElem?_append_left lt, h]

/-- Interning extends the table. -/
lemma extends_intern (t : Strings) (s : String) : t.Extends (t.intern s).2 := by
  rw [Extends, toList_stored_intern]
  split
  · exact List.prefix_rfl
  · exact List.prefix_append _ [s]

/-- An extension returns each string under the identifier that it had. -/
lemma Extends.get {t u : Strings} {s : String} {i : StrId}
    (e : t.Extends u) (h : t.find? s = some i) : u.get i = s :=
  get_of_find? (e.find? h)

/-- The table never gets smaller. -/
lemma Extends.size_le {t u : Strings} (e : t.Extends u) : t.size ≤ u.size := by
  simpa using e.length_le

/-- A string that is found is one of those stored. -/
lemma lt_of_find? {t : Strings} {s : String} {i : StrId} (h : t.find? s = some i) :
    i.index < t.size := by
  rw [find?_eq_some_iff] at h
  rw [← size_stored]
  exact (Array.getElem?_eq_some_iff.1 h).1

/-- Identifiers tell strings apart. -/
lemma find?_get (t : Strings) {i : StrId} (h : i.index < t.size) : t.find? (t.get i) = some i := by
  rw [← size_stored] at h
  rw [find?_eq_some_iff, get_eq, Array.getElem?_eq_getElem h, Option.getD_some]

/-- A string that is new in a larger table has an identifier behind those of the smaller one. -/
lemma Extends.le_of_find? {t u : Strings} {s : String} {i : StrId} (e : t.Extends u)
    (new : t.find? s = none) (h : u.find? s = some i) : t.size ≤ i.index := by
  refine Nat.le_of_not_lt fun lt => ?_
  -- An old identifier still stands for an old string.
  have old := t.find?_get lt
  rw [(get_of_find? (e.find? old)).symm.trans (get_of_find? h), new] at old
  cases old

/-- What is said of the strings of a table only is the same of them in a larger one. -/
lemma Extends.bind_find? {β : Type} {t u : Strings} (e : t.Extends u) {f : StrId → Option β}
    (known : ∀ i b, f i = some b → i.index < t.size) (s : String) :
    (u.find? s).bind f = (t.find? s).bind f := by
  cases ht : t.find? s with
  | some i => rw [e.find? ht]
  | none =>
    cases hu : u.find? s with
    | none => rfl
    | some i =>
      cases hf : f i with
      | none => exact hf
      | some b =>
        have lt := known i b hf
        have le := e.le_of_find? ht hu
        omega

/-! ## Interpretations -/

/-- A choice of identifiers for all strings that agrees with the table where that has one. -/
def Agrees (t : Strings) (ι : String → StrId) : Prop := ∀ s i, t.find? s = some i → ι s = i

/-- A choice that agrees with an extension agrees with the table. -/
lemma Agrees.of_extends {t u : Strings} {ι : String → StrId}
    (h : u.Agrees ι) (e : t.Extends u) : t.Agrees ι :=
  fun s i hs => h s i (e.find? hs)

/-- The identifiers in a table, with an arbitrary one for a string that is not stored. -/
def idOf (t : Strings) (s : String) : StrId := (t.find? s).getD ⟨0⟩

/-- The identifiers in a table agree with it. -/
lemma agrees_idOf (t : Strings) : t.Agrees t.idOf := by
  intro s i h
  simp [idOf, h]

end MibCorpus.Strings
