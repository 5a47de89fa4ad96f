import MibCorpus.Proofs.Interning
import Mathlib.Data.Finset.Card
import Mathlib.Data.List.Induction

/-!
# Calls of interning

A table that starts empty is filled by interning one string after another. All that it answers can
be told from these calls: it stores each string once, under the identifier that every call with the
string gave, and the identifiers count the strings in the order of first occurrence.
-/

namespace MibCorpus

/-- One more entry counts among the distinct ones if it is not there yet. -/
lemma eraseDups_concat {α : Type} [DecidableEq α] (xs : List α) (x : α) :
    (xs ++ [x]).eraseDups = if x ∈ xs then xs.eraseDups else xs.eraseDups ++ [x] := by
  rw [List.eraseDups_append]
  split <;> simp_all [List.removeAll, List.eraseDups_cons]

namespace Strings

/-- The table after interning strings in order. -/
def internAll (t : Strings) (ss : List String) : Strings := ss.foldl (fun t s => (t.intern s).2) t

/-- Strings that are interned in order, each with the identifier that its call gives. -/
def calls (t : Strings) : List String → List (String × StrId)
  | [] => []
  | s :: ss => (s, (t.intern s).1) :: calls (t.intern s).2 ss

variable {t : Strings}

/-- One string more is interned after all the others. -/
lemma internAll_concat (t : Strings) (ss : List String) (s : String) :
    t.internAll (ss ++ [s]) = ((t.internAll ss).intern s).2 := List.foldl_concat ..

/-- The call with one string more comes last. -/
lemma calls_concat (t : Strings) (ss : List String) (s : String) :
    t.calls (ss ++ [s]) = t.calls ss ++ [(s, ((t.internAll ss).intern s).1)] := by
  induction ss generalizing t with
  | nil => rfl
  | cons r ss ih =>
    rw [List.cons_append, calls, calls, ih]
    rfl

/-- The calls are made with the strings in order. -/
lemma map_fst_calls (t : Strings) (ss : List String) : (t.calls ss).map (·.1) = ss := by
  induction ss generalizing t with
  | nil => rfl
  | cons s ss ih => rw [calls, List.map_cons, ih]

/-- Interning strings in order extends the table. -/
lemma extends_internAll (t : Strings) (ss : List String) : t.Extends (t.internAll ss) := by
  induction ss generalizing t with
  | nil => exact .refl t
  | cons s ss ih => exact (extends_intern t s).trans (ih _)

/-! ## What calls leave behind -/

/-- The table holds the strings of the calls, each once and under the identifiers that were given,
and these are the first numbers in order. -/
structure Filled (cs : List (String × StrId)) (t : Strings) : Prop where
  stored : t.stored.toList = (cs.map (·.1)).eraseDups
  found : ∀ c ∈ cs, t.find? c.1 = some c.2
  numbers : (cs.map (·.2.number)).eraseDups = List.range' 1 t.size

variable {cs : List (String × StrId)}

/-- Without calls the table is empty. -/
lemma filled_empty : Filled [] empty := ⟨rfl, nofun, rfl⟩

/-- A string is stored if there was a call with it. -/
lemma Filled.mem_stored_iff (h : Filled cs t) (s : String) :
    s ∈ t.stored.toList ↔ s ∈ cs.map (·.1) := by
  rw [h.stored, List.mem_eraseDups]

/-- An identifier is found by what it was given for. -/
lemma Filled.find?_eq_some_iff (h : Filled cs t) (s : String) (i : StrId) :
    t.find? s = some i ↔ (s, i) ∈ cs := by
  constructor
  · intro hs
    have stored : s ∈ t.stored.toList :=
      Array.mem_toList_iff.2 (Array.mem_of_getElem? (Strings.find?_eq_some_iff.1 hs))
    obtain ⟨c, hc, rfl⟩ := List.mem_map.1 ((h.mem_stored_iff s).1 stored)
    rw [h.found c hc, Option.some_inj] at hs
    exact hs ▸ hc
  · exact h.found (s, i)

/-- A call for a string that is stored gives a number that was given before. -/
lemma Filled.intern_stored (h : Filled cs t) {s : String} {i : StrId} (hs : t.find? s = some i) :
    Filled (cs ++ [(s, i)]) t where
  stored := by
    have called : s ∈ cs.map (·.1) := List.mem_map_of_mem ((h.find?_eq_some_iff s i).1 hs)
    rw [h.stored, List.map_append, List.map_singleton, eraseDups_concat, if_pos called]
  found c hc := by
    rcases List.mem_append.1 hc with hc | hc
    · exact h.found c hc
    · rw [List.mem_singleton.1 hc, hs]
  numbers := by
    have given : i.number ∈ cs.map (·.2.number) :=
      List.mem_map_of_mem (f := (·.2.number)) ((h.find?_eq_some_iff s i).1 hs)
    rw [List.map_append, List.map_singleton, eraseDups_concat, if_pos given, h.numbers]

/-- A call for a new string gives the next number. -/
lemma Filled.intern_new (h : Filled cs t) {s : String} (hs : t.find? s = none) :
    Filled (cs ++ [(s, ⟨t.size⟩)]) (t.intern s).2 where
  stored := by
    have absent := Strings.find?_eq_none_iff.1 hs
    rw [toList_stored_intern, if_neg absent, h.stored, List.map_append, List.map_singleton,
      eraseDups_concat, if_neg (mt (h.mem_stored_iff s).2 absent)]
  found c hc := by
    rcases List.mem_append.1 hc with hc | hc
    · exact (extends_intern t s).find? (h.found c hc)
    · rw [List.mem_singleton.1 hc, find?_intern, fst_intern_of_new hs]
  numbers := by
    have size : (t.intern s).2.size = t.size + 1 := by
      rw [← size_stored, ← Array.length_toList, toList_stored_intern,
        if_neg (Strings.find?_eq_none_iff.1 hs)]
      simp
    have next : (⟨t.size⟩ : StrId).number ∉ cs.map (·.2.number) := by
      intro given
      obtain ⟨c, hc, same⟩ := List.mem_map.1 given
      have lt := lt_of_find? (h.found c hc)
      simp only [Ident.number] at same
      omega
    rw [List.map_append, List.map_singleton, eraseDups_concat, if_neg next, h.numbers, size,
      List.range'_1_concat]
    rw [Ident.number, Nat.add_comm]

/-- One more call extends what the calls left behind. -/
lemma Filled.intern (h : Filled cs t) (s : String) :
    Filled (cs ++ [(s, (t.intern s).1)]) (t.intern s).2 := by
  cases hs : t.find? s with
  | some i =>
    rw [intern_of_find? hs]
    exact h.intern_stored hs
  | none =>
    rw [fst_intern_of_new hs]
    exact h.intern_new hs

/-- Any calls fill an empty table. -/
lemma filled_internAll (ss : List String) : Filled (empty.calls ss) (empty.internAll ss) := by
  induction ss using List.reverseRecOn with
  | nil => exact filled_empty
  | append_singleton ss s ih =>
    rw [calls_concat, internAll_concat]
    exact ih.intern s

/-! ## What a table answers -/

/-- What is known of a table from the calls `cs` that interned the strings `ss`. -/
structure Answers (ss : List String) (cs : List (String × StrId)) (t : Strings) : Prop where
  /-- There is a call for each string. -/
  strings : cs.map (·.1) = ss
  /-- An identifier stands for the string that it was given for, whatever is interned later. -/
  get : ∀ c ∈ cs, ∀ later, (t.internAll later).get c.2 = c.1
  /-- Two calls give the same identifier if their strings are equal, and only then. -/
  same : ∀ c ∈ cs, ∀ c' ∈ cs, c.2 = c'.2 ↔ c.1 = c'.1
  /-- A string is found if it was interned, under the identifier that was given. -/
  find? : ∀ s i, t.find? s = some i ↔ (s, i) ∈ cs
  /-- The numbers that are given, in the order in which they come up, are those up to the size. -/
  numbers : (cs.map (·.2.number)).eraseDups = List.range' 1 t.size
  /-- The size is the number of distinct strings. -/
  size : t.size = ss.toFinset.card
  /-- An identifier that was not given stands for the empty string. -/
  unknown : ∀ i, i ∉ cs.map (·.2) → t.get i = ""

/-- A table that was filled by interning any strings answers what follows from the calls. -/
theorem answers_internAll (ss : List String) :
    Answers ss (empty.calls ss) (empty.internAll ss) where
  strings := map_fst_calls empty ss
  get c hc later :=
    (extends_internAll _ later).get ((filled_internAll ss).found c hc)
  same c hc c' hc' := by
    have found := (filled_internAll ss).found c hc
    have found' := (filled_internAll ss).found c' hc'
    constructor
    · intro e
      rw [← get_of_find? found, ← get_of_find? found', e]
    · intro e
      rw [e, found', Option.some_inj] at found
      exact found.symm
  find? := (filled_internAll ss).find?_eq_some_iff
  numbers := (filled_internAll ss).numbers
  size := by
    have filled := filled_internAll ss
    -- What is stored are the calls without repetitions, and nothing is stored twice.
    have nodup : ss.eraseDups.Nodup := by
      rw [← map_fst_calls empty ss, ← filled.stored]
      exact nodup_stored _
    rw [← size_stored, ← Array.length_toList, filled.stored, map_fst_calls,
      ← List.toFinset_card_of_nodup nodup]
    congr 1
    ext s
    simp
  unknown i hi := by
    have filled := filled_internAll ss
    rw [get_eq, Array.getElem?_eq_none, Option.getD_none]
    refine Nat.le_of_not_lt fun lt => hi ?_
    rw [size_stored] at lt
    exact List.mem_map_of_mem ((filled.find?_eq_some_iff _ i).1 (find?_get _ lt))

end Strings

end MibCorpus
