import MibCorpus.Ident
import MibCorpus.Model.Packing

/-!
# Shared strings

Every name, path and hint of the model is stored once, in a packing of all of them. A string is
referred to by its position there, so identifiers are handed out in the order of first occurrence.
-/

namespace MibCorpus

/-- The stored strings in order of first occurrence. -/
structure Strings where
  packing : Packing
  deriving DecidableEq

namespace Strings

/-- Nothing stored. -/
def empty : Strings := ⟨.empty⟩

/-- The number of stored strings. -/
def size (t : Strings) : Nat := t.packing.size

/-- Whether nothing is stored. -/
def isEmpty (t : Strings) : Bool := t.size == 0

/-- The identifier of `s`, if it is stored. -/
def find? (t : Strings) (s : String) : Option StrId := (t.packing.find? s).map Ident.mk

/-- The string with identifier `i`; an unknown one stands for the empty string. -/
def get (t : Strings) (i : StrId) : String := (t.packing.word? i.index).getD ""

/-- The identifier of `s`, which is stored if it was not yet. -/
def intern (t : Strings) (s : String) : StrId × Strings :=
  let (n, packing) := t.packing.add s
  (⟨n⟩, ⟨packing⟩)

/-- The strings in the order of their identifiers. -/
def stored (t : Strings) : Array String := t.packing.words.toArray

/-- The empty table holds no string. -/
@[simp]
theorem size_empty : empty.size = 0 := rfl

/-- As many strings are stored as the table has entries. -/
@[simp]
theorem size_stored (t : Strings) : t.stored.size = t.size := by simp [stored, size]

/-- An identifier stands for the string stored at its index, or for the empty one. -/
theorem get_eq (t : Strings) (i : StrId) : t.get i = (t.stored[i.index]?).getD "" := by
  simp [get, stored, Packing.word?_eq]

/-- A string is found under an identifier exactly if it is stored at its index. -/
theorem find?_eq_some_iff {t : Strings} {s : String} {i : StrId} :
    t.find? s = some i ↔ t.stored[i.index]? = some s := by
  rw [stored, List.getElem?_toArray, ← Packing.word?_eq, ← Packing.find?_eq_some_iff, find?]
  cases i
  simp

/-- A string is not found exactly if it is not stored. -/
theorem find?_eq_none_iff {t : Strings} {s : String} :
    t.find? s = none ↔ s ∉ t.stored.toList := by
  rw [find?, Option.map_eq_none_iff, Packing.find?_eq_none_iff, stored]

/-- No string is stored twice. -/
theorem nodup_stored (t : Strings) : t.stored.toList.Nodup := t.packing.nodup_words

/-- Interning keeps the strings and puts a new one behind them. -/
theorem toList_stored_intern (t : Strings) (s : String) : (t.intern s).2.stored.toList =
    if s ∈ t.stored.toList then t.stored.toList else t.stored.toList ++ [s] :=
  t.packing.words_add s

/-- Interning a string that is stored changes nothing. -/
theorem intern_of_find? {t : Strings} {s : String} {i : StrId} (h : t.find? s = some i) :
    t.intern s = (i, t) := by
  obtain ⟨n, hn, rfl⟩ := Option.map_eq_some_iff.1 h
  simp only [intern, Packing.add_of_find? hn]

/-- A new string gets the next identifier. -/
theorem fst_intern_of_new {t : Strings} {s : String} (new : t.find? s = none) :
    (t.intern s).1 = ⟨t.size⟩ := by
  rw [find?, Option.map_eq_none_iff] at new
  simp only [intern, Packing.add_of_new new, size]

/-- Interning a string gives the identifier under which it is found from then on. -/
theorem find?_intern (t : Strings) (s : String) : (t.intern s).2.find? s = some (t.intern s).1 :=
  congrArg (Option.map Ident.mk) (t.packing.find?_add s)

/-- A string that is found is the one that was asked for. -/
theorem get_of_find? {t : Strings} {s : String} {i : StrId} (h : t.find? s = some i) :
    t.get i = s := by
  rw [get_eq, find?_eq_some_iff.1 h, Option.getD_some]

/-- The identifier of an interned string stands for that string. -/
theorem get_intern (t : Strings) (s : String) : (t.intern s).2.get (t.intern s).1 = s :=
  get_of_find? (t.find?_intern s)

/-- Interning keeps the meaning of the identifiers handed out before. -/
theorem get_intern_of_lt {t : Strings} (s : String) {i : StrId} (h : i.index < t.size) :
    (t.intern s).2.get i = t.get i := by
  rw [get_eq, get_eq, ← Array.getElem?_toList, ← Array.getElem?_toList, toList_stored_intern]
  split
  · rfl
  · rw [List.getElem?_append_left (by simpa using h)]

end Strings

end MibCorpus
