/-!
# Tables

A finite map that keeps its keys in the order in which they were first inserted. Two tables filled
by the same sequence of insertions are therefore equal as values, whatever they hold.
-/

namespace MibCorpus

/-- A finite map as a list of entries in order of insertion. -/
structure Table (κ β : Type) where
  entries : List (κ × β)
  deriving DecidableEq

namespace Table

variable {κ β : Type} [DecidableEq κ]

/-- The table without entries. -/
def empty : Table κ β := ⟨[]⟩

instance : Inhabited (Table κ β) := ⟨empty⟩

/-- The value in the first entry of list `es` with key `k`. -/
def findIn (k : κ) : List (κ × β) → Option β
  | [] => none
  | (k', v) :: es => if k' = k then some v else findIn k es

/-- The value stored under `k`. -/
def find? (t : Table κ β) (k : κ) : Option β := findIn k t.entries

/-- A key is present when a value is stored under it. -/
def contains (t : Table κ β) (k : κ) : Bool := (t.find? k).isSome

/-- The entries of `es` with the value under `k` replaced, or with a new entry at the end. -/
def putIn (k : κ) (v : β) : List (κ × β) → List (κ × β)
  | [] => [(k, v)]
  | (k', v') :: es => if k' = k then (k', v) :: es else (k', v') :: putIn k v es

/-- Stores `v` under `k` in place of what was there. -/
def insert (t : Table κ β) (k : κ) (v : β) : Table κ β := ⟨putIn k v t.entries⟩

/-- Stores `v` under `k` unless the key is present: the first value stays. -/
def insertNew (t : Table κ β) (k : κ) (v : β) : Table κ β :=
  if t.contains k then t else ⟨t.entries ++ [(k, v)]⟩

/-- Nothing is found in the empty table. -/
@[simp]
theorem find?_empty (k : κ) : (empty : Table κ β).find? k = none := rfl

/-- The value put under a key is found there, and nothing changes elsewhere. -/
theorem findIn_putIn (k j : κ) (v : β) (es : List (κ × β)) :
    findIn j (putIn k v es) = if k = j then some v else findIn j es := by
  induction es with
  | nil => simp [putIn, findIn]
  | cons e es ih => grind [putIn, findIn]

/-- A value under a new key is a new entry at the end. -/
theorem putIn_of_findIn_eq_none {k : κ} {es : List (κ × β)} (v : β) (h : findIn k es = none) :
    putIn k v es = es ++ [(k, v)] := by
  induction es with
  | nil => rfl
  | cons e es ih => grind [putIn, findIn]

/-- An entry of the first list comes before those of the second. -/
theorem findIn_append (k : κ) (es fs : List (κ × β)) :
    findIn k (es ++ fs) = (findIn k es).or (findIn k fs) := by
  induction es with
  | nil => simp [findIn]
  | cons e es ih => grind [findIn]

/-- What a look-up finds is an entry under its key. -/
theorem mem_of_findIn {k : κ} {v : β} {es : List (κ × β)} (h : findIn k es = some v) :
    (k, v) ∈ es := by
  induction es with
  | nil => simp [findIn] at h
  | cons e es ih => grind [findIn]

/-- What a look-up finds is an entry under its key. -/
theorem mem_entries_of_find? {t : Table κ β} {k : κ} {v : β} (h : t.find? k = some v) :
    (k, v) ∈ t.entries :=
  mem_of_findIn h

/-- After an insertion a look-up finds the new value under its key and the old one elsewhere. -/
@[grind =]
theorem find?_insert (t : Table κ β) (k j : κ) (v : β) :
    (t.insert k v).find? j = if k = j then some v else t.find? j :=
  findIn_putIn k j v t.entries

/-- An insertion that keeps the first value changes only a key that was absent. -/
@[grind =]
theorem find?_insertNew (t : Table κ β) (k j : κ) (v : β) :
    (t.insertNew k v).find? j = if k = j ∧ t.find? k = none then some v else t.find? j := by
  unfold insertNew contains
  cases h : t.find? k with
  | some w => simp
  | none =>
    have h' : findIn k t.entries = none := h
    by_cases hj : k = j
    · subst hj; simp [find?, findIn_append, h', findIn]
    · simp [find?, findIn_append, findIn, hj]

end Table

end MibCorpus
