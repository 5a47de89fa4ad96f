import MibCorpus.Table

/-!
# Packed words

Words that all differ lie back to back in one buffer. Offsets in bytes say where one word ends and
the next begins, and an index leads back from a word to its position. A word is added by finding it
in the index or else by putting it behind the others, so positions follow the order of first
occurrence.
-/

namespace MibCorpus

/-! ## Layout -/

/-- How words that all differ are laid out: the buffer is the words back to back, offset `n` is the
number of bytes of the first `n` words, and the index gives each word its position. -/
structure Packs (words : List String) (buffer : String) (offsets : Array Nat)
    (index : Table String Nat) : Prop where
  buffer : buffer = String.join words
  offsets : ∀ n, offsets[n]? =
    if n ≤ words.length then some (String.join (words.take n)).utf8ByteSize else none
  index : index.entries = words.zipIdx
  nodup : words.Nodup

namespace Packs

variable {words words' : List String} {buffer : String} {offsets : Array Nat}
  {index : Table String Nat}

/-- The empty packing holds no word. -/
theorem empty : Packs [] "" #[0] .empty where
  buffer := rfl
  offsets n := by cases n <;> simp
  index := rfl
  nodup := .nil

/-- There is one more offset than words. -/
theorem size_offsets (h : Packs words buffer offsets index) : offsets.size = words.length + 1 := by
  have last := h.offsets words.length
  have behind := h.offsets (words.length + 1)
  rw [if_pos (Nat.le_refl _), Array.getElem?_eq_some_iff] at last
  rw [if_neg (by omega), Array.getElem?_eq_none_iff] at behind
  have := last.1
  omega

/-- An offset never falls inside a character: it cuts the buffer into two texts. -/
theorem isValid_offset (h : Packs words buffer offsets index) {n b : Nat}
    (hb : offsets[n]? = some b) : String.Pos.Raw.IsValid buffer ⟨b⟩ := by
  rw [h.offsets] at hb
  split at hb
  next =>
    refine String.Pos.Raw.isValid_iff_exists_append.2
      ⟨String.join (words.take n), String.join (words.drop n), ?_, ?_⟩
    · rw [h.buffer, ← String.join_append, List.take_append_drop]
    · exact String.Pos.Raw.ext (Option.some.inj hb).symm
  next => cases hb

/-- The buffer around a word that is given by its position. -/
theorem buffer_around (h : Packs words buffer offsets index) {n : Nat} (lt : n < words.length) :
    buffer = String.join (words.take n) ++ words[n] ++ String.join (words.drop (n + 1)) := by
  have single : words[n] = String.join [words[n]] := by simp
  rw [single, ← String.join_append, ← String.join_append, ← List.take_succ_eq_append_getElem lt,
    List.take_append_drop, h.buffer]

/-- Looking a word up in a numbered list finds its first position, counted from the list's start. -/
theorem findIn_zipIdx (words : List String) (k : Nat) (s : String) :
    Table.findIn s (words.zipIdx k) = (words.findIdx? (· == s)).map (· + k) := by
  induction words generalizing k with
  | nil => rfl
  | cons w words ih =>
    rw [List.zipIdx_cons, Table.findIn, List.findIdx?_cons, ih]
    by_cases same : w = s
    · simp [same]
    · simp [same, Function.comp_def, Nat.add_assoc, Nat.add_comm 1]

/-- The index finds a word at its position. -/
theorem find?_index (h : Packs words buffer offsets index) (s : String) :
    index.find? s = words.findIdx? (· == s) := by
  simp [Table.find?, h.index, findIn_zipIdx]

/-- Putting a new word behind the others keeps the layout. -/
theorem push (h : Packs words buffer offsets index) {s : String} {n : Nat}
    (last : n = words.length) (new : index.find? s = none) :
    Packs (words ++ [s]) (buffer ++ s) (offsets.push (buffer.utf8ByteSize + s.utf8ByteSize))
      (index.insert s n) where
  buffer := by simp [h.buffer]
  offsets k := by
    rw [Array.getElem?_push, h.size_offsets, h.offsets, List.length_append, List.length_singleton]
    split
    next behind =>
      rw [if_pos (by omega), List.take_of_length_le (by simp [behind]), h.buffer]
      simp
    next =>
      by_cases within : k ≤ words.length
      · rw [if_pos within, if_pos (by omega), List.take_append_of_le_length within]
      · rw [if_neg within, if_neg (by omega)]
  index := by
    rw [Table.insert, Table.putIn_of_findIn_eq_none _ new, h.index, last]
    simp [List.zipIdx_append]
  nodup := by
    rw [h.find?_index, List.findIdx?_eq_none_iff] at new
    refine List.nodup_append.2 ⟨h.nodup, by simp, fun w hw v hv => ?_⟩
    rw [List.mem_singleton.1 hv]
    simpa using new w hw

end Packs

/-! ## Packings -/

/-- Words that all differ, packed into one buffer. -/
structure Packing where
  /-- All words, back to back. -/
  buffer : String
  /-- Where the words end, in bytes, behind the zero at which the first one begins. -/
  offsets : Array Nat
  /-- The positions of the words. -/
  index : Table String Nat
  packed : ∃ words, Packs words buffer offsets index
  deriving DecidableEq

namespace Packing

/-- No words. -/
def empty : Packing := ⟨"", #[0], .empty, [], .empty⟩

/-- The number of words. -/
def size (p : Packing) : Nat := p.offsets.size - 1

/-- The position of a word, if it is there. -/
def find? (p : Packing) (s : String) : Option Nat := p.index.find? s

/-- The place between two characters of the buffer that an offset stands for. -/
def boundary (p : Packing) {n b : Nat} (h : p.offsets[n]? = some b) : p.buffer.Pos :=
  ⟨⟨b⟩, p.packed.elim fun _ packs => packs.isValid_offset h⟩

/-- The word at a position: the part of the buffer between the two offsets there. -/
def word? (p : Packing) (n : Nat) : Option String :=
  match first : p.offsets[n]?, last : p.offsets[n + 1]? with
  | some _, some _ => some (p.buffer.extract (p.boundary first) (p.boundary last))
  | _, _ => none

/-- Puts a new word behind the others. -/
def push (p : Packing) (s : String) (new : p.find? s = none) : Packing where
  buffer := p.buffer ++ s
  offsets := p.offsets.push (p.buffer.utf8ByteSize + s.utf8ByteSize)
  index := p.index.insert s p.size
  packed := p.packed.elim fun words packs =>
    ⟨words ++ [s], packs.push (by simp [size, packs.size_offsets]) new⟩

/-- The position of a word, which is put behind the others if it is not there yet. -/
def add (p : Packing) (s : String) : Nat × Packing :=
  match new : p.find? s with
  | some n => (n, p)
  | none => (p.size, p.push s new)

/-- The words by their positions. -/
def words (p : Packing) : List String := (List.range p.size).map fun n => (p.word? n).getD ""

/-- Packs words, each where it occurs first. -/
def ofWords (ws : Array String) : Packing := ws.foldl (fun p s => (p.add s).2) .empty

/-- An array of words can be given in place of its packing. -/
instance : Coe (Array String) Packing := ⟨ofWords⟩

/-! ## The words of a packing -/

/-- What lies between the end of the part in front and the end of a part is the part. -/
theorem extract_middle {front part rest buffer : String} {b e : buffer.Pos}
    (around : buffer = front ++ part ++ rest) (first : b.offset.byteIdx = front.utf8ByteSize)
    (last : e.offset.byteIdx = (front ++ part).utf8ByteSize) : buffer.extract b e = part := by
  rw [← String.toByteArray_inj, String.toByteArray_extract, first, last, around,
    String.toByteArray_append, ByteArray.extract_append]
  have beyond : rest.toByteArray.extract (front.utf8ByteSize - (front ++ part).toByteArray.size)
      ((front ++ part).utf8ByteSize - (front ++ part).toByteArray.size) = ByteArray.empty := by
    simp
  rw [beyond]
  simp [ByteArray.extract_append_eq_right]

/-- The word at a position is read off between the offsets there. -/
theorem word?_of_packs {p : Packing} {words : List String}
    (packs : Packs words p.buffer p.offsets p.index) (n : Nat) : p.word? n = words[n]? := by
  have first := packs.offsets n
  have last := packs.offsets (n + 1)
  by_cases lt : n < words.length
  · rw [if_pos (by omega)] at first last
    have upTo : String.join (words.take (n + 1)) = String.join (words.take n) ++ words[n] := by
      rw [List.take_succ_eq_append_getElem lt, String.join_append]
      simp
    rw [List.getElem?_eq_getElem lt]
    unfold word?
    split
    next b e hb he =>
      rw [hb, Option.some_inj] at first
      rw [he, Option.some_inj, upTo] at last
      exact congrArg some (extract_middle (packs.buffer_around lt) first last)
    next unknown => exact (unknown _ _ first last).elim
  · rw [if_neg (by omega)] at last
    rw [List.getElem?_eq_none (by omega)]
    unfold word?
    split
    next he => cases he.symm.trans last
    next => rfl

/-- The words a packing holds are determined by its buffer and offsets. -/
theorem words_of_packs {p : Packing} {words : List String}
    (packs : Packs words p.buffer p.offsets p.index) : p.words = words := by
  have size : p.size = words.length := by simp [Packing.size, packs.size_offsets]
  refine List.ext_getElem (by simp [Packing.words, size]) fun n _ hw => ?_
  simp [Packing.words, word?_of_packs packs, hw]

/-- A packing packs its words. -/
theorem packs_words (p : Packing) : Packs p.words p.buffer p.offsets p.index := by
  obtain ⟨words, packs⟩ := p.packed
  rw [words_of_packs packs]
  exact packs

/-- The word at a position is the word of the list there. -/
theorem word?_eq (p : Packing) (n : Nat) : p.word? n = p.words[n]? := word?_of_packs p.packs_words n

/-- Finding a word yields its first position in the list. -/
theorem find?_eq (p : Packing) (s : String) : p.find? s = p.words.findIdx? (· == s) :=
  p.packs_words.find?_index s

/-- No word is there twice. -/
theorem nodup_words (p : Packing) : p.words.Nodup := p.packs_words.nodup

/-- The index and the buffer agree. -/
theorem find?_eq_some_iff {p : Packing} {s : String} {n : Nat} :
    p.find? s = some n ↔ p.word? n = some s := by
  rw [find?_eq, word?_eq, List.findIdx?_eq_some_iff_getElem, List.getElem?_eq_some_iff]
  constructor
  · rintro ⟨lt, found, -⟩
    exact ⟨lt, beq_iff_eq.1 found⟩
  · rintro ⟨lt, rfl⟩
    refine ⟨lt, by simp, fun m earlier same => ?_⟩
    exact Nat.ne_of_lt earlier ((List.getElem_inj p.nodup_words).1 (beq_iff_eq.1 same))

/-- A word is not found exactly if it is not in the list. -/
theorem find?_eq_none_iff {p : Packing} {s : String} : p.find? s = none ↔ s ∉ p.words := by
  rw [find?_eq, List.findIdx?_eq_none_iff]
  constructor
  · exact fun other mem => by simpa using other s mem
  · exact fun absent w hw => beq_false_of_ne fun same => absent (same ▸ hw)

/-- A packing has as many words as its size says. -/
@[simp]
theorem length_words (p : Packing) : p.words.length = p.size := by simp [words]

/-- Pushing a new word appends it to the list. -/
theorem words_push (p : Packing) (s : String) (new : p.find? s = none) :
    (p.push s new).words = p.words ++ [s] :=
  words_of_packs (p.packs_words.push (by simp) new)

/-! ## Adding words -/

/-- Adding a word that is there yields its position and changes nothing. -/
theorem add_of_find? {p : Packing} {s : String} {n : Nat} (h : p.find? s = some n) :
    p.add s = (n, p) := by
  unfold add
  split
  next m hm => rw [Option.some.inj (hm.symm.trans h)]
  next new => cases new.symm.trans h

/-- Adding a new word yields the next position and pushes the word. -/
theorem add_of_new {p : Packing} {s : String} (new : p.find? s = none) :
    p.add s = (p.size, p.push s new) := by
  unfold add
  split
  next m hm => cases hm.symm.trans new
  next => rfl

/-- Adding a word keeps the others in their places, and puts a new one behind them. -/
theorem words_add (p : Packing) (s : String) :
    (p.add s).2.words = if s ∈ p.words then p.words else p.words ++ [s] := by
  cases h : p.find? s with
  | some n =>
    have stored : s ∈ p.words := by
      rw [find?_eq_some_iff, word?_eq] at h
      exact List.mem_of_getElem? h
    rw [add_of_find? h, if_pos stored]
  | none => rw [add_of_new h, words_push, if_neg (find?_eq_none_iff.1 h)]

example : (ofWords #["é", "", "é", "a"]).words = ["é", "", "a"] ∧
    (ofWords #["é", "", "é", "a"]).offsets = #[0, 2, 2, 3] := by decide

/-- Adding a word gives its position. -/
theorem find?_add (p : Packing) (s : String) : (p.add s).2.find? s = some (p.add s).1 := by
  cases h : p.find? s with
  | some n => rw [add_of_find? h, h]
  | none =>
    rw [add_of_new h, find?_eq_some_iff, word?_eq, words_push]
    simp

end Packing

end MibCorpus
