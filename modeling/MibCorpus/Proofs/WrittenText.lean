import MibCorpus.Files.Path
import Mathlib.Tactic.Lemma
import Mathlib.Tactic.SplitIfs

/-!
# Texts as bytes

What the system has as bytes is shown as text. For the bytes of a text this is the text itself: each
character is written with a first byte that tells how many others belong to it, and reading follows
these to the end of the character, so nothing is replaced.
-/

namespace MibCorpus

namespace Utf8

/-! ## First bytes -/

section First

variable {v : Nat}

/-- The first of two bytes. -/
lemma progressAfter?_of_two (ge : 0x80 ≤ v) (le : v ≤ 0x7ff) :
    progressAfter? (v / 64 % 32 + 0xc0) = some ⟨[tail], v / 64⟩ := by
  have bits : v / 64 % 32 + 0xc0 - 0xc0 = v / 64 := by omega
  rw [progressAfter?, if_neg (by omega), if_pos (by omega), bits]

/-- The first of three bytes leaves room for the second, since the character needs so many. -/
lemma exists_progressAfter?_of_three (ge : 0x800 ≤ v) (le : v ≤ 0xffff) (valid : v.isValidChar) :
    ∃ low high, progressAfter? (v / 4096 % 16 + 0xe0) = some ⟨[(low, high), tail], v / 4096⟩ ∧
      low ≤ v / 64 % 64 + 0x80 ∧ v / 64 % 64 + 0x80 ≤ high := by
  have bits : v / 4096 % 16 + 0xe0 - 0xe0 = v / 4096 := by omega
  unfold Nat.isValidChar at valid
  rw [progressAfter?, bits, if_neg (by omega), if_neg (by omega)]
  split_ifs
  iterate 3 exact ⟨_, _, rfl, by omega, by omega⟩
  all_goals omega

/-- The first of four bytes leaves room for the second, since the character needs so many. -/
lemma exists_progressAfter?_of_four (ge : 0x10000 ≤ v) (valid : v.isValidChar) :
    ∃ low high,
      progressAfter? (v / 262144 % 8 + 0xf0) = some ⟨[(low, high), tail, tail], v / 262144⟩ ∧
        low ≤ v / 4096 % 64 + 0x80 ∧ v / 4096 % 64 + 0x80 ≤ high := by
  unfold Nat.isValidChar at valid
  have bits : v / 262144 % 8 + 0xf0 - 0xf0 = v / 262144 := by omega
  rw [progressAfter?, bits, if_neg (by omega), if_neg (by omega), if_neg (by omega),
    if_neg (by omega), if_neg (by omega)]
  split_ifs
  iterate 3 exact ⟨_, _, rfl, by omega, by omega⟩
  all_goals omega

end First

/-! ## Reading -/

section Reading

variable {n low high bits : Nat} {ranges : List (Nat × Nat)} {p : Progress} {bytes : List UInt8}

/-- A byte below `0x80` is a character of its own. -/
lemma decodeFrom_single (lt : n < 0x80) :
    decodeFrom none (UInt8.ofNat n :: bytes) = Char.ofNat n :: decodeFrom none bytes := by
  rw [decodeFrom, UInt8.toNat_ofNat_of_lt' (show n < 256 by omega), step, start, if_pos lt]
  rfl

/-- Any other first byte puts its character in progress. -/
lemma decodeFrom_first (ge : 0x80 ≤ n) (lt : n < 256) (h : progressAfter? n = some p) :
    decodeFrom none (UInt8.ofNat n :: bytes) = decodeFrom (some p) bytes := by
  rw [decodeFrom, UInt8.toNat_ofNat_of_lt' lt, step, start, if_neg (Nat.not_lt.2 ge), h]
  rfl

/-- A byte within its range continues a character that has more to come. -/
lemma decodeFrom_more (lt : n < 64) (ge : low ≤ n + 0x80) (le : n + 0x80 ≤ high)
    (more : ranges ≠ []) :
    decodeFrom (some ⟨(low, high) :: ranges, bits⟩) (UInt8.ofNat (n + 0x80) :: bytes) =
      decodeFrom (some ⟨ranges, bits * 64 + n⟩) bytes := by
  rw [decodeFrom, UInt8.toNat_ofNat_of_lt' (show n + 0x80 < 256 by omega)]
  simp [step, ge, le, more]

/-- The last byte completes the character. -/
lemma decodeFrom_last (lt : n < 64) :
    decodeFrom (some ⟨[tail], bits⟩) (UInt8.ofNat (n + 0x80) :: bytes) =
      Char.ofNat (bits * 64 + n) :: decodeFrom none bytes := by
  have within : 0x80 ≤ n + 0x80 ∧ n + 0x80 ≤ 0xbf := by omega
  rw [decodeFrom, UInt8.toNat_ofNat_of_lt' (show n + 0x80 < 256 by omega)]
  simp [step, tail, within]

end Reading

/-- Reading follows the bytes of a character to its end. -/
lemma decodeFrom_encode (c : Char) (bytes : List UInt8) :
    decodeFrom none (String.utf8EncodeChar c ++ bytes) = c :: decodeFrom none bytes := by
  have valid : c.val.toNat.isValidChar := c.valid
  have whole : Char.ofNat c.val.toNat = c := Char.ofNat_toNat c
  unfold String.utf8EncodeChar
  generalize c.val.toNat = v at valid whole
  dsimp only
  split_ifs with one two three <;> simp only [List.cons_append, List.nil_append]
  · rw [decodeFrom_single (by omega), whole]
  · have first := progressAfter?_of_two (by omega) two
    have bits : v / 64 * 64 + v % 64 = v := by omega
    rw [decodeFrom_first (by omega) (by omega) first, decodeFrom_last (by omega), bits, whole]
  · obtain ⟨low, high, first, ge, le⟩ := exists_progressAfter?_of_three (by omega) three valid
    have bits : (v / 4096 * 64 + v / 64 % 64) * 64 + v % 64 = v := by omega
    rw [decodeFrom_first (by omega) (by omega) first,
      decodeFrom_more (by omega) ge le (List.cons_ne_nil _ _), decodeFrom_last (by omega), bits,
      whole]
  · obtain ⟨low, high, first, ge, le⟩ := exists_progressAfter?_of_four (by omega) valid
    have bits : ((v / 262144 * 64 + v / 4096 % 64) * 64 + v / 64 % 64) * 64 + v % 64 = v := by
      omega
    rw [decodeFrom_first (by omega) (by omega) first,
      decodeFrom_more (by omega) ge le (List.cons_ne_nil _ _), tail,
      decodeFrom_more (by omega) (by omega) (by omega) (List.cons_ne_nil _ _), ← tail,
      decodeFrom_last (by omega), bits, whole]

/-- The bytes of characters are read as these characters. -/
lemma decodeFrom_flatMap (cs : List Char) :
    decodeFrom none (cs.flatMap String.utf8EncodeChar) = cs := by
  induction cs with
  | nil => rfl
  | cons c cs ih => rw [List.flatMap_cons, decodeFrom_encode, ih]

end Utf8

/-- A text is shown as it was written. -/
lemma RawText.text_ofString (s : String) : (ofString s).text = s := by
  rw [text, ofString, Utf8.decode, Utf8.decodeFrom_flatMap, String.ofList_toList]

/-- And so is a path. -/
lemma Path.text_mk (s : String) : (mk s).text = s := RawText.text_ofString s

end MibCorpus
