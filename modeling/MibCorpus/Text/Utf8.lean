/-!
# Lenient UTF-8

Reading bytes as text where not every byte belongs to a character. Each longest run of bytes that
starts a character and is not continued as one, and each byte that starts none, is read as the
replacement character.
-/

namespace MibCorpus.Utf8

/-- The character that stands for bytes that are none. -/
def replacement : Char := '\ufffd'

/-- A character in progress: the ranges that the bytes to come must lie in, and its bits so far. -/
structure Progress where
  ranges : List (Nat × Nat)
  bits : Nat

/-- The range of a byte that continues a character. -/
def tail : Nat × Nat := (0x80, 0xbf)

/-- The character that a first byte starts. The second byte of some is restricted further, so that
no character is written with more bytes than it needs and none lies outside Unicode. -/
def progressAfter? (b : Nat) : Option Progress :=
  if b < 0xc2 then none
  else if b < 0xe0 then some ⟨[tail], b - 0xc0⟩
  else if b = 0xe0 then some ⟨[(0xa0, 0xbf), tail], b - 0xe0⟩
  else if b = 0xed then some ⟨[(0x80, 0x9f), tail], b - 0xe0⟩
  else if b < 0xf0 then some ⟨[tail, tail], b - 0xe0⟩
  else if b = 0xf0 then some ⟨[(0x90, 0xbf), tail, tail], b - 0xf0⟩
  else if b < 0xf4 then some ⟨[tail, tail, tail], b - 0xf0⟩
  else if b = 0xf4 then some ⟨[(0x80, 0x8f), tail, tail], b - 0xf0⟩
  else none

/-- What a byte outside a character gives: characters, and a character in progress. -/
def start (b : Nat) : List Char × Option Progress :=
  if b < 0x80 then ([Char.ofNat b], none)
  else
    match progressAfter? b with
    | some p => ([], some p)
    | none => ([replacement], none)

/-- What a byte gives after the bytes of a character in progress. -/
def step (state : Option Progress) (b : Nat) : List Char × Option Progress :=
  match state with
  | none | some ⟨[], _⟩ => start b
  | some ⟨(low, high) :: ranges, bits⟩ =>
    if low ≤ b ∧ b ≤ high then
      let bits := bits * 64 + (b - 0x80)
      if ranges.isEmpty then ([Char.ofNat bits], none) else ([], some ⟨ranges, bits⟩)
    else
      let (chars, state) := start b
      (replacement :: chars, state)

/-- Reads bytes after those of a character in progress. -/
def decodeFrom (state : Option Progress) : List UInt8 → List Char
  | [] => if state.isSome then [replacement] else []
  | b :: bs =>
    let (chars, state) := step state b.toNat
    chars ++ decodeFrom state bs

/-- Reads bytes as text. -/
def decode (bytes : List UInt8) : String := String.ofList (decodeFrom none bytes)

end MibCorpus.Utf8
