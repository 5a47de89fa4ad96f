import MibCorpus.Oid.Basic
import MibCorpus.Text.Decimal

/-!
# Dotted notation

An object identifier is written as its arcs in decimal with dots between them. When it is read, an
arc may have a plus sign in front and leading zeros. The identifier without arcs is the empty text.
-/

namespace MibCorpus

namespace Arc

/-- The arc with value `n`, if `n` has at most 32 bits. -/
def ofNat? (n : Nat) : Option Arc :=
  if n < UInt32.size then some (UInt32.ofNat n) else none

/-- Reads an arc without a sign. -/
def ofDigits? (cs : List Char) : Option Arc :=
  (Decimal.value? cs).bind ofNat?

/-- Reads an arc with at most one plus sign in front. -/
def read? : List Char → Option Arc
  | '+' :: cs => ofDigits? cs
  | cs => ofDigits? cs

/-- The arc in decimal. -/
def text (a : Arc) : String := toString a.toNat

end Arc

/-- A text that is no object identifier: the part at `position` between the dots is no arc. -/
structure DottedError where
  position : Nat
  deriving DecidableEq

/-- What the error says. -/
def DottedError.message (e : DottedError) : String :=
  "invalid OID arc at position " ++ toString e.position

namespace Oid

/-- Reads the parts between the dots, the first of which stands at `position`. -/
def readParts (position : Nat) : List (List Char) → Except DottedError (List Arc)
  | [] => .ok []
  | p :: ps =>
    match Arc.read? p with
    | none => .error ⟨position⟩
    | some a => (readParts (position + 1) ps).map (a :: ·)

/-- Reads dotted notation. -/
def ofDotted (s : String) : Except DottedError Oid :=
  if s.isEmpty then .ok root
  else (readParts 0 (s.toList.splitOn '.')).map Oid.mk

/-- Writes dotted notation. -/
def dotted (o : Oid) : String :=
  ".".intercalate (o.arcs.map Arc.text)

instance : ToString Oid := ⟨dotted⟩

end Oid

end MibCorpus
