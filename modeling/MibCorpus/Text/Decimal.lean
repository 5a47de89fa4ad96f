/-!
# Decimal numerals

Reading natural numbers written in ASCII digits. Leading zeros are allowed and signs are not.
-/

namespace MibCorpus.Decimal

/-- The value of an ASCII digit. -/
def digit? (c : Char) : Option Nat :=
  if '0' ≤ c ∧ c ≤ '9' then some (c.toNat - '0'.toNat) else none

/-- The value of `cs` written behind a numeral of value `n`. -/
def continue? (n : Nat) : List Char → Option Nat
  | [] => some n
  | c :: cs => (digit? c).bind fun d => continue? (10 * n + d) cs

/-- The value of a numeral: one or more ASCII digits. -/
def value? : List Char → Option Nat
  | [] => none
  | c :: cs => continue? 0 (c :: cs)

end MibCorpus.Decimal
