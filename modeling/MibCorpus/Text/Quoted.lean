import MibCorpus.Text.Unprintable

/-!
# Quoted text

Text between double quotes on one line. Quotes, backslashes and line ends are written with a
backslash in front, and characters without a shape as their number in braces.
-/

namespace MibCorpus.Quoted

/-- A character between the quotes. -/
def char (c : Char) : List Char :=
  match c with
  | '"' => ['\\', '"']
  | '\\' => ['\\', '\\']
  | '\n' => ['\\', 'n']
  | '\r' => ['\\', 'r']
  | '\t' => ['\\', 't']
  | '\x00' => ['\\', '0']
  | c =>
    if Unprintable.contains c then
      ['\\', 'u', '\x7b'] ++ Nat.toDigits 16 c.toNat ++ ['\x7d']
    else [c]

/-- A text between quotes. -/
def quote (s : String) : String := String.ofList ('"' :: s.toList.flatMap char ++ ['"'])

end MibCorpus.Quoted
