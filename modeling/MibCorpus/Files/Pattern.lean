/-!
# File name patterns

A pattern is a file name in which a star stands for any characters and a question mark for one. The
matcher keeps one way to go on: after a mismatch the last star met takes one character more. An
earlier star need never take more, since the last one can take the same characters instead.
-/

namespace MibCorpus

/-- Why a pattern cannot be used. -/
inductive PatternDefect where
  | empty
  /-- It has a slash or a backslash, which no file name has. -/
  | separator
  deriving DecidableEq

/-- What is wrong with the pattern. -/
def PatternDefect.reason : PatternDefect → String
  | empty => "pattern is empty"
  | separator => "patterns match file names, not paths"

namespace Pattern

/-- What is wrong with a pattern. -/
def defect? (pattern : String) : Option PatternDefect :=
  if pattern.isEmpty then some .empty
  else if pattern.toList.any fun c => c == '/' || c == '\\' then some .separator
  else none

/-- Whether a character of a pattern, other than a star, stands for a character of a name. -/
def accepts (p c : Char) : Bool := p == '?' || p == c

/-- A match in progress: the rest of the pattern, the rest of the name, and the way back. That is
the pattern behind the last star and the rest of the name that it was last tried on. -/
structure Attempt where
  pattern : List Char
  name : List Char
  back : Option (List Char × List Char)
  name_le_back : ∀ b ∈ back, name.length ≤ b.2.length

namespace Attempt

/-- The attempt of a whole pattern on a whole name. -/
def start (pattern name : List Char) : Attempt := ⟨pattern, name, none, by simp⟩

/-- The last star takes one character more. -/
def fallBack? (a : Attempt) : Option Attempt :=
  match a.back with
  | some (pattern, _ :: name) => some ⟨pattern, name, some (pattern, name), by simp⟩
  | some (_, []) | none => none

/-- The attempt after one step on a name that begins with `c` and goes on with `name`. -/
def next? (a : Attempt) (c : Char) (name : List Char) (h : a.name = c :: name) : Option Attempt :=
  match a.pattern with
  | [] => a.fallBack?
  | p :: pattern =>
    if p = '*' then some ⟨pattern, a.name, some (pattern, a.name), by simp⟩
    else if accepts p c then
      some ⟨pattern, name, a.back, fun b hb => by
        have := a.name_le_back b hb
        simp only [h, List.length_cons] at this
        omega⟩
    else a.fallBack?

/-- How much of the name the way back leaves to try; without one, more than all of it. -/
def reach (a : Attempt) : Nat :=
  match a.back with
  | some b => b.2.length
  | none => a.name.length + 1

/-- Falling back reaches less far. -/
theorem reach_lt_of_fallBack? {a b : Attempt} (h : a.fallBack? = some b) : b.reach < a.reach := by
  unfold fallBack? at h
  split at h
  next pattern c name hb =>
    cases h
    simp [reach, hb]
  all_goals cases h

/-- A step reaches less far, or as far with less of the pattern left. -/
theorem next?_decreasing {a b : Attempt} {c : Char} {name : List Char} {h : a.name = c :: name}
    (hb : a.next? c name h = some b) :
    b.reach < a.reach ∨ b.reach = a.reach ∧ b.pattern.length < a.pattern.length := by
  unfold next? at hb
  split at hb
  next => exact .inl (reach_lt_of_fallBack? hb)
  next p pattern hp =>
    split at hb
    next =>
      cases hb
      cases hback : a.back with
      | none => simp [reach, hback]
      | some r =>
        have := a.name_le_back r hback
        simp only [reach, hback, hp, List.length_cons]
        omega
    next =>
      split at hb
      next =>
        cases hb
        simp only [reach, h, hp, List.length_cons]
        cases a.back <;> simp
      next => exact .inl (reach_lt_of_fallBack? hb)

/-- Whether an attempt comes to the end of the name with only stars left in the pattern. -/
def succeeds (a : Attempt) : Bool :=
  match _h : a.name with
  | [] => a.pattern.all (· == '*')
  | c :: name =>
    match _hb : a.next? c name _h with
    | none => false
    | some b => b.succeeds
  termination_by (a.reach, a.pattern.length)
  decreasing_by
    rcases next?_decreasing _hb with hlt | ⟨heq, hlt⟩
    · exact .left _ _ hlt
    · rw [heq]
      exact .right _ hlt

end Attempt

/-- Whether a name matches a pattern. -/
def fits (pattern name : String) : Bool :=
  (Attempt.start pattern.toList name.toList).succeeds

end Pattern

end MibCorpus
