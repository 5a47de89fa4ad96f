import Mathlib.Data.List.Basic
import Mathlib.Data.List.Forall2
import Mathlib.Tactic.Lemma
import MibCorpus.Files.Pattern

/-!
# Names that match a pattern

A pattern stands for the names that can be cut into pieces, one for each of its characters. The
matcher finds such pieces whenever there are some, although it only ever goes back to the last star
that it met.
-/

namespace MibCorpus.Pattern

/-! ## Pieces -/

/-- What a character of a pattern stands for. -/
inductive StandsFor : Char → List Char → Prop where
  | star (piece : List Char) : StandsFor '*' piece
  | one (c : Char) : StandsFor '?' [c]
  | itself {p : Char} (noStar : p ≠ '*') (noMark : p ≠ '?') : StandsFor p [p]

/-- A name consists of pieces that the characters of a pattern stand for, in their order. -/
def Spells (pattern name : List Char) : Prop :=
  ∃ pieces, List.Forall₂ StandsFor pattern pieces ∧ pieces.flatten = name

section Pieces

variable {p : Char} {ps piece name rest : List Char}

/-- Any character but the star stands for a single character that it accepts. -/
lemma standsFor_iff_of_ne_star (noStar : p ≠ '*') :
    StandsFor p piece ↔ ∃ c, accepts p c ∧ piece = [c] := by
  constructor
  · intro h
    cases h with
    | star => exact absurd rfl noStar
    | one c => exact ⟨c, rfl, rfl⟩
    | itself => exact ⟨p, by simp [accepts], rfl⟩
  · rintro ⟨c, fits, rfl⟩
    by_cases mark : p = '?'
    · subst mark
      exact .one c
    · obtain rfl : p = c := by simpa [accepts, mark] using fits
      exact .itself noStar mark

/-- The empty pattern spells the empty name only. -/
lemma spells_nil : Spells [] name ↔ name = [] := by
  constructor
  · rintro ⟨_, ⟨⟩, rfl⟩
    rfl
  · rintro rfl
    exact ⟨[], .nil, rfl⟩

/-- A pattern spells what its first character stands for, then what the others spell. -/
lemma spells_cons :
    Spells (p :: ps) name ↔ ∃ piece rest, StandsFor p piece ∧ Spells ps rest ∧
      name = piece ++ rest := by
  constructor
  · rintro ⟨_, _ | ⟨h, hs⟩, rfl⟩
    exact ⟨_, _, h, ⟨_, hs, rfl⟩, rfl⟩
  · rintro ⟨piece, rest, h, ⟨pieces, hs, rfl⟩, rfl⟩
    exact ⟨piece :: pieces, .cons h hs, rfl⟩

/-- Behind a star the pattern may match any end of the name. -/
lemma spells_star : Spells ('*' :: ps) name ↔ ∃ rest, rest <:+ name ∧ Spells ps rest := by
  rw [spells_cons]
  constructor
  · rintro ⟨piece, rest, -, h, rfl⟩
    exact ⟨rest, List.suffix_append piece rest, h⟩
  · rintro ⟨rest, ⟨piece, rfl⟩, h⟩
    exact ⟨piece, rest, .star piece, h, rfl⟩

/-- Any other character takes one character of the name. -/
lemma spells_of_ne_star (noStar : p ≠ '*') :
    Spells (p :: ps) name ↔ ∃ c rest, name = c :: rest ∧ accepts p c ∧ Spells ps rest := by
  rw [spells_cons]
  constructor
  · rintro ⟨piece, rest, h, hs, rfl⟩
    obtain ⟨c, fits, rfl⟩ := (standsFor_iff_of_ne_star noStar).1 h
    exact ⟨c, rest, rfl, fits, hs⟩
  · rintro ⟨c, rest, rfl, fits, hs⟩
    exact ⟨[c], rest, (standsFor_iff_of_ne_star noStar).2 ⟨c, fits, rfl⟩, hs, rfl⟩

/-- A star may take more of a longer name. -/
lemma Spells.of_suffix (h : Spells ('*' :: ps) rest) (ends : rest <:+ name) :
    Spells ('*' :: ps) name := by
  obtain ⟨rest', ends', h⟩ := spells_star.1 h
  exact spells_star.2 ⟨rest', ends'.trans ends, h⟩

/-- What stands before a star takes as many characters of the name as it has. -/
lemma Spells.drop_length {taken : List Char} (noStar : '*' ∉ taken)
    (h : Spells (taken ++ ps) name) :
    taken.length ≤ name.length ∧ Spells ps (name.drop taken.length) := by
  induction taken generalizing name with
  | nil => exact ⟨Nat.zero_le _, h⟩
  | cons p taken ih =>
    obtain ⟨here, later⟩ := List.ne_and_not_mem_of_not_mem_cons noStar
    obtain ⟨c, rest, rfl, -, h⟩ := (spells_of_ne_star (Ne.symm here)).1 h
    obtain ⟨le, h⟩ := ih later h
    exact ⟨Nat.succ_le_succ le, h⟩

/-- Nothing is spelled by stars alone. -/
lemma spells_empty_iff : Spells ps [] ↔ ps.all (· == '*') := by
  induction ps with
  | nil => simp [spells_nil]
  | cons p ps ih =>
    by_cases star : p = '*'
    · subst star
      simp [spells_star, ih]
    · simp [spells_of_ne_star star, star]

end Pieces

/-- An end of a name is the name or stands behind some character of it. -/
lemma suffix_iff_eq_or_behind {name rest : List Char} :
    rest <:+ name ↔ rest = name ∨ ∃ c, c :: rest <:+ name := by
  constructor
  · rintro ⟨skipped, rfl⟩
    rcases skipped.eq_nil_or_concat with rfl | ⟨before, c, rfl⟩
    · exact .inl rfl
    · exact .inr ⟨c, before, by simp⟩
  · rintro (rfl | ⟨c, ends⟩)
    · exact List.suffix_rfl
    · exact (List.suffix_cons c rest).trans ends

/-! ## The last star -/

namespace Attempt

variable {a b : Attempt} {c : Char} {name : List Char}

/-- Since the last star an attempt has met no star, and has taken as many characters of the name as
of the pattern. -/
def SinceStar (a : Attempt) : Prop :=
  ∀ r ∈ a.back, ∃ taken passed, r.1 = taken ++ a.pattern ∧ r.2 = passed ++ a.name ∧
    taken.length = passed.length ∧ '*' ∉ taken

/-- The rest of the name matches the rest of the pattern. -/
def Matches (a : Attempt) : Prop := Spells a.pattern a.name

/-- What is behind the last star matches if the star takes more characters of the name than it was
last tried with. -/
def MatchesLater (a : Attempt) : Prop :=
  ∃ r ∈ a.back, ∃ c rest, c :: rest <:+ r.2 ∧ Spells r.1 rest

/-- No star was met at the start. -/
lemma sinceStar_start (pattern name : List Char) : (start pattern name).SinceStar := by
  rintro r ⟨⟩

/-- There is no star to fall back to at the start. -/
lemma not_matchesLater_start (pattern name : List Char) : ¬(start pattern name).MatchesLater := by
  rintro ⟨r, ⟨⟩, -⟩

/-- An earlier star need not take more: the star that comes next can take that as well. -/
lemma SinceStar.matches_of_matchesLater {ps : List Char} (h : a.SinceStar)
    (star : a.pattern = '*' :: ps) (later : a.MatchesLater) : a.Matches := by
  obtain ⟨r, hr, c, rest, ends, spells⟩ := later
  obtain ⟨taken, passed, pattern, name, same, noStar⟩ := h r hr
  rw [pattern] at spells
  obtain ⟨-, spells⟩ := spells.drop_length noStar
  have here : a.name <:+ r.2 := ⟨passed, name.symm⟩
  have there : rest.drop taken.length <:+ r.2 :=
    (List.drop_suffix ..).trans ((List.suffix_cons c rest).trans ends)
  have shorter : (rest.drop taken.length).length ≤ a.name.length := by
    have le := ends.length_le
    rw [name, List.length_append, List.length_cons] at le
    rw [List.length_drop]
    omega
  rw [Matches, star] at *
  exact spells.of_suffix (List.suffix_of_suffix_length_le there here shorter)

/-- At the end of the name the last star has nothing more to take. -/
lemma SinceStar.not_matchesLater (h : a.SinceStar) (atEnd : a.name = []) : ¬a.MatchesLater := by
  rintro ⟨r, hr, c, rest, ends, spells⟩
  obtain ⟨taken, passed, pattern, name, same, noStar⟩ := h r hr
  rw [pattern] at spells
  obtain ⟨long, -⟩ := spells.drop_length noStar
  have le := ends.length_le
  rw [name, atEnd, List.append_nil, List.length_cons] at le
  omega

/-- Nothing was taken since the last star. -/
def AtStar (a : Attempt) : Prop := a.back = some (a.pattern, a.name)

/-- An attempt at a star has taken nothing since. -/
lemma AtStar.sinceStar (h : a.AtStar) : a.SinceStar := by
  intro r hr
  obtain rfl : (a.pattern, a.name) = r := Option.some.inj (h.symm.trans hr)
  exact ⟨[], [], rfl, rfl, rfl, List.not_mem_nil⟩

/-- What the star stands for is taken now or later. -/
lemma AtStar.spells_star_iff (h : a.AtStar) :
    Spells ('*' :: a.pattern) a.name ↔ a.Matches ∨ a.MatchesLater := by
  have later : a.MatchesLater ↔ ∃ c rest, c :: rest <:+ a.name ∧ Spells a.pattern rest := by
    simp only [MatchesLater, show a.back = _ from h, Option.mem_def, Option.some.injEq,
      exists_eq_left']
  rw [spells_star, Matches, later]
  constructor
  · rintro ⟨rest, ends, spells⟩
    rcases suffix_iff_eq_or_behind.1 ends with rfl | ⟨c, ends⟩
    · exact .inl spells
    · exact .inr ⟨c, rest, ends, spells⟩
  · rintro (spells | ⟨c, rest, ends, spells⟩)
    · exact ⟨_, List.suffix_rfl, spells⟩
    · exact ⟨rest, suffix_iff_eq_or_behind.2 (.inr ⟨c, ends⟩), spells⟩

/-- Falling back tries the star on one character more. Where that cannot be done, the star has
nothing more to take. -/
lemma fallBack?_cases (a : Attempt) :
    (a.fallBack? = none ∧ ¬a.MatchesLater) ∨
      ∃ b, a.fallBack? = some b ∧ b.AtStar ∧
        (a.MatchesLater ↔ Spells ('*' :: b.pattern) b.name) := by
  unfold fallBack?
  split
  next pattern c name hback =>
    refine .inr ⟨_, rfl, rfl, ?_⟩
    simp only [MatchesLater, hback, Option.mem_def, Option.some.injEq, exists_eq_left', spells_star]
    constructor
    · rintro ⟨d, rest, ends, spells⟩
      refine ⟨rest, ?_, spells⟩
      rcases List.suffix_cons_iff.1 ends with same | ends
      · exact (List.cons.inj same).2 ▸ List.suffix_rfl
      · exact (List.suffix_cons d rest).trans ends
    · rintro ⟨rest, ends, spells⟩
      rcases suffix_iff_eq_or_behind.1 ends with rfl | ⟨d, ends⟩
      · exact ⟨c, rest, List.suffix_rfl, spells⟩
      · exact ⟨d, rest, ends.trans (List.suffix_cons c name), spells⟩
  next pattern hback =>
    refine .inl ⟨rfl, ?_⟩
    rintro ⟨r, hr, d, rest, ends, -⟩
    obtain rfl : (pattern, []) = r := by simpa [hback] using hr
    exact absurd ends.length_le (by simp)
  next hback =>
    refine .inl ⟨rfl, ?_⟩
    rintro ⟨r, hr, -⟩
    simp [hback] at hr

/-- Without a match at hand everything hangs on falling back. -/
lemma fallBack?_of_not_matches (no : ¬a.Matches) :
    (a.fallBack? = none ∧ ¬(a.Matches ∨ a.MatchesLater)) ∨
      ∃ b, a.fallBack? = some b ∧ b.SinceStar ∧
        (a.Matches ∨ a.MatchesLater ↔ b.Matches ∨ b.MatchesLater) := by
  rw [or_iff_right no]
  rcases a.fallBack?_cases with stuck | ⟨b, hb, atStar, same⟩
  · exact .inl stuck
  · exact .inr ⟨b, hb, atStar.sinceStar, same.trans atStar.spells_star_iff⟩

/-- Taking a character leads away from the last star, in the pattern as in the name. -/
lemma SinceStar.take {ps : List Char} {p : Char} (h : a.SinceStar) (hpattern : a.pattern = p :: ps)
    (hname : a.name = c :: name) (noStar : p ≠ '*') (hb : b.pattern = ps ∧ b.name = name ∧
      b.back = a.back) : b.SinceStar := by
  obtain ⟨rfl, rfl, back⟩ := hb
  intro r hr
  obtain ⟨taken, passed, hr₁, hr₂, same, starless⟩ := h r (back ▸ hr)
  refine ⟨taken ++ [p], passed ++ [c], ?_, ?_, by simp [same], ?_⟩
  · rw [hr₁, hpattern, List.append_assoc, List.singleton_append]
  · rw [hr₂, hname, List.append_assoc, List.singleton_append]
  · simpa [starless] using Ne.symm noStar

/-- A step leaves no possibility to match out. Where there is no step, there is no possibility. -/
lemma SinceStar.next?_cases (h : a.SinceStar) (hname : a.name = c :: name) :
    (a.next? c name hname = none ∧ ¬(a.Matches ∨ a.MatchesLater)) ∨
      ∃ b, a.next? c name hname = some b ∧ b.SinceStar ∧
        (a.Matches ∨ a.MatchesLater ↔ b.Matches ∨ b.MatchesLater) := by
  -- A step goes on in the pattern, takes up a star, or falls back to the last star there was.
  unfold next?
  split
  next ended =>
    refine fallBack?_of_not_matches ?_
    simp [Matches, ended, spells_nil, hname]
  next p ps hpattern =>
    split
    next star =>
      subst star
      have atStar : AtStar ⟨ps, a.name, some (ps, a.name), by simp⟩ := rfl
      refine .inr ⟨_, rfl, atStar.sinceStar, ?_⟩
      rw [or_iff_left_of_imp (h.matches_of_matchesLater hpattern), ← atStar.spells_star_iff,
        Matches, hpattern]
    next noStar =>
      have spells : Spells (p :: ps) a.name ↔ _ := spells_of_ne_star noStar
      rw [← hpattern, hname] at spells
      split
      next fits =>
        refine .inr ⟨_, rfl, h.take hpattern hname noStar ⟨rfl, rfl, rfl⟩, or_congr_left ?_⟩
        rw [Matches, hname, spells]
        constructor
        · rintro ⟨d, rest, same, -, spells⟩
          obtain ⟨rfl, rfl⟩ := List.cons.inj same
          exact spells
        · exact fun spells => ⟨c, name, rfl, fits, spells⟩
      next unfit =>
        refine fallBack?_of_not_matches ?_
        rw [Matches, hname, spells]
        rintro ⟨d, rest, same, fits, -⟩
        obtain ⟨rfl, -⟩ := List.cons.inj same
        exact unfit fits

/-- An attempt succeeds if the rest of the name matches the rest of the pattern, or does once the
last star takes more. -/
lemma SinceStar.succeeds_iff (h : a.SinceStar) :
    a.succeeds = true ↔ a.Matches ∨ a.MatchesLater := by
  fun_induction succeeds a with
  | case1 a hname => rw [Matches, hname, spells_empty_iff, or_iff_left (h.not_matchesLater hname)]
  | case2 a c name hname stuck =>
    rcases h.next?_cases hname with ⟨-, no⟩ | ⟨b, hb, -⟩
    · simpa using no
    · cases stuck.symm.trans hb
  | case3 a c name hname b hb ih =>
    rcases h.next?_cases hname with ⟨stuck, -⟩ | ⟨b', hb', since, same⟩
    · cases stuck.symm.trans hb
    · cases hb'.symm.trans hb
      exact (ih since).trans same.symm

end Attempt

/-- An attempt from the start succeeds if the name consists of pieces that the pattern stands
for. -/
lemma succeeds_start_iff (pattern name : List Char) :
    (Attempt.start pattern name).succeeds = true ↔ Spells pattern name := by
  rw [(Attempt.sinceStar_start pattern name).succeeds_iff,
    or_iff_left (Attempt.not_matchesLater_start pattern name)]
  rfl

/-! ## Positions -/

/-- Where the matcher stands in a pattern and a name, by the positions of their next characters. The
way back is the position of the last star, and that of the first character of the name that the star
did not take when it was last tried. -/
structure Cursor where
  pattern : Nat
  name : Nat
  back : Option (Nat × Nat)

namespace Cursor

/-- The cursor at the beginning of a pattern and a name. -/
def start : Cursor := ⟨0, 0, none⟩

/-- The last star takes one character more. -/
def fallBack? (k : Cursor) : Option Cursor :=
  k.back.map fun r => ⟨r.1 + 1, r.2 + 1, some (r.1, r.2 + 1)⟩

/-- The cursor after one round of the loop, unless the loop ends here. -/
def next? (pattern name : List Char) (k : Cursor) : Option Cursor :=
  match name[k.name]?, pattern[k.pattern]? with
  | none, _ => none
  | some _, none => k.fallBack?
  | some c, some p =>
    if p = '*' then some ⟨k.pattern + 1, k.name, some (k.pattern, k.name)⟩
    else if accepts p c then some ⟨k.pattern + 1, k.name + 1, k.back⟩
    else k.fallBack?

/-- The cursor after some rounds of the loop, if the loop does not end before. -/
def after (pattern name : List Char) : Nat → Cursor → Option Cursor
  | 0, k => some k
  | rounds + 1, k => (k.next? pattern name).bind (after pattern name rounds)

/-- At the cursor the name has come to its end, and the pattern has only stars left. -/
def Accepts (pattern name : List Char) (k : Cursor) : Prop :=
  k.name = name.length ∧ (pattern.drop k.pattern).all (· == '*')

/-- The cursor marks where an attempt has got to. -/
structure Marks (pattern name : List Char) (k : Cursor) (a : Attempt) : Prop where
  pattern_le : k.pattern ≤ pattern.length
  name_le : k.name ≤ name.length
  pattern_eq : a.pattern = pattern.drop k.pattern
  name_eq : a.name = name.drop k.name
  back_le : ∀ r ∈ k.back, r.1 < pattern.length ∧ r.2 ≤ k.name
  back_eq : a.back = k.back.map fun r => (pattern.drop (r.1 + 1), name.drop r.2)

variable {pattern name rest : List Char} {k k' : Cursor} {a b : Attempt} {c : Char}

/-- The indices at the start mark the start of the attempt. -/
lemma marks_start (pattern name : List Char) : Marks pattern name start (.start pattern name) :=
  ⟨Nat.zero_le _, Nat.zero_le _, rfl, rfl, by rintro r ⟨⟩, rfl⟩

/-- With characters of the name left, cursor and attempt fall back together. -/
lemma Marks.fallBack? (h : Marks pattern name k a) (left : k.name < name.length) :
    Option.Rel (Marks pattern name) k.fallBack? a.fallBack? := by
  have back := h.back_eq
  unfold Cursor.fallBack? Attempt.fallBack?
  cases hk : k.back with
  | none =>
    rw [hk, Option.map_none] at back
    simp only [back]
    exact .none
  | some r =>
    obtain ⟨before, le⟩ := h.back_le r hk
    have lt : r.2 < name.length := Nat.lt_of_le_of_lt le left
    rw [hk, Option.map_some, List.drop_eq_getElem_cons lt] at back
    simp only [back]
    refine .some ⟨before, lt, rfl, rfl, ?_, rfl⟩
    rintro _ ⟨⟩
    exact ⟨before, Nat.le_refl _⟩

/-- What an attempt has left of the name is what stands behind the cursor. -/
lemma Marks.name_cons (h : Marks pattern name k a) (hname : a.name = c :: rest) :
    k.name < name.length ∧ name[k.name]? = some c ∧ rest = name.drop (k.name + 1) := by
  have cut : name.drop k.name = c :: rest := h.name_eq.symm.trans hname
  refine ⟨Nat.lt_of_not_le fun le => ?_, ?_, ?_⟩
  · exact List.cons_ne_nil c rest (cut.symm.trans (List.drop_eq_nil_of_le le))
  · rw [← List.head?_drop, cut, List.head?_cons]
  · rw [← List.tail_drop, cut, List.tail_cons]

/-- What an attempt has left of the pattern is what stands behind the cursor. -/
lemma Marks.pattern_cons {p : Char} {ps : List Char} (h : Marks pattern name k a)
    (hpattern : a.pattern = p :: ps) :
    k.pattern < pattern.length ∧ pattern[k.pattern]? = some p ∧
      ps = pattern.drop (k.pattern + 1) := by
  have cut : pattern.drop k.pattern = p :: ps := h.pattern_eq.symm.trans hpattern
  refine ⟨Nat.lt_of_not_le fun le => ?_, ?_, ?_⟩
  · exact List.cons_ne_nil p ps (cut.symm.trans (List.drop_eq_nil_of_le le))
  · rw [← List.head?_drop, cut, List.head?_cons]
  · rw [← List.tail_drop, cut, List.tail_cons]

/-- Cursor and attempt take each step together. -/
lemma Marks.next? (h : Marks pattern name k a) (hname : a.name = c :: rest) :
    Option.Rel (Marks pattern name) (k.next? pattern name) (a.next? c rest hname) := by
  obtain ⟨left, here, later⟩ := h.name_cons hname
  unfold Attempt.next?
  split
  next ended =>
    have atEnd : pattern[k.pattern]? = none :=
      List.getElem?_eq_none (List.drop_eq_nil_iff.1 (h.pattern_eq.symm.trans ended))
    simp only [Cursor.next?, here, atEnd]
    exact h.fallBack? left
  next p ps hpattern =>
    obtain ⟨more, char, behind⟩ := h.pattern_cons hpattern
    simp only [Cursor.next?, here, char]
    split
    next star =>
      refine .some ⟨more, h.name_le, behind, h.name_eq, ?_, ?_⟩
      · rintro _ ⟨⟩
        exact ⟨more, Nat.le_refl _⟩
      · exact congrArg some (Prod.ext behind h.name_eq)
    next =>
      split
      next =>
        refine .some ⟨more, left, behind, later, fun r hr => ?_, h.back_eq⟩
        exact ⟨(h.back_le r hr).1, Nat.le_succ_of_le (h.back_le r hr).2⟩
      next => exact h.fallBack? left

/-- Where an attempt has nothing left of the name the loop ends. -/
lemma Marks.next?_eq_none (h : Marks pattern name k a) (hname : a.name = []) :
    k.name = name.length ∧ k.next? pattern name = none := by
  have le : name.length ≤ k.name := List.drop_eq_nil_iff.1 (h.name_eq.symm.trans hname)
  refine ⟨Nat.le_antisymm h.name_le le, ?_⟩
  simp only [Cursor.next?, List.getElem?_eq_none le]

/-- The loop marks an attempt in each round. -/
lemma Marks.after (h : Marks pattern name k a) {rounds : Nat}
    (hk : k.after pattern name rounds = some k') : ∃ b, Marks pattern name k' b := by
  induction rounds generalizing k a with
  | zero =>
    obtain rfl := Option.some.inj hk
    exact ⟨a, h⟩
  | succ rounds ih =>
    obtain ⟨k₁, step, hk⟩ := Option.bind_eq_some_iff.1 hk
    cases hname : a.name with
    | nil => cases (h.next?_eq_none hname).2.symm.trans step
    | cons c rest =>
      have together := h.next? hname
      rw [step] at together
      generalize a.next? c rest hname = next at together
      cases together with
      | some marks => exact ih marks hk

/-- More rounds than this an attempt cannot take. -/
def budget (pattern : List Char) (a : Attempt) : Nat :=
  a.reach * (pattern.length + 1) + a.pattern.length

/-- Each step of the indices uses up some of the budget. -/
lemma Marks.budget_lt (h : Marks pattern name k b) {hname : a.name = c :: rest}
    (step : a.next? c rest hname = some b) : budget pattern b < budget pattern a := by
  have le : b.pattern.length ≤ pattern.length := by
    rw [h.pattern_eq, List.length_drop]
    exact Nat.sub_le ..
  unfold budget
  rcases Attempt.next?_decreasing step with lt | ⟨same, lt⟩
  · have := Nat.mul_le_mul_right (pattern.length + 1) (Nat.succ_le_of_lt lt)
    rw [Nat.succ_mul] at this
    omega
  · rw [same]
    omega

/-- The loop ends where the attempt is decided. -/
lemma Marks.exists_end (h : Marks pattern name k a) :
    ∃ rounds k', rounds ≤ budget pattern a ∧ k.after pattern name rounds = some k' ∧
      k'.next? pattern name = none ∧ (a.succeeds = true ↔ k'.Accepts pattern name) := by
  fun_induction Attempt.succeeds a generalizing k with
  | case1 a hname =>
    obtain ⟨atEnd, stop⟩ := h.next?_eq_none hname
    exact ⟨0, k, Nat.zero_le _, rfl, stop, by rw [Accepts, ← h.pattern_eq, and_iff_right atEnd]⟩
  | case2 a c rest hname stuck =>
    have together := h.next? hname
    rw [stuck] at together
    have stop : k.next? pattern name = none := by
      generalize k.next? pattern name = next at together
      cases together
      rfl
    obtain ⟨left, -, -⟩ := h.name_cons hname
    refine ⟨0, k, Nat.zero_le _, rfl, stop, iff_of_false Bool.false_ne_true ?_⟩
    rintro ⟨atEnd, -⟩
    omega
  | case3 a c rest hname b hb ih =>
    have together := h.next? hname
    rw [hb] at together
    generalize step : k.next? pattern name = next at together
    cases together with
    | some marks =>
      obtain ⟨rounds, k', le, there, stop, same⟩ := ih marks
      have lt := marks.budget_lt hb
      refine ⟨rounds + 1, k', by omega, ?_, stop, same⟩
      rw [Cursor.after, step, Option.bind_some, there]

end Cursor

/-- What there is to say about the answer to whether a name matches a pattern. -/
structure Decides (pattern name : List Char) (answer : Bool) : Prop where
  /-- The answer says whether the name consists of pieces that the pattern stands for. -/
  spells : answer = true ↔ Spells pattern name
  /-- The matcher never passes the end of the pattern or of the name. -/
  within : ∀ rounds k, Cursor.start.after pattern name rounds = some k →
    k.pattern ≤ pattern.length ∧ k.name ≤ name.length
  /-- The matcher's loop ends, and the answer can be read off where it does. -/
  ends : ∃ rounds k, rounds < (pattern.length + 1) * (name.length + 2) ∧
    Cursor.start.after pattern name rounds = some k ∧ k.next? pattern name = none ∧
      (answer = true ↔ k.Accepts pattern name)

/-- The matcher accepts the names that consist of pieces that the pattern stands for. It ends on
every name, and stays within the pattern all along. -/
theorem decides_fits (pattern name : String) :
    Decides pattern.toList name.toList (fits pattern name) where
  spells := succeeds_start_iff pattern.toList name.toList
  within rounds k hk := by
    obtain ⟨a, marks⟩ := (Cursor.marks_start pattern.toList name.toList).after hk
    exact ⟨marks.pattern_le, marks.name_le⟩
  ends := by
    obtain ⟨rounds, k, le, there, stop, same⟩ :=
      (Cursor.marks_start pattern.toList name.toList).exists_end
    refine ⟨rounds, k, Nat.lt_of_le_of_lt le ?_, there, stop, same⟩
    simp only [Cursor.budget, Attempt.reach, Attempt.start]
    rw [Nat.mul_comm, Nat.mul_succ (pattern.toList.length + 1) (name.toList.length + 1)]
    omega

end MibCorpus.Pattern
