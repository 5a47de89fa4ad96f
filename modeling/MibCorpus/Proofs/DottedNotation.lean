import Mathlib.Data.List.Forall2
import Mathlib.Data.List.Induction
import Mathlib.Tactic.Lemma
import MibCorpus.Model.Query

/-!
# Reading and writing dotted notation

What is written is read back. A text is read as an OID if each of its parts is a numeral of an arc,
and the first part that is none is the one complained about. Plus signs and leading zeros are all
that is lost when a text is read and written again.
-/

namespace MibCorpus

/-! ## Numerals -/

namespace Decimal

/-- The text is a numeral: one or more ASCII digits, with at most one plus sign in front. -/
def IsNumeral (text : List Char) (value : Nat) : Prop :=
  ∃ sign digits, text = sign ++ digits ∧ (sign = [] ∨ sign = ['+']) ∧ digits ≠ [] ∧
    (∀ c ∈ digits, c.isDigit) ∧ value = Nat.ofDigitChars 10 digits 0

/-- The text has no plus sign and no zero in front of another digit. -/
def IsPlain (text : List Char) : Prop :=
  '+' ∉ text ∧ ¬∃ c rest, text = '0' :: c :: rest

variable {cs digits : List Char} {c : Char} {n m : Nat}

/-- The value of a digit is its distance from zero. -/
lemma digit?_eq_some_iff : digit? c = some n ↔ c.isDigit ∧ n = c.toNat - '0'.toNat := by
  have same : c.isDigit ↔ '0' ≤ c ∧ c ≤ '9' := by
    rw [Char.isDigit, Bool.and_eq_true, decide_eq_true_iff, decide_eq_true_iff]
    exact Iff.rfl
  rw [digit?, same]
  split
  next h =>
    rw [and_iff_right h, Option.some.injEq]
    exact eq_comm
  next h => exact iff_of_false nofun fun both => h both.1

/-- Reading goes on with digits only, and each counts ten times what comes behind it. -/
lemma continue?_eq_some_iff : continue? n cs = some m ↔
    (∀ c ∈ cs, c.isDigit) ∧ m = Nat.ofDigitChars 10 cs n := by
  induction cs generalizing n with
  | nil =>
    rw [continue?, Option.some.injEq, Nat.ofDigitChars_nil, and_iff_right (List.forall_mem_nil _)]
    exact eq_comm
  | cons c cs ih =>
    rw [continue?, Option.bind_eq_some_iff, List.forall_mem_cons, Nat.ofDigitChars_cons]
    simp only [digit?_eq_some_iff, ih]
    constructor
    · rintro ⟨_, ⟨digit, rfl⟩, digits, rfl⟩
      exact ⟨⟨digit, digits⟩, rfl⟩
    · rintro ⟨⟨digit, digits⟩, rfl⟩
      exact ⟨_, ⟨digit, rfl⟩, digits, rfl⟩

/-- A number is written with one digit at least. -/
lemma value?_eq_some_iff : value? cs = some m ↔
    cs ≠ [] ∧ (∀ c ∈ cs, c.isDigit) ∧ m = Nat.ofDigitChars 10 cs 0 := by
  cases cs with
  | nil => simp [value?]
  | cons c cs => rw [value?, continue?_eq_some_iff, and_iff_right (List.cons_ne_nil c cs)]

/-- There is no plus sign among digits. -/
lemma plus_notMem (digits : ∀ c ∈ cs, c.isDigit) : '+' ∉ cs :=
  fun mem => absurd (digits '+' mem) (by decide)

/-- The numeral of a number other than zero starts with another digit. -/
lemma head?_toDigits_ne_zero (pos : 0 < n) : (Nat.toDigits 10 n).head? ≠ some '0' := by
  induction n using Nat.strongRecOn with
  | ind n ih =>
    rw [Nat.toDigits_eq_if (by decide)]
    split
    next small =>
      rw [List.head?_cons]
      intro e
      exact absurd (Nat.digitChar_eq_zero.1 (Option.some.inj e)) (Nat.ne_of_gt pos)
    next large =>
      rw [List.head?_append_of_ne_nil _ Nat.toDigits_ne_nil]
      exact ih (n / 10) (Nat.div_lt_self pos (by decide)) (Nat.div_pos (by omega) (by decide))

/-- A number is written without leading zeros. -/
lemma isPlain_toDigits (n : Nat) : IsPlain (Nat.toDigits 10 n) := by
  refine ⟨plus_notMem fun c hc => Nat.isDigit_of_mem_toDigits (by decide) (by decide) hc, ?_⟩
  rintro ⟨c, rest, e⟩
  rcases Nat.eq_zero_or_pos n with rfl | pos
  · simp [Nat.toDigits_zero] at e
  · exact head?_toDigits_ne_zero pos (by rw [e, List.head?_cons])

/-- A digit is the one that its value is written as. -/
lemma digitChar_sub (digit : c.isDigit) :
    c.toNat - '0'.toNat < 10 ∧ (c.toNat - '0'.toNat).digitChar = c := by
  obtain ⟨low, high⟩ := Char.isDigit_iff_toNat.1 digit
  have zero : '0'.toNat = 48 := rfl
  have nine : '9'.toNat = 57 := rfl
  have small : c.toNat - '0'.toNat < 10 := by omega
  refine ⟨small, Char.toNat_inj.1 ?_⟩
  rw [Nat.toNat_digitChar_of_lt_ten small]
  omega

/-- A plain numeral is the one that its value is written as. -/
lemma toDigits_ofDigitChars (proper : digits ≠ []) (all : ∀ c ∈ digits, c.isDigit)
    (plain : IsPlain digits) : Nat.toDigits 10 (Nat.ofDigitChars 10 digits 0) = digits := by
  induction digits using List.reverseRecOn with
  | nil => exact absurd rfl proper
  | append_singleton front d ih =>
    obtain ⟨small, char⟩ := digitChar_sub (all d (by simp))
    rw [Nat.ofDigitChars_append, Nat.ofDigitChars_cons, Nat.ofDigitChars_nil]
    by_cases empty : front = []
    · subst empty
      rw [Nat.ofDigitChars_nil, Nat.mul_zero, Nat.zero_add, Nat.toDigits_of_lt_base small, char]
      rfl
    · have plain' : IsPlain front := by
        refine ⟨fun mem => plain.1 (List.mem_append_left _ mem), ?_⟩
        rintro ⟨c, rest, rfl⟩
        exact plain.2 ⟨c, rest ++ [d], rfl⟩
      have written := ih empty (fun c hc => all c (List.mem_append_left _ hc)) plain'
      have pos : 0 < Nat.ofDigitChars 10 front 0 := by
        refine Nat.pos_of_ne_zero fun zero => plain.2 ⟨d, [], ?_⟩
        rw [zero, Nat.toDigits_zero] at written
        rw [← written]
        rfl
      rw [← Nat.toDigits_append_toDigits (by decide) pos small, written,
        Nat.toDigits_of_lt_base small, char]

end Decimal

/-! ## Arcs -/

namespace Arc

/-- The text is a numeral of a number of at most 32 bits. -/
def IsNumeral (text : List Char) : Prop := ∃ value < UInt32.size, Decimal.IsNumeral text value

/-- The text is a numeral of the arc. -/
def IsWritten (text : List Char) (a : Arc) : Prop := Decimal.IsNumeral text a.toNat

variable {cs : List Char} {a : Arc} {n : Nat}

/-- An arc has the value that it is made of, and there is none for greater numbers. -/
lemma ofNat?_eq_some_iff : ofNat? n = some a ↔ n = a.toNat := by
  rw [ofNat?]
  constructor
  · split
    next small =>
      rintro ⟨⟩
      exact (UInt32.toNat_ofNat_of_lt' small).symm
    next => rintro ⟨⟩
  · rintro rfl
    rw [if_pos a.toNat_lt, UInt32.ofNat_toNat]

/-- An arc is read from digits if their value is in range. -/
lemma ofDigits?_eq_some_iff : ofDigits? cs = some a ↔
    cs ≠ [] ∧ (∀ c ∈ cs, c.isDigit) ∧ a.toNat = Nat.ofDigitChars 10 cs 0 := by
  rw [ofDigits?, Option.bind_eq_some_iff]
  simp only [Decimal.value?_eq_some_iff, ofNat?_eq_some_iff]
  constructor
  · rintro ⟨_, ⟨proper, all, rfl⟩, e⟩
    exact ⟨proper, all, e.symm⟩
  · rintro ⟨proper, all, e⟩
    exact ⟨_, ⟨proper, all, rfl⟩, e.symm⟩

/-- An arc is read off its numerals and off nothing else. -/
lemma read?_eq_some_iff : read? cs = some a ↔ IsWritten cs a := by
  unfold read?
  split
  next cs =>
    rw [ofDigits?_eq_some_iff]
    constructor
    · rintro ⟨proper, all, e⟩
      exact ⟨['+'], cs, rfl, .inr rfl, proper, all, e⟩
    · rintro ⟨sign, digits, split, rfl | rfl, proper, all, e⟩
      · rw [List.nil_append] at split
        exact absurd (split ▸ List.mem_cons_self) (Decimal.plus_notMem all)
      · obtain rfl := (List.cons.inj split).2
        exact ⟨proper, all, e⟩
  next noPlus =>
    rw [ofDigits?_eq_some_iff]
    constructor
    · rintro ⟨proper, all, e⟩
      exact ⟨[], cs, rfl, .inl rfl, proper, all, e⟩
    · rintro ⟨sign, digits, rfl, rfl | rfl, proper, all, e⟩
      · exact ⟨proper, all, e⟩
      · exact absurd rfl (noPlus digits)

/-- A text is a numeral if it is one of some arc. -/
lemma isNumeral_iff : IsNumeral cs ↔ ∃ a, IsWritten cs a := by
  constructor
  · rintro ⟨value, lt, h⟩
    obtain ⟨a, rfl⟩ : ∃ a : Arc, a.toNat = value := ⟨.ofNat value, UInt32.toNat_ofNat_of_lt' lt⟩
    exact ⟨a, h⟩
  · rintro ⟨a, h⟩
    exact ⟨a.toNat, a.toNat_lt, h⟩

/-- No arc is read off what is no numeral of 32 bits. -/
lemma read?_eq_none_iff : read? cs = none ↔ ¬IsNumeral cs := by
  simp only [isNumeral_iff, ← read?_eq_some_iff, Option.eq_none_iff_forall_ne_some, not_exists,
    ne_eq]

/-- A numeral is that of one arc. -/
lemma IsWritten.unique {b : Arc} (h : IsWritten cs a) (h' : IsWritten cs b) : a = b :=
  Option.some.inj ((read?_eq_some_iff.2 h).symm.trans (read?_eq_some_iff.2 h'))

/-- An arc is shown by its digits. -/
lemma toList_text (a : Arc) : a.text.toList = Nat.toDigits 10 a.toNat := Nat.toList_repr

/-- What is shown of an arc is a numeral of it. -/
lemma isWritten_text (a : Arc) : IsWritten a.text.toList a := by
  rw [toList_text]
  refine ⟨[], _, rfl, .inl rfl, Nat.toDigits_ne_nil, fun c hc => ?_, ?_⟩
  · exact Nat.isDigit_of_mem_toDigits (by decide) (by decide) hc
  · exact Nat.ofDigitChars_ten_toDigits.symm

/-- There is no dot in the text of an arc. -/
lemma dot_notMem_text (a : Arc) : '.' ∉ a.text.toList := by
  rw [toList_text]
  exact fun mem => absurd (Nat.isDigit_of_mem_toDigits (by decide) (by decide) mem) (by decide)

/-- Of the numerals of an arc it is the plain one that is written. -/
lemma IsWritten.eq_text_iff (h : IsWritten cs a) : cs = a.text.toList ↔ Decimal.IsPlain cs := by
  rw [toList_text]
  constructor
  · rintro rfl
    exact Decimal.isPlain_toDigits _
  · intro plain
    obtain ⟨sign, digits, rfl, rfl | rfl, proper, all, e⟩ := h
    · rw [e]
      exact (Decimal.toDigits_ofDigitChars proper all plain).symm
    · exact absurd (List.mem_cons_self ..) plain.1

end Arc

/-! ## Parts -/

/-- A mapped result is good if the result is and the map takes it there. -/
lemma except_map_eq_ok_iff {ε α β : Type} {f : α → β} {x : Except ε α} {b : β} :
    x.map f = .ok b ↔ ∃ a, x = .ok a ∧ f a = b := by
  cases x <;> simp [Except.map]

/-- A map leaves errors as they are. -/
lemma except_map_eq_error_iff {ε α β : Type} {f : α → β} {x : Except ε α} {e : ε} :
    x.map f = .error e ↔ x = .error e := by
  cases x <;> simp [Except.map]

namespace Oid

/-- The texts between the dots. The empty text has none. -/
def dottedParts (s : String) : List (List Char) :=
  if s.isEmpty then [] else s.toList.splitOn '.'

section Reading

variable {p : List Char} {ps : List (List Char)} {as : List Arc} {position : Nat}
  {e : DottedError} {s : String} {o : Oid}

/-- A numeral is read as its arc, and reading goes on behind it. -/
lemma readParts_cons_of_isWritten {a : Arc} (h : Arc.IsWritten p a) :
    readParts position (p :: ps) = (readParts (position + 1) ps).map (a :: ·) := by
  rw [readParts, Arc.read?_eq_some_iff.2 h]

/-- Anything else is an error at its position. -/
lemma readParts_cons_of_not_isNumeral (h : ¬Arc.IsNumeral p) :
    readParts position (p :: ps) = .error ⟨position⟩ := by
  rw [readParts, Arc.read?_eq_none_iff.2 h]

/-- Parts are read if each of them is a numeral, and then give the arcs of these. -/
lemma readParts_eq_ok_iff :
    readParts position ps = .ok as ↔ List.Forall₂ Arc.IsWritten ps as := by
  induction ps generalizing position as with
  | nil =>
    rw [readParts, List.forall₂_nil_left_iff, Except.ok.injEq]
    exact eq_comm
  | cons p ps ih =>
    rw [List.forall₂_cons_left_iff]
    by_cases numeral : Arc.IsNumeral p
    · obtain ⟨a, written⟩ := Arc.isNumeral_iff.1 numeral
      rw [readParts_cons_of_isWritten written, except_map_eq_ok_iff]
      constructor
      · rintro ⟨bs, read, rfl⟩
        exact ⟨a, bs, written, ih.1 read, rfl⟩
      · rintro ⟨b, bs, written', rest, rfl⟩
        obtain rfl : a = b := written.unique written'
        exact ⟨bs, ih.2 rest, rfl⟩
    · rw [readParts_cons_of_not_isNumeral numeral]
      refine iff_of_false nofun ?_
      rintro ⟨a, -, written, -⟩
      exact numeral (Arc.isNumeral_iff.2 ⟨a, written⟩)

/-- Parts are refused at the first of them that is no numeral. -/
lemma readParts_eq_error_iff : readParts position ps = .error e ↔
    ∃ i p, e.position = position + i ∧ ps[i]? = some p ∧ ¬Arc.IsNumeral p ∧
      ∀ q ∈ ps.take i, Arc.IsNumeral q := by
  induction ps generalizing position with
  | nil => simp [readParts]
  | cons p ps ih =>
    by_cases numeral : Arc.IsNumeral p
    · obtain ⟨a, written⟩ := Arc.isNumeral_iff.1 numeral
      rw [readParts_cons_of_isWritten written, except_map_eq_error_iff, ih]
      constructor
      · rintro ⟨i, q, at_, hq, fault, before⟩
        refine ⟨i + 1, q, by omega, hq, fault, ?_⟩
        rw [List.take_succ_cons, List.forall_mem_cons]
        exact ⟨numeral, before⟩
      · rintro ⟨_ | i, q, at_, hq, fault, before⟩
        · obtain rfl : p = q := Option.some.inj hq
          exact absurd numeral fault
        · rw [List.take_succ_cons, List.forall_mem_cons] at before
          exact ⟨i, q, by omega, hq, fault, before.2⟩
    · rw [readParts_cons_of_not_isNumeral numeral]
      constructor
      · rintro ⟨⟩
        exact ⟨0, p, rfl, rfl, numeral, List.forall_mem_nil _⟩
      · rintro ⟨_ | i, q, at_, -, -, before⟩
        · exact congrArg Except.error (congrArg DottedError.mk at_.symm)
        · exact absurd (before p (by simp)) numeral

/-- Parts that are read as arcs are numerals. -/
lemma isNumeral_of_forall₂ (h : List.Forall₂ Arc.IsWritten ps as) : ∀ p ∈ ps, Arc.IsNumeral p := by
  induction h with
  | nil => exact List.forall_mem_nil _
  | cons here _ ih => exact List.forall_mem_cons.2 ⟨Arc.isNumeral_iff.2 ⟨_, here⟩, ih⟩

/-- Numerals are what their arcs are written as if they are plain. -/
lemma eq_texts_iff (h : List.Forall₂ Arc.IsWritten ps as) :
    (ps = as.map fun a => a.text.toList) ↔ ∀ p ∈ ps, Decimal.IsPlain p := by
  induction h with
  | nil => simp
  | cons here _ ih =>
    rw [List.map_cons, List.cons.injEq, here.eq_text_iff, List.forall_mem_cons]
    exact and_congr_right fun _ => ih

/-- A text is read part by part. -/
lemma ofDotted_eq (s : String) : ofDotted s = (readParts 0 (dottedParts s)).map Oid.mk := by
  unfold ofDotted dottedParts
  split <;> rfl

/-- A text is read as an OID if its parts are numerals of the arcs. -/
lemma ofDotted_eq_ok_iff :
    ofDotted s = .ok o ↔ List.Forall₂ Arc.IsWritten (dottedParts s) o.arcs := by
  rw [ofDotted_eq, except_map_eq_ok_iff]
  constructor
  · rintro ⟨as, read, rfl⟩
    exact readParts_eq_ok_iff.1 read
  · exact fun written => ⟨o.arcs, readParts_eq_ok_iff.2 written, rfl⟩

/-- The error is the position of the first part that is no numeral. -/
lemma ofDotted_eq_error_iff : ofDotted s = .error e ↔
    ∃ p, (dottedParts s)[e.position]? = some p ∧ ¬Arc.IsNumeral p ∧
      ∀ q ∈ (dottedParts s).take e.position, Arc.IsNumeral q := by
  rw [ofDotted_eq, except_map_eq_error_iff, readParts_eq_error_iff]
  simp only [Nat.zero_add, exists_and_left, exists_eq_left']

end Reading

/-! ## Writing -/

section Writing

variable {s : String} {o : Oid}

/-- The text of an OID has dots between the texts of its arcs. -/
lemma toList_dotted (o : Oid) :
    o.dotted.toList = ['.'].intercalate (o.arcs.map fun a => a.text.toList) := by
  rw [dotted, String.toList_intercalate, List.map_map]
  rfl

/-- A text is its parts with dots between them. -/
lemma intercalate_dottedParts (s : String) : ['.'].intercalate (dottedParts s) = s.toList := by
  unfold dottedParts
  split
  next empty =>
    rw [String.isEmpty_iff.1 empty]
    rfl
  next => exact List.intercalate_splitOn '.'

/-- The parts of a written OID are its arcs. -/
lemma dottedParts_dotted (o : Oid) :
    dottedParts o.dotted = o.arcs.map fun a => a.text.toList := by
  by_cases none : o.arcs = []
  · rw [dottedParts, dotted, none]
    rfl
  have dotless : ∀ p ∈ o.arcs.map fun a => a.text.toList, '.' ∉ p := by
    rw [List.forall_mem_map]
    exact fun a _ => Arc.dot_notMem_text a
  have split := List.splitOn_intercalate '.' dotless (mt List.map_eq_nil_iff.1 none)
  rw [← toList_dotted] at split
  rw [dottedParts, if_neg, split]
  intro empty
  rw [String.isEmpty_iff.1 empty] at split
  have mem : [] ∈ o.arcs.map fun a => a.text.toList := split ▸ List.mem_singleton_self []
  obtain ⟨a, -, nothing⟩ := List.mem_map.1 mem
  rw [Arc.toList_text] at nothing
  exact Nat.toDigits_ne_nil nothing

/-- The text of an OID is read as the OID. -/
lemma ofDotted_dotted (o : Oid) : ofDotted o.dotted = .ok o := by
  rw [ofDotted_eq_ok_iff, dottedParts_dotted, List.forall₂_map_left_iff, List.forall₂_same]
  exact fun a _ => Arc.isWritten_text a

/-- A text is that of an OID if its parts are the texts of the arcs. -/
lemma dotted_eq_iff : o.dotted = s ↔ dottedParts s = o.arcs.map fun a => a.text.toList := by
  constructor
  · rintro rfl
    exact dottedParts_dotted o
  · intro parts
    rw [← String.toList_inj, toList_dotted, ← parts, intercalate_dottedParts]

/-- Reading and writing an OID changes no text but one with parts that are not plain. -/
lemma dotted_eq_iff_of_ofDotted (h : ofDotted s = .ok o) :
    o.dotted = s ↔ ∀ p ∈ dottedParts s, Decimal.IsPlain p := by
  rw [dotted_eq_iff]
  exact eq_texts_iff (ofDotted_eq_ok_iff.1 h)

end Writing

/-- How a text is read as an OID, and what is lost when it is written again. -/
structure ReadsDotted (s : String) : Prop where
  /-- A text is accepted if its parts are numerals of at most 32 bits. -/
  accepted : (∃ o, ofDotted s = .ok o) ↔ ∀ p ∈ dottedParts s, Arc.IsNumeral p
  /-- Then the arcs are the values of the parts, in order. -/
  arcs : ∀ o, ofDotted s = .ok o ↔ List.Forall₂ Arc.IsWritten (dottedParts s) o.arcs
  /-- Otherwise the error has the position of the first part that is no such numeral. -/
  refused : ∀ e, ofDotted s = .error e ↔ ∃ p, (dottedParts s)[e.position]? = some p ∧
    ¬Arc.IsNumeral p ∧ ∀ q ∈ (dottedParts s).take e.position, Arc.IsNumeral q
  /-- An accepted text is written again as it was if no part has a plus sign or a zero in front of
  another digit. -/
  rewritten : ∀ o, ofDotted s = .ok o → (o.dotted = s ↔ ∀ p ∈ dottedParts s, Decimal.IsPlain p)

/-- The reader of the dotted notation does what is asked of it on every text. -/
lemma readsDotted (s : String) : ReadsDotted s where
  accepted := by
    constructor
    · rintro ⟨o, h⟩
      exact isNumeral_of_forall₂ (ofDotted_eq_ok_iff.1 h)
    · intro all
      cases h : ofDotted s with
      | ok o => exact ⟨o, rfl⟩
      | error e =>
        obtain ⟨p, hp, fault, -⟩ := ofDotted_eq_error_iff.1 h
        exact absurd (all p (List.mem_of_getElem? hp)) fault
  arcs _ := ofDotted_eq_ok_iff
  refused _ := ofDotted_eq_error_iff
  rewritten _ := dotted_eq_iff_of_ofDotted

end Oid

/-- Dotted notation is a faithful code for OIDs: what is written is read back, and a text is read if
it consists of numerals, so the text of a node's OID leads to the assignment that the OID itself
leads to. -/
theorem Mib.lookupDotted_dotted (mib : Mib) (o : Oid) (s : String) :
    Oid.ofDotted o.dotted = .ok o ∧ Oid.ReadsDotted s ∧
      ∀ n, mib.lookupDotted? (mib.oidOf n).dotted = mib.lookupOid? (mib.oidOf n) := by
  refine ⟨Oid.ofDotted_dotted o, Oid.readsDotted s, fun n => ?_⟩
  rw [Mib.lookupDotted?, Oid.ofDotted_dotted]
  rfl

end MibCorpus
