import MibCorpus.Proofs.RenderedBlocks

/-!
# Reading types back

A SYNTAX can be read back from the nodes that render it, without following any reference. What is
read is the SYNTAX with those constraints that are on the nodes, in which single values are spelled
out as ranges. Under a constraint that stands directly behind another one the other one is lost, and
so is what the check does not pass; if there are no such constraints and every range can hold, the
SYNTAX is read as it was written, but for constraints without ranges.
-/

namespace MibCorpus

/-! ## Spelling ranges out -/

/-- A bound as it is written: numbers below zero have a sign. -/
def WrittenBound.ofBound : RangeBound → WrittenBound
  | .min => .min
  | .value v => if v < 0 then .signed v else .unsigned v.toNat
  | .max => .max

/-- A range as it is written, with both of its ends. -/
def WrittenRange.ofRange (r : ConstraintRange) : WrittenRange :=
  ⟨.ofBound r.lower, some (.ofBound r.upper)⟩

/-- A constraint as it is written, with both ends of each range. -/
def WrittenConstraint.ofConstraint : Constraint → WrittenConstraint
  | .size rs => .size (rs.map .ofRange)
  | .value rs => .value (rs.map .ofRange)

/-- A bound is read back as it was. -/
@[simp]
lemma RangeBound.ofWritten_ofBound (b : RangeBound) : ofWritten (.ofBound b) = b := by
  cases b with
  | min | max => rfl
  | value v =>
    by_cases negative : v < 0
    · simp [WrittenBound.ofBound, negative, ofWritten]
    · have back : (v.toNat : Int) = v := by omega
      simp [WrittenBound.ofBound, negative, ofWritten, back]

/-- A range is read back as it was. -/
@[simp]
lemma ConstraintRange.ofWritten_ofRange (r : ConstraintRange) : ofWritten (.ofRange r) = r := by
  simp [ofWritten, WrittenRange.ofRange]

/-- A constraint stands for its ranges, with both of their ends written. -/
lemma WrittenConstraint.writtenRanges_ofConstraint (k : Constraint) :
    Lowering.writtenRanges (ofConstraint k) = k.ranges := by
  have same : ConstraintRange.ofWritten ∘ WrittenRange.ofRange = id :=
    funext ConstraintRange.ofWritten_ofRange
  cases k <;> simp [ofConstraint, Lowering.writtenRanges, ranges, Constraint.ranges, same]

/-- The constraint with both ends of each range. -/
def WrittenConstraint.spelledOut (c : WrittenConstraint) : WrittenConstraint :=
  ofConstraint (c.withRanges (Lowering.writtenRanges c))

/-- Spelling out a constraint keeps what it stands for. -/
lemma WrittenConstraint.writtenRanges_spelledOut (c : WrittenConstraint) :
    Lowering.writtenRanges c.spelledOut = Lowering.writtenRanges c := by
  rw [spelledOut, writtenRanges_ofConstraint, ranges_withRanges]

namespace TypeSyntax

/-- A SYNTAX with a constraint behind it, if there is one. -/
def restrict (s : TypeSyntax) : Option Constraint → TypeSyntax
  | none => s
  | some k => constrained s (.ofConstraint k)

mutual

/-- The SYNTAX with both ends of each range, and without constraints that have no ranges. -/
def spelledOut : TypeSyntax → TypeSyntax
  | constrained base c =>
    if c.ranges = [] then base.spelledOut else constrained base.spelledOut c.spelledOut
  | sequence fields => sequence (fieldsSpelledOut fields)
  | sequenceOf element => sequenceOf element.spelledOut
  | choice alternatives => choice (fieldsSpelledOut alternatives)
  | named name => named name
  | qualified module name => qualified module name
  | integer => integer
  | octetString => octetString
  | objectIdentifier => objectIdentifier
  | enumeration items => enumeration items
  | bits items => bits items

/-- The fields with both ends of each range, and without constraints that have no ranges. -/
def fieldsSpelledOut : List (String × TypeSyntax) → List (String × TypeSyntax)
  | [] => []
  | (label, body) :: rest => (label, body.spelledOut) :: fieldsSpelledOut rest

end

mutual

/-- What is left of a SYNTAX, but for the constraint on its topmost node. -/
def leftInside : TypeSyntax → TypeSyntax
  | constrained base _ => base.leftInside
  | sequence fields => sequence (fieldsLeft fields)
  | sequenceOf element => sequenceOf (element.leftInside.restrict element.kept?)
  | choice alternatives => choice (fieldsLeft alternatives)
  | named name => named name
  | qualified module name => qualified module name
  | integer => integer
  | octetString => octetString
  | objectIdentifier => objectIdentifier
  | enumeration items => enumeration items
  | bits items => bits items

/-- What is left of some fields. -/
def fieldsLeft : List (String × TypeSyntax) → List (String × TypeSyntax)
  | [] => []
  | (label, body) :: rest =>
    (label, body.leftInside.restrict body.kept?) :: fieldsLeft rest

end

/-- What is left of a SYNTAX. -/
def left (s : TypeSyntax) : TypeSyntax := s.leftInside.restrict s.kept?

end TypeSyntax

/-! ## Reading -/

namespace Mib

/-- The named numbers over the node of a builtin type that has some. -/
def readEnumeration? (mib : Mib) (base : TypeId) (values : List NamedValue) : Option TypeSyntax :=
  let items := values.map fun v => (mib.str v.name, v.value)
  match mib.writtenShape? base, mib.constraint? base with
  | some (.builtin .integer), none => some (.enumeration items)
  | some (.builtin .bits), none => some (.bits (items.map fun i => (i.1, i.2.toNat)))
  | _, _ => none

/-- The SYNTAX that is rendered by a node and at most `n - 1` levels of nodes below. -/
def readDown? (mib : Mib) : Nat → TypeId → Option TypeSyntax
  | 0, _ => none
  | n + 1, t =>
    let field (f : Field) := (mib.readDown? n f.type).map (mib.str f.name, ·)
    let inside : Option TypeSyntax := match mib.writtenShape? t with
      | some (.builtin .integer) => some .integer
      | some (.builtin .octetString) => some .octetString
      | some (.builtin .objectIdentifier) => some .objectIdentifier
      | some (.reference symbol none _ _) => some (.named (mib.str symbol))
      | some (.reference symbol (some module) _ _) =>
        some (.qualified (mib.str module) (mib.str symbol))
      | some (.enumeration base values) => mib.readEnumeration? base values
      | some (.sequence fields) => (fields.mapM field).map .sequence
      | some (.sequenceOf element) => (mib.readDown? n element).map .sequenceOf
      | some (.choice fields) => (fields.mapM field).map .choice
      | some (.builtin .bits) | some (.textualConvention ..) | none => none
    inside.map (·.restrict (mib.constraint? t))

/-- The SYNTAX that a node renders. Nodes are built from earlier ones. -/
def readSyntax? (mib : Mib) (t : TypeId) : Option TypeSyntax := mib.readDown? (t.index + 1) t

/-- The hint and the status of a textual convention, if the type is one, and the SYNTAX. -/
def readType? (mib : Mib) (t : TypeId) : Option (Option (Option String × Status) × TypeSyntax) :=
  match mib.writtenShape? t, mib.constraint? t with
  | some (.textualConvention base hint status), none =>
    (mib.readSyntax? base).map (some (hint.map mib.str, status), ·)
  | _, _ => (mib.readSyntax? t).map (none, ·)

variable {mib : Mib}

/-- A node with named values over an integer is read back as an enumeration. -/
lemma readEnumeration?_integer {items : List (String × Int)} {t b : TypeId}
    {values : List NamedValue} (h : mib.Enumerates .integer items t b values) :
    mib.readEnumeration? b values = some (.enumeration items) := by
  simp only [readEnumeration?, h.base, h.bare, h.labels]

/-- A node with named values over bits is read back as bits. -/
lemma readEnumeration?_bits {items : List (String × Nat)} {t b : TypeId}
    {values : List NamedValue}
    (h : mib.Enumerates .bits (items.map fun i => (i.1, (i.2 : Int))) t b values) :
    mib.readEnumeration? b values = some (.bits items) := by
  simp only [readEnumeration?, h.base, h.bare, h.labels, List.map_map]
  congr 2
  exact (List.map_congr_left fun i _ => rfl).trans (List.map_id _)

mutual

/-- What is read is what is left, with the constraint on the node. -/
lemma readDown?_of_renders : ∀ (s : TypeSyntax) {n : Nat} {t : TypeId}, mib.Renders s t →
    t.index < n → mib.readDown? n t = some (s.leftInside.restrict (mib.constraint? t))
  | s, 0, t, _, lt => absurd lt (Nat.not_lt_zero _)
  | .constrained base c, n + 1, t, h, lt => by
    cases h with
    -- The constraint stands on the node of the base, so the base is read from the same place.
    | constrained _ rendered => exact readDown?_of_renders base rendered lt
  | .named _, n + 1, t, h, lt => by
    cases h with
    | named shape => simp only [readDown?, shape, Option.map_some, TypeSyntax.leftInside]
  | .qualified .., n + 1, t, h, lt => by
    cases h with
    | qualified shape => simp only [readDown?, shape, Option.map_some, TypeSyntax.leftInside]
  | .integer, n + 1, t, h, lt => by
    cases h with
    | integer shape => simp only [readDown?, shape, Option.map_some, TypeSyntax.leftInside]
  | .octetString, n + 1, t, h, lt => by
    cases h with
    | octetString shape => simp only [readDown?, shape, Option.map_some, TypeSyntax.leftInside]
  | .objectIdentifier, n + 1, t, h, lt => by
    cases h with
    | objectIdentifier shape =>
      simp only [readDown?, shape, Option.map_some, TypeSyntax.leftInside]
  | .enumeration items, n + 1, t, h, lt => by
    cases h with
    | enumeration enumerates =>
      simp only [readDown?, enumerates.shape, readEnumeration?_integer enumerates,
        Option.map_some, TypeSyntax.leftInside]
  | .bits items, n + 1, t, h, lt => by
    cases h with
    | bits enumerates =>
      simp only [readDown?, enumerates.shape, readEnumeration?_bits enumerates, Option.map_some,
        TypeSyntax.leftInside]
  | .sequence written, n + 1, t, h, lt => by
    cases h with
    | sequence shape rendered =>
      have fields := mapM_readDown?_of_rendersFields written rendered (Nat.le_of_lt_succ lt)
      simp only [readDown?, shape, fields, Option.map_some, TypeSyntax.leftInside]
  | .sequenceOf element, n + 1, t, h, lt => by
    cases h with
    | sequenceOf shape below rendered constraint =>
      have inner := readDown?_of_renders element rendered
        (Nat.lt_of_lt_of_le below (Nat.le_of_lt_succ lt))
      simp only [readDown?, shape, inner, Option.map_some, TypeSyntax.leftInside, constraint]
  | .choice written, n + 1, t, h, lt => by
    cases h with
    | choice shape rendered =>
      have fields := mapM_readDown?_of_rendersFields written rendered (Nat.le_of_lt_succ lt)
      simp only [readDown?, shape, fields, Option.map_some, TypeSyntax.leftInside]

/-- What is read of some fields is what is left of them. -/
lemma mapM_readDown?_of_rendersFields : ∀ (written : List (String × TypeSyntax)) {n : Nat}
    {fields : List Field} {t : TypeId}, mib.RendersFields written fields t → t.index ≤ n →
    fields.mapM (fun f => (mib.readDown? n f.type).map (mib.str f.name, ·)) =
      some (TypeSyntax.fieldsLeft written)
  | [], n, fields, t, h, le => by
    cases h with
    | nil => rfl
  | (label, body) :: rest, n, fields, t, h, le => by
    cases h with
    | cons below rendered constraint rendersRest =>
      have head := readDown?_of_renders body rendered (Nat.lt_of_lt_of_le below le)
      have tail := mapM_readDown?_of_rendersFields rest rendersRest le
      simp [List.mapM_cons, head, tail, constraint, TypeSyntax.fieldsLeft]

end

/-- From the node where a SYNTAX starts, what is left of it is read. -/
lemma Shows.readSyntax? {s : TypeSyntax} {t : TypeId} (h : mib.Shows s t) :
    mib.readSyntax? t = some s.left := by
  rw [Mib.readSyntax?, readDown?_of_renders s h.renders (Nat.lt_succ_self _), h.constraint]
  rfl

/-- No SYNTAX is rendered by a textual convention. -/
lemma Renders.ne_textualConvention {s : TypeSyntax} {t base : TypeId} {hint : Option StrId}
    {status : Status} (h : mib.Renders s t) :
    mib.writtenShape? t ≠ some (.textualConvention base hint status) := by
  intro e
  have read := readDown?_of_renders s h (Nat.lt_succ_self t.index)
  simp only [readDown?, e, Option.map_none] at read
  cases read

end Mib

/-- The hint and the status of a textual convention. -/
def Definition.convention? (x : Definition) : Option (Option String × Status) :=
  match x.clauses with
  | .textualConvention _ hint? status => some (hint?, status)
  | _ => none

/-- What is left of the SYNTAX of a definition is read from its type, in a textual convention if and
only if the definition is one. -/
lemma Mib.Shows.readType? {mib : Mib} {x : Definition} {s : TypeSyntax} {t u : TypeId}
    (h : mib.Shows s u) (wraps : x.Wraps mib t u) :
    mib.readType? t = some (x.convention?, s.left) := by
  have plain : mib.readType? u = some (none, s.left) := by
    unfold Mib.readType?
    split
    next shape _ => exact absurd shape h.renders.ne_textualConvention
    next => rw [h.readSyntax?, Option.map_some]
  obtain ⟨name, clauses, span⟩ := x
  cases clauses with
  | textualConvention body hint? status =>
    obtain ⟨⟨hint, shape, rfl⟩, bare, -⟩ := wraps
    simp only [Mib.readType?, shape, bare, h.readSyntax?, Option.map_some, Definition.convention?]
  | _ =>
    obtain rfl : t = u := wraps
    exact plain

/-! ## Reading what was written -/

/-- A covered place stays covered below one step more. -/
lemma SyntaxPlace.IsCovered.cons {p : SyntaxPlace} (h : p.IsCovered) (step : SyntaxStep) :
    SyntaxPlace.IsCovered (step :: p) := by
  cases p with
  | nil => cases h
  | cons step' p =>
    rw [IsCovered, List.getLast?_cons_cons]
    exact h

namespace TypeSyntax

variable {s s' : TypeSyntax}

/-- No constraint stands directly before another one. -/
def ConstrainedOnce (s : TypeSyntax) : Prop :=
  ∀ p base c, s.at? p = some (.constrained base c) → ¬p.IsCovered

/-- Every range in a SYNTAX can hold. -/
def AllHold (cs : List WrittenConstraint) : Prop :=
  ∀ c ∈ cs, ∀ r ∈ Lowering.writtenRanges c, r.CanHold c.isSize

/-- In a part, as in the whole, no constraint stands directly before another one. -/
lemma ConstrainedOnce.part (h : s.ConstrainedOnce) (step : SyntaxStep)
    (hs : s.part? step = some s') : s'.ConstrainedOnce := by
  intro p base c hp covered
  refine h (step :: p) base c ?_ (covered.cons step)
  rw [at?, hs, Option.bind_some, hp]

/-- Nothing is constrained before the one constraint. -/
lemma ConstrainedOnce.kept?_base {c : WrittenConstraint} (h : (constrained s c).ConstrainedOnce) :
    s.kept? = none := by
  cases s with
  | constrained base c' => exact absurd rfl (h [.base] base c' rfl)
  | _ => rfl

/-- Ranges that can hold are all kept, if there are any. -/
lemma kept?_of_canHold {c : WrittenConstraint}
    (h : ∀ r ∈ Lowering.writtenRanges c, r.CanHold c.isSize) :
    c.kept? = if c.ranges = [] then none else some (c.withRanges (Lowering.writtenRanges c)) := by
  have all : c.passed = Lowering.writtenRanges c :=
    List.filter_eq_self.2 fun r hr => decide_eq_true (.inl (h r hr))
  have empty : Lowering.writtenRanges c = [] ↔ c.ranges = [] := List.map_eq_nil_iff
  simp only [WrittenConstraint.kept?, all, empty]

mutual

/-- If no constraint stands directly before another one and all ranges can hold, then what is left
is what was written. -/
lemma left_eq_spelledOut : ∀ s : TypeSyntax, s.ConstrainedOnce → AllHold s.constraints →
    s.left = s.spelledOut
  | constrained base c, once, hold => by
    have inner := left_eq_spelledOut base (once.part .base rfl)
      fun c hc => hold c (List.mem_append_left _ hc)
    rw [left, once.kept?_base] at inner
    have kept := kept?_of_canHold (hold c (List.mem_append_right _ (List.mem_singleton_self _)))
    rw [left, TypeSyntax.kept?, kept, leftInside, spelledOut]
    rw [restrict] at inner
    split
    · exact inner
    · rw [restrict, inner, WrittenConstraint.spelledOut]
  | sequence fields, once, hold => by
    have inner := fieldsLeft_eq_fieldsSpelledOut fields
      (fun i x hx => once.part (.member i) (by simp [part?, hx])) hold
    rw [left, leftInside, inner]
    rfl
  | sequenceOf element, once, hold => by
    have inner := left_eq_spelledOut element (once.part .element rfl) hold
    rw [left, leftInside, show element.leftInside.restrict element.kept? = _ from inner]
    rfl
  | choice alternatives, once, hold => by
    have inner := fieldsLeft_eq_fieldsSpelledOut alternatives
      (fun i x hx => once.part (.member i) (by simp [part?, hx])) hold
    rw [left, leftInside, inner]
    rfl
  | named _, _, _ | qualified .., _, _ | integer, _, _ | octetString, _, _
  | objectIdentifier, _, _ | enumeration _, _, _ | bits _, _, _ => rfl

/-- In a list of fields the same holds for each of them: what is left is what was written. -/
lemma fieldsLeft_eq_fieldsSpelledOut : ∀ fields : List (String × TypeSyntax),
    (∀ (i : Nat) (x : String × TypeSyntax), fields[i]? = some x → x.2.ConstrainedOnce) →
    AllHold (fieldConstraints fields) → fieldsLeft fields = fieldsSpelledOut fields
  | [], _, _ => rfl
  | (label, body) :: rest, once, hold => by
    have head := left_eq_spelledOut body (once 0 _ rfl)
      fun c hc => hold c (List.mem_append_left _ hc)
    have tail := fieldsLeft_eq_fieldsSpelledOut rest (fun i x hx => once (i + 1) x hx)
      fun c hc => hold c (List.mem_append_right _ hc)
    rw [fieldsLeft, fieldsSpelledOut, show body.leftInside.restrict body.kept? = _ from head, tail]

end

end TypeSyntax

end MibCorpus
