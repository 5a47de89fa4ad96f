import MibCorpus.Proofs.Claims

/-!
# Prefixes of OIDs

In the order of OIDs a prefix comes before what it is a prefix of, and nothing stands between an OID
and what lies below it but other OIDs below it. So prefixes that are collected claim by claim, each
where it is met first, come in the order of OIDs if the claims do.
-/

namespace MibCorpus

namespace Oid

/-- Identifier `o` comes before `p`. -/
def Before (o p : Oid) : Prop := compare o p = .lt

/-- Identifier `o` lies at or above `p`. -/
def Above (o p : Oid) : Prop := o.arcs <+: p.arcs

/-- The test for a prefix says whether an OID is above another. -/
lemma isPrefixOf_iff {o p : Oid} : o.isPrefixOf p = true ↔ o.Above p := List.isPrefixOf_iff_prefix

/-- The root is above all OIDs. -/
lemma root_above (o : Oid) : root.Above o := List.nil_prefix

/-- An OID counts as above itself. -/
lemma Above.refl (o : Oid) : o.Above o := List.prefix_rfl

/-- What is above an OID is above all those below it. -/
lemma Above.trans {o p q : Oid} (h : o.Above p) (h' : p.Above q) : o.Above q :=
  List.IsPrefix.trans h h'

/-- An OID is above those that it is extended to. -/
lemma above_extend (o : Oid) (as : List Arc) : o.Above (o.extend as) := List.prefix_append ..

/-- An OID is above its children. -/
lemma above_child (o : Oid) (a : Arc) : o.Above (o.child a) := List.prefix_append ..

/-- What an OID is above of, it can be extended to. -/
lemma Above.exists_extend {o p : Oid} (h : o.Above p) : ∃ as, p = o.extend as := by
  obtain ⟨as, e⟩ := h
  exact ⟨as, by rw [extend, e]⟩

/-- No two OIDs are above each other. -/
lemma Above.antisymm {o p : Oid} (h : o.Above p) (h' : p.Above o) : o = p := by
  cases o
  cases p
  exact congrArg Oid.mk (h.eq_of_length_le h'.length_le)

/-- What lies above a child is the child or lies above its parent. -/
lemma above_child_iff {o p : Oid} {a : Arc} : p.Above (o.child a) ↔ p = o.child a ∨ p.Above o := by
  constructor
  · intro h
    rcases List.prefix_concat_iff.1 h with e | h
    · cases p
      exact .inl (congrArg Oid.mk e)
    · exact .inr h
  · rintro (rfl | h)
    · exact .refl _
    · exact h.trans (above_child o a)

/-- Extending a child is extending the OID by the arc of the child and the others. -/
lemma child_extend (o : Oid) (a : Arc) (as : List Arc) :
    (o.child a).extend as = o.extend (a :: as) := by
  simp [child, extend]

/-- A child is not the root. -/
lemma child_ne_root (o : Oid) (a : Arc) : o.child a ≠ root := by
  intro e
  have arcs := congrArg Oid.arcs e
  simp [root] at arcs

/-- A child is not its parent. -/
lemma ne_child (o : Oid) (a : Arc) : o ≠ o.child a := by
  intro e
  have arcs := congrArg (List.length ∘ Oid.arcs) e
  simp at arcs

/-- Every OID is an extension of the root. -/
lemma root_extend (o : Oid) : root.extend o.arcs = o := rfl

/-- Every identifier but the root is that of a child. -/
lemma exists_child {o : Oid} (h : o ≠ root) : ∃ (p : Oid) (a : Arc), o = p.child a := by
  rcases o with ⟨as⟩
  rcases List.eq_nil_or_concat as with rfl | ⟨bs, a, rfl⟩
  · exact absurd rfl h
  · exact ⟨⟨bs⟩, a, by rw [child, List.concat_eq_append]⟩

/-! ## The order -/

/-- The first arcs that differ decide. -/
lemma compareLex_cons_cons (a b : Arc) (as bs : List Arc) :
    List.compareLex compare (a :: as) (b :: bs) =
      if a = b then List.compareLex compare as bs else compare a b := by
  rw [List.compareLex]
  split
  next h => rw [if_neg (by rintro rfl; simp at h), h]
  next h => rw [if_pos (by simpa using h)]
  next h => rw [if_neg (by rintro rfl; simp at h), h]

/-- What two OIDs begin with in common does not count. -/
lemma compareLex_append (cs as bs : List Arc) :
    List.compareLex compare (cs ++ as) (cs ++ bs) = List.compareLex compare as bs := by
  induction cs with
  | nil => rfl
  | cons c cs ih => rw [List.cons_append, List.cons_append, compareLex_cons_cons, if_pos rfl, ih]

/-- Below one identifier the order is that of the paths. -/
lemma before_extend_iff {o : Oid} {as bs : List Arc} :
    (o.extend as).Before (o.extend bs) ↔ List.compareLex compare as bs = .lt := by
  change List.compareLex compare (o.arcs ++ as) (o.arcs ++ bs) = .lt ↔ _
  rw [compareLex_append]

/-- Identifiers below different children come in the order of the children. -/
lemma before_of_arc_lt (o : Oid) {a b : Arc} (h : a < b) (as bs : List Arc) :
    (o.extend (a :: as)).Before (o.extend (b :: bs)) := by
  have ne : a ≠ b := by
    rintro rfl
    exact Nat.lt_irrefl _ h
  rw [before_extend_iff, compareLex_cons_cons, if_neg ne]
  exact Std.compare_eq_lt.2 h

/-- An identifier comes before those below it. -/
lemma Above.before {o p : Oid} (h : o.Above p) (ne : o ≠ p) : o.Before p := by
  obtain ⟨as, rfl⟩ := h.exists_extend
  cases as with
  | nil => exact absurd (by simp [extend]) ne
  | cons a as =>
    have e : o.extend [] = o := by simp [extend]
    have lt : (o.extend []).Before (o.extend (a :: as)) := before_extend_iff.2 rfl
    rwa [e] at lt

/-- What comes before an OID comes before all those that it comes before. -/
lemma Before.trans {o p q : Oid} (h : o.Before p) (h' : p.Before q) : o.Before q :=
  compare_lt_trans h h'

/-- OIDs of which one comes before the other are different. -/
lemma Before.ne {o p : Oid} (h : o.Before p) : o ≠ p := by
  refine ne_of_compare_ne ?_
  rw [show compare o p = .lt from h]
  decide

/-- No OID comes before itself. -/
lemma not_before_self (o : Oid) : ¬o.Before o := fun h => h.ne rfl

/-- Of two OIDs one comes before the other, unless they are the same. -/
lemma before_trichotomy (o p : Oid) : o.Before p ∨ o = p ∨ p.Before o := by
  cases h : compare o p with
  | lt => exact .inl h
  | eq => exact .inr (.inl (compare_eq_iff.1 h))
  | gt => exact .inr (.inr (compare_gt_iff.1 h))

/-- Of two identifiers in order the first lies above the second or they part at some arc. -/
lemma Before.cases {o p : Oid} (h : o.Before p) :
    o.Above p ∨ ∃ q a b as bs, a < b ∧ o = extend q (a :: as) ∧ p = extend q (b :: bs) := by
  have arcs : ∀ as bs : List Arc, List.compareLex compare as bs = .lt → as <+: bs ∨
      ∃ cs a b as' bs', a < b ∧ as = cs ++ a :: as' ∧ bs = cs ++ b :: bs' := by
    intro as
    induction as with
    | nil => exact fun bs _ => .inl List.nil_prefix
    | cons a as ih =>
      intro bs h
      cases bs with
      | nil => cases h
      | cons b bs =>
        rw [compareLex_cons_cons] at h
        split at h
        next e =>
          subst e
          rcases ih bs h with above | ⟨cs, c, d, as', bs', lt, rfl, rfl⟩
          · exact .inl (List.cons_prefix_cons.2 ⟨rfl, above⟩)
          · exact .inr ⟨a :: cs, c, d, as', bs', lt, rfl, rfl⟩
        next => exact .inr ⟨[], a, b, as, bs, Std.compare_eq_lt.1 h, rfl, rfl⟩
  obtain ⟨as⟩ := o
  obtain ⟨bs⟩ := p
  rcases arcs as bs h with above | ⟨cs, a, b, as', bs', lt, rfl, rfl⟩
  · exact .inl above
  · exact .inr ⟨⟨cs⟩, a, b, as', bs', lt, rfl, rfl⟩

/-- What comes after an identifier and does not lie below it comes after all that does. -/
lemma Before.of_above {o p q : Oid} (h : o.Before p) (apart : ¬o.Above p) (below : o.Above q) :
    q.Before p := by
  rcases h.cases with above | ⟨r, a, b, as, bs, lt, rfl, rfl⟩
  · exact absurd above apart
  · obtain ⟨cs, rfl⟩ := below.exists_extend
    have e : (r.extend (a :: as)).extend cs = r.extend (a :: (as ++ cs)) := by simp [extend]
    rw [e]
    exact before_of_arc_lt r lt _ _

end Oid

/-! ## Collecting prefixes -/

namespace Claim

/-- Some OIDs with those on the way from `path` by `as` added where they are missing. -/
def grow (os : List Oid) (path : Oid) : List Arc → List Oid
  | [] => os
  | a :: as =>
    grow (if path.child a ∈ os then os else os ++ [path.child a]) (path.child a) as

/-- The prefixes of the claimed OIDs in the order in which they are met. -/
def prefixes (cs : List Claim) : List Oid := cs.foldl (fun os c => grow os .root c.1.arcs) []

/-- Whatever lies above one of the OIDs is one of them, the root aside. -/
def Closed (os : List Oid) : Prop := ∀ o ∈ os, ∀ p : Oid, p.Above o → p ≠ .root → p ∈ os

/-- A list of OIDs with all their parents can be extended by a child of one of them. -/
lemma Closed.add {os : List Oid} (h : Closed os) {path : Oid}
    (known : path = .root ∨ path ∈ os) (a : Arc) : Closed (os ++ [path.child a]) := by
  intro o ho p hp ne
  rcases List.mem_append.1 ho with ho | ho
  · exact List.mem_append_left _ (h o ho p hp ne)
  · obtain rfl := List.mem_singleton.1 ho
    rcases Oid.above_child_iff.1 hp with rfl | hp
    · exact List.mem_append_right _ (List.mem_singleton_self _)
    · rcases known with rfl | known
      · exact absurd (hp.antisymm (Oid.root_above p)) ne
      · exact List.mem_append_left _ (h path known p hp ne)

/-- What is added on the way from one OID to another is what lies between them. -/
lemma mem_grow {os : List Oid} {path o : Oid} {as : List Arc} :
    o ∈ grow os path as ↔ o ∈ os ∨ path.Above o ∧ path ≠ o ∧ o.Above (path.extend as) := by
  induction as generalizing os path with
  | nil =>
    rw [grow, show path.extend [] = path by simp [Oid.extend]]
    constructor
    · exact .inl
    · rintro (h | ⟨below, ne, above⟩)
      · exact h
      · exact absurd (below.antisymm above) ne
  | cons a as ih =>
    have step : o ∈ (if path.child a ∈ os then os else os ++ [path.child a]) ↔
        o ∈ os ∨ o = path.child a := by
      split
      next h =>
        refine ⟨.inl, ?_⟩
        rintro (ho | rfl)
        · exact ho
        · exact h
      next => simp
    rw [grow, ih, step, Oid.child_extend, or_assoc]
    refine or_congr_right ⟨?_, ?_⟩
    · rintro (rfl | ⟨below, -, above⟩)
      · refine ⟨Oid.above_child path a, Oid.ne_child path a, ?_⟩
        rw [← Oid.child_extend]
        exact Oid.above_extend _ _
      · refine ⟨(Oid.above_child path a).trans below, ?_, above⟩
        rintro rfl
        exact Oid.ne_child path a ((Oid.above_child path a).antisymm below)
    · rintro ⟨below, ne, above⟩
      obtain ⟨bs, rfl⟩ := below.exists_extend
      cases bs with
      | nil => exact absurd (by simp [Oid.extend]) ne
      | cons b bs =>
        -- What is below the path and above the whole goes on with the arc that comes next.
        have inner : b :: bs <+: a :: as := by
          have arcs : path.arcs ++ b :: bs <+: path.arcs ++ a :: as := above
          exact (List.prefix_append_right_inj _).1 arcs
        obtain ⟨rfl, -⟩ := List.cons_prefix_cons.1 inner
        by_cases e : path.child b = path.extend (b :: bs)
        · exact .inl e.symm
        · refine .inr ⟨?_, e, above⟩
          rw [← Oid.child_extend]
          exact Oid.above_extend _ _

/-- What is added on such a way has its parents in the list. -/
lemma closed_grow {os : List Oid} (h : Closed os) {path : Oid} (known : path = .root ∨ path ∈ os)
    (as : List Arc) : Closed (grow os path as) := by
  induction as generalizing os path with
  | nil => exact h
  | cons a as ih =>
    rw [grow]
    split
    next mem => exact ih h (.inr mem)
    next => exact ih (h.add known a) (.inr (by simp))

/-- A prefix of the next claim that is new comes after all OIDs that are there. -/
lemma Closed.before_new {os : List Oid} (h : Closed os) {p c : Oid} (new : p ∉ os)
    (ne : p ≠ .root) (above : p.Above c) (next : ∀ q ∈ os, q = c ∨ q.Before c) :
    ∀ q ∈ os, q.Before p := by
  intro q hq
  rcases Oid.before_trichotomy q p with lt | rfl | gt
  · exact lt
  · exact absurd hq new
  · -- Otherwise it would part from an OID that is there, and the claim would come before that.
    have apart : ¬p.Above q := fun hp => new (h q hq p hp ne)
    have after := gt.of_above apart above
    rcases next q hq with rfl | lt
    · exact absurd after (Oid.not_before_self q)
    · exact absurd (after.trans lt) (Oid.not_before_self c)

/-- Sorted OIDs stay so if the last one on the way is not before any of them. -/
lemma sorted_grow {os : List Oid} {path : Oid} {as : List Arc} (sorted : os.Pairwise Oid.Before)
    (closed : Closed os) (known : path = .root ∨ path ∈ os)
    (next : ∀ q ∈ os, q = path.extend as ∨ q.Before (path.extend as)) :
    (grow os path as).Pairwise Oid.Before := by
  induction as generalizing os path with
  | nil => exact sorted
  | cons a as ih =>
    rw [← Oid.child_extend] at next
    have above : (path.child a).Above ((path.child a).extend as) := Oid.above_extend _ _
    rw [grow]
    split
    next mem => exact ih sorted closed (.inr mem) next
    next new =>
      refine ih ?_ (closed.add known a) (.inr (by simp)) ?_
      · have last := closed.before_new new (Oid.child_ne_root path a) above next
        refine List.pairwise_append.2 ⟨sorted, List.pairwise_singleton _ _, ?_⟩
        intro q hq p hp
        obtain rfl := List.mem_singleton.1 hp
        exact last q hq
      · intro q hq
        rcases List.mem_append.1 hq with hq | hq
        · exact next q hq
        · obtain rfl := List.mem_singleton.1 hq
          by_cases e : path.child a = (path.child a).extend as
          · exact .inl e
          · exact .inr (above.before e)

/-- The prefixes of sorted claims: they come in order, and they are what their name says. -/
structure ArePrefixes (cs : List Claim) (os : List Oid) : Prop where
  sorted : os.Pairwise Oid.Before
  closed : Closed os
  mem : ∀ o, o ∈ os ↔ o ≠ .root ∧ ∃ c ∈ cs, o.Above c.1

/-- The prefixes of claims in the order of their OIDs come in the order of OIDs. -/
theorem Sorted.arePrefixes {cs : List Claim} (h : Sorted cs) : ArePrefixes cs (prefixes cs) := by
  induction cs using List.reverseRecOn with
  | nil => exact ⟨.nil, nofun, fun o => by simp [Claim.prefixes]⟩
  | append_singleton cs c ih =>
    obtain ⟨before, -, last⟩ := List.pairwise_append.1 h
    have ih := ih before
    have step : Claim.prefixes (cs ++ [c]) = grow (Claim.prefixes cs) .root c.1.arcs := by
      rw [Claim.prefixes, List.foldl_append]
      rfl
    have next : ∀ q ∈ Claim.prefixes cs, q = c.1 ∨ q.Before c.1 := by
      intro q hq
      obtain ⟨-, c', hc', above⟩ := (ih.mem q).1 hq
      have lt : c'.1.Before c.1 := last c' hc' c (List.mem_singleton_self c)
      by_cases e : q = c'.1
      · exact .inr (e ▸ lt)
      · exact .inr ((above.before e).trans lt)
    rw [step]
    refine ⟨sorted_grow ih.sorted ih.closed (.inl rfl) next, closed_grow ih.closed (.inl rfl) _,
      fun o => ?_⟩
    rw [mem_grow, ih.mem, Oid.root_extend]
    simp only [List.mem_append, List.mem_singleton, or_and_right, exists_or, exists_eq_left]
    constructor
    · rintro (⟨ne, hc⟩ | ⟨-, ne, above⟩)
      · exact ⟨ne, .inl hc⟩
      · exact ⟨ne.symm, .inr above⟩
    · rintro ⟨ne, hc | above⟩
      · exact .inl ⟨ne, hc⟩
      · exact .inr ⟨Oid.root_above o, ne.symm, above⟩

end Claim

end MibCorpus
