import Mathlib.Data.List.Basic
import Mathlib.Data.List.Perm.Basic
import Mathlib.Tactic.Lemma
import MibCorpus.Files.Path
import MibCorpus.Proofs.Firsts

/-!
# Joining and ordering paths

A name joined to a path adds one part at the end. The order of the parts is a linear order, so paths
with different parts have one place each in a sorted list.
-/

namespace MibCorpus

/-! ## The order -/

namespace RawText

instance : Std.TransOrd RawText := inferInstanceAs (Std.TransCmp (compareOn bytes))

instance : Std.LawfulEqOrd RawText where
  eq_of_compare {a b} h := by
    have same : a.bytes = b.bytes := Std.LawfulEqOrd.eq_of_compare (α := List UInt8) h
    cases a
    cases b
    exact congrArg RawText.mk same

end RawText

namespace PathPart

/-- Parts of different kinds come in this order. -/
def rank : PathPart → Nat
  | root => 0
  | here => 1
  | up => 2
  | name _ => 3

/-- The name that a part is, if it is one. -/
def raw : PathPart → RawText
  | name s => s
  | root | here | up => .empty

/-- Parts are compared by their kinds, and names by their bytes. -/
lemma compare_eq_lex (a b : PathPart) :
    compare a b = compareLex (compareOn rank) (compareOn raw) a b := by
  cases a <;> cases b <;> rfl

instance : Std.TransOrd PathPart := by
  have lex : (compare : PathPart → PathPart → Ordering) =
      compareLex (compareOn rank) (compareOn raw) := funext₂ compare_eq_lex
  unfold Std.TransOrd
  rw [lex]
  infer_instance

instance : Std.LawfulEqOrd PathPart where
  eq_of_compare {a b} h := by
    cases a <;> cases b <;>
      first | rfl | cases h | exact congrArg name (Std.LawfulEqOrd.eq_of_compare h)

end PathPart

namespace Path

instance : Std.TransOrd Path := inferInstanceAs (Std.TransCmp (compareOn parts))

/-- A path is equal to itself in the order. -/
lemma compare_self (p : Path) : compare p p = .eq := Std.ReflCmp.compare_self

/-- Compared the other way round, paths come in the other order. -/
lemma compare_swap (p q : Path) : compare p q = (compare q p).swap := Std.OrientedCmp.eq_swap

/-- Paths are alike for the order if they have the same parts. -/
lemma parts_eq_of_compare {p q : Path} (h : compare p q = .eq) : p.parts = q.parts :=
  Std.LawfulEqOrd.eq_of_compare (α := List PathPart) h

/-- Sorting neither loses a path nor repeats one. -/
lemma perm_sort (ps : List Path) : (sort ps).Perm ps := List.mergeSort_perm ..

/-- Paths that are not the same stand in increasing order when they are sorted. -/
lemma increasing_sort {ps : List Path} (different : (ps.map parts).Nodup) :
    (sort ps).Pairwise (compare · · = .lt) := by
  have sorted : (sort ps).Pairwise fun p q => (compare p q).isLE := by
    refine List.pairwise_mergeSort (fun p q r => Std.TransCmp.isLE_trans) (fun p q => ?_) ps
    rw [compare_swap q p]
    cases compare p q <;> rfl
  have still : ((sort ps).map parts).Nodup := ((perm_sort ps).map parts).nodup_iff.2 different
  refine (sorted.and (List.pairwise_map.1 still)).imp fun {p q} h => ?_
  rcases Ordering.isLE_iff_eq_lt_or_eq_eq.1 h.1 with lt | eq
  · exact lt
  · exact absurd (parts_eq_of_compare eq) h.2

/-- There is one way to list paths in increasing order. -/
lemma eq_of_increasing {ps qs : List Path} (hp : ps.Pairwise (compare · · = .lt))
    (hq : qs.Pairwise (compare · · = .lt)) (same : ∀ p, p ∈ ps ↔ p ∈ qs) : ps = qs := by
  have irrefl : ∀ {p q : Path}, compare p q = .lt → p ≠ q := by
    rintro p _ lt rfl
    rw [compare_self] at lt
    cases lt
  have perm : ps.Perm qs := (List.perm_ext_iff_of_nodup (hp.imp irrefl) (hq.imp irrefl)).2 same
  refine perm.eq_of_pairwise (fun p q _ _ lt gt => ?_) hp hq
  rw [compare_swap, gt] at lt
  cases lt

/-! ## Joining -/

/-- The path of what names lead to from the directory at a path. -/
def joinAll (p : Path) (names : List RawText) : Path := names.foldl join p

/-- The first name is joined first. -/
lemma joinAll_cons (p : Path) (name : RawText) (names : List RawText) :
    p.joinAll (name :: names) = (p.join name).joinAll names := rfl

/-- Names are joined one after another. -/
lemma joinAll_append (p : Path) (names names' : List RawText) :
    p.joinAll (names ++ names') = (p.joinAll names).joinAll names' :=
  List.foldl_append

/-- Texts are split at each slash. -/
lemma segments_of_bytes {p : Path} {s t : List UInt8} (h : p.bytes = s ++ RawText.slash :: t) :
    p.segments =
      (s.splitOn RawText.slash).map RawText.mk ++ (t.splitOn RawText.slash).map RawText.mk := by
  rw [segments, h, List.splitOn_append_cons_self, List.map_append]

/-- There is one text between the slashes at least. -/
lemma segments_ne_nil (p : Path) : p.segments ≠ [] :=
  mt List.map_eq_nil_iff.1 (List.splitOn_ne_nil _ _)

/-- Only the empty path has no text but the empty one. -/
lemma bytes_eq_nil {p : Path} (h : p.segments = [.empty]) : p.bytes = [] := by
  obtain ⟨s, split, empty⟩ := List.map_eq_singleton_iff.1 h
  obtain rfl : s = [] := congrArg RawText.bytes empty
  have whole : [RawText.slash].intercalate (p.bytes.splitOn RawText.slash) = p.bytes :=
    List.intercalate_splitOn RawText.slash
  rw [← whole, split]
  rfl

/-- A slash comes in front of a name unless there is one already or no text at all. -/
lemma bytes_join (p : Path) (name : RawText) :
    p.bytes = [] ∧ (p.join name).bytes = name.bytes ∨
      (∃ s, p.bytes = s ++ [RawText.slash] ∧
        (p.join name).bytes = s ++ RawText.slash :: name.bytes) ∨
      p.bytes ≠ [] ∧ (p.join name).bytes = p.bytes ++ RawText.slash :: name.bytes := by
  by_cases empty : p.bytes = []
  · refine .inl ⟨empty, ?_⟩
    rw [join, if_pos (.inl empty), empty]
    rfl
  by_cases slash : p.bytes.getLast? = some RawText.slash
  · obtain ⟨s, whole⟩ := List.getLast?_eq_some_iff.1 slash
    refine .inr (.inl ⟨s, whole, ?_⟩)
    rw [join, if_pos (.inr slash), whole, List.append_assoc]
    rfl
  · refine .inr (.inr ⟨empty, ?_⟩)
    rw [join, if_neg (not_or.2 ⟨empty, slash⟩)]
    rfl

/-- A name comes behind the texts of a path. The last of them goes if it is empty. -/
lemma exists_segments_join (p : Path) {name : RawText} (noSlash : RawText.slash ∉ name.bytes) :
    ∃ base, (p.segments = base ∧ base ≠ [.empty] ∨ p.segments = base ++ [.empty]) ∧
      (p.join name).segments = base ++ [name] ∧ (p.bytes ≠ [] → base ≠ []) := by
  have last : (name.bytes.splitOn RawText.slash).map RawText.mk = [name] := by
    rw [List.splitOn_eq_singleton noSlash, List.map_singleton]
  rcases bytes_join p name with ⟨empty, join⟩ | ⟨s, bytes, join⟩ | ⟨ne_empty, join⟩
  · refine ⟨[], .inr ?_, by rw [segments, join, last, List.nil_append], absurd empty⟩
    rw [segments, empty]
    rfl
  · refine ⟨(s.splitOn RawText.slash).map RawText.mk, .inr (segments_of_bytes bytes), ?_,
      fun _ => ?_⟩
    · rw [segments_of_bytes join, last]
    · exact mt List.map_eq_nil_iff.1 (List.splitOn_ne_nil _ _)
  · refine ⟨p.segments, .inl ⟨rfl, mt bytes_eq_nil ne_empty⟩, ?_, fun _ => segments_ne_nil p⟩
    rw [segments_of_bytes join, last]
    rfl

/-- A path to which a name was joined is not empty. -/
lemma ne_empty_join {p : Path} {name : RawText} (ne_empty : name ≠ .empty) :
    (p.join name).bytes ≠ [] := by
  intro empty
  rcases bytes_join p name with ⟨-, join⟩ | ⟨s, -, join⟩ | ⟨-, join⟩
  · exact ne_empty (congrArg RawText.mk (join.symm.trans empty))
  · simp [empty] at join
  · simp [empty] at join

/-- A path stays absolute or relative when a name is joined to it. -/
lemma isAbsolute_join {p : Path} {name : RawText} (ne_empty : p.bytes ≠ []) :
    (p.join name).isAbsolute = p.isAbsolute := by
  rcases bytes_join p name with ⟨empty, -⟩ | ⟨s, bytes, join⟩ | ⟨-, join⟩
  · exact absurd empty ne_empty
  · rw [isAbsolute, isAbsolute, join, bytes]
    cases s <;> rfl
  · rw [isAbsolute, isAbsolute, join]
    cases h : p.bytes with
    | nil => exact absurd h ne_empty
    | cons => rfl

/-- A byte other than the slash is in the joined path only if it is in the path or in the name. -/
lemma notMem_join {p : Path} {name : RawText} {b : UInt8} (hp : b ∉ p.bytes)
    (hname : b ∉ name.bytes) (noSlash : b ≠ RawText.slash) : b ∉ (p.join name).bytes := by
  rcases bytes_join p name with ⟨-, join⟩ | ⟨s, bytes, join⟩ | ⟨-, join⟩
  · rwa [join]
  · rw [bytes, List.mem_append, not_or] at hp
    rw [join]
    simp [hp.1, noSlash, hname]
  · rw [join]
    simp [hp, noSlash, hname]

/-- A name makes a path longer by its own length at least. -/
lemma length_add_le_join (p : Path) (name : RawText) :
    p.bytes.length + name.bytes.length ≤ (p.join name).bytes.length := by
  rcases bytes_join p name with ⟨empty, join⟩ | ⟨s, bytes, join⟩ | ⟨-, join⟩
  · simp [empty, join]
  · simp only [bytes, join, List.length_append, List.length_cons, List.length_nil]
    omega
  · simp only [join, List.length_append, List.length_cons]
    omega

/-- A path gets longer as names are joined to it. -/
lemma length_le_joinAll (p : Path) (names : List RawText) :
    p.bytes.length ≤ (p.joinAll names).bytes.length := by
  induction names generalizing p with
  | nil => exact Nat.le_refl _
  | cons name names ih =>
    exact Nat.le_trans (Nat.le_of_add_right_le (length_add_le_join p name)) (ih (p.join name))

/-! ## Parts -/

/-- How a path starts can be read off its first texts, unless there is only an empty one. -/
lemma leading_append {xs : List RawText} (ne_nil : xs ≠ []) (ne_empty : xs ≠ [.empty])
    (ys : List RawText) : leading (xs ++ ys) = leading xs := by
  match xs, ne_nil with
  | [a], _ =>
    have ne : a ≠ .empty := fun e => ne_empty (e ▸ rfl)
    simp [leading, ne]
  | a :: b :: xs, _ => simp [leading]

/-- The last text has no part in how a path starts. -/
lemma leading_concat {xs : List RawText} (ne_nil : xs ≠ []) (x y : RawText) :
    leading (xs ++ [x]) = leading (xs ++ [y]) := by
  by_cases ne_empty : xs = [.empty]
  · rw [ne_empty]
    rfl
  · rw [leading_append ne_nil ne_empty, leading_append ne_nil ne_empty]

/-- A joined name adds one part at the end. -/
lemma parts_join {p : Path} {name : RawText} (ne_empty : p.bytes ≠ [])
    (noSlash : RawText.slash ∉ name.bytes) (part : partOf? name = some (.name name)) :
    (p.join name).parts = p.parts ++ [.name name] := by
  obtain ⟨base, texts, joined, started⟩ := exists_segments_join p noSlash
  have last : [name].filterMap partOf? = [.name name] := by
    rw [List.filterMap_cons_some part, List.filterMap_nil]
  rw [parts, parts, joined, List.filterMap_append, last, ← List.append_assoc]
  rcases texts with ⟨same, ne⟩ | same
  · rw [leading_append (started ne_empty) ne, same]
  · rw [same, leading_concat (started ne_empty) name .empty, List.filterMap_append]
    simp [partOf?]

/-! ## First positions -/

/-- The paths of a list that stand at a position before which there is no path with the same
parts. -/
def firstPositions (ps : List Path) : List Path :=
  (ps.zipIdx.filter fun x => !(ps.take x.2).any x.1.same).map Prod.fst

/-- A path is among others of the same parts if its parts are among theirs. -/
lemma any_same_iff {p : Path} {ps : List Path} : ps.any p.same ↔ p.parts ∈ ps.map parts := by
  rw [List.any_eq_true, List.mem_map]
  exact exists_congr fun q => and_congr_right fun _ => decide_eq_true_iff.trans eq_comm

/-- What is left of a list are the paths whose parts come first. -/
lemma distinctFrom_eq (seen ps : List Path) :
    distinctFrom seen ps = firstsBy parts (seen.map parts) ps := by
  induction ps generalizing seen with
  | nil => rfl
  | cons p ps ih =>
    by_cases h : seen.any p.same
    · rw [distinctFrom, if_pos h, firstsBy_cons_of_mem (any_same_iff.1 h), ih]
    · rw [distinctFrom, if_neg h, firstsBy_cons_of_notMem (mt any_same_iff.2 h), ih, List.map_cons]

/-- A path at the end of a list stands at its first position if there is none with its parts
before. -/
lemma firstPositions_concat (ps : List Path) (p : Path) : firstPositions (ps ++ [p]) =
    firstPositions ps ++ if ps.any p.same then [] else [p] := by
  rw [firstPositions, List.zipIdx_append, List.filter_append, List.map_append]
  refine congrArg₂ (· ++ ·) (congrArg _ (List.filter_congr fun x hx => ?_)) ?_
  · rw [List.take_append_of_le_length (Nat.le_of_lt (List.snd_lt_of_mem_zipIdx hx))]
  · rw [List.zipIdx_singleton, Nat.zero_add, List.filter_singleton, List.take_left]
    cases ps.any p.same <;> rfl

/-- Each path is kept at its first position and nowhere else. -/
lemma distinct_eq_firstPositions (ps : List Path) : distinct ps = firstPositions ps := by
  induction ps using List.reverseRecOn with
  | nil => rfl
  | append_singleton ps p ih =>
    have split : distinct (ps ++ [p]) = distinct ps ++ firstsBy parts (ps.map parts) [p] := by
      rw [distinct, distinct, distinctFrom_eq, distinctFrom_eq, firstsBy_append, List.map_nil,
        List.append_nil]
    rw [split, ih, firstPositions_concat]
    refine congrArg (firstPositions ps ++ ·) ?_
    by_cases h : ps.any p.same
    · rw [if_pos h, firstsBy_cons_of_mem (any_same_iff.1 h), firstsBy]
    · rw [if_neg h, firstsBy_cons_of_notMem (mt any_same_iff.2 h), firstsBy]

end Path

end MibCorpus
