import MibCorpus.Proofs.PathResolution

/-!
# The order of entries

A system may list the entries of a directory in any order. The same tree with its directories listed
in other orders holds the same files, and paths lead to the same places in it.
-/

namespace MibCorpus.FileNode

/-- The trees are the same but for the order in which directories list their entries. -/
inductive Relists : FileNode → FileNode → Prop where
  | file (content : Except FileError (List UInt8)) : Relists (file content) (file content)
  | special (content : Except FileError (List UInt8)) : Relists (special content) (special content)
  | link (target : Path) : Relists (link target) (link target)
  | directory {entries entries' : List (RawText × FileNode)} (refusals : Refusals)
      (names : (entries.map Prod.fst).Perm (entries'.map Prod.fst))
      (nodes : ∀ e ∈ entries, ∀ e' ∈ entries', e.1 = e'.1 → Relists e.2 e'.2) :
      Relists (directory entries refusals) (directory entries' refusals)

variable {root root' node : FileNode} {place goal : Place} {name : RawText}
  {names segments : List RawText} {entries entries' : List (RawText × FileNode)}
  {refusals : Refusals} {n : Nat}

namespace Relists

/-- Each of two trees that differ by listings lists the other anew. -/
lemma symm (h : Relists root root') : Relists root' root := by
  induction h with
  | file content => exact .file content
  | special content => exact .special content
  | link target => exact .link target
  | directory refusals names _ ih =>
    exact .directory refusals names.symm fun e he e' he' same => ih e' he' e he same.symm

/-- Listings of the same names have entries of the same names. -/
lemma exists_listed {e' : RawText × FileNode}
    (names : (entries.map Prod.fst).Perm (entries'.map Prod.fst)) (mem : e' ∈ entries') :
    ∃ e ∈ entries, e.1 = e'.1 :=
  List.mem_map.1 (names.mem_iff.2 (List.mem_map_of_mem mem))

/-- A name stands once in a directory however it is listed. -/
lemma wellFormed (h : Relists root root') (ok : root.WellFormed) : root'.WellFormed := by
  induction h with
  | file content => exact .file content
  | special content => exact .special content
  | link target => exact .link target
  | directory refusals names _ ih =>
    cases ok with
    | directory _ distinct names_ok nodes_ok =>
      refine .directory refusals (names.nodup_iff.1 distinct) (fun e' he' => ?_) fun e' he' => ?_
      · obtain ⟨e, he, same⟩ := exists_listed names he'
        exact same ▸ names_ok e he
      · obtain ⟨e, he, same⟩ := exists_listed names he'
        exact ih e he e' he' same (nodes_ok e he)

/-- A directory has the same entries in both trees. -/
lemma lookup (h : Relists (.directory entries refusals) node) (ok : node.WellFormed) :
    ∃ entries', node = .directory entries' refusals ∧
      ∀ name child, entries.lookup name = some child →
        ∃ child', entries'.lookup name = some child' ∧ Relists child child' := by
  cases h with
  | @directory _ entries' _ names nodes =>
    cases ok with
    | directory _ distinct =>
      refine ⟨entries', rfl, fun name child entry => ?_⟩
      have mem := mem_of_lookup entry
      obtain ⟨⟨_, child'⟩, mem', rfl⟩ := exists_listed names.symm mem
      exact ⟨child', lookup_of_mem distinct mem', nodes _ mem _ mem' rfl⟩

/-- Names lead down to the same in both trees. -/
lemma below? (h : Relists root root') (ok : root'.WellFormed)
    (found : root.below? names = some node) :
    ∃ node', root'.below? names = some node' ∧ Relists node node' := by
  induction names generalizing root root' with
  | nil =>
    cases found
    exact ⟨root', rfl, h⟩
  | cons name names ih =>
    obtain ⟨child, entry, rest⟩ := Option.bind_eq_some_iff.1 found
    obtain ⟨entries, refusals, rfl, entry⟩ := child?_eq_some_iff.1 entry
    obtain ⟨entries', rfl, children⟩ := h.lookup ok
    obtain ⟨child', entry', relists⟩ := children name child entry
    obtain ⟨node', rest', goal⟩ := ih relists (ok.child entry').2 rest
    exact ⟨node', Option.bind_eq_some_iff.2 ⟨child', entry', rest'⟩, goal⟩

/-- What is at a place in one tree is at that place in the other, listed anew. -/
lemma at? (h : Relists root root') (ok : root'.WellFormed) (there : root.at? place = some node) :
    ∃ node', root'.at? place = some node' ∧ Relists node node' :=
  h.below? ok there

/-- At a place that is a directory in one tree the other has one with the same entries. -/
lemma at?_directory (h : Relists root root') (ok : root'.WellFormed)
    (dir : root.at? place = some (.directory entries refusals)) :
    ∃ entries', root'.at? place = some (.directory entries' refusals) ∧
      ∀ name child, entries.lookup name = some child →
        ∃ child', entries'.lookup name = some child' ∧ Relists child child' := by
  obtain ⟨node, there, relists⟩ := h.at? ok dir
  obtain ⟨entries', rfl, children⟩ := relists.lookup (ok.of_at? there)
  exact ⟨entries', there, children⟩

/-- Texts between slashes lead to the same places in both trees. -/
lemma leads (h : Relists root root') (ok : root'.WellFormed)
    (l : root.Leads place segments n goal) : root'.Leads place segments n goal := by
  induction l with
  | here place => exact .here place
  | slash dir _ ih =>
    obtain ⟨_, dir', -⟩ := h.at?_directory ok dir
    exact .slash dir' ih
  | stay dir search _ ih =>
    obtain ⟨_, dir', -⟩ := h.at?_directory ok dir
    exact .stay dir' search ih
  | up dir search _ ih =>
    obtain ⟨_, dir', -⟩ := h.at?_directory ok dir
    exact .up dir' search ih
  | down dir search name entry solid _ ih =>
    obtain ⟨_, dir', children⟩ := h.at?_directory ok dir
    obtain ⟨child, entry', relists⟩ := children _ _ entry
    refine .down dir' search name entry' (fun target e => ?_) ih
    cases e ▸ relists
    exact solid target rfl
  | through dir search name entry _ ih =>
    obtain ⟨_, dir', children⟩ := h.at?_directory ok dir
    obtain ⟨child, entry', relists⟩ := children _ _ entry
    cases relists
    exact .through dir' search name entry' ih

/-- What leads to a file in one tree leads to it in the other. -/
lemma leadsToFile (h : Relists root root') (ok : root'.WellFormed)
    (l : root.LeadsToFile place segments n) : root'.LeadsToFile place segments n := by
  obtain ⟨goal, content, l, there⟩ := l
  obtain ⟨node, there', relists⟩ := h.at? ok there
  cases relists
  exact ⟨goal, content, h.leads ok l, there'⟩

/-- An entry is that of a file in both trees. -/
lemma standsForFile {node' : FileNode} (h : Relists root root') (ok : root'.WellFormed)
    (relists : Relists node node') (stands : root.StandsForFile place node n) :
    root'.StandsForFile place node' n := by
  cases stands with
  | file content =>
    cases relists
    exact .file content
  | link leads =>
    cases relists
    exact .link (h.leadsToFile ok leads)

/-- What a path leads to in one tree it leads to in the other. -/
lemma resolve {p : Path} {work : Place} (h : Relists root root') (ok : root'.WellFormed)
    (resolved : FileSystem.resolve ⟨root, work⟩ p = .ok node) :
    ∃ node', FileSystem.resolve ⟨root', work⟩ p = .ok node' ∧ Relists node node' := by
  obtain ⟨usable, n, le, goal, leads, there⟩ := FileSystem.resolve_eq_ok_iff.1 resolved
  obtain ⟨node', there', relists⟩ := h.at? ok there
  exact ⟨node', FileSystem.resolve_eq_ok_iff.2
    ⟨usable, n, le, goal, h.leads ok leads, there'⟩, relists⟩

/-- Directories can be read however they are listed. -/
lemma isReadable (h : Relists root root') (ok : root.WellFormed) (readable : root.IsReadable) :
    root'.IsReadable := by
  intro names entries' refusals found
  obtain ⟨node, found', alike⟩ := h.symm.below? ok found
  cases alike
  exact readable names _ refusals found'

end Relists

end MibCorpus.FileNode
