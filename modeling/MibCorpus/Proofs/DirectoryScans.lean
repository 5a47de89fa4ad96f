import MibCorpus.Load.FileSet
import MibCorpus.Proofs.PathOrder
import MibCorpus.Proofs.PathResolution
import MibCorpus.Proofs.PatternMatching

/-!
# What directory scans find

A scan goes down from its root and asks at each entry whether it is to be taken and whether its path
is that of a file. Names of entries join to paths that lead down through the directories, so what it
finds is said by names, and no two of the paths have the same parts.
-/

namespace MibCorpus

variable {fs : FileSystem} {p : Path} {name : RawText} {names : List RawText}

/-! ## Paths of entries -/

/-- The name of an entry, taken as a path, is that one name. -/
lemma IsName.partOf? (h : IsName name) : Path.partOf? name = some (.name name) := by
  rw [Path.partOf?, if_neg (not_or.2 ⟨h.ne_empty, h.ne_dot⟩), if_neg h.ne_dots]

namespace Path

/-- Names come behind the texts of a path. The last of them goes if it is empty. -/
lemma exists_segments_joinAll (p : Path) (ne_nil : names ≠ [])
    (ok : ∀ name ∈ names, IsEntryName name) :
    ∃ base, (p.segments = base ∨ p.segments = base ++ [.empty]) ∧
      (p.joinAll names).segments = base ++ names := by
  induction names generalizing p with
  | nil => exact absurd rfl ne_nil
  | cons name names ih =>
    obtain ⟨first, later⟩ := List.forall_mem_cons.1 ok
    obtain ⟨base, texts, joined, -⟩ := exists_segments_join p first.noSlash
    refine ⟨base, texts.imp_left And.left, ?_⟩
    cases names with
    | nil => exact joined
    | cons next names =>
      obtain ⟨base', texts', joined'⟩ := ih (p.join name) (List.cons_ne_nil _ _) later
      rw [joined] at texts'
      rcases texts' with rfl | texts'
      · rw [joinAll_cons, joined', List.append_assoc]
        rfl
      · have same := (List.append_inj' texts' rfl).2
        exact absurd (List.singleton_injective same) first.ne_empty

/-- The names of entries are parts of their own. -/
lemma parts_joinAll (ne_empty : p.bytes ≠ []) (ok : ∀ name ∈ names, IsEntryName name) :
    (p.joinAll names).parts = p.parts ++ names.map .name := by
  induction names generalizing p with
  | nil => exact (List.append_nil _).symm
  | cons name names ih =>
    obtain ⟨first, later⟩ := List.forall_mem_cons.1 ok
    rw [joinAll_cons, ih (ne_empty_join first.ne_empty) later,
      parts_join ne_empty first.noSlash first.partOf?, List.map_cons, List.append_assoc]
    rfl

/-- A path to which names of entries are joined starts where it did, and the system takes it if it
is not too long. -/
lemma joinAll_of_isEntryName (usable : p.bytes ≠ [] ∧ 0 ∉ p.bytes)
    (ok : ∀ name ∈ names, IsEntryName name) :
    ((p.joinAll names).bytes ≠ [] ∧ 0 ∉ (p.joinAll names).bytes) ∧
      (p.joinAll names).isAbsolute = p.isAbsolute := by
  induction names generalizing p with
  | nil => exact ⟨usable, rfl⟩
  | cons name names ih =>
    obtain ⟨first, later⟩ := List.forall_mem_cons.1 ok
    have joined : (p.join name).bytes ≠ [] ∧ 0 ∉ (p.join name).bytes :=
      ⟨ne_empty_join first.ne_empty, notMem_join usable.2 first.noZero (by decide)⟩
    obtain ⟨all, start⟩ := ih joined later
    exact ⟨all, start.trans (isAbsolute_join usable.1)⟩

end Path

namespace FileSystem

open FileNode

variable {place : Place} {top node : FileNode} {entries es : List (RawText × FileNode)}
  {refusals : Refusals} {before n : Nat} {goal : Place}

/-- The path of entries leads where their names do from the place that the path leads to. -/
lemma exists_leadsTo_joinAll (h : fs.root.WellFormed) (usable : p.IsUsable)
    (leads : fs.LeadsTo p before place) (there : fs.root.at? place = some top) (ne_nil : names ≠ [])
    (found : top.below? names = some node) :
    ∃ base, fs.root.Leads (fs.startOf (p.joinAll names)) base before place ∧
      (p.joinAll names).segments = base ++ names := by
  have ok := ((h.of_at? there).of_below? found).1
  obtain ⟨-, start⟩ := Path.joinAll_of_isEntryName ⟨usable.ne_empty, usable.noZero⟩ ok
  obtain ⟨base, texts, joined⟩ := Path.exists_segments_joinAll p ne_nil ok
  refine ⟨base, ?_, joined⟩
  rw [startOf, Place.startOf, start]
  -- A slash at the end of the path is not there in the paths of the entries.
  rcases texts with rfl | texts
  · exact leads
  · rw [LeadsTo, texts] at leads
    exact (leads_concat_empty.1 leads).1

/-- The system takes the path of an entry if it is not too long. -/
lemma isUsable_joinAll_iff (h : fs.root.WellFormed) (usable : p.IsUsable)
    (there : fs.root.at? place = some top) (found : top.below? names = some node) :
    (p.joinAll names).IsUsable ↔ (p.joinAll names).bytes.length ≤ maxPathBytes := by
  have ok := ((h.of_at? there).of_below? found).1
  obtain ⟨⟨ne_empty, noZero⟩, -⟩ :=
    Path.joinAll_of_isEntryName ⟨usable.ne_empty, usable.noZero⟩ ok
  exact ⟨Path.IsUsable.length_le, fun short => ⟨noZero, ne_empty, short⟩⟩

/-- The path of an entry is that of a file if it is not too long, and the entry is that of a file at
the end of no more links than may be followed. -/
lemma isFile_joinAll_iff (h : fs.root.WellFormed) (usable : p.IsUsable)
    (leads : fs.LeadsTo p before place) (there : fs.root.at? place = some top)
    (passable : top.IsPassable (names ++ [name]))
    (found : top.below? (names ++ [name]) = some node) :
    fs.isFile (p.joinAll (names ++ [name])) ↔
      (p.joinAll (names ++ [name])).bytes.length ≤ maxPathBytes ∧
        ∃ behind, before + behind ≤ maxLinks ∧
          fs.root.StandsForFile (place.descend names) node behind := by
  have ok := ((h.of_at? there).of_below? found).1
  obtain ⟨base, toTop, joined⟩ := exists_leadsTo_joinAll h usable leads there (by simp) found
  have toFile : ∀ n, fs.root.LeadsToFile (fs.startOf (p.joinAll (names ++ [name])))
      (base ++ (names ++ [name])) n ↔
        ∃ behind, fs.root.StandsForFile (place.descend names) node behind ∧
          n = before + behind := by
    intro n
    rw [toTop.leadsToFile_append_iff]
    simp only [leadsToFile_below_iff there (fun name mem => (ok name mem).toIsName) passable found]
  rw [isFile_iff, isUsable_joinAll_iff h usable there found, joined]
  constructor
  · rintro ⟨short, n, le, file⟩
    obtain ⟨behind, stands, rfl⟩ := (toFile n).1 file
    exact ⟨short, behind, le, stands⟩
  · rintro ⟨short, behind, le, stands⟩
    exact ⟨short, _, le, (toFile _).2 ⟨behind, stands, rfl⟩⟩

/-- A directory below one that can be read can be read itself if its path is not too long. Its
entries are those that it has in the tree. -/
lemma readDirectory_joinAll_iff (h : fs.root.WellFormed) (usable : p.IsUsable)
    (le : before ≤ maxLinks) (leads : fs.LeadsTo p before place)
    (there : fs.root.at? place = some top) (passable : top.IsPassable names)
    (found : top.below? names = some (directory entries refusals)) :
    fs.readDirectory (p.joinAll names) = .ok es ↔
      (p.joinAll names).bytes.length ≤ maxPathBytes ∧ refusals.listing = none ∧ es = entries := by
  have ok := ((h.of_at? there).of_below? found).1
  have down := leads_descend there (fun name mem => (ok name mem).toIsName) passable found
    (fun _ e => by cases e)
  have here : fs.root.at? (place.descend names) = some (directory entries refusals) :=
    at?_descend there found
  have leads' : fs.LeadsTo (p.joinAll names) before (place.descend names) := by
    by_cases nil : names = []
    · cases nil
      exact leads
    · obtain ⟨base, toTop, joined⟩ := exists_leadsTo_joinAll h usable leads there nil found
      rw [LeadsTo, joined]
      exact leads_append.2 ⟨place, before, 0, toTop, down, rfl⟩
  rw [readDirectory_eq_ok_iff]
  simp only [resolve_eq_ok_iff, isUsable_joinAll_iff h usable there found]
  constructor
  · rintro ⟨refusals', ⟨short, n, -, goal, leads'', there'⟩, listing⟩
    obtain ⟨rfl, rfl⟩ := leads'.unique leads''
    cases here.symm.trans there'
    exact ⟨short, listing, rfl⟩
  · rintro ⟨short, listing, rfl⟩
    exact ⟨refusals, ⟨short, before, le, _, leads', here⟩, listing⟩

end FileSystem

/-! ## Entries found -/

namespace DirectoryScan

open FileNode

variable {s : DirectoryScan} {path : Path} {entries : List (RawText × FileNode)}
  {refusals : Refusals}

/-- What is found at an entry of the directory at `path`. -/
def foundAt (s : DirectoryScan) (fs : FileSystem) (path : Path) (entry : RawText × FileNode) :
    List Path :=
  s.found fs path [entry]

/-- Nothing is found among no entries. -/
lemma found_nil (s : DirectoryScan) (fs : FileSystem) (path : Path) : s.found fs path [] = [] := by
  rw [found, visit, List.filterMap_nil]

/-- What is found among some entries is what is found at each, in order. -/
lemma found_eq_flatMap (s : DirectoryScan) (fs : FileSystem) (path : Path)
    (entries : List (RawText × FileNode)) :
    s.found fs path entries = entries.flatMap (s.foundAt fs path) := by
  induction entries with
  | nil => rw [found_nil, List.flatMap_nil]
  | cons entry entries ih =>
    obtain ⟨name, node⟩ := entry
    rw [List.flatMap_cons, ← ih]
    cases node <;>
      simp only [foundAt, found, visit, List.append_nil, List.filterMap_append]

/-- The system lists the directory at a path. -/
def CanList (fs : FileSystem) (path : Path) : Prop := ∃ entries, fs.readDirectory path = .ok entries

/-- At a directory that the scan does not look into nothing is found. -/
lemma foundAt_directory {below : List (RawText × FileNode)} :
    s.recursive = true ∧ CanList fs (path.join name) ∧
        s.foundAt fs path (name, directory below refusals) = s.found fs (path.join name) below ∨
      ¬(s.recursive = true ∧ CanList fs (path.join name)) ∧
        s.foundAt fs path (name, directory below refusals) = [] := by
  rw [foundAt, found, visit, visit, List.append_nil, found, CanList]
  by_cases recursive : s.recursive = true
  · rw [if_pos recursive]
    cases read : fs.readDirectory (path.join name) with
    | error cause => simp [recursive, Except.toOption]
    | ok entries => simp [recursive]
  · simp [recursive]

/-- In a directory everything below is found, if the scan is recursive and can list it. -/
lemma mem_foundAt_directory {below : List (RawText × FileNode)} :
    p ∈ s.foundAt fs path (name, directory below refusals) ↔
      s.recursive = true ∧ CanList fs (path.join name) ∧ p ∈ s.found fs (path.join name) below := by
  rcases foundAt_directory (s := s) with ⟨recursive, listed, eq⟩ | ⟨skipped, eq⟩
  · rw [eq]
    exact ⟨fun mem => ⟨recursive, listed, mem⟩, fun h => h.2.2⟩
  · rw [eq]
    exact ⟨fun mem => absurd mem List.not_mem_nil, fun h => absurd ⟨h.1, h.2.1⟩ skipped⟩

/-- Anything else than a directory is found itself, if it is a file with an accepted name. -/
lemma foundAt_of_ne_directory {node : FileNode}
    (solid : ∀ below refusals, node ≠ directory below refusals) :
    s.foundAt fs path (name, node) =
      if fs.isFile (path.join name) && s.accepts name.text then [path.join name] else [] := by
  cases node with
  | directory below refusals => exact absurd rfl (solid below refusals)
  | file | special | link =>
    rw [foundAt, found, visit, visit, List.append_nil]
    split <;> rfl

/-- A file is found at an entry that is no directory exactly if it is that entry, under an
accepted -/
lemma mem_foundAt_of_ne_directory {node : FileNode}
    (solid : ∀ below refusals, node ≠ directory below refusals) :
    p ∈ s.foundAt fs path (name, node) ↔
      s.accepts name.text ∧ p = path.join name ∧ fs.isFile p := by
  rw [foundAt_of_ne_directory solid, List.mem_ite_nil_right, Bool.and_eq_true, List.mem_singleton]
  constructor
  · rintro ⟨⟨isFile, taken⟩, rfl⟩
    exact ⟨taken, rfl, isFile⟩
  · rintro ⟨taken, rfl, isFile⟩
    exact ⟨⟨isFile, taken⟩, rfl⟩

/-- An entry that is found below a directory: the names that lead down to it, what it is, and which
path it has. -/
structure FindsBelow (s : DirectoryScan) (fs : FileSystem) (path : Path) (top : FileNode)
    (dirs : List RawText) (name : RawText) (node : FileNode) (p : Path) : Prop where
  entry : top.below? (dirs ++ [name]) = some node
  depth : s.recursive = true ∨ dirs = []
  /-- All directories on the way can be listed. -/
  listed : ∀ above, above <+: dirs → CanList fs (path.joinAll above)
  solid : ∀ below refusals, node ≠ directory below refusals
  taken : s.accepts name.text
  path_eq : p = path.joinAll (dirs ++ [name])
  isFile : fs.isFile p

/-- Without directories on the way, a file is found among the entries themselves. -/
lemma findsBelow_nil {node : FileNode} (here : CanList fs path) :
    s.FindsBelow fs path (directory entries refusals) [] name node p ↔
      entries.lookup name = some node ∧ (∀ below refusals, node ≠ directory below refusals) ∧
        s.accepts name.text ∧ p = path.join name ∧ fs.isFile p := by
  constructor
  · rintro ⟨entry, -, -, solid, taken, path_eq, isFile⟩
    rw [List.nil_append, below?_singleton] at entry
    exact ⟨entry, solid, taken, path_eq, isFile⟩
  · rintro ⟨entry, solid, taken, path_eq, isFile⟩
    refine ⟨by rwa [List.nil_append, below?_singleton], .inr rfl, fun above le => ?_, solid, taken,
      path_eq, isFile⟩
    rw [List.prefix_nil.1 le]
    exact here

/-- With a directory on the way, a file is found in that directory, if the scan enters it. -/
lemma findsBelow_cons {dir : RawText} {dirs : List RawText} {node : FileNode}
    (here : CanList fs path) :
    s.FindsBelow fs path (directory entries refusals) (dir :: dirs) name node p ↔
      ∃ below refusals', entries.lookup dir = some (directory below refusals') ∧
        s.recursive = true ∧ CanList fs (path.join dir) ∧
          s.FindsBelow fs (path.join dir) (directory below refusals') dirs name node p := by
  constructor
  · rintro ⟨entry, depth, listed, solid, taken, path_eq, isFile⟩
    obtain ⟨child, first, rest⟩ := Option.bind_eq_some_iff.1 entry
    have recursive := depth.resolve_right (List.cons_ne_nil _ _)
    have later : ∀ above, above <+: dirs → CanList fs ((path.join dir).joinAll above) :=
      fun above le => listed (dir :: above) (List.prefix_cons_inj dir |>.2 le)
    cases child with
    | file | special | link => cases dirs <;> cases rest
    | directory below refusals' =>
      exact ⟨below, refusals', first, recursive, later [] (List.nil_prefix),
        rest, .inl recursive, later, solid, taken, path_eq, isFile⟩
  · rintro ⟨below, refusals', first, recursive, -, rest, -, listed, solid, taken, path_eq, isFile⟩
    have entry : (directory entries refusals).below? (dir :: dirs ++ [name]) = some node :=
      Option.bind_eq_some_iff.2 ⟨_, first, rest⟩
    refine ⟨entry, .inl recursive, fun above le => ?_, solid, taken, path_eq, isFile⟩
    obtain rfl | ⟨above, rfl, le'⟩ := List.prefix_cons_iff.1 le
    · exact here
    · exact listed above le'

/-- The scan finds what can be found by going down from the directory. -/
lemma mem_found_iff (ok : WellFormed (directory entries refusals)) (here : CanList fs path) :
    p ∈ s.found fs path entries ↔
      ∃ dirs name node, s.FindsBelow fs path (directory entries refusals) dirs name node p := by
  generalize whole : directory entries refusals = node at ok
  induction ok generalizing entries refusals path with
  | file | special | link => cases whole
  | @directory entries refusals distinct names nodes ih =>
    cases whole
    rw [found_eq_flatMap, List.mem_flatMap]
    constructor
    · rintro ⟨⟨name, node⟩, mem, found⟩
      have entry := lookup_of_mem distinct mem
      by_cases solid : ∀ below refusals, node ≠ directory below refusals
      · have finds := (mem_foundAt_of_ne_directory solid).1 found
        exact ⟨[], name, node, (findsBelow_nil here).2 ⟨entry, solid, finds⟩⟩
      · obtain ⟨below, refusals', rfl⟩ := by
          simpa only [ne_eq, not_forall, not_not] using solid
        obtain ⟨recursive, listed, found⟩ := mem_foundAt_directory.1 found
        obtain ⟨dirs, last, node, finds⟩ := (ih _ mem listed rfl).1 found
        exact ⟨name :: dirs, last, node,
          (findsBelow_cons here).2 ⟨below, refusals', entry, recursive, listed, finds⟩⟩
    · rintro ⟨_ | ⟨dir, dirs⟩, name, node, finds⟩
      · obtain ⟨entry, solid, finds⟩ := (findsBelow_nil here).1 finds
        exact ⟨_, mem_of_lookup entry, (mem_foundAt_of_ne_directory solid).2 finds⟩
      · obtain ⟨below, refusals', first, recursive, listed, finds⟩ :=
          (findsBelow_cons here).1 finds
        have mem := mem_of_lookup first
        refine ⟨_, mem, mem_foundAt_directory.2 ⟨recursive, listed, ?_⟩⟩
        exact (ih _ mem listed rfl).2 ⟨dirs, name, node, finds⟩

/-- The parts of a path that is found at an entry start with those up to the entry. -/
lemma exists_parts_of_mem_foundAt {node : FileNode} (name_ok : IsEntryName name)
    (node_ok : node.WellFormed) (ne_empty : path.bytes ≠ [])
    (found : p ∈ s.foundAt fs path (name, node)) :
    ∃ rest, p.parts = path.parts ++ .name name :: rest := by
  by_cases solid : ∀ below refusals, node ≠ directory below refusals
  · obtain ⟨-, rfl, -⟩ := (mem_foundAt_of_ne_directory solid).1 found
    exact ⟨[], Path.parts_join ne_empty name_ok.noSlash name_ok.partOf?⟩
  · obtain ⟨below, refusals', rfl⟩ := by simpa only [ne_eq, not_forall, not_not] using solid
    obtain ⟨-, listed, found⟩ := mem_foundAt_directory.1 found
    obtain ⟨dirs, last, node, finds⟩ := (mem_found_iff node_ok listed).1 found
    obtain ⟨names_ok, -⟩ := node_ok.of_below? finds.entry
    refine ⟨(dirs ++ [last]).map .name, ?_⟩
    rw [finds.path_eq, Path.parts_joinAll (Path.ne_empty_join name_ok.ne_empty) names_ok,
      Path.parts_join ne_empty name_ok.noSlash name_ok.partOf?, List.append_assoc]
    rfl

/-- No two paths that are found have the same parts. -/
lemma nodup_parts_found (ok : WellFormed (directory entries refusals))
    (ne_empty : path.bytes ≠ []) : ((s.found fs path entries).map Path.parts).Nodup := by
  generalize whole : directory entries refusals = node at ok
  induction ok generalizing entries refusals path with
  | file | special | link => cases whole
  | @directory entries refusals distinct names nodes ih =>
    cases whole
    rw [found_eq_flatMap, List.map_flatMap, List.nodup_flatMap]
    constructor
    · rintro ⟨name, node⟩ mem
      by_cases solid : ∀ below refusals, node ≠ directory below refusals
      · rw [foundAt_of_ne_directory solid]
        split
        · exact List.nodup_singleton _
        · exact .nil
      · obtain ⟨below, refusals', rfl⟩ := by
          simpa only [ne_eq, not_forall, not_not] using solid
        rcases foundAt_directory (s := s) with ⟨-, -, eq⟩ | ⟨-, eq⟩
        · rw [eq]
          exact ih _ mem (Path.ne_empty_join (names _ mem).ne_empty) rfl
        · rw [eq]
          exact .nil
    · refine (List.pairwise_map.1 distinct).imp_of_mem fun {e e'} mem mem' ne parts hp hp' => ne ?_
      obtain ⟨p, found, rfl⟩ := List.mem_map.1 hp
      obtain ⟨p', found', same⟩ := List.mem_map.1 hp'
      obtain ⟨rest, first⟩ := exists_parts_of_mem_foundAt (names _ mem) (nodes _ mem) ne_empty found
      obtain ⟨rest', first'⟩ :=
        exists_parts_of_mem_foundAt (names _ mem') (nodes _ mem') ne_empty found'
      rw [first, first', List.append_right_inj, List.cons.injEq, PathPart.name.injEq] at same
      exact same.1.symm

end DirectoryScan

end MibCorpus
