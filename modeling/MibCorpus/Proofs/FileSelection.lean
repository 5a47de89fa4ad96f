import MibCorpus.Proofs.DirectoryListings
import MibCorpus.Proofs.DirectoryScans
import MibCorpus.Proofs.WrittenText

/-!
# The files of a file set

A scan finds the files that it asks for as far as the system can follow their paths. The answer does
not depend on how directories are listed, so the order of the files of a corpus does not either.
-/

namespace MibCorpus

open FileNode

/-! ## Patterns -/

namespace Pattern

/-- A pattern is a possible file name but for its stars and question marks. -/
def IsValid (pattern : String) : Prop :=
  pattern ≠ "" ∧ '/' ∉ pattern.toList ∧ '\\' ∉ pattern.toList

instance (pattern : String) : Decidable (IsValid pattern) :=
  inferInstanceAs (Decidable (_ ∧ _ ∧ _))

/-- What is wrong with a pattern. -/
inductive HasDefect : String → PatternDefect → Prop where
  | empty : HasDefect "" .empty
  | separator {pattern : String} (ne_empty : pattern ≠ "")
      (separator : '/' ∈ pattern.toList ∨ '\\' ∈ pattern.toList) : HasDefect pattern .separator

variable {pattern : String} {defect : PatternDefect}

/-- A pattern is looked through for both separators. -/
lemma any_separator_iff : (pattern.toList.any fun c => c == '/' || c == '\\') ↔
    '/' ∈ pattern.toList ∨ '\\' ∈ pattern.toList := by
  simp only [List.any_eq_true, Bool.or_eq_true, beq_iff_eq, and_or_left, exists_or,
    exists_eq_right]

/-- The defect of a pattern is found. -/
lemma defect?_eq_some_iff : defect? pattern = some defect ↔ HasDefect pattern defect := by
  constructor
  · intro h
    unfold defect? at h
    split at h
    next empty =>
      cases h
      obtain rfl : pattern = "" := by simpa using empty
      exact .empty
    next ne_empty =>
      split at h
      next separator =>
        cases h
        exact .separator (by simpa using ne_empty) (any_separator_iff.1 separator)
      next => cases h
  · rintro (_ | ⟨ne_empty, separator⟩)
    · rfl
    · rw [defect?, if_neg (by simpa using ne_empty), if_pos (any_separator_iff.2 separator)]

/-- A pattern without a defect is a valid one. -/
lemma defect?_eq_none_iff : defect? pattern = none ↔ IsValid pattern := by
  rw [IsValid, ← not_or, ← any_separator_iff, defect?]
  split
  next empty =>
    have none : pattern = "" := by simpa using empty
    simp [none]
  next ne_empty =>
    have ne : pattern ≠ "" := by simpa using ne_empty
    split
    next separator => simp [separator]
    next noSeparator => simp [ne, noSeparator]

end Pattern

namespace DirectoryScan

/-- A file name matches one of the patterns to take, where no pattern at all takes every name, and
none of those to leave out. -/
def Takes (s : DirectoryScan) (name : String) : Prop :=
  (s.includes = [] ∨ ∃ p ∈ s.includes, Pattern.Spells p.toList name.toList) ∧
    ∀ p ∈ s.excludes, ¬ Pattern.Spells p.toList name.toList

/-- The test of a file name says whether the scan takes it. -/
lemma accepts_iff_takes {s : DirectoryScan} {name : String} : s.accepts name ↔ s.Takes name := by
  have spells : ∀ p : String, Pattern.fits p name ↔ Pattern.Spells p.toList name.toList := fun p =>
    Pattern.succeeds_start_iff p.toList name.toList
  simp [accepts, Takes, spells]

/-- All patterns of a scan can be used. -/
def HasValidPatterns (s : DirectoryScan) : Prop :=
  ∀ p ∈ s.includes ++ s.excludes, Pattern.IsValid p

instance (s : DirectoryScan) : Decidable s.HasValidPatterns :=
  inferInstanceAs (Decidable (∀ p ∈ s.includes ++ s.excludes, Pattern.IsValid p))

/-- A scan is refused for the first of its patterns that cannot be used. -/
def RefusedFor (s : DirectoryScan) (pattern : String) (defect : PatternDefect) : Prop :=
  ∃ before after, s.includes ++ s.excludes = before ++ pattern :: after ∧
    (∀ p ∈ before, Pattern.IsValid p) ∧ Pattern.HasDefect pattern defect

variable {s : DirectoryScan} {fs : FileSystem} {pattern : String} {defect : PatternDefect}

/-- A scan has no defect if all its patterns are valid. -/
lemma defect?_eq_none_iff : s.defect? = none ↔ s.HasValidPatterns := by
  simp only [defect?, HasValidPatterns, List.findSome?_eq_none_iff, Option.map_eq_none_iff,
    Pattern.defect?_eq_none_iff]

/-- A scan that is refused for a pattern says so. -/
lemma RefusedFor.collect_eq (h : s.RefusedFor pattern defect) :
    s.collect fs = .error (.invalidPattern pattern defect) := by
  obtain ⟨before, after, whole, valid, wrong⟩ := h
  have first : s.defect? = some (.invalidPattern pattern defect) := by
    refine List.findSome?_eq_some_iff.2 ⟨before, pattern, after, whole, ?_, fun p hp => ?_⟩
    · rw [Pattern.defect?_eq_some_iff.2 wrong, Option.map_some]
    · rw [Pattern.defect?_eq_none_iff.2 (valid p hp), Option.map_none]
  rw [collect, first]

/-- A scan with a pattern that cannot be used is refused for the first of these. -/
lemma exists_refusedFor (h : ¬ s.HasValidPatterns) :
    ∃ pattern defect, s.RefusedFor pattern defect := by
  cases first : s.defect? with
  | none => exact absurd (defect?_eq_none_iff.1 first) h
  | some e =>
    obtain ⟨before, pattern, after, whole, wrong, valid⟩ := List.findSome?_eq_some_iff.1 first
    obtain ⟨defect, wrong, -⟩ := Option.map_eq_some_iff.1 wrong
    refine ⟨pattern, defect, before, after, whole, fun p hp => ?_,
      Pattern.defect?_eq_some_iff.1 wrong⟩
    exact Pattern.defect?_eq_none_iff.1 (Option.map_eq_none_iff.1 (valid p hp))

/-! ## Selected files -/

/-- The system lists the root of the scan and lets it be gone through, and so the directories below
it if the scan looks there. -/
def CanRead (s : DirectoryScan) (fs : FileSystem) : Prop :=
  ∃ entries, fs.resolve s.root = .ok (directory entries .none) ∧
    (s.recursive = true → (directory entries .none).IsReadable)

/-- The scan asks for the file at a path: an entry in the directory of the root, or in one below it
if the scan looks there, that is a regular file or a link to one and has a name to take. So many
links are met on the way to the file, those on the way to the root included. -/
inductive Selects (s : DirectoryScan) (fs : FileSystem) : Path → Nat → Prop where
  | intro {place : Place} {top node : FileNode} {dirs : List RawText} {name : RawText}
      {before behind : Nat} (leads : fs.LeadsTo s.root before place)
      (there : fs.root.at? place = some top) (entry : top.below? (dirs ++ [name]) = some node)
      (depth : s.recursive = true ∨ dirs = [])
      (file : fs.root.StandsForFile (place.descend dirs) node behind) (taken : s.Takes name.text) :
      Selects s fs (s.root.joinAll (dirs ++ [name])) (before + behind)

section Selected

variable {root' : FileNode} {p : Path} {n m : Nat}

/-- The directories that a scan looks into can be gone through. -/
lemma isPassable_of_canRead {entries : List (RawText × FileNode)} {dirs : List RawText}
    {name : RawText} (readable : s.recursive = true → (directory entries .none).IsReadable)
    (depth : s.recursive = true ∨ dirs = []) :
    (directory entries .none).IsPassable (dirs ++ [name]) := by
  rcases depth with recursive | rfl
  · exact (readable recursive).isPassable _
  · refine ⟨fun _ _ same => ?_, fun _ _ => trivial⟩
    cases same
    rfl

/-- A directory that the scan goes through to an entry can be listed, since its path is no longer
than that of the entry. -/
lemma canList_joinAll {entries : List (RawText × FileNode)} {above dirs : List RawText}
    {name : RawText} {node : FileNode} (ok : fs.root.WellFormed)
    (resolved : fs.resolve s.root = .ok (directory entries .none))
    (readable : s.recursive = true → (directory entries .none).IsReadable)
    (depth : s.recursive = true ∨ dirs = [])
    (entry : (directory entries .none).below? (dirs ++ [name]) = some node)
    (short : (s.root.joinAll (dirs ++ [name])).bytes.length ≤ maxPathBytes)
    (prefixed : above <+: dirs) : CanList fs (s.root.joinAll above) := by
  obtain ⟨usable, before, le, place, leads, there⟩ := FileSystem.resolve_eq_ok_iff.1 resolved
  have passable : (directory entries .none).IsPassable (dirs ++ [name]) :=
    isPassable_of_canRead readable depth
  obtain ⟨rest, rfl⟩ := prefixed
  rw [List.append_assoc] at entry passable short
  rw [below?_append] at entry
  obtain ⟨dir, found, further⟩ := Option.bind_eq_some_iff.1 entry
  obtain ⟨entries', refusals, rfl⟩ := exists_directory_of_below? (by simp) further
  have listing : refusals.listing = none := by
    rcases depth with recursive | nil
    · rw [readable recursive _ _ _ found]
      rfl
    · obtain ⟨rfl, -⟩ := List.append_eq_nil_iff.1 nil
      cases found
      rfl
  rw [Path.joinAll_append] at short
  exact ⟨entries', (FileSystem.readDirectory_joinAll_iff ok usable le leads there
    ((isPassable_append found).1 passable).1 found).2
      ⟨Nat.le_trans (Path.length_le_joinAll ..) short, listing, rfl⟩⟩

/-- The files found are those that the scan asks for, except where the system does not follow the
path. -/
lemma mem_found_iff_selects {entries : List (RawText × FileNode)} (ok : fs.root.WellFormed)
    (resolved : fs.resolve s.root = .ok (directory entries .none))
    (readable : s.recursive = true → (directory entries .none).IsReadable) :
    p ∈ s.found fs s.root entries ↔
      p.bytes.length ≤ maxPathBytes ∧ ∃ links ≤ maxLinks, s.Selects fs p links := by
  have here : CanList fs s.root :=
    ⟨entries, FileSystem.readDirectory_eq_ok_iff.2 ⟨.none, resolved, rfl⟩⟩
  obtain ⟨usable, before, le, place, leads, there⟩ := FileSystem.resolve_eq_ok_iff.1 resolved
  rw [mem_found_iff (ok.of_at? there) here]
  constructor
  · rintro ⟨dirs, name, node, entry, depth, -, solid, taken, rfl, isFile⟩
    obtain ⟨short, behind, le, file⟩ := (FileSystem.isFile_joinAll_iff ok usable leads there
      (isPassable_of_canRead readable depth) entry).1 isFile
    exact ⟨short, _, le, .intro leads there entry depth file (accepts_iff_takes.1 taken)⟩
  · rintro ⟨short, _, le', leads', there', entry, depth, file, taken⟩
    obtain ⟨rfl, rfl⟩ := leads.unique leads'
    cases there.symm.trans there'
    have listed : ∀ above, above <+: _ → CanList fs (s.root.joinAll above) := fun _ =>
      canList_joinAll ok resolved readable depth entry short
    refine ⟨_, _, _, entry, depth, listed, ?_, accepts_iff_takes.2 taken, rfl, ?_⟩
    · rintro below refusals rfl
      cases file
    · exact (FileSystem.isFile_joinAll_iff ok usable leads there
        (isPassable_of_canRead readable depth) entry).2 ⟨short, _, le', file⟩

/-- Listing directories in another order makes no difference to what a scan asks for. -/
lemma Selects.relists (h : s.Selects fs p n) (relists : Relists fs.root root')
    (ok : root'.WellFormed) : s.Selects { fs with root := root' } p n := by
  obtain ⟨leads, there, entry, depth, file, taken⟩ := h
  obtain ⟨top', there', same⟩ := relists.at? ok there
  obtain ⟨node', entry', alike⟩ := same.below? (ok.of_at? there') entry
  exact .intro (relists.leads ok leads) there' entry' depth
    (relists.standsForFile ok alike file) taken

/-- Listing directories in another order makes no difference to which can be read. -/
lemma CanRead.relists (h : s.CanRead fs) (relists : Relists fs.root root')
    (ok : fs.root.WellFormed) : s.CanRead { fs with root := root' } := by
  have ok' := relists.wellFormed ok
  obtain ⟨entries, resolved, readable⟩ := h
  obtain ⟨node', resolved', alike⟩ := relists.resolve ok' resolved
  obtain ⟨-, -, -, place, -, there⟩ := FileSystem.resolve_eq_ok_iff.1 resolved
  obtain ⟨-, -, -, place', -, there'⟩ := FileSystem.resolve_eq_ok_iff.1 resolved'
  have alike' := alike
  obtain ⟨entries', rfl, -⟩ := alike.lookup (ok'.of_at? there')
  exact ⟨entries', resolved', fun recursive =>
    alike'.isReadable (ok.of_at? there) (readable recursive)⟩

/-- The number of links on the way to a file is a matter of the path. -/
lemma Selects.links_unique (h : s.Selects fs p n) (h' : s.Selects fs p m)
    (ok : fs.root.WellFormed) (ne_empty : s.root.bytes ≠ []) : n = m := by
  obtain ⟨leads, there, entry, -, file, -⟩ := h
  generalize same : s.root.joinAll _ = p at h'
  obtain ⟨leads', there', entry', -, file', -⟩ := h'
  obtain ⟨rfl, rfl⟩ := leads.unique leads'
  cases there.symm.trans there'
  have names := (ok.of_at? there).of_below? entry
  have names' := (ok.of_at? there).of_below? entry'
  have parts := congrArg Path.parts same
  rw [Path.parts_joinAll ne_empty names.1, Path.parts_joinAll ne_empty names'.1,
    List.append_right_inj] at parts
  obtain ⟨rfl, last⟩ :=
    List.append_inj' (List.map_injective_iff.2 (fun _ _ => PathPart.name.inj) parts) rfl
  cases last
  cases entry.symm.trans entry'
  rw [file.unique file']

/-- The answer of a scan that can be made. -/
structure Lists (s : DirectoryScan) (fs : FileSystem) (paths : List Path) : Prop where
  /-- The paths are those of the files that the scan asks for, as far as the system follows them. -/
  mem_iff : ∀ p, p ∈ paths ↔
    p.bytes.length ≤ maxPathBytes ∧ ∃ links ≤ maxLinks, s.Selects fs p links
  /-- The paths increase. -/
  increasing : paths.Pairwise (compare · · = .lt)
  /-- The answer is the same however directories are listed. -/
  relisted : ∀ root', Relists fs.root root' → s.collect { fs with root := root' } = .ok paths

/-- A scan that can be made lists the files that it asks for in increasing order. -/
lemma CanRead.exists_increasing (readable : s.CanRead fs) (ok : fs.root.WellFormed)
    (valid : s.HasValidPatterns) :
    ∃ paths, s.collect fs = .ok paths ∧ paths.Pairwise (compare · · = .lt) ∧
      ∀ p, p ∈ paths ↔
        p.bytes.length ≤ maxPathBytes ∧ ∃ links ≤ maxLinks, s.Selects fs p links := by
  obtain ⟨entries, resolved, below⟩ := readable
  obtain ⟨usable, -, -, place, -, there⟩ := FileSystem.resolve_eq_ok_iff.1 resolved
  have read : fs.readDirectory s.root = .ok entries :=
    FileSystem.readDirectory_eq_ok_iff.2 ⟨.none, resolved, rfl⟩
  refine ⟨Path.sort (s.found fs s.root entries), ?_, ?_, fun p => ?_⟩
  · rw [collect, defect?_eq_none_iff.2 valid, read]
  · exact Path.increasing_sort (nodup_parts_found (ok.of_at? there) usable.ne_empty)
  · rw [(Path.perm_sort _).mem_iff, mem_found_iff_selects ok resolved below]

/-- A scan that can be made lists the files that it asks for, however directories are listed. -/
lemma exists_lists (ok : fs.root.WellFormed) (valid : s.HasValidPatterns)
    (readable : s.CanRead fs) : ∃ paths, s.collect fs = .ok paths ∧ s.Lists fs paths := by
  obtain ⟨paths, collected, increasing, mem_iff⟩ := readable.exists_increasing ok valid
  refine ⟨paths, collected, mem_iff, increasing, fun root' relists => ?_⟩
  have ok' := relists.wellFormed ok
  have readable' := readable.relists relists ok
  obtain ⟨paths', collected', increasing', mem_iff'⟩ := readable'.exists_increasing ok' valid
  rw [collected']
  refine congrArg _ (Path.eq_of_increasing increasing' increasing fun p => ?_)
  rw [mem_iff', mem_iff]
  refine and_congr_right fun _ => exists_congr fun links => and_congr_right fun _ => ?_
  exact ⟨fun h => h.relists relists.symm ok, fun h => h.relists relists ok'⟩

end Selected

end DirectoryScan

/-! ## File sets -/

namespace FileSet

variable {fs : FileSystem} {s : DirectoryScan} {before after scans : List DirectoryScan}
  {results : List (List Path)} {pattern : String} {defect : PatternDefect} {set : FileSet}

/-- Each of the scans can be made, with these results. -/
def Collects (fs : FileSystem) (scans : List DirectoryScan) (results : List (List Path)) : Prop :=
  List.Forall₂ (fun s paths => s.collect fs = .ok paths) scans results

/-- The results of scans are put one behind another. -/
lemma Collects.collectAll_eq (h : Collects fs scans results) :
    collectAll fs scans = .ok results.flatten := by
  induction h with
  | nil => rfl
  | cons first _ ih =>
    rw [collectAll, first, ih]
    rfl

/-- The first scan that cannot be made decides. -/
lemma Collects.collectAll_eq_error {e : LoadError} (h : Collects fs before results)
    (failed : s.collect fs = .error e) : collectAll fs (before ++ s :: after) = .error e := by
  induction h with
  | nil =>
    rw [List.nil_append, collectAll, failed]
    rfl
  | cons first _ ih =>
    rw [List.cons_append, collectAll, first, ih]
    rfl

end FileSet

/-- What scans and file sets select in a file system. -/
structure FileSystem.Selection (fs : FileSystem) : Prop where
  /-- A scan with patterns that can be used, of directories that can be read, lists the files that
  it asks for. -/
  collected : ∀ s : DirectoryScan, s.HasValidPatterns → s.CanRead fs →
    ∃ paths, s.collect fs = .ok paths ∧ s.Lists fs paths
  /-- A file set has its own files and then the results of its scans, each path at its first
  position only. -/
  resolved : ∀ (set : FileSet) (results : List (List Path)),
    FileSet.Collects fs set.scans results →
      set.resolve fs = .ok (Path.firstPositions (set.files ++ results.flatten))
  /-- A scan with a pattern that cannot be used is refused, and so is every file set that gets as
  far as the scan. -/
  refused : ∀ s : DirectoryScan, ¬ s.HasValidPatterns →
    ∃ pattern defect, s.RefusedFor pattern defect ∧
      s.collect fs = .error (.invalidPattern pattern defect) ∧
        ∀ (set : FileSet) before after results, set.scans = before ++ s :: after →
          FileSet.Collects fs before results →
            set.resolve fs = .error (.invalidPattern pattern defect)

/-- Scans find exactly the files that they ask for and that the system follows the path of, in one
order however directories are listed. File sets put the results together without losing or repeating
a file. -/
theorem FileSystem.selection_of_wellFormed (fs : FileSystem) (ok : fs.root.WellFormed) :
    fs.Selection where
  collected _ valid readable := DirectoryScan.exists_lists ok valid readable
  resolved set results collects := by
    rw [FileSet.resolve, collects.collectAll_eq, ← Path.distinct_eq_firstPositions]
    rfl
  refused s invalid := by
    obtain ⟨pattern, defect, refused⟩ := DirectoryScan.exists_refusedFor invalid
    refine ⟨pattern, defect, refused, refused.collect_eq, ?_⟩
    intro set before after results scans collects
    rw [FileSet.resolve, scans, collects.collectAll_eq_error refused.collect_eq]
    rfl

/-- A directory with a file, a link that leads to it from the root of the system, and another file
one directory below. -/
def linkedDirectory : FileNode :=
  .directory [("b", .file (.ok [])), ("a.mib", .link (.mk "/mibs/b")),
    ("sub", .directory [("c.mib", .file (.error .permissionDenied))])]

/-- The directory in the root of the system. The program works in another one. -/
def linkedTree : FileSystem :=
  ⟨.directory [("mibs", linkedDirectory), ("home", .directory [])], Place.root.child "home"⟩

/-- The names in the tree are proper ones and different. -/
lemma wellFormed_linkedTree : linkedTree.root.WellFormed := by
  have sub : WellFormed (.directory [("c.mib", .file (.error .permissionDenied))]) :=
    .directory _ (by decide) (by decide) (List.forall_mem_singleton.2 (.file _))
  have mibs : linkedDirectory.WellFormed := by
    refine .directory _ (by decide) (by decide) ?_
    simp only [List.forall_mem_cons]
    exact ⟨.file _, .link _, sub, List.forall_mem_nil _⟩
  have home : WellFormed (.directory []) :=
    .directory _ .nil (List.forall_mem_nil _) (List.forall_mem_nil _)
  refine .directory _ (by decide) (by decide) ?_
  simp only [List.forall_mem_cons]
  exact ⟨mibs, home, List.forall_mem_nil _⟩

/-- The scan of the directory and what is below it. -/
def mibScan : DirectoryScan := ⟨.mk "/mibs", true, ["*.mib"], []⟩

/-- The root of the scan is one step below that of the system. -/
lemma leadsTo_mibs : linkedTree.LeadsTo mibScan.root 0 (Place.root.child "mibs") := by
  have segments : Path.segments (.mk "/mibs") = [RawText.empty, "mibs"] := by decide
  rw [FileSystem.LeadsTo, mibScan, segments]
  exact .slash rfl (.down rfl rfl (by decide) rfl (fun _ e => by cases e) (.here _))

/-- Nobody refuses to list the directory, or the one below it. -/
lemma isReadable_linkedDirectory : linkedDirectory.IsReadable := by
  have file : ∀ content, IsReadable (.file content) := fun _ => .of_ne_directory nofun
  have sub : IsReadable (.directory [("c.mib", .file (.error .permissionDenied))]) :=
    .directory (List.forall_mem_singleton.2 (file _))
  refine .directory ?_
  simp only [List.forall_mem_cons]
  exact ⟨file _, .of_ne_directory nofun, sub, List.forall_mem_nil _⟩

/-- The scan finds the link from where nobody could tell that it is one, and the file below, which
may not be read. -/
theorem selection_linkedTree : linkedTree.root.WellFormed ∧
    ∃ paths, mibScan.collect linkedTree = .ok paths ∧
      .mk "/mibs/a.mib" ∈ paths ∧ .mk "/mibs/sub/c.mib" ∈ paths := by
  have selection := linkedTree.selection_of_wellFormed wellFormed_linkedTree
  have resolved : linkedTree.resolve mibScan.root = .ok linkedDirectory :=
    FileSystem.resolve_eq_ok_iff.2
      ⟨⟨by decide, by decide, by decide⟩, 0, Nat.zero_le _, _, leadsTo_mibs, rfl⟩
  obtain ⟨paths, collected, lists⟩ :=
    selection.collected mibScan (by decide) ⟨_, resolved, fun _ => isReadable_linkedDirectory⟩
  have taken : ∀ c, mibScan.Takes (String.ofList [c, '.', 'm', 'i', 'b']) := by
    intro c
    have pattern : "*.mib".toList = ['*', '.', 'm', 'i', 'b'] := by decide
    refine ⟨.inr ⟨"*.mib", List.mem_singleton_self _, ?_⟩, List.forall_mem_nil _⟩
    rw [pattern]
    refine ⟨[[c], ['.'], ['m'], ['i'], ['b']], ?_, by rw [String.toList_ofList]; rfl⟩
    have itself : ∀ c, c ≠ '*' → c ≠ '?' → Pattern.StandsFor c [c] := fun _ => .itself
    exact .cons (.star [c]) (.cons (itself '.' (by decide) (by decide))
      (.cons (itself 'm' (by decide) (by decide)) (.cons (itself 'i' (by decide) (by decide))
        (.cons (itself 'b' (by decide) (by decide)) .nil))))
  have a : RawText.text "a.mib" = String.ofList ['a', '.', 'm', 'i', 'b'] :=
    RawText.text_ofString _
  have c : RawText.text "c.mib" = String.ofList ['c', '.', 'm', 'i', 'b'] :=
    RawText.text_ofString _
  have segments : Path.segments (.mk "/mibs/b") = [RawText.empty, "mibs", "b"] := by decide
  have toTarget : linkedTree.root.LeadsToFile .root (Path.segments (.mk "/mibs/b")) 0 := by
    rw [segments]
    have solid : ∀ {content} target, FileNode.file content ≠ .link target := fun _ e => by cases e
    have solid' : ∀ target, linkedDirectory ≠ .link target := fun _ e => by cases e
    exact ⟨⟨["mibs", "b"]⟩, .ok [], .slash rfl (.down rfl rfl (by decide) rfl solid'
      (.down rfl rfl (by decide) rfl solid (.here _))), rfl⟩
  have stands : linkedTree.root.StandsForFile (Place.root.child "mibs")
      (.link (.mk "/mibs/b")) (0 + 1) := .link toTarget
  have linked : mibScan.Selects linkedTree
      (mibScan.root.joinAll ([] ++ [RawText.ofString "a.mib"])) (0 + (0 + 1)) :=
    .intro leadsTo_mibs rfl rfl (.inr rfl) stands (a ▸ taken 'a')
  have below : mibScan.Selects linkedTree
      (mibScan.root.joinAll ([RawText.ofString "sub"] ++ [RawText.ofString "c.mib"])) (0 + 0) :=
    .intro leadsTo_mibs rfl rfl (.inl rfl) (.file _) (c ▸ taken 'c')
  refine ⟨wellFormed_linkedTree, paths, collected, ?_, ?_⟩
  · exact (lists.mem_iff _).2 ⟨by decide, 1, by decide, linked⟩
  · exact (lists.mem_iff _).2 ⟨by decide, 0, by decide, below⟩

/-! ## Limits -/

/-- The scan asks for the file at a path, but its answer does not have the path. -/
structure DirectoryScan.Misses (s : DirectoryScan) (fs : FileSystem) (p : Path) (links : Nat) :
    Prop where
  wellFormed : fs.root.WellFormed
  valid : s.HasValidPatterns
  readable : s.CanRead fs
  selects : s.Selects fs p links
  missing : ∃ paths, s.collect fs = .ok paths ∧ p ∉ paths

section Limits

variable {s : DirectoryScan} {fs : FileSystem} {p : Path} {links : Nat}

/-- The files that a scan asks for and does not find are those whose path is too long or has too
many links on it. -/
lemma DirectoryScan.Selects.misses (selects : s.Selects fs p links) (ok : fs.root.WellFormed)
    (valid : s.HasValidPatterns) (readable : s.CanRead fs)
    (beyond : maxPathBytes < p.bytes.length ∨ maxLinks < links) : s.Misses fs p links := by
  refine ⟨ok, valid, readable, selects, ?_⟩
  obtain ⟨paths, collected, lists⟩ := DirectoryScan.exists_lists ok valid readable
  refine ⟨paths, collected, fun mem => ?_⟩
  obtain ⟨entries, resolved, -⟩ := readable
  obtain ⟨usable, -⟩ := FileSystem.resolve_eq_ok_iff.1 resolved
  obtain ⟨short, n, le, selects'⟩ := (lists.mem_iff p).1 mem
  obtain rfl := selects.links_unique selects' ok usable.ne_empty
  rcases beyond with long | many
  · exact Nat.not_le.2 long short
  · exact Nat.not_le.2 many le

/-- The working directory as a path with slashes at the end. -/
def dotSlashes (n : Nat) : Path := ⟨⟨46 :: List.replicate n RawText.slash⟩⟩

/-- Behind the dot there is nothing between the slashes. -/
lemma segments_dotSlashes (n : Nat) :
    (dotSlashes n).segments = .dot :: List.replicate n .empty := by
  induction n with
  | zero => decide
  | succ n ih =>
    have bytes : (dotSlashes (n + 1)).bytes = (dotSlashes n).bytes ++ RawText.slash :: [] := by
      rw [dotSlashes, List.replicate_succ']
      rfl
    have before : ((dotSlashes n).bytes.splitOn RawText.slash).map RawText.mk = _ := ih
    rw [Path.segments_of_bytes bytes, before, List.replicate_succ', List.cons_append]
    rfl

/-- The system takes the path if it is not too long. -/
lemma isUsable_dotSlashes {n : Nat} (le : n + 1 ≤ maxPathBytes) : (dotSlashes n).IsUsable where
  noZero mem := by
    rcases List.mem_cons.1 mem with zero | mem
    · cases zero
    · cases List.eq_of_mem_replicate mem
  ne_empty := List.cons_ne_nil _ _
  length_le := by simpa [dotSlashes, Path.bytes] using le

/-- The path leads to the working directory. -/
lemma leadsTo_dotSlashes (entries : List (RawText × FileNode)) (n : Nat) :
    FileSystem.LeadsTo ⟨directory entries, .root⟩ (dotSlashes n) 0 .root := by
  rw [FileSystem.LeadsTo, segments_dotSlashes]
  refine .stay rfl rfl ?_
  induction n with
  | zero => exact .here _
  | succ n ih => exact .slash rfl ih

/-- So the working directory is what it resolves to. -/
lemma resolve_dotSlashes (entries : List (RawText × FileNode)) {n : Nat}
    (le : n + 1 ≤ maxPathBytes) :
    FileSystem.resolve ⟨directory entries, .root⟩ (dotSlashes n) = .ok (directory entries) :=
  FileSystem.resolve_eq_ok_iff.2
    ⟨isUsable_dotSlashes le, 0, Nat.zero_le _, .root, leadsTo_dotSlashes _ _, rfl⟩

/-- A directory with one file. -/
def oneFile : FileSystem := ⟨.directory [("a", .file (.ok []))], .root⟩

/-- The name of the file makes its path too long, while that of the directory is not. -/
lemma misses_dotSlashes {n : Nat} (le : n + 2 ≤ maxPathBytes) (lt : maxPathBytes < n + 3) :
    DirectoryScan.Misses ⟨dotSlashes (n + 1), false, [], []⟩ oneFile
      ((dotSlashes (n + 1)).join "a") 0 := by
  have ok : oneFile.root.WellFormed :=
    .directory _ (by decide) (by decide) (List.forall_mem_singleton.2 (.file _))
  have selects : DirectoryScan.Selects ⟨dotSlashes (n + 1), false, [], []⟩ oneFile
      ((dotSlashes (n + 1)).joinAll ([] ++ [RawText.ofString "a"])) (0 + 0) :=
    .intro (leadsTo_dotSlashes _ _) rfl rfl (.inr rfl) (.file _)
      ⟨.inl rfl, List.forall_mem_nil _⟩
  refine selects.misses ok (List.forall_mem_nil _)
    ⟨_, resolve_dotSlashes _ le, fun e => by cases e⟩ (.inl ?_)
  have size : (dotSlashes (n + 1)).bytes.length = n + 2 := by
    simp [dotSlashes, Path.bytes]
  have longer := Path.length_add_le_join (dotSlashes (n + 1)) "a"
  rw [size] at longer
  exact Nat.lt_of_lt_of_le lt longer

/-- A path that leads through the link `d` to `.` so many times and then to `f`. -/
def detours : Nat → List UInt8
  | 0 => [102]
  | n + 1 => [100] ++ RawText.slash :: detours n

/-- The link stands in the path so many times, and then the file. -/
lemma segments_detours (n : Nat) :
    Path.segments ⟨⟨detours n⟩⟩ = List.replicate n "d" ++ ["f"] := by
  induction n with
  | zero => decide
  | succ n ih =>
    have behind : ((detours n).splitOn RawText.slash).map RawText.mk = _ := ih
    rw [Path.segments_of_bytes (s := [100]) (t := detours n) rfl, behind, List.replicate_succ]
    rfl

/-- A file, a link to the directory that it is in, and a link that leads to the file by following
the other one so many times. -/
def detourTree (n : Nat) : FileSystem :=
  ⟨.directory [("f", .file (.ok [])), ("d", .link (.mk ".")), ("a", .link ⟨⟨detours n⟩⟩)], .root⟩

/-- Each time the link leads back to where it was met. -/
lemma leads_detours (n m : Nat) :
    (detourTree m).root.Leads .root (List.replicate n "d" ++ ["f"]) n ⟨["f"]⟩ := by
  induction n with
  | zero => exact .down rfl rfl (by decide) rfl (fun _ e => by cases e) (.here _)
  | succ n ih =>
    have segments : Path.segments (.mk ".") = [.dot] := by decide
    refine .through rfl rfl (by decide) rfl ?_
    rw [segments]
    exact .stay rfl rfl ih

/-- The link leads to the file, with one link more than may be followed. -/
lemma misses_detours :
    DirectoryScan.Misses ⟨.mk ".", false, [], []⟩ (detourTree 40) (.mk "./a") 41 := by
  have ok : (detourTree 40).root.WellFormed := by
    refine .directory _ (by decide) (by decide) ?_
    simp only [List.forall_mem_cons]
    exact ⟨.file _, .link _, .link _, List.forall_mem_nil _⟩
  have toFile : (detourTree 40).root.LeadsToFile .root (Path.segments ⟨⟨detours 40⟩⟩) 40 := by
    rw [segments_detours]
    exact ⟨⟨["f"]⟩, .ok [], leads_detours 40 40, rfl⟩
  have selects : DirectoryScan.Selects ⟨.mk ".", false, [], []⟩ (detourTree 40)
      (Path.joinAll (.mk ".") ([] ++ [RawText.ofString "a"])) (0 + (40 + 1)) :=
    .intro (leadsTo_dotSlashes _ 0) rfl rfl (.inr rfl) (.link toFile)
      ⟨.inl rfl, List.forall_mem_nil _⟩
  have path : Path.joinAll (.mk ".") ([] ++ [RawText.ofString "a"]) = .mk "./a" := by decide
  rw [path] at selects
  exact selects.misses ok (by decide)
    ⟨_, resolve_dotSlashes _ (n := 0) (by decide), fun e => by cases e⟩ (.inr (by decide))

/-- A scan can miss files that it asks for on either account. -/
theorem misses_beyond_limits :
    DirectoryScan.Misses ⟨dotSlashes 4094, false, [], []⟩ oneFile ((dotSlashes 4094).join "a") 0 ∧
      DirectoryScan.Misses ⟨.mk ".", false, [], []⟩ (detourTree 40) (.mk "./a") 41 :=
  ⟨misses_dotSlashes (n := 4093) (by decide) (by decide), misses_detours⟩

end Limits

end MibCorpus
