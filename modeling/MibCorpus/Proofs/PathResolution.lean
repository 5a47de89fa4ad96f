import Mathlib.Data.List.Basic
import Mathlib.Tactic.Lemma
import MibCorpus.Files.System

/-!
# Where paths lead

A path leads from a directory to a place in steps, one for each text between its slashes. A link on
the way puts its own texts in front of those that are left. The system follows a limited number of
links; where a path leads is said without that limit, and how many links it takes to get there.
-/

namespace MibCorpus

/-- A text between slashes that is a name: not a dot or two, and not too long. -/
structure IsName (segment : RawText) : Prop where
  ne_empty : segment ≠ .empty
  ne_dot : segment ≠ .dot
  ne_dots : segment ≠ .dots
  length_le : segment.bytes.length ≤ FileNode.maxNameBytes

instance (segment : RawText) : Decidable (IsName segment) :=
  decidable_of_iff (segment ≠ .empty ∧ segment ≠ .dot ∧ segment ≠ .dots ∧
      segment.bytes.length ≤ FileNode.maxNameBytes)
    ⟨fun ⟨a, b, c, d⟩ => ⟨a, b, c, d⟩, fun ⟨a, b, c, d⟩ => ⟨a, b, c, d⟩⟩

namespace FileNode

/-- The texts between slashes lead from the directory at one place to another place, with so many
links on the way. Only what comes behind a last slash needs no directory that can be gone
through. -/
inductive Leads (root : FileNode) : Place → List RawText → Nat → Place → Prop where
  | here (place : Place) : Leads root place [] 0 place
  | slash {place goal : Place} {entries refusals segments links}
      (dir : root.at? place = some (directory entries refusals))
      (rest : Leads root place segments links goal) :
      Leads root place (.empty :: segments) links goal
  | stay {place goal : Place} {entries refusals segments links}
      (dir : root.at? place = some (directory entries refusals))
      (search : refusals.search = none) (rest : Leads root place segments links goal) :
      Leads root place (.dot :: segments) links goal
  | up {place goal : Place} {entries refusals segments links}
      (dir : root.at? place = some (directory entries refusals))
      (search : refusals.search = none) (rest : Leads root place.parent segments links goal) :
      Leads root place (.dots :: segments) links goal
  | down {place goal : Place} {entries refusals segment segments node links}
      (dir : root.at? place = some (directory entries refusals))
      (search : refusals.search = none) (name : IsName segment)
      (entry : entries.lookup segment = some node) (solid : ∀ target, node ≠ link target)
      (rest : Leads root (place.child segment) segments links goal) :
      Leads root place (segment :: segments) links goal
  | through {place goal : Place} {entries refusals segment segments target links}
      (dir : root.at? place = some (directory entries refusals))
      (search : refusals.search = none) (name : IsName segment)
      (entry : entries.lookup segment = some (link target))
      (rest : Leads root (place.startOf target) (target.segments ++ segments) links goal) :
      Leads root place (segment :: segments) (links + 1) goal

section Leads

variable {root : FileNode} {place mid goal goal' : Place} {xs ys segments : List RawText}
  {entries : List (RawText × FileNode)} {n m k links : Nat}

/-- What the system follows leads to where it ends up, with no more links than it may follow. -/
lemma exists_leads_of_follow (h : root.follow links place segments = .ok goal) :
    ∃ n ≤ links, root.Leads place segments n goal := by
  fun_induction follow root links place segments with
  | case1 links place =>
    cases h
    exact ⟨0, Nat.zero_le _, .here _⟩
  | case2 | case3 | case4 | case5 | case7 | case10 | case11 | case12 => cases h
  | case6 links place segments entries refusals dir ih =>
    obtain ⟨n, le, rest⟩ := ih h
    exact ⟨n, le, .slash dir rest⟩
  | case8 links place segments entries refusals dir search _ ih =>
    obtain ⟨n, le, rest⟩ := ih h
    exact ⟨n, le, .stay dir search rest⟩
  | case9 links place segments entries refusals dir search _ _ ih =>
    obtain ⟨n, le, rest⟩ := ih h
    exact ⟨n, le, .up dir search rest⟩
  | case13 place segment segments entries refusals dir ne search noDot noDots short target entry
      links ih =>
    obtain ⟨n, le, rest⟩ := ih h
    exact ⟨n + 1, Nat.succ_le_succ le,
      .through dir search ⟨ne, noDot, noDots, Nat.le_of_not_lt short⟩ entry rest⟩
  | case14 links place segment segments entries refusals dir ne search noDot noDots short node solid
      entry ih =>
    obtain ⟨n, le, rest⟩ := ih h
    exact ⟨n, le, .down dir search ⟨ne, noDot, noDots, Nat.le_of_not_lt short⟩ entry solid rest⟩

/-- The system follows texts to where they lead, unless there are too many links on the way. -/
lemma Leads.follow_eq (h : root.Leads place segments n goal) (le : n ≤ links) :
    root.follow links place segments = .ok goal := by
  induction h generalizing links with
  | here => rw [follow]
  | slash dir _ ih =>
    rw [follow]
    simp only [dir, if_true]
    exact ih le
  | stay dir search _ ih =>
    rw [follow]
    simp only [dir, search, if_true, show RawText.dot ≠ .empty by decide, if_false]
    exact ih le
  | up dir search _ ih =>
    rw [follow]
    simp only [dir, search, if_true, show RawText.dots ≠ .empty by decide,
      show RawText.dots ≠ .dot by decide, if_false]
    exact ih le
  | down dir search name entry solid _ ih =>
    rw [follow]
    simp only [dir, search, name.ne_empty, name.ne_dot, name.ne_dots, Nat.not_lt.2 name.length_le,
      entry, if_false]
    exact ih le
  | through dir search name entry _ ih =>
    rw [follow]
    simp only [dir, search, name.ne_empty, name.ne_dot, name.ne_dots, Nat.not_lt.2 name.length_le,
      entry, if_false]
    cases links with
    | zero => exact absurd le (Nat.not_succ_le_zero _)
    | succ links => exact ih (Nat.le_of_succ_le_succ le)

/-- The system gets where texts lead if that takes no more links than it may follow. -/
lemma follow_eq_ok_iff :
    root.follow links place segments = .ok goal ↔ ∃ n ≤ links, root.Leads place segments n goal :=
  ⟨exists_leads_of_follow, fun ⟨_, le, h⟩ => h.follow_eq le⟩

/-- Texts lead to one place, with one number of links. -/
lemma Leads.unique (h : root.Leads place segments n goal)
    (h' : root.Leads place segments m goal') : n = m ∧ goal = goal' := by
  -- What the next text is and what stands at the place tell which step can be made.
  induction h generalizing m goal' with
  | here =>
    cases h'
    exact ⟨rfl, rfl⟩
  | slash dir _ ih =>
    cases h' with
    | slash _ rest => exact ih rest
    | down _ _ name | through _ _ name => exact absurd rfl name.ne_empty
  | stay dir search _ ih =>
    cases h' with
    | stay _ _ rest => exact ih rest
    | down _ _ name | through _ _ name => exact absurd rfl name.ne_dot
  | up dir search _ ih =>
    cases h' with
    | up _ _ rest => exact ih rest
    | down _ _ name | through _ _ name => exact absurd rfl name.ne_dots
  | down dir search name entry solid _ ih =>
    cases h' with
    | slash => exact absurd rfl name.ne_empty
    | stay => exact absurd rfl name.ne_dot
    | up => exact absurd rfl name.ne_dots
    | down _ _ _ _ _ rest => exact ih rest
    | through dir' _ _ entry' =>
      cases dir.symm.trans dir'
      exact absurd (Option.some.inj (entry.symm.trans entry')) (solid _)
  | through dir search name entry _ ih =>
    cases h' with
    | slash => exact absurd rfl name.ne_empty
    | stay => exact absurd rfl name.ne_dot
    | up => exact absurd rfl name.ne_dots
    | down dir' _ _ entry' solid =>
      cases dir.symm.trans dir'
      exact absurd (Option.some.inj (entry'.symm.trans entry)) (solid _)
    | through dir' _ _ entry' rest =>
      cases dir.symm.trans dir'
      cases entry.symm.trans entry'
      obtain ⟨rfl, rfl⟩ := ih rest
      exact ⟨rfl, rfl⟩

/-- Texts lead where their first part does and the rest does from there. -/
lemma leads_append : root.Leads place (xs ++ ys) n goal ↔
    ∃ mid k m, root.Leads place xs k mid ∧ root.Leads mid ys m goal ∧ n = k + m := by
  constructor
  · intro h
    generalize whole : xs ++ ys = segments at h
    -- On the texts of `xs` the steps go on as they do on the whole. A link on the way makes `xs`
    -- longer, so the induction is on the steps.
    induction h generalizing xs with
    | here place =>
      obtain ⟨rfl, rfl⟩ := List.append_eq_nil_iff.1 whole
      exact ⟨place, 0, 0, .here place, .here place, rfl⟩
    | slash dir rest ih =>
      obtain ⟨rfl, rfl⟩ | ⟨xs, rfl, same⟩ := List.append_eq_cons_iff.1 whole
      · exact ⟨_, 0, _, .here _, .slash dir rest, (Nat.zero_add _).symm⟩
      · obtain ⟨mid, k, m, h, later, rfl⟩ := ih same.symm
        exact ⟨mid, k, m, .slash dir h, later, rfl⟩
    | stay dir search rest ih =>
      obtain ⟨rfl, rfl⟩ | ⟨xs, rfl, same⟩ := List.append_eq_cons_iff.1 whole
      · exact ⟨_, 0, _, .here _, .stay dir search rest, (Nat.zero_add _).symm⟩
      · obtain ⟨mid, k, m, h, later, rfl⟩ := ih same.symm
        exact ⟨mid, k, m, .stay dir search h, later, rfl⟩
    | up dir search rest ih =>
      obtain ⟨rfl, rfl⟩ | ⟨xs, rfl, same⟩ := List.append_eq_cons_iff.1 whole
      · exact ⟨_, 0, _, .here _, .up dir search rest, (Nat.zero_add _).symm⟩
      · obtain ⟨mid, k, m, h, later, rfl⟩ := ih same.symm
        exact ⟨mid, k, m, .up dir search h, later, rfl⟩
    | down dir search name entry solid rest ih =>
      obtain ⟨rfl, rfl⟩ | ⟨xs, rfl, same⟩ := List.append_eq_cons_iff.1 whole
      · exact ⟨_, 0, _, .here _, .down dir search name entry solid rest, (Nat.zero_add _).symm⟩
      · obtain ⟨mid, k, m, h, later, rfl⟩ := ih same.symm
        exact ⟨mid, k, m, .down dir search name entry solid h, later, rfl⟩
    | through dir search name entry rest ih =>
      obtain ⟨rfl, rfl⟩ | ⟨xs, rfl, same⟩ := List.append_eq_cons_iff.1 whole
      · exact ⟨_, 0, _, .here _, .through dir search name entry rest, (Nat.zero_add _).symm⟩
      · obtain ⟨mid, k, m, h, later, rfl⟩ := ih (by rw [List.append_assoc, same])
        exact ⟨mid, k + 1, m, .through dir search name entry h, later, Nat.add_right_comm ..⟩
  · rintro ⟨mid, k, m, h, rest, rfl⟩
    induction h with
    | here => rwa [Nat.zero_add]
    | slash dir _ ih => exact .slash dir (ih rest)
    | stay dir search _ ih => exact .stay dir search (ih rest)
    | up dir search _ ih => exact .up dir search (ih rest)
    | down dir search name entry solid _ ih => exact .down dir search name entry solid (ih rest)
    | through dir search name entry _ ih =>
      rw [Nat.add_right_comm]
      exact .through dir search name entry (List.append_assoc .. ▸ ih rest)

/-- No texts at all lead to where one is. -/
lemma leads_nil : root.Leads place [] n goal ↔ n = 0 ∧ goal = place := by
  constructor
  · rintro ⟨⟩
    exact ⟨rfl, rfl⟩
  · rintro ⟨rfl, rfl⟩
    exact .here _

/-- A further slash may stand behind a directory. -/
lemma leads_slash : root.Leads place (.empty :: segments) n goal ↔
    (∃ entries refusals, root.at? place = some (directory entries refusals)) ∧
      root.Leads place segments n goal := by
  constructor
  · intro h
    cases h with
    | slash dir rest => exact ⟨⟨_, _, dir⟩, rest⟩
    | down _ _ name | through _ _ name => exact absurd rfl name.ne_empty
  · rintro ⟨⟨entries, refusals, dir⟩, rest⟩
    exact .slash dir rest

/-- A slash at the end makes no difference, but says that a directory is there. -/
lemma leads_concat_empty : root.Leads place (segments ++ [.empty]) n goal ↔
    root.Leads place segments n goal ∧
      ∃ entries refusals, root.at? goal = some (directory entries refusals) := by
  simp only [leads_append, leads_slash, leads_nil]
  constructor
  · rintro ⟨_, k, _, h, ⟨dir, rfl, rfl⟩, rfl⟩
    exact ⟨h, dir⟩
  · rintro ⟨h, dir⟩
    exact ⟨goal, n, 0, h, ⟨dir, rfl, rfl⟩, rfl⟩

/-- Texts between slashes lead from a place to a file. -/
def LeadsToFile (root : FileNode) (place : Place) (segments : List RawText) (links : Nat) : Prop :=
  ∃ goal content, root.Leads place segments links goal ∧ root.at? goal = some (file content)

/-- Where the first texts lead, the rest has to lead to a file from there. -/
lemma Leads.leadsToFile_append_iff (h : root.Leads place xs k mid) :
    root.LeadsToFile place (xs ++ ys) n ↔ ∃ m, root.LeadsToFile mid ys m ∧ n = k + m := by
  constructor
  · rintro ⟨goal, content, leads, file⟩
    obtain ⟨mid', k', m, first, rest, rfl⟩ := leads_append.1 leads
    obtain ⟨rfl, rfl⟩ := h.unique first
    exact ⟨m, ⟨goal, content, rest, file⟩, rfl⟩
  · rintro ⟨m, ⟨goal, content, rest, file⟩, rfl⟩
    exact ⟨goal, content, leads_append.2 ⟨mid, k, m, h, rest, rfl⟩, file⟩

end Leads

end FileNode

/-! ## Paths -/

/-- The bytes of a path are ones that the system takes. -/
structure Path.IsUsable (p : Path) : Prop where
  noZero : 0 ∉ p.bytes
  ne_empty : p.bytes ≠ []
  length_le : p.bytes.length ≤ FileNode.maxPathBytes

namespace FileSystem

open FileNode

/-- A path leads to a place, with so many links on the way. -/
def LeadsTo (fs : FileSystem) (p : Path) (links : Nat) (goal : Place) : Prop :=
  fs.root.Leads (fs.startOf p) p.segments links goal

variable {fs : FileSystem} {p : Path} {node : FileNode} {goal : Place}
  {entries : List (RawText × FileNode)}

/-- The system finds the place that a path leads to within the limits. -/
lemma locate_eq_ok_iff : fs.locate p = .ok goal ↔
    p.IsUsable ∧ ∃ n ≤ maxLinks, fs.LeadsTo p n goal := by
  unfold locate LeadsTo
  rw [← follow_eq_ok_iff]
  constructor
  · intro h
    split at h
    next => cases h
    next noZero =>
    split at h
    next => cases h
    next ne_empty =>
    split at h
    next => cases h
    next short =>
    exact ⟨⟨by simpa using noZero, by simpa using ne_empty, Nat.le_of_not_lt short⟩, h⟩
  · rintro ⟨⟨noZero, ne_empty, short⟩, h⟩
    rw [if_neg (by simpa using noZero), if_neg (by simpa using ne_empty),
      if_neg (Nat.not_lt.2 short), h]

/-- The system finds what a path leads to within the limits. -/
lemma resolve_eq_ok_iff : fs.resolve p = .ok node ↔
    p.IsUsable ∧ ∃ n ≤ maxLinks, ∃ goal, fs.LeadsTo p n goal ∧ fs.root.at? goal = some node := by
  have located : fs.resolve p = .ok node ↔
      ∃ goal, fs.locate p = .ok goal ∧ fs.root.at? goal = some node := by
    unfold resolve
    cases fs.locate p with
    | error e => simp [bind, Except.bind]
    | ok goal => cases h : fs.root.at? goal <;> simp [bind, Except.bind, h]
  rw [located]
  constructor
  · rintro ⟨goal, h, there⟩
    obtain ⟨usable, n, le, leads⟩ := locate_eq_ok_iff.1 h
    exact ⟨usable, n, le, goal, leads, there⟩
  · rintro ⟨usable, n, le, goal, leads, there⟩
    exact ⟨goal, locate_eq_ok_iff.2 ⟨usable, n, le, leads⟩, there⟩

/-- A directory can be read if the path leads to it and nobody refuses to list it. -/
lemma readDirectory_eq_ok_iff : fs.readDirectory p = .ok entries ↔
    ∃ refusals, fs.resolve p = .ok (directory entries refusals) ∧ refusals.listing = none := by
  unfold readDirectory
  cases fs.resolve p with
  | error e => simp [bind, Except.bind]
  | ok node =>
    cases node with
    | file | special | link => simp [bind, Except.bind]
    | directory there refusals =>
      cases h : refusals.listing <;> simp [bind, Except.bind, h]

/-- Reading a file that is found gives what the file gives. -/
lemma readFile_of_resolve {content : Except FileError (List UInt8)}
    (h : fs.resolve p = .ok (file content)) : fs.readFile p = content := by
  rw [readFile, h]
  rfl

/-- A path is that of a file if a regular file is found there. -/
lemma isFile_iff_resolve : fs.isFile p ↔ ∃ content, fs.resolve p = .ok (file content) := by
  unfold isFile
  cases fs.resolve p with
  | error e => simp
  | ok node => cases node <;> simp

/-- A path is that of a file for the system if it leads to one within the limits. -/
lemma isFile_iff : fs.isFile p ↔
    p.IsUsable ∧ ∃ n ≤ maxLinks, fs.root.LeadsToFile (fs.startOf p) p.segments n := by
  simp only [isFile_iff_resolve, resolve_eq_ok_iff, LeadsToFile, LeadsTo]
  constructor
  · rintro ⟨content, usable, n, le, goal, leads, there⟩
    exact ⟨usable, n, le, goal, content, leads, there⟩
  · rintro ⟨usable, n, le, goal, content, leads, there⟩
    exact ⟨content, usable, n, le, goal, leads, there⟩

end FileSystem

/-! ## Going down -/

/-- The place that names lead down to. -/
def Place.descend (place : Place) (names : List RawText) : Place := names.foldl Place.child place

/-- A name that an entry of a directory can have. -/
structure IsEntryName (name : RawText) : Prop extends IsName name where
  noSlash : RawText.slash ∉ name.bytes
  noZero : 0 ∉ name.bytes

instance (name : RawText) : Decidable (IsEntryName name) :=
  decidable_of_iff (IsName name ∧ RawText.slash ∉ name.bytes ∧ 0 ∉ name.bytes)
    ⟨fun ⟨a, b, c⟩ => ⟨a, b, c⟩, fun ⟨a, b, c⟩ => ⟨a, b, c⟩⟩

namespace FileNode

/-- The entries of a directory have different names, and so on below. -/
inductive WellFormed : FileNode → Prop where
  | file (content : Except FileError (List UInt8)) : WellFormed (file content)
  | special (content : Except FileError (List UInt8)) : WellFormed (special content)
  | link (target : Path) : WellFormed (link target)
  | directory {entries : List (RawText × FileNode)} (refusals : Refusals)
      (distinct : (entries.map Prod.fst).Nodup)
      (names : ∀ e ∈ entries, IsEntryName e.1) (nodes : ∀ e ∈ entries, WellFormed e.2) :
      WellFormed (directory entries refusals)

/-- The directories that names lead down from can be gone through. -/
def IsPassable (n : FileNode) : List RawText → Prop
  | [] => True
  | name :: names =>
    (∀ entries refusals, n = directory entries refusals → refusals.search = none) ∧
      ∀ child, n.child? name = some child → child.IsPassable names

/-- Nobody refuses anything to do with the directory and those below it. -/
def IsReadable (n : FileNode) : Prop :=
  ∀ names entries refusals, n.below? names = some (directory entries refusals) → refusals = .none

/-- An entry of the directory at a place is that of a regular file, which may be at the end of so
many links. -/
inductive StandsForFile (root : FileNode) (place : Place) : FileNode → Nat → Prop where
  | file (content : Except FileError (List UInt8)) : StandsForFile root place (file content) 0
  | link {target : Path} {links : Nat}
      (leads : root.LeadsToFile (place.startOf target) target.segments links) :
      StandsForFile root place (link target) (links + 1)

section Descent

variable {root top node : FileNode} {place : Place} {name : RawText} {names names' : List RawText}
  {entries entries' : List (RawText × FileNode)} {refusals : Refusals} {n : Nat}

/-- Names lead down one after another. -/
lemma below?_append (node : FileNode) (names names' : List RawText) :
    node.below? (names ++ names') = (node.below? names).bind (·.below? names') := by
  induction names generalizing node with
  | nil => rfl
  | cons name names ih =>
    rw [List.cons_append, below?, below?]
    cases node.child? name with
    | none => rfl
    | some child => exact ih child

/-- One name leads to an entry. -/
lemma below?_singleton (node : FileNode) (name : RawText) :
    node.below? [name] = node.child? name := by
  simp only [below?, Option.bind_fun_some]

/-- Only directories have entries. -/
lemma child?_eq_some_iff : node.child? name = some top ↔
    ∃ entries refusals, node = directory entries refusals ∧ entries.lookup name = some top := by
  cases node <;> simp [child?]

/-- Names lead down from directories only. -/
lemma exists_directory_of_below? (ne_nil : names ≠ []) (found : top.below? names = some node) :
    ∃ entries refusals, top = directory entries refusals := by
  cases names with
  | nil => exact absurd rfl ne_nil
  | cons name names =>
    obtain ⟨child, entry, -⟩ := Option.bind_eq_some_iff.1 found
    obtain ⟨entries, refusals, whole, -⟩ := child?_eq_some_iff.1 entry
    exact ⟨entries, refusals, whole⟩

/-- There is nothing to be read below what is no directory. -/
lemma IsReadable.of_ne_directory (solid : ∀ entries refusals, node ≠ directory entries refusals) :
    node.IsReadable := by
  intro names entries refusals found
  cases names with
  | nil => exact absurd (Option.some.inj found) (solid _ _)
  | cons name names =>
    obtain ⟨entries, refusals, whole⟩ := exists_directory_of_below? (by simp) found
    exact absurd whole (solid _ _)

/-- If all directories can be read, so can those below an entry. -/
lemma IsReadable.child (h : top.IsReadable) (entry : top.child? name = some node) :
    node.IsReadable := fun names entries refusals found =>
  h (name :: names) entries refusals (Option.bind_eq_some_iff.2 ⟨node, entry, found⟩)

/-- Directories that can be read can be gone through. -/
lemma IsReadable.isPassable (h : top.IsReadable) (names : List RawText) :
    top.IsPassable names := by
  induction names generalizing top with
  | nil => trivial
  | cons name names ih =>
    refine ⟨?_, fun child entry => ih (h.child entry)⟩
    rintro entries refusals rfl
    rw [h [] entries refusals rfl]
    rfl

/-- An entry of a directory is at the place of its name. -/
lemma at?_child (dir : root.at? place = some (directory entries refusals))
    (entry : entries.lookup name = some node) : root.at? (place.child name) = some node := by
  rw [at?] at dir
  rw [Place.child, at?, below?_append, dir, Option.bind_some, below?_singleton]
  exact entry

/-- What names lead down to is at the place below. -/
lemma at?_descend (there : root.at? place = some top) (found : top.below? names = some node) :
    root.at? (place.descend names) = some node := by
  induction names generalizing place top with
  | nil =>
    cases found
    exact there
  | cons name names ih =>
    obtain ⟨child, entry, rest⟩ := Option.bind_eq_some_iff.1 found
    obtain ⟨entries, refusals, rfl, entry⟩ := child?_eq_some_iff.1 entry
    exact ih (at?_child there entry) rest

/-- An entry that is looked up is in the directory. -/
lemma mem_of_lookup (entry : entries.lookup name = some node) : (name, node) ∈ entries := by
  obtain ⟨before, after, rfl, -⟩ := List.lookup_eq_some_iff.1 entry
  exact List.mem_append_right _ (List.mem_cons_self ..)

/-- An entry is looked up by its name, since no other has the name. -/
lemma lookup_of_mem (distinct : (entries.map Prod.fst).Nodup) (mem : (name, node) ∈ entries) :
    entries.lookup name = some node := by
  obtain ⟨before, after, rfl⟩ := List.append_of_mem mem
  rw [List.map_append, List.map_cons, List.nodup_append] at distinct
  refine List.lookup_eq_some_iff.2 ⟨before, after, rfl, fun e he => ?_⟩
  have ne := distinct.2.2 e.1 (List.mem_map_of_mem he) name (List.mem_cons_self ..)
  simpa using ne.symm

/-- A directory can be read with all below it if nobody refuses anything to do with it and its
entries can be read. -/
lemma IsReadable.directory (nodes : ∀ e ∈ entries, e.2.IsReadable) :
    (FileNode.directory entries .none).IsReadable := by
  intro names entries' refusals found
  cases names with
  | nil =>
    cases found
    rfl
  | cons name names =>
    obtain ⟨child, entry, rest⟩ := Option.bind_eq_some_iff.1 found
    exact nodes _ (mem_of_lookup entry) names _ _ rest

/-- An entry of a well-formed directory has a proper name and is well-formed itself. -/
lemma WellFormed.child (h : WellFormed (.directory entries refusals))
    (entry : entries.lookup name = some node) :
    IsEntryName name ∧ node.WellFormed := by
  cases h with
  | directory _ distinct names nodes =>
    exact ⟨names _ (mem_of_lookup entry), nodes _ (mem_of_lookup entry)⟩

/-- So is what names lead down to. -/
lemma WellFormed.of_below? (h : top.WellFormed) (found : top.below? names = some node) :
    (∀ name ∈ names, IsEntryName name) ∧ node.WellFormed := by
  induction names generalizing top with
  | nil =>
    cases found
    exact ⟨fun _ mem => absurd mem List.not_mem_nil, h⟩
  | cons name names ih =>
    obtain ⟨child, entry, rest⟩ := Option.bind_eq_some_iff.1 found
    obtain ⟨entries, refusals, rfl, entry⟩ := child?_eq_some_iff.1 entry
    obtain ⟨first, ok⟩ := h.child entry
    obtain ⟨later, there⟩ := ih ok rest
    exact ⟨List.forall_mem_cons.2 ⟨first, later⟩, there⟩

/-- So is what a place holds. -/
lemma WellFormed.of_at? (h : root.WellFormed) (there : root.at? place = some node) :
    node.WellFormed :=
  (h.of_below? there).2

/-- Directories are gone through without following a link. -/
lemma leads_descend (there : root.at? place = some top) (names_ok : ∀ name ∈ names, IsName name)
    (passable : top.IsPassable names) (found : top.below? names = some node)
    (solid : ∀ target, node ≠ link target) :
    root.Leads place names 0 (place.descend names) := by
  induction names generalizing place top with
  | nil => exact .here place
  | cons name names ih =>
    obtain ⟨child, entry, rest⟩ := Option.bind_eq_some_iff.1 found
    obtain ⟨first, later⟩ := List.forall_mem_cons.1 names_ok
    have here : ∀ target, child ≠ link target := by
      rintro target rfl
      cases names with
      | nil => exact solid target (Option.some.inj rest).symm
      | cons => cases rest
    have onward := passable.2 child entry
    obtain ⟨entries, refusals, rfl, entry⟩ := child?_eq_some_iff.1 entry
    exact .down there (passable.1 _ _ rfl) first entry here
      (ih (at?_child there entry) later onward rest)

/-- The name of an entry leads to a file if the entry is that of one. -/
lemma leadsToFile_singleton (dir : root.at? place = some (directory entries refusals))
    (search : refusals.search = none) (name_ok : IsName name)
    (entry : entries.lookup name = some node) :
    root.LeadsToFile place [name] n ↔ root.StandsForFile place node n := by
  constructor
  · rintro ⟨goal, content, leads, there⟩
    cases leads with
    | slash => exact absurd rfl name_ok.ne_empty
    | stay => exact absurd rfl name_ok.ne_dot
    | up => exact absurd rfl name_ok.ne_dots
    | down dir' _ _ entry' _ rest =>
      cases dir.symm.trans dir'
      cases entry.symm.trans entry'
      cases rest
      cases there.symm.trans (at?_child dir entry)
      exact .file content
    | through dir' _ _ entry' rest =>
      cases dir.symm.trans dir'
      cases entry.symm.trans entry'
      rw [List.append_nil] at rest
      exact .link ⟨goal, content, rest, there⟩
  · intro h
    cases h with
    | file content =>
      refine ⟨place.child name, content, ?_, at?_child dir entry⟩
      exact .down dir search name_ok entry (fun _ e => by cases e) (.here _)
    | link leads =>
      obtain ⟨goal, content, leads, there⟩ := leads
      exact ⟨goal, content, .through dir search name_ok entry (by rwa [List.append_nil]), there⟩

/-- Names can be followed in a row if they can be followed one part after the other. -/
lemma isPassable_append (found : top.below? names = some node) :
    top.IsPassable (names ++ names') ↔ top.IsPassable names ∧ node.IsPassable names' := by
  induction names generalizing top with
  | nil =>
    cases found
    simp only [List.nil_append, IsPassable, true_and]
  | cons name names ih =>
    obtain ⟨child, entry, rest⟩ := Option.bind_eq_some_iff.1 found
    simp only [List.cons_append, IsPassable, entry, Option.some.injEq, forall_eq', ih rest,
      and_assoc]

/-- The names that lead down to an entry lead to a file if the entry is that of one. -/
lemma leadsToFile_below_iff (there : root.at? place = some top)
    (ok : ∀ s ∈ names ++ [name], IsName s) (passable : top.IsPassable (names ++ [name]))
    (found : top.below? (names ++ [name]) = some node) :
    root.LeadsToFile place (names ++ [name]) n ↔
      root.StandsForFile (place.descend names) node n := by
  obtain ⟨dirs_ok, last⟩ := List.forall_mem_append.1 ok
  rw [below?_append] at found
  obtain ⟨dir, toDir, entry⟩ := Option.bind_eq_some_iff.1 found
  obtain ⟨onward, search, -⟩ := (isPassable_append toDir).1 passable
  rw [below?_singleton] at entry
  obtain ⟨entries, refusals, rfl, entry⟩ := child?_eq_some_iff.1 entry
  have toHere := leads_descend there dirs_ok onward toDir (fun _ e => by cases e)
  rw [toHere.leadsToFile_append_iff]
  simp only [Nat.zero_add, exists_eq_right']
  exact leadsToFile_singleton (at?_descend there toDir) (search _ _ rfl)
    (List.forall_mem_singleton.1 last) entry

/-- There is one number of links at the end of which an entry is that of a file. -/
lemma StandsForFile.unique {m : Nat} (h : root.StandsForFile place node n)
    (h' : root.StandsForFile place node m) : n = m := by
  cases h with
  | file =>
    cases h'
    rfl
  | link leads =>
    obtain ⟨goal, content, leads, -⟩ := leads
    cases h' with
    | link leads' =>
      obtain ⟨goal', content', leads', -⟩ := leads'
      rw [(leads.unique leads').1]

end Descent

end FileNode

end MibCorpus
