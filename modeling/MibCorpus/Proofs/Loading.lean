import Mathlib.Data.List.Basic
import Mathlib.Tactic.Lemma
import MibCorpus.Proofs.PathResolution
import MibCorpus.Proofs.Transcript
import MibCorpus.Proofs.WorkerPool
import MibCorpus.Proofs.WrittenText

/-!
# What a load resolves

The files that can be read are parsed together and put back between those that cannot, so a load
resolves one parsed file for each path of its file set, in the order of the paths. If the
cancellation is requested before the last look at it, nothing is resolved at all.
-/

namespace MibCorpus

variable {parser : FileParser} {fs : FileSystem}

namespace LoadInput

/-- The input as a parsed file, where `parse` parses texts. -/
def parsed (parse : SourceText → ParsedFile) : LoadInput → ParsedFile
  | source s => parse s
  | unreadable file => file

end LoadInput

namespace Loader

/-! ## Paths -/

/-- The text of the file at a path, if it can be read. -/
def textAt? (fs : FileSystem) (path : Path) : Option SourceText :=
  match fs.readFile path with
  | .ok bytes => some ⟨path.text, Utf8.decode bytes⟩
  | .error _ => none

/-- The file at a path as one that could not be parsed since it could not be read. -/
def unread (path : Path) (cause : FileError) : ParsedFile :=
  let message := (LoadError.unreadable path cause).message
  ⟨path.text, .error ⟨"cannot read file: " ++ message, .synthetic⟩⟩

/-- The failure says which file it is about and why it could not be read. -/
lemma unread_eq (path : Path) (cause : FileError) : unread path cause = ⟨path.text, .error
    ⟨"cannot read file: " ++ (path.text ++ ": " ++ cause.message), .synthetic⟩⟩ := rfl

/-- What a path contributes to a corpus: the file there as the parser reads it, if it can be
read. -/
def parsedAt (parser : FileParser) (fs : FileSystem) (path : Path) : ParsedFile :=
  match fs.readFile path with
  | .ok bytes => .parse parser ⟨path.text, Utf8.decode bytes⟩
  | .error cause => unread path cause

/-- What reading the file at a path gives. -/
def inputAt (fs : FileSystem) (path : Path) : LoadInput :=
  match fs.readFile path with
  | .ok bytes => .source ⟨path.text, Utf8.decode bytes⟩
  | .error cause => .unreadable (unread path cause)

/-- What reading a file gives does not depend on the state of the load. -/
lemma fst_readFile (fs : FileSystem) (path : Path) (s : LoadState) :
    (readFile fs path s).1 = inputAt fs path := by
  cases h : fs.readFile path <;> simp [readFile, inputAt, unread, h]

/-- Reading a file does not cancel anything. -/
lemma cancelled_readFile (fs : FileSystem) (path : Path) (s : LoadState) :
    (readFile fs path s).2.cancelled = s.cancelled := by
  unfold readFile
  split <;> rfl

/-- Warnings do not cancel anything. -/
lemma cancelled_foldl_write (messages : List String) (s : LoadState) :
    (messages.foldl (·.write .warn ·) s).cancelled = s.cancelled := by
  induction messages generalizing s with
  | nil => rfl
  | cons message messages ih => exact ih (s.write .warn message)

/-- An input is a text where the file can be read. -/
lemma source?_inputAt (fs : FileSystem) (path : Path) :
    (inputAt fs path).source? = textAt? fs path := by
  cases h : fs.readFile path <;> simp [inputAt, textAt?, LoadInput.source?, h]

/-- As a parsed file an input is what its path contributes. -/
lemma parsed_inputAt (parser : FileParser) (fs : FileSystem) (path : Path) :
    (inputAt fs path).parsed (.parse parser) = parsedAt parser fs path := by
  cases h : fs.readFile path <;> simp [inputAt, parsedAt, LoadInput.parsed, h]

/-- A file that can be read is parsed. -/
lemma parsedAt_of_textAt? {path : Path} {source : SourceText} (h : textAt? fs path = some source) :
    parsedAt parser fs path = .parse parser source := by
  rw [← source?_inputAt] at h
  rw [← parsed_inputAt]
  cases hi : inputAt fs path with
  | source s =>
    obtain rfl : s = source := by simpa [hi, LoadInput.source?] using h
    rfl
  | unreadable f => simp [hi, LoadInput.source?] at h

/-! ## Reading -/

section Reading

variable {l : Loader} {position : Nat} {paths : List Path} {s : LoadState}

/-- The cancellation is requested before one of `count` files is read, the first of which has
position `position`. -/
def CancelsReading (l : Loader) (position count : Nat) : Prop :=
  ∃ k < count, l.circumstances.cancelBeforeRead = some (position + k)

/-- Reading is cancelled before its first file, or before one of the others. -/
lemma cancelsReading_succ {count : Nat} :
    l.CancelsReading position (count + 1) ↔
      l.circumstances.cancelBeforeRead = some position ∨ l.CancelsReading (position + 1) count := by
  constructor
  · rintro ⟨k, hk, e⟩
    cases k with
    | zero => exact .inl e
    | succ k => exact .inr ⟨k, by omega, by rw [e]; congr 1; omega⟩
  · rintro (e | ⟨k, hk, e⟩)
    · exact ⟨0, by omega, e⟩
    · exact ⟨k + 1, by omega, by rw [e]; congr 1; omega⟩

/-- Where nobody cancels every file is read. -/
lemma exists_readFiles_eq (l : Loader) (fs : FileSystem) (clear : s.cancelled = false)
    (still : ¬ l.CancelsReading position paths.length) :
    ∃ s', l.readFiles fs position paths s = (.ok (paths.map (inputAt fs)), s') ∧
      s'.cancelled = false := by
  induction paths generalizing position s with
  | nil => exact ⟨s, rfl, clear⟩
  | cons path paths ih =>
    obtain ⟨here, later⟩ := not_or.1 (cancelsReading_succ.not.1 still)
    have flag :
        (s.cancelIf (l.circumstances.cancelBeforeRead = some position)).cancelled = false := by
      simp [LoadState.cancelIf, clear, here]
    obtain ⟨s', e, clear'⟩ := ih ((cancelled_readFile fs path _).trans flag) later
    refine ⟨s', ?_, clear'⟩
    simp only [readFiles, flag, Bool.false_eq_true, if_false, e, fst_readFile, List.map_cons]
    rfl

/-- A request for cancellation is noticed while files are read, or the state has it. -/
lemma readFiles_cancelled (l : Loader) (fs : FileSystem)
    (request : s.cancelled = true ∨ l.CancelsReading position paths.length) :
    ∃ result s', l.readFiles fs position paths s = (result, s') ∧
      (result = .error .cancelled ∨ ∃ inputs, result = .ok inputs ∧ s'.cancelled = true) := by
  induction paths generalizing position s with
  | nil =>
    refine ⟨_, s, rfl, .inr ⟨[], rfl, request.resolve_right ?_⟩⟩
    rintro ⟨k, hk, -⟩
    exact absurd hk (Nat.not_lt_zero k)
  | cons path paths ih =>
    by_cases flag : (s.cancelIf (l.circumstances.cancelBeforeRead = some position)).cancelled = true
    · exact ⟨_, _, by simp only [readFiles, if_pos flag]; rfl, .inl rfl⟩
    · obtain ⟨clear, here⟩ : s.cancelled = false ∧
          l.circumstances.cancelBeforeRead ≠ some position := by
        simpa [LoadState.cancelIf] using flag
      have requested := cancelsReading_succ.1 (request.resolve_left (by simp [clear]))
      have later := requested.resolve_left here
      obtain ⟨result, s', e, noticed⟩ := ih (.inr later)
        (s := (readFile fs path (s.cancelIf (l.circumstances.cancelBeforeRead = some position))).2)
      refine ⟨_, s', by simp only [readFiles, if_neg flag, e]; rfl, ?_⟩
      rcases noticed with rfl | ⟨inputs, rfl, set⟩
      · exact .inl rfl
      · exact .inr ⟨_, rfl, set⟩

end Reading

/-! ## Parsing -/

section Parsing

variable {l : Loader} {sources : List SourceText} {s : LoadState}

/-- There is one worker at least. -/
lemma workerCount_pos (l : Loader) (files : Nat) : 0 < l.workerCount files :=
  Nat.lt_of_lt_of_le Nat.zero_lt_one (Nat.le_max_left ..)

/-- A request for cancellation before or in the course of the parsing is noticed. -/
lemma parse_cancelled
    (request : s.cancelled = true ∨ .cancel ∈ l.circumstances.interleaving sources) :
    (l.parse sources s).1 = .error .cancelled := by
  rw [fst_parse, Pool.cancelled_finish]
  exact if_pos (by simpa [Pool.new] using request)

/-- Where nobody cancels every text is parsed. -/
lemma parse_eq (clear : s.cancelled = false)
    (still : .cancel ∉ l.circumstances.interleaving sources) :
    (l.parse sources s).1 = .ok (sources.map (.parse l.parser)) ∧
      (l.parse sources s).2.cancelled = false := by
  have files : ((Pool.new false (l.workerCount sources.length) s.log).finish l.parser sources
      (l.circumstances.interleaving sources)).files = sources.map (.parse l.parser) :=
    Pool.files_finish (l.workerCount_pos sources.length) still
  have flag : ((Pool.new false (l.workerCount sources.length) s.log).finish l.parser sources
      (l.circumstances.interleaving sources)).cancelled = false :=
    (Pool.cancelled_finish ..).trans (by simpa [Pool.new] using still)
  simp only [parse, clear, flag, files, Bool.false_eq_true, if_false]
  exact ⟨trivial, rfl⟩

end Parsing

/-! ## Merging -/

/-- The parsed files go back to where their texts were. -/
lemma merge_eq_map (parse : SourceText → ParsedFile) (inputs : List LoadInput) :
    merge inputs ((inputs.filterMap (·.source?)).map parse) = inputs.map (·.parsed parse) := by
  induction inputs with
  | nil => rfl
  | cons input inputs ih =>
    cases input with
    | source s => exact congrArg (parse s :: ·) ih
    | unreadable f => exact congrArg (f :: ·) ih

/-! ## Loading -/

section Loading

variable {l : Loader} {files : FileSet} {paths : List Path} {p : Pipeline} {s : LoadState}

/-- The cancellation is requested before the last look at it. -/
def Interrupted (l : Loader) (fs : FileSystem) (paths : List Path) (s : LoadState) : Prop :=
  s.cancelled = true ∨ l.CancelsReading 0 paths.length ∨
    .cancel ∈ l.circumstances.interleaving (paths.filterMap (textAt? fs)) ∨
    l.circumstances.cancelAfterParse = true

/-- The texts to be parsed are those of the files that can be read. -/
lemma sources_inputs (fs : FileSystem) (paths : List Path) :
    (paths.map (inputAt fs)).filterMap (·.source?) = paths.filterMap (textAt? fs) := by
  rw [List.filterMap_map]
  exact List.filterMap_congr fun path _ => source?_inputAt fs path

/-- If the paths are not found, nothing is prepared. -/
lemma fst_prepare_of_error {e : LoadError} (unresolved : files.resolve fs = .error e) :
    (l.prepare fs files s).1 = .error e := by
  simp [prepare, read, unresolved]

/-- Without an interruption one parsed file is prepared for each path. -/
lemma fst_prepare_of_not_interrupted (resolved : files.resolve fs = .ok paths)
    (still : ¬ l.Interrupted fs paths s) :
    (l.prepare fs files s).1 = .ok (paths.map (parsedAt l.parser fs)) := by
  obtain ⟨clear, reading, parsing, after⟩ : s.cancelled = false ∧
      ¬ l.CancelsReading 0 paths.length ∧
      .cancel ∉ l.circumstances.interleaving (paths.filterMap (textAt? fs)) ∧
      l.circumstances.cancelAfterParse = false := by
    simpa [Interrupted] using still
  generalize warned : (files.warnings fs).foldl (·.write .warn ·) s = s₀
  have clear₀ : s₀.cancelled = false := warned ▸ (cancelled_foldl_write ..).trans clear
  obtain ⟨s', read_eq, clear'⟩ := exists_readFiles_eq l fs clear₀ reading
  generalize written : s'.write .debug s!"read {(paths.map (inputAt fs)).length} files" = s''
  have clear'' : s''.cancelled = false := by rw [← written]; exact clear'
  obtain ⟨parsed, flag⟩ := parse_eq (l := l) clear'' parsing
  simp only [prepare, read, resolved, warned, read_eq, written, sources_inputs]
  generalize l.parse (paths.filterMap (textAt? fs)) s'' = out at parsed flag
  obtain ⟨result, s₁⟩ := out
  obtain rfl : result = _ := parsed
  have clear₁ : (s₁.cancelIf l.circumstances.cancelAfterParse).cancelled = false := by
    simpa [LoadState.cancelIf, after] using flag
  simp only [clear₁, Bool.false_eq_true, if_false]
  rw [← sources_inputs, merge_eq_map, List.map_map]
  exact congrArg _ (List.map_congr_left fun path _ => parsed_inputAt l.parser fs path)

/-- An interruption leaves nothing to be resolved. -/
lemma fst_prepare_of_interrupted (resolved : files.resolve fs = .ok paths)
    (interrupted : l.Interrupted fs paths s) : (l.prepare fs files s).1 = .error .cancelled := by
  generalize warned : (files.warnings fs).foldl (·.write .warn ·) s = s₀
  have same : s₀.cancelled = s.cancelled := warned ▸ cancelled_foldl_write ..
  rw [Interrupted, ← same] at interrupted
  simp only [prepare, read, resolved, warned]
  by_cases reading : s₀.cancelled = true ∨ l.CancelsReading 0 paths.length
  · obtain ⟨result, s', read_eq, noticed⟩ := readFiles_cancelled l fs reading
    rw [read_eq]
    rcases noticed with rfl | ⟨inputs, rfl, set⟩
    · rfl
    · simp only [parse, LoadState.write, set, if_true]
  · obtain ⟨clear, still⟩ := not_or.1 reading
    have clear := Bool.eq_false_of_not_eq_true clear
    obtain ⟨s', read_eq, clear'⟩ := exists_readFiles_eq l fs clear still
    have later := (interrupted.resolve_left (by simp [clear])).resolve_left still
    generalize written : s'.write .debug s!"read {(paths.map (inputAt fs)).length} files" = s''
    have clear'' : s''.cancelled = false := by rw [← written]; exact clear'
    simp only [read_eq, sources_inputs, written]
    by_cases parsing : .cancel ∈ l.circumstances.interleaving (paths.filterMap (textAt? fs))
    · have noticed := parse_cancelled (s := s'') (.inr parsing)
      generalize l.parse (paths.filterMap (textAt? fs)) s'' = out at noticed
      obtain ⟨result, s₁⟩ := out
      obtain rfl : result = _ := noticed
      rfl
    · obtain ⟨parsed, flag⟩ := parse_eq clear'' parsing
      generalize l.parse (paths.filterMap (textAt? fs)) s'' = out at parsed flag
      obtain ⟨result, s₁⟩ := out
      obtain rfl : result = _ := parsed
      simp [LoadState.cancelIf, later.resolve_left parsing]

/-- A load comes to an error before anything is resolved, and the pipeline has not run. -/
structure GivesUp (l : Loader) (fs : FileSystem) (files : FileSet) (p : Pipeline) (s : LoadState)
    (e : LoadError) : Prop where
  result : (l.load fs files p s).1 = .error e
  pipeline : (l.load fs files p s).2.1 = p

/-- A load resolves these files: it comes to what the pipeline makes of them. -/
structure Resolves (l : Loader) (fs : FileSystem) (files : FileSet) (p : Pipeline) (s : LoadState)
    (parsed : List ParsedFile) : Prop where
  prepared : (l.prepare fs files s).1 = .ok parsed
  result : (l.load fs files p s).1 = (p.runParsed parsed).1.mapError .resolution
  pipeline : (l.load fs files p s).2.1 = (p.runParsed parsed).2

/-- If nothing is prepared, the pipeline is left as it was. -/
lemma givesUp_of_prepare {e : LoadError} (failed : (l.prepare fs files s).1 = .error e) :
    l.GivesUp fs files p s e := by
  have load_eq : l.load fs files p s = (.error e, p, (l.prepare fs files s).2) := by
    unfold load
    generalize l.prepare fs files s = out at failed
    obtain ⟨result, s'⟩ := out
    obtain rfl : result = _ := failed
    rfl
  exact ⟨by rw [load_eq], by rw [load_eq]⟩

/-- What is prepared is resolved. -/
lemma resolves_of_prepare {parsed : List ParsedFile}
    (prepared : (l.prepare fs files s).1 = .ok parsed) : l.Resolves fs files p s parsed := by
  refine ⟨prepared, ?_, ?_⟩
  all_goals
    unfold load
    generalize l.prepare fs files s = out at prepared
    obtain ⟨result, s'⟩ := out
    obtain rfl : result = _ := prepared
    dsimp only
    generalize p.runParsed parsed = run
    obtain ⟨result, next⟩ := run
    cases result <;> rfl

/-- The result of parsing texts one by one and resolving them depends on no pipeline of the same
policy. -/
lemma fst_run_eq_fst_runParsed {q : Pipeline} (policy : q.policy = p.policy) (parser : FileParser)
    (sources : List SourceText) :
    (q.run parser sources).1 = (p.runParsed (sources.map (.parse parser))).1 := by
  rw [Pipeline.run_eq_told, Pipeline.runParsed_eq_told, policy]

/-- If all files can be read, all are parsed. -/
lemma map_parsedAt {sources : List SourceText}
    (readable : paths.map (textAt? fs) = sources.map some) :
    paths.map (parsedAt parser fs) = sources.map (.parse parser) := by
  induction paths generalizing sources with
  | nil => cases sources with
    | nil => rfl
    | cons => cases readable
  | cons path paths ih =>
    cases sources with
    | nil => cases readable
    | cons source sources =>
      simp only [List.map_cons, List.cons.injEq] at readable ⊢
      exact ⟨parsedAt_of_textAt? readable.1, ih readable.2⟩

/-- A load whose file set cannot be expanded gives that error, and one that is interrupted says so;
in either case the pipeline is left as it was. Any other load resolves one parsed file for each path
in the order of the paths, however many threads there are and however they take turns. If every path
can be read, the result is that of parsing the texts one by one and resolving them. -/
theorem load_outcome (l : Loader) (fs : FileSystem) (files : FileSet) (p : Pipeline)
    (s : LoadState) :
    (∀ e, files.resolve fs = .error e → l.GivesUp fs files p s e) ∧
      ∀ paths, files.resolve fs = .ok paths →
        (l.Interrupted fs paths s → l.GivesUp fs files p s .cancelled) ∧
          (¬ l.Interrupted fs paths s →
            l.Resolves fs files p s (paths.map (parsedAt l.parser fs)) ∧
              ∀ sources, paths.map (textAt? fs) = sources.map some →
                ∀ q : Pipeline, q.policy = p.policy →
                  (l.load fs files p s).1 = (q.run l.parser sources).1.mapError .resolution) := by
  refine ⟨fun e unresolved => givesUp_of_prepare (fst_prepare_of_error unresolved),
    fun paths resolved => ⟨fun interrupted => ?_, fun still => ?_⟩⟩
  · exact givesUp_of_prepare (fst_prepare_of_interrupted resolved interrupted)
  · have resolves := resolves_of_prepare (p := p) (fst_prepare_of_not_interrupted resolved still)
    refine ⟨resolves, fun sources readable q policy => ?_⟩
    rw [resolves.result, map_parsedAt readable, fst_run_eq_fst_runParsed policy]

/-- A system with two files in its root, one that may not be read, and the directory that the
program works in. -/
def twoFiles : FileSystem :=
  ⟨.directory [("a", .file (.ok [65])), ("b", .file (.ok [66])),
    ("secret", .file (.error .permissionDenied)), ("work", .directory [])],
    Place.root.child "work"⟩

/-- Two files can be read, and the system refuses the third. -/
lemma readFile_twoFiles :
    twoFiles.readFile (.mk "/a") = .ok [65] ∧ twoFiles.readFile (.mk "../b") = .ok [66] ∧
      twoFiles.readFile (.mk "/secret") = .error .permissionDenied := by
  have read : ∀ (goal : Place) {path content}, path.IsUsable → twoFiles.LeadsTo path 0 goal →
      twoFiles.root.at? goal = some (.file content) → twoFiles.readFile path = content :=
    fun goal _ _ usable leads there => FileSystem.readFile_of_resolve
      (FileSystem.resolve_eq_ok_iff.2 ⟨usable, 0, Nat.zero_le _, goal, leads, there⟩)
  have segments : Path.segments (.mk "/a") = [RawText.empty, "a"] ∧
      Path.segments (.mk "../b") = [RawText.dots, "b"] ∧
      Path.segments (.mk "/secret") = [RawText.empty, "secret"] := by decide
  refine ⟨read ⟨["a"]⟩ ⟨by decide, by decide, by decide⟩ ?_ rfl,
    read ⟨["b"]⟩ ⟨by decide, by decide, by decide⟩ ?_ rfl,
    read ⟨["secret"]⟩ ⟨by decide, by decide, by decide⟩ ?_ rfl⟩
  all_goals
    rw [FileSystem.LeadsTo]
    have solid : ∀ {content} target, FileNode.file content ≠ .link target := fun _ e => by cases e
  · rw [segments.1]
    exact .slash rfl (.down rfl rfl (by decide) rfl solid (.here _))
  · rw [segments.2.1]
    exact .up rfl rfl (.down rfl rfl (by decide) rfl solid (.here _))
  · rw [segments.2.2]
    exact .slash rfl (.down rfl rfl (by decide) rfl solid (.here _))

/-- There is no such directory where the program works. -/
lemma readDirectory_gone : twoFiles.readDirectory (.mk "gone") = .error .notFound := by
  have segments : Path.segments (.mk "gone") = [RawText.ofString "gone"] := by decide
  have nowhere : twoFiles.root.follow FileNode.maxLinks (twoFiles.startOf (.mk "gone"))
      [RawText.ofString "gone"] = .error .notFound := by
    rw [FileNode.follow]
    rfl
  rw [FileSystem.readDirectory, FileSystem.resolve, FileSystem.locate, if_neg (by decide),
    if_neg (by decide), if_neg (by decide), segments, nowhere]
  rfl

/-- Two workers, the second of which takes the first file. The parser makes one module of a text and
names it after the text. -/
def secondFirst : Loader :=
  ⟨fun s => .ok [⟨s.text, [], [], ⟨0, 1⟩⟩], 2, ⟨none, fun _ => [.work 1, .work 1, .work 0], false⟩⟩

/-- A file that may not be read keeps its place between two files, one of which is named from the
root and one from the directory above. A load that is cancelled between reading and resolving gives
up, and so does one of a directory that is not there. -/
theorem load_outcome_twoFiles :
    let s : LoadState := ⟨false, .new .off⟩
    let p : Pipeline := .new .usual .error
    let a : Path := .mk "/a"
    let secret : Path := .mk "/secret"
    let b : Path := .mk "../b"
    let refused : ParsedFile := ⟨"/secret", .error
      ⟨"cannot read file: /secret: Permission denied (os error 13)", .synthetic⟩⟩
    let file (name text : String) : ParsedFile := ⟨name, .ok [⟨text, [], [], ⟨0, 1⟩⟩]⟩
    secondFirst.Resolves twoFiles ⟨[a, secret, b], []⟩ p s
        [file "/a" "A", refused, file "../b" "B"] ∧
      (secondFirst.load twoFiles ⟨[a, b], []⟩ p s).1 =
        (p.run secondFirst.parser [⟨"/a", "A"⟩, ⟨"../b", "B"⟩]).1.mapError .resolution ∧
      { secondFirst with circumstances.cancelAfterParse := true }.GivesUp twoFiles ⟨[a], []⟩ p s
        .cancelled ∧
      secondFirst.GivesUp twoFiles ⟨[], [⟨.mk "gone", false, [], []⟩]⟩ p s
        (.unreadable (.mk "gone") .notFound) := by
  intro s p a secret b refused file
  have still : ∀ paths, ¬ secondFirst.Interrupted twoFiles paths s := by
    simp [Interrupted, CancelsReading, secondFirst, s]
  have between := ((load_outcome secondFirst twoFiles ⟨[a, secret, b], []⟩ p s).2
    [a, secret, b] rfl).2 (still _)
  have readable := ((load_outcome secondFirst twoFiles ⟨[a, b], []⟩ p s).2 [a, b] rfl).2 (still _)
  have texts : a.text = "/a" ∧ secret.text = "/secret" ∧ b.text = "../b" :=
    ⟨Path.text_mk _, Path.text_mk _, Path.text_mk _⟩
  have contents : Utf8.decode [65] = "A" ∧ Utf8.decode [66] = "B" := by decide
  have read_a : twoFiles.readFile a = .ok [65] := readFile_twoFiles.1
  have read_b : twoFiles.readFile b = .ok [66] := readFile_twoFiles.2.1
  have denied : twoFiles.readFile secret = .error .permissionDenied := readFile_twoFiles.2.2
  have sources : [a, b].map (textAt? twoFiles) = [⟨"/a", "A"⟩, ⟨"../b", "B"⟩].map some := by
    simp only [List.map_cons, List.map_nil, textAt?, read_a, read_b, texts, contents]
  refine ⟨?_, readable.2 _ sources p rfl, ?_, ?_⟩
  · have kept : unread secret .permissionDenied = refused := by
      rw [unread_eq, texts.2.1]
      rfl
    have resolves := between.1
    simp only [List.map_cons, List.map_nil, parsedAt, read_a, read_b, denied, kept, texts,
      contents] at resolves
    exact resolves
  · exact ((load_outcome _ twoFiles ⟨[a], []⟩ p s).2 [a] rfl).1 (by simp [Interrupted])
  · refine (load_outcome secondFirst twoFiles _ p s).1 _ ?_
    rw [FileSet.resolve, FileSet.collectAll, DirectoryScan.collect, readDirectory_gone]
    rfl

end Loading

end Loader

end MibCorpus
