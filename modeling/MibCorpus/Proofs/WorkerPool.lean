import MibCorpus.Load.Loader
import Mathlib.Data.List.Sort
import Mathlib.Tactic.Lemma

/-!
# What workers put together

Every position is taken by one worker, which parses the file there and puts it down. So the
positions taken are at any moment the first ones, each taken once, however the workers take turns. A
worker rests only if the work is cancelled or no position is left, and a bounded number of its own
actions bring it to rest. When all workers rest and nobody has cancelled, every file has therefore
been put down once, and in the order of positions the files are those of parsing one by one.
-/

namespace MibCorpus

/-- The position that was taken and not put down yet. -/
def WorkerAction.held : WorkerAction → List Nat
  | parse position | put position _ => [position]
  | look | take | rest => []

/-- How many actions at most lead to rest if so many files are yet to be taken. -/
def WorkerAction.remaining (files : Nat) : WorkerAction → Nat
  | look => 4 * files + 2
  | take => 4 * files + 1
  | parse _ => 4 * files + 4
  | put .. => 4 * files + 3
  | rest => 0

/-- No worker has more to do than all files make up. -/
lemma WorkerAction.remaining_le (files : Nat) (a : WorkerAction) :
    a.remaining files ≤ 4 * files + 5 := by
  cases a <;> simp only [remaining] <;> omega

/-- A worker with nothing left to do rests. -/
lemma WorkerAction.eq_rest {files : Nat} {a : WorkerAction} (h : a.remaining files = 0) :
    a = .rest := by
  cases a with
  | rest => rfl
  | look | take | parse | put => simp [remaining] at h

namespace Worker

/-- The positions that a worker has taken. -/
def taken (w : Worker) : List Nat := w.output.map Prod.fst ++ w.next.held

/-- The files that a worker has parsed, with their positions. -/
def parsed (w : Worker) : List (Nat × ParsedFile) :=
  w.output ++ match w.next with
    | .put position file => [(position, file)]
    | .look | .take | .parse _ | .rest => []

/-- What one action makes of a worker and of the position to take next. -/
inductive Acts (parser : FileParser) (sources : List SourceText) (cancelled : Bool)
    (position : Nat) : Worker → Nat → Worker → Prop
  | stop {output : List (Nat × ParsedFile)} (set : cancelled = true) :
      Acts parser sources cancelled position ⟨.look, output⟩ position ⟨.rest, output⟩
  | start {output : List (Nat × ParsedFile)} (clear : cancelled = false) :
      Acts parser sources cancelled position ⟨.look, output⟩ position ⟨.take, output⟩
  | take {output : List (Nat × ParsedFile)} (left : position < sources.length) :
      Acts parser sources cancelled position ⟨.take, output⟩ (position + 1)
        ⟨.parse position, output⟩
  | finish {output : List (Nat × ParsedFile)} (none : sources.length ≤ position) :
      Acts parser sources cancelled position ⟨.take, output⟩ (position + 1) ⟨.rest, output⟩
  | parse {output : List (Nat × ParsedFile)} {k : Nat} {source : SourceText}
      (there : sources[k]? = some source) :
      Acts parser sources cancelled position ⟨.parse k, output⟩ position
        ⟨.put k (.parse parser source), output⟩
  | skip {output : List (Nat × ParsedFile)} {k : Nat} (absent : sources[k]? = none) :
      Acts parser sources cancelled position ⟨.parse k, output⟩ position ⟨.rest, output⟩
  | put {output : List (Nat × ParsedFile)} {k : Nat} {file : ParsedFile} :
      Acts parser sources cancelled position ⟨.put k file, output⟩ position
        ⟨.look, output ++ [(k, file)]⟩
  | rest {output : List (Nat × ParsedFile)} :
      Acts parser sources cancelled position ⟨.rest, output⟩ position ⟨.rest, output⟩

variable {parser : FileParser} {sources : List SourceText} {cancelled : Bool}
  {position position' : Nat} {w w' : Worker}

/-- A position is taken if there is one left, and what has been taken stays taken. -/
lemma Acts.taken (a : Acts parser sources cancelled position w position' w')
    (there : ∀ k ∈ w.taken, k < sources.length) : ∃ new, w'.taken = w.taken ++ new ∧
      List.range (min position' sources.length) =
        List.range (min position sources.length) ++ new := by
  cases a with
  | stop | start | parse | put | rest => exact ⟨[], by simp [Worker.taken, WorkerAction.held]⟩
  | take left =>
    refine ⟨[position], by simp [Worker.taken, WorkerAction.held], ?_⟩
    rw [Nat.min_eq_left left, Nat.min_eq_left left.le, List.range_succ]
  | finish none =>
    refine ⟨[], by simp [Worker.taken, WorkerAction.held], ?_⟩
    rw [Nat.min_eq_right none, Nat.min_eq_right (Nat.le_succ_of_le none), List.append_nil]
  | @skip output k absent =>
    have lt := there k (by simp [Worker.taken, WorkerAction.held])
    exact absurd lt (Nat.not_lt.2 (List.getElem?_eq_none_iff.1 absent))

/-- What a worker parses is the file at its position. -/
lemma Acts.parsed (a : Acts parser sources cancelled position w position' w')
    (own : ∀ x ∈ w.parsed, (sources.map (ParsedFile.parse parser))[x.1]? = some x.2) :
    ∀ x ∈ w'.parsed, (sources.map (ParsedFile.parse parser))[x.1]? = some x.2 := by
  cases a with
  | stop | start | take | finish | skip | put | rest => simpa [Worker.parsed] using own
  | parse there =>
    simp only [Worker.parsed, List.append_nil] at own
    refine List.forall_mem_append.2 ⟨own, ?_⟩
    simp [there]

/-- A worker comes to rest because the work is cancelled or no position is left. -/
lemma Acts.rested (a : Acts parser sources cancelled position w position' w')
    (there : ∀ k ∈ w.taken, k < sources.length) (rest : w'.next = .rest) :
    w.next = .rest ∨ cancelled = true ∨ sources.length ≤ position' := by
  cases a with
  | start | take | parse | put => cases rest
  | stop set => exact .inr (.inl set)
  | finish none => exact .inr (.inr (Nat.le_succ_of_le none))
  | @skip output k absent =>
    have lt := there k (by simp [Worker.taken, WorkerAction.held])
    exact absurd lt (Nat.not_lt.2 (List.getElem?_eq_none_iff.1 absent))
  | rest => exact .inl rfl

/-- Positions are not given back. -/
lemma Acts.position_le (a : Acts parser sources cancelled position w position' w') :
    position ≤ position' := by
  cases a <;> omega

/-- Every action brings a worker closer to rest. -/
lemma Acts.remaining_le (a : Acts parser sources cancelled position w position' w') :
    w'.next.remaining (sources.length - position') ≤
      w.next.remaining (sources.length - position) - 1 := by
  cases a <;> simp only [WorkerAction.remaining] <;> omega

end Worker

namespace Pool

variable {parser : FileParser} {sources : List SourceText} {p : Pool} {i : Nat} {w : Worker}

/-! ## One action -/

/-- An action of a worker changes that worker, the position to take next, and the log. -/
lemma exists_acts (parser : FileParser) (sources : List SourceText) (hw : p.workers[i]? = some w) :
    ∃ position w' log,
    p.step parser sources (.work i) = ⟨p.cancelled, position, p.workers.set i w', log⟩ ∧
      w.Acts parser sources p.cancelled p.position position w' := by
  obtain ⟨next, output⟩ := w
  have turn : p.step parser sources (.work i) = p.workerStep parser sources i ⟨next, output⟩ := by
    simp only [step, hw]
  rw [turn]
  cases next with
  | look =>
    cases hc : p.cancelled with
    | true => exact ⟨_, _, _, by simp only [workerStep, hc, if_true]; rfl, .stop rfl⟩
    | false => exact ⟨_, _, _, by simp only [workerStep, hc]; rfl, .start rfl⟩
  | take =>
    by_cases left : p.position < sources.length
    · exact ⟨_, _, _, by simp only [workerStep, if_pos left]; rfl, .take left⟩
    · exact ⟨_, _, _, by simp only [workerStep, if_neg left]; rfl, .finish (Nat.le_of_not_lt left)⟩
  | parse k =>
    cases hs : sources[k]? with
    | none => exact ⟨_, _, _, by simp only [workerStep, hs]; rfl, .skip hs⟩
    | some source => exact ⟨_, _, _, by simp only [workerStep, hs]; rfl, .parse hs⟩
  | put k file => exact ⟨_, _, _, rfl, .put⟩
  | rest =>
    obtain ⟨lt, same⟩ := List.getElem?_eq_some_iff.1 hw
    refine ⟨p.position, ⟨.rest, output⟩, p.log, ?_, .rest⟩
    rw [← same, List.set_getElem_self lt, same]
    rfl

/-- There is no action of a worker who is not there. -/
lemma step_of_none (none : p.workers[i]? = none) : p.step parser sources (.work i) = p := by
  simp only [step, none]

/-- The flag is set by a request for cancellation only. -/
lemma cancelled_step (p : Pool) (a : PoolAction) :
    (p.step parser sources a).cancelled = (p.cancelled || a = .cancel) := by
  cases a with
  | cancel => simp [step]
  | work i =>
    cases hw : p.workers[i]? with
    | none => simp [step_of_none hw]
    | some w =>
      obtain ⟨position, w', log, e, -⟩ := exists_acts parser sources hw
      simp [e]

/-- The flag is set if it was before or somebody sets it. -/
lemma cancelled_run (p : Pool) (actions : List PoolAction) :
    (p.run parser sources actions).cancelled = (p.cancelled || .cancel ∈ actions) := by
  induction actions generalizing p with
  | nil => simp [run]
  | cons a actions ih =>
    refine (ih _).trans ?_
    rw [cancelled_step, Bool.or_assoc]
    simp [eq_comm]

/-- Actions are carried out one after another. -/
lemma run_append (p : Pool) (actions more : List PoolAction) :
    p.run parser sources (actions ++ more) =
      (p.run parser sources actions).run parser sources more :=
  List.foldl_append

/-! ## What is shared -/

/-- What one worker has contributes its own part to what all have. -/
lemma exists_perm_flatMap_set {β : Type} {ws : List Worker} (hw : ws[i]? = some w)
    (f : Worker → List β) :
    ∃ others, (ws.flatMap f).Perm (f w ++ others) ∧
      ∀ v, ((ws.set i v).flatMap f).Perm (f v ++ others) := by
  obtain ⟨lt, rfl⟩ := List.getElem?_eq_some_iff.1 hw
  have each : ∀ v, ((ws.set i v).flatMap f).Perm
      (f v ++ ((ws.take i).flatMap f ++ (ws.drop (i + 1)).flatMap f)) := by
    intro v
    rw [List.set_eq_take_append_cons_drop, if_pos lt, List.flatMap_append, List.flatMap_cons]
    exact List.perm_append_comm_assoc ..
  refine ⟨_, ?_, each⟩
  have same := each ws[i]
  rwa [List.set_getElem_self] at same

/-- The workers have taken the first positions, each once, they have parsed the files there, and
none rests without a reason. -/
structure Shares (parser : FileParser) (sources : List SourceText) (p : Pool) : Prop where
  taken : (p.workers.flatMap Worker.taken).Perm (List.range (min p.position sources.length))
  parsed : ∀ w ∈ p.workers, ∀ x ∈ w.parsed,
    (sources.map (ParsedFile.parse parser))[x.1]? = some x.2
  rested : ∀ w ∈ p.workers, w.next = .rest → p.cancelled = true ∨ sources.length ≤ p.position

/-- In a new pool nothing is shared out yet. -/
lemma shares_new (cancelled : Bool) (count : Nat) (log : Log) :
    (Pool.new cancelled count log).Shares parser sources where
  taken := by simp [Pool.new, Worker.taken, Worker.new, WorkerAction.held]
  parsed w hw := by
    obtain ⟨-, rfl⟩ := List.mem_replicate.1 hw
    simp [Worker.parsed, Worker.new]
  rested w hw rest := by
    obtain ⟨-, rfl⟩ := List.mem_replicate.1 hw
    cases rest

/-- What has been taken is the position of a file. -/
lemma Shares.lt (h : p.Shares parser sources) (hw : w ∈ p.workers) {k : Nat} (hk : k ∈ w.taken) :
    k < sources.length := by
  have mem := h.taken.subset (List.mem_flatMap.2 ⟨w, hw, hk⟩)
  exact Nat.lt_of_lt_of_le (List.mem_range.1 mem) (Nat.min_le_right ..)

/-- What one worker does leaves the parts of the others alone. -/
lemma Shares.act (h : p.Shares parser sources) (hw : p.workers[i]? = some w) {position : Nat}
    {w' : Worker} (a : w.Acts parser sources p.cancelled p.position position w') (log : Log) :
    Shares parser sources ⟨p.cancelled, position, p.workers.set i w', log⟩ := by
  have mem := List.mem_of_getElem? hw
  have there := fun k hk => h.lt mem (k := k) hk
  refine ⟨?_, fun v hv => ?_, fun v hv rest => ?_⟩
  · obtain ⟨others, before, after⟩ := exists_perm_flatMap_set hw Worker.taken
    obtain ⟨new, more, range⟩ := a.taken there
    calc ((p.workers.set i w').flatMap Worker.taken).Perm (w'.taken ++ others) := after w'
      _ = w.taken ++ (new ++ others) := by rw [more, List.append_assoc]
      List.Perm _ ((w.taken ++ others) ++ new) := by
        rw [List.append_assoc]
        exact List.perm_append_comm.append_left _
      List.Perm _ (List.range (min position sources.length)) := by
        rw [range]
        exact (before.symm.trans h.taken).append_right _
  · rcases List.mem_or_eq_of_mem_set hv with old | rfl
    · exact h.parsed v old
    · exact a.parsed (h.parsed w mem)
  · have still : ∀ v ∈ p.workers, v.next = .rest →
        p.cancelled = true ∨ sources.length ≤ position := by
      intro v hv rest
      exact (h.rested v hv rest).imp_right fun le => le.trans a.position_le
    rcases List.mem_or_eq_of_mem_set hv with old | rfl
    · exact still v old rest
    · exact (a.rested there rest).elim (still w mem) id

/-- Each position is given to one worker only, whatever happens next. -/
lemma Shares.step (h : p.Shares parser sources) (a : PoolAction) :
    (p.step parser sources a).Shares parser sources := by
  cases a with
  | cancel => exact ⟨h.taken, h.parsed, fun _ _ _ => .inl rfl⟩
  | work i =>
    cases hw : p.workers[i]? with
    | none => rwa [step_of_none hw]
    | some w =>
      obtain ⟨position, w', log, e, acts⟩ := exists_acts parser sources hw
      rw [e]
      exact h.act hw acts log

/-- Whatever happens in a pool, its workers share the positions. -/
theorem Shares.run (h : p.Shares parser sources) (actions : List PoolAction) :
    (p.run parser sources actions).Shares parser sources := by
  induction actions generalizing p with
  | nil => exact h
  | cons a actions ih => exact ih (h.step a)

/-! ## Rest -/

/-- No worker has anything more to do. -/
def IsResting (p : Pool) : Prop := ∀ w ∈ p.workers, w.next = .rest

/-- No worker comes or goes in a step. -/
lemma length_workers_step (p : Pool) (a : PoolAction) :
    (p.step parser sources a).workers.length = p.workers.length := by
  cases a with
  | cancel => rfl
  | work i =>
    cases hw : p.workers[i]? with
    | none => rw [step_of_none hw]
    | some w =>
      obtain ⟨position, w', log, e, -⟩ := exists_acts parser sources hw
      rw [e, List.length_set]

/-- As many actions of a worker as remain to it bring it to rest, and the other workers stay as
they are. -/
lemma run_replicate (parser : FileParser) (sources : List SourceText) (hw : p.workers[i]? = some w)
    (n : Nat) :
    ∃ w', (p.run parser sources (.replicate n (.work i))).workers = p.workers.set i w' ∧
      w'.next.remaining (sources.length - (p.run parser sources (.replicate n (.work i))).position)
        ≤ w.next.remaining (sources.length - p.position) - n := by
  induction n generalizing p w with
  | zero =>
    obtain ⟨lt, rfl⟩ := List.getElem?_eq_some_iff.1 hw
    exact ⟨_, (List.set_getElem_self lt).symm, Nat.le_refl _⟩
  | succ n ih =>
    obtain ⟨position, w', log, e, acts⟩ := exists_acts parser sources hw
    have lt := (List.getElem?_eq_some_iff.1 hw).1
    rw [List.replicate_succ, run, List.foldl_cons, e]
    obtain ⟨v, hv, le⟩ := ih (p := ⟨p.cancelled, position, p.workers.set i w', log⟩)
      (List.getElem?_set_self lt)
    refine ⟨v, hv.trans (List.set_set ..), le.trans ?_⟩
    have closer := acts.remaining_le
    simp only
    omega

/-- Where all workers rest they keep resting. -/
lemma IsResting.step_work (h : p.IsResting) (i : Nat) :
    p.step parser sources (.work i) = p := by
  cases hw : p.workers[i]? with
  | none => exact step_of_none hw
  | some w =>
    have rest := h w (List.mem_of_getElem? hw)
    simp only [step, hw, workerStep, rest]

/-- Workers who rest go on resting. -/
lemma IsResting.run_works (h : p.IsResting) {actions : List PoolAction}
    (works : .cancel ∉ actions) : p.run parser sources actions = p := by
  induction actions with
  | nil => rfl
  | cons a actions ih =>
    cases a with
    | cancel => exact absurd (List.mem_cons_self ..) works
    | work i =>
      rw [run, List.foldl_cons, h.step_work]
      exact ih fun later => works (List.mem_cons_of_mem _ later)

/-- To finish is not to cancel. -/
lemma cancel_not_mem_finishing (workers files : Nat) : .cancel ∉ finishing workers files := by
  intro h
  obtain ⟨i, -, h⟩ := List.mem_flatMap.1 h
  cases List.eq_of_mem_replicate h

/-- Nothing happens when a worker who is not there is called again and again. -/
lemma run_replicate_of_none (none : p.workers[i]? = none) (n : Nat) :
    p.run parser sources (.replicate n (.work i)) = p := by
  induction n with
  | zero => rfl
  | succ n ih =>
    rw [List.replicate_succ, run, List.foldl_cons, step_of_none none]
    exact ih

/-- After the turn of a worker that one rests, and the others are as before. -/
lemma rests_of_turn {q : Pool} {i j : Nat} {w : Worker}
    (hw : (q.run parser sources (.replicate (4 * sources.length + 5) (.work i))).workers[j]? =
      some w) : w.next = .rest ∨ j ≠ i ∧ q.workers[j]? = some w := by
  cases hv : q.workers[i]? with
  | none =>
    rw [run_replicate_of_none hv] at hw
    refine .inr ⟨?_, hw⟩
    rintro rfl
    cases hv.symm.trans hw
  | some v =>
    obtain ⟨v', e, le⟩ := run_replicate parser sources hv
      (4 * sources.length + 5)
    have lt := (List.getElem?_eq_some_iff.1 hv).1
    rw [e, List.getElem?_set, if_pos lt] at hw
    split at hw
    next same =>
      cases hw
      have enough := v.next.remaining_le (sources.length - q.position)
      exact .inl (WorkerAction.eq_rest (Nat.eq_zero_of_le_zero (le.trans (by omega))))
    next other => exact .inr ⟨Ne.symm other, hw⟩

/-- The turns of the first workers bring these to rest. -/
lemma rests_of_finishing (n : Nat) (p : Pool) {j : Nat} {w : Worker} (lt : j < n)
    (hw : (p.run parser sources (finishing n sources.length)).workers[j]? = some w) :
    w.next = .rest := by
  induction n generalizing w with
  | zero => cases lt
  | succ n ih =>
    have turns : finishing (n + 1) sources.length =
        finishing n sources.length ++ .replicate (4 * sources.length + 5) (.work n) := by
      simp [finishing, List.range_succ]
    rw [turns, run_append] at hw
    rcases rests_of_turn hw with rest | ⟨other, before⟩
    · exact rest
    · exact ih (by omega) before

/-- No worker comes or goes in a run. -/
lemma length_workers_run (p : Pool) (actions : List PoolAction) :
    (p.run parser sources actions).workers.length = p.workers.length := by
  induction actions generalizing p with
  | nil => rfl
  | cons a actions ih => exact (ih _).trans (length_workers_step p a)

/-- In the end all workers rest. -/
theorem isResting_finish (p : Pool) (parser : FileParser) (sources : List SourceText)
    (actions : List PoolAction) :
    (p.finish parser sources actions).IsResting := by
  intro w hw
  obtain ⟨j, hj⟩ := List.mem_iff_getElem?.1 hw
  refine rests_of_finishing p.workers.length (p.run parser sources actions) ?_ hj
  have lt := (List.getElem?_eq_some_iff.1 hj).1
  rwa [finish, length_workers_run, length_workers_run] at lt

/-- Where an interleaving brings all workers to rest nothing happens behind it. -/
theorem finish_eq_run {actions : List PoolAction}
    (rest : (p.run parser sources actions).IsResting) :
    p.finish parser sources actions = p.run parser sources actions :=
  rest.run_works (cancel_not_mem_finishing _ _)

/-- The flag is set in the end if it was set before or in between. -/
lemma cancelled_finish (p : Pool) (actions : List PoolAction) :
    (p.finish parser sources actions).cancelled = (p.cancelled || .cancel ∈ actions) := by
  rw [finish, cancelled_run, cancelled_run]
  simp [cancel_not_mem_finishing]

/-! ## The files -/

/-- Files put down once at each position are in order once they are sorted. -/
lemma map_snd_mergeSort {α : Type} {xs : List (Nat × α)} {ys : List α}
    (positions : (xs.map Prod.fst).Perm (List.range ys.length))
    (there : ∀ x ∈ xs, ys[x.1]? = some x.2) :
    (xs.mergeSort fun x y => x.1 ≤ y.1).map Prod.snd = ys := by
  have sorted := List.pairwise_mergeSort' (fun x y : Nat × α => x.1 ≤ y.1) xs
  have perm := List.mergeSort_perm xs fun x y => x.1 ≤ y.1
  generalize xs.mergeSort (fun x y => x.1 ≤ y.1) = zs at sorted perm ⊢
  -- Sorted, the positions are all positions in order, so every file stands at its own.
  have fsts : zs.map Prod.fst = List.range ys.length := by
    refine List.Perm.eq_of_pairwise (fun a b _ _ => Nat.le_antisymm) (List.pairwise_map.2 sorted)
      (List.pairwise_lt_range.imp Nat.le_of_lt) ((perm.map _).trans positions)
  refine List.ext_getElem? fun i => ?_
  have at_i := congrArg (·[i]?) fsts
  simp only [List.getElem?_map] at at_i ⊢
  cases hz : zs[i]? with
  | none =>
    rw [hz, Option.map_none, eq_comm, List.getElem?_eq_none_iff, List.length_range] at at_i
    rw [Option.map_none, List.getElem?_eq_none at_i]
  | some z =>
    have same : i = z.1 := by
      rw [hz, Option.map_some, eq_comm, List.getElem?_eq_some_iff] at at_i
      obtain ⟨lt, e⟩ := at_i
      rwa [List.getElem_range] at e
    rw [Option.map_some, same, there z (perm.subset (List.mem_of_getElem? hz))]

/-- When all workers rest and nobody has cancelled, the files are those of parsing one by one. -/
theorem Shares.files_eq (h : p.Shares parser sources) (rest : p.IsResting) (ne : p.workers ≠ [])
    (clear : p.cancelled = false) : p.files = sources.map (.parse parser) := by
  obtain ⟨w, hw⟩ := List.exists_mem_of_ne_nil _ ne
  have all : sources.length ≤ p.position := by
    refine (h.rested w hw (rest w hw)).resolve_left ?_
    rw [clear]
    exact Bool.false_ne_true
  have down : ∀ v ∈ p.workers, v.taken = v.output.map Prod.fst := by
    intro v hv
    simp [Worker.taken, rest v hv, WorkerAction.held]
  refine map_snd_mergeSort ?_ ?_
  · have taken := h.taken
    rw [Nat.min_eq_right all, List.flatMap_congr down, ← List.map_flatMap] at taken
    rwa [List.length_map]
  · intro x hx
    obtain ⟨v, hv, hx⟩ := List.mem_flatMap.1 hx
    exact h.parsed v hv x (List.mem_append_left _ hx)

/-- A pool with workers that nobody cancels puts together the files parsed one by one. -/
lemma files_finish {count : Nat} {log : Log} {actions : List PoolAction} (pos : 0 < count)
    (still : .cancel ∉ actions) :
    ((Pool.new false count log).finish parser sources actions).files =
      sources.map (.parse parser) := by
  refine (((shares_new false count log).run actions).run _).files_eq
    (isResting_finish _ parser sources actions) ?_ ?_
  · rw [← List.length_pos_iff, length_workers_run, length_workers_run]
    simpa [Pool.new] using pos
  · refine (cancelled_finish _ actions).trans ?_
    simpa [Pool.new] using still

end Pool

namespace Loader

/-- What the parsing gives is what its pool holds in the end, unless the flag is set. -/
lemma fst_parse (l : Loader) (sources : List SourceText) (s : LoadState) :
    let pool := (Pool.new s.cancelled (l.workerCount sources.length) s.log).finish l.parser sources
      (l.circumstances.interleaving sources)
    (l.parse sources s).1 = if pool.cancelled then .error .cancelled else .ok pool.files := by
  intro pool
  unfold parse
  cases hs : s.cancelled with
  | true =>
    have set : pool.cancelled = true := by simp [pool, Pool.cancelled_finish, Pool.new, hs]
    rw [if_pos rfl, if_pos set]
  | false =>
    simp only [pool, hs, Bool.false_eq_true, if_false]
    split <;> rfl

/-- Parsing brings all workers to rest, and an interleaving that does so by itself is all that
happens. If cancellation was requested before the parsing or in the course of it, the parsing is
cancelled; otherwise it gives the files parsed one by one in order. Neither the number of threads
nor the interleaving shows in them. -/
theorem parse_interleaved (l : Loader) (sources : List SourceText) (s : LoadState) :
    let actions := l.circumstances.interleaving sources
    let pool := Pool.new s.cancelled (l.workerCount sources.length) s.log
    (pool.finish l.parser sources actions).IsResting ∧
      ((pool.run l.parser sources actions).IsResting →
        pool.finish l.parser sources actions = pool.run l.parser sources actions) ∧
      (l.parse sources s).1 =
        if s.cancelled = true ∨ .cancel ∈ actions then .error .cancelled
        else .ok (sources.map (.parse l.parser)) := by
  intro actions pool
  have rest := pool.isResting_finish l.parser sources actions
  refine ⟨rest, Pool.finish_eq_run, ?_⟩
  rw [fst_parse, Pool.cancelled_finish]
  by_cases set : s.cancelled = true ∨ .cancel ∈ actions
  · have flag : (pool.cancelled || .cancel ∈ actions) = true := by simpa [pool, Pool.new] using set
    rw [if_pos flag, if_pos set]
  · have flag : (pool.cancelled || .cancel ∈ actions) = false := by simpa [pool, Pool.new] using set
    have shares : (pool.finish l.parser sources actions).Shares l.parser sources :=
      ((Pool.shares_new ..).run actions).run _
    have workers : (pool.finish l.parser sources actions).workers ≠ [] := by
      rw [← List.length_pos_iff, Pool.finish, Pool.length_workers_run, Pool.length_workers_run]
      simp [pool, Pool.new, workerCount]
    have files := shares.files_eq rest workers ((pool.cancelled_finish actions).trans flag)
    rw [if_neg (by simp [pool, flag, actions]), if_neg set, files]

/-- Two workers, the second of which takes the first file and puts it down last. -/
theorem parse_interleaved_twoWorkers :
    let sources : List SourceText := [⟨"a", "A"⟩, ⟨"b", "B"⟩]
    let actions := [1, 1, 0, 0, 0, 0, 0, 0, 1, 1, 1, 1].map PoolAction.work
    let l : Loader := ⟨fun s => .error ⟨s.text, ⟨0, 1⟩⟩, 2, ⟨none, fun _ => actions, false⟩⟩
    let s : LoadState := ⟨false, .new .off⟩
    ((Pool.new false 2 s.log).run l.parser sources actions).IsResting ∧
      (Pool.new false 2 s.log).finish l.parser sources actions =
        (Pool.new false 2 s.log).run l.parser sources actions ∧
      (l.parse sources s).1 =
        .ok [⟨"a", .error ⟨"A", ⟨0, 1⟩⟩⟩, ⟨"b", .error ⟨"B", ⟨0, 1⟩⟩⟩] := by
  intro sources actions l s
  have rest : ((Pool.new false 2 s.log).run l.parser sources actions).IsResting := by
    have workers : ((Pool.new false 2 s.log).run l.parser sources actions).workers =
        [⟨.rest, [(1, ⟨"b", .error ⟨"B", ⟨0, 1⟩⟩⟩)]⟩,
          ⟨.rest, [(0, ⟨"a", .error ⟨"A", ⟨0, 1⟩⟩⟩)]⟩] := by cbv
    intro w hw
    rw [workers] at hw
    simp only [List.mem_cons, List.not_mem_nil, or_false] at hw
    rcases hw with rfl | rfl <;> rfl
  obtain ⟨-, same, files⟩ := parse_interleaved l sources s
  exact ⟨rest, same rest, files⟩

end Loader

end MibCorpus
