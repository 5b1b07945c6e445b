import Rewind.Proofs.Scheduler.Workers

/-! Whole rounds.

Where every task touches its own unit alone, what a round comes to is laid down by the table and
by the units as they are before it (`Scheduler.result`). A round that was waited for has come to
that, along whatever schedule (`Scheduler.Own.ran_along`), and so has one that runs the tasks one
after the other in any order, since that is a schedule as well (`Scheduler.exists_schedule`). -/

namespace Rewind

variable {ι σ : Type} [DecidableEq ι] {advance : σ → σ × Outcome}

namespace Scheduler
variable {s : Scheduler ι} {store : Table ι σ}

/-- Every task touches the unit that it is registered for, and each unit has one. -/
structure Own (s : Scheduler ι) : Prop where
  tasks : ∀ e ∈ s.table.entries, e.2.target = e.1
  nodup : s.units.Nodup

/-- Where a unit is after its task, and how that came out. -/
def result (s : Scheduler ι) (advance : σ → σ × Outcome) (store : Table ι σ) (v : ι) :
    Option σ × Outcome :=
  match s.table.get? v with
  | some t => repeated (advanceHeld advance) t.times (store.get? v) .running
  | none => (store.get? v, .running)

/-- The tasks of a round have been done to the units as they were, and what came of each has been
told once. -/
structure Ran (s : Scheduler ι) (advance : σ → σ × Outcome) (store : Table ι σ)
    (p : Progress ι σ) : Prop where
  get? : ∀ v, p.store.get? v = (s.result advance store v).1
  keys : p.store.keys = store.keys
  halted : p.halted.Perm (s.units.filter fun v => (s.result advance store v).2 = .halted)
  failures : p.failures.Perm
    (s.units.filterMap fun v => (s.result advance store v).2.cause?.map (TaskFailure.mk v))

theorem get?_floor (v : ι) : (s.floor store).stages.get? v = (s.table.get? v).map .queued :=
  Table.find_map (fun _ => Stage.queued) s.table.entries

omit [DecidableEq ι] in
theorem keys_floor : (s.floor store).stages.keys = s.units := by
  rw [floor, Table.keys, List.map_map]
  rfl

theorem told?_floor (v : ι) : (s.floor store).told? v = none := by
  rw [Floor.told?, get?_floor]
  cases s.table.get? v <;> rfl

theorem tells_floor : (s.floor store).Tells := by
  constructor
  · intro v
    rw [told?_floor]
    rfl
  · intro v cause
    rw [told?_floor]
    rfl

omit [DecidableEq ι] in
theorem busy_floor : (s.floor store).busy = 0 := by
  rw [Floor.busy, List.countP_eq_zero]
  intro stage hstage
  simp only [Table.values, floor, List.map_map, List.mem_map] at hstage
  obtain ⟨e, -, rfl⟩ := hstage
  exact Bool.false_ne_true

omit [DecidableEq ι] in
theorem counts_floor : (s.floor store).Counts := by
  have hopen : (s.floor store).stages.values.countP Stage.isOpen = s.table.size := by
    rw [List.countP_eq_length.mpr fun stage hstage => ?_]
    · simp [Table.values, floor, Table.size]
    · simp only [Table.values, floor, List.map_map, List.mem_map] at hstage
      obtain ⟨e, -, rfl⟩ := hstage
      rfl
  rw [Floor.Counts, hopen]
  rfl

theorem Own.heads_floor (h : s.Own) : (s.floor store).Heads advance (s.result advance store) := by
  constructor
  · intro v stage hstage
    rw [get?_floor] at hstage
    obtain ⟨t, ht, rfl⟩ := Option.map_eq_some_iff.mp hstage
    have hresult : s.result advance store v =
        repeated (advanceHeld advance) t.times (store.get? v) .running := by rw [result, ht]
    exact ⟨h.tasks _ (Table.mem_of_get? ht), hresult.symm⟩
  · intro v hnone
    rw [get?_floor, Option.map_eq_none_iff] at hnone
    have hresult : s.result advance store v = (store.get? v, .running) := by rw [result, hnone]
    rw [hresult]
    rfl

theorem runRoundAlong_of_disposed (h : s.disposed = true) (schedule : List ι) :
    s.runRoundAlong advance schedule store = .error .disposed :=
  if_pos h

/-- Rounds are refused for no other reason. -/
theorem disposed_of_runRoundAlong {schedule : List ι} {e : SchedulerError}
    (h : s.runRoundAlong advance schedule store = .error e) : s.disposed = true := by
  rw [runRoundAlong] at h
  split at h
  · assumption
  · split at h <;> cases h

theorem runRoundAlong_of_done (hlive : s.disposed = false) {schedule : List ι}
    (hdone : (s.along advance schedule store).Done) :
    s.runRoundAlong advance schedule store =
      .ok (some (s.complete, (s.along advance schedule store).progress,
        { round := s.rounds + 1
          submitted := s.table.size
          halted := (s.along advance schedule store).progress.halted })) := by
  rw [runRoundAlong, hlive]
  exact if_pos hdone

/-- A round that was waited for is over, and its report is of what it has come to. -/
theorem done_of_runRoundAlong {schedule : List ι} {s' : Scheduler ι} {p : Progress ι σ}
    {report : RoundReport ι}
    (h : s.runRoundAlong advance schedule store = .ok (some (s', p, report))) :
    (s.along advance schedule store).Done ∧ s' = s.complete ∧
      p = (s.along advance schedule store).progress ∧
      report = { round := s.rounds + 1, submitted := s.units.length, halted := p.halted } := by
  rw [runRoundAlong] at h
  split at h
  · cases h
  split at h
  · next hdone =>
    cases h
    refine ⟨hdone, rfl, rfl, ?_⟩
    simp [units, Table.keys, Table.size]
  · cases h

/-- What every move keeps is kept along a schedule. -/
theorem along_keeps {P : Floor ι σ → Prop}
    (hmove : ∀ f unit, P f → P (f.move advance s.mode.workers unit)) (h : P (s.floor store))
    (schedule : List ι) : P (s.along advance schedule store) :=
  Floor.run_keeps hmove h schedule

section
variable (s : Scheduler ι) (advance : σ → σ × Outcome) (schedule : List ι) (store : Table ι σ)

theorem counts_along : (s.along advance schedule store).Counts :=
  along_keeps (fun _ unit hf => hf.move unit) counts_floor schedule

theorem tells_along : (s.along advance schedule store).Tells :=
  along_keeps (fun _ unit hf => hf.move unit) tells_floor schedule

theorem keys_along : (s.along advance schedule store).stages.keys = s.units :=
  along_keeps (P := fun f => f.stages.keys = s.units)
    (fun f unit hf => (f.keys_stages_move unit).trans hf) keys_floor schedule

theorem keys_store_along : (s.along advance schedule store).progress.store.keys = store.keys :=
  along_keeps (P := fun f => f.progress.store.keys = store.keys)
    (fun f unit hf => (f.keys_store_move unit).trans hf) rfl schedule

end

theorem Own.heads_along (h : s.Own) (schedule : List ι) :
    (s.along advance schedule store).Heads advance (s.result advance store) :=
  along_keeps (fun _ unit hf => hf.move unit) h.heads_floor schedule

/-- **A round that is over has been run**, whatever its schedule. -/
theorem Own.ran_along (h : s.Own) {schedule : List ι}
    (hdone : (s.along advance schedule store).Done) :
    s.Ran advance store (s.along advance schedule store).progress := by
  have hkeys := s.keys_along advance schedule store
  obtain ⟨hget, hhalted, hfailures⟩ := (h.heads_along schedule).done (hkeys ▸ h.nodup)
    (s.tells_along advance schedule store) (s.counts_along advance schedule store) hdone
  rw [hkeys] at hhalted hfailures
  exact ⟨hget, s.keys_store_along advance schedule store, hhalted, hfailures⟩

/-- **No round gets stuck**: along whatever schedule it has come so far, it can be finished. -/
theorem exists_along_done (hworkers : 0 < s.mode.workers) (hnodup : s.units.Nodup)
    (schedule : List ι) : ∃ more, (s.along advance (schedule ++ more) store).Done := by
  have hkeys := s.keys_along advance schedule store
  obtain ⟨more, hdone⟩ := Floor.exists_done advance hworkers (hkeys ▸ hnodup)
    (s.counts_along advance schedule store)
  refine ⟨more, ?_⟩
  rwa [along, Floor.run_append]

end Scheduler

/-! ### One task after the other -/

namespace Floor
variable (advance : σ → σ × Outcome) {workers : Nat} {f : Floor ι σ} {unit : ι}

/-- The moves of a task that a worker has, up to where it has come out. -/
theorem exists_run_ended (n : Nat) {target : ι} {last : Outcome}
    (h : f.stages.get? unit = some (.running target n last)) :
    ∃ schedule, f.run advance workers schedule =
      { progress := { f.progress with
          store := (repeated (advanceIn advance · target) n f.progress.store last).1 }
        stages := f.stages.set unit
          (.ended (repeated (advanceIn advance · target) n f.progress.store last).2) } := by
  induction n generalizing f last with
  | zero => exact ⟨[unit], move_of_get? advance h rfl⟩
  | succ n ih =>
    have hmove : f.move advance workers unit = _ := move_of_get? advance h rfl
    rw [Progress.move_running_succ, Stage.after] at hmove
    rw [repeated]
    by_cases hgo : (advanceIn advance f.progress.store target).2.goesOn = true
    · rw [if_pos hgo] at hmove ⊢
      obtain ⟨schedule, hrun⟩ := ih (f := f.move advance workers unit)
        (by rw [hmove, Table.get?_set, if_pos rfl])
      refine ⟨unit :: schedule, hrun.trans ?_⟩
      rw [hmove]
      simp only [Table.set_set]
    · rw [if_neg hgo] at hmove ⊢
      exact ⟨[unit], hmove⟩

end Floor

/-- A task that is run is advanced, told of and counted off in one go. -/
theorem Progress.run_eq_tell (p : Progress ι σ) (unit : ι) (t : Task ι) :
    let result := repeated (advanceIn advance · t.target) t.times p.store .running
    p.run advance false (unit, t) =
      { { p with store := result.1 }.tell unit result.2 with latch := p.latch.countDown } := by
  intro result
  have hrun : t.run advance p.store = result := advanceTimes_eq t.times p.store .running
  rw [run, hrun]
  rcases result with ⟨store, outcome⟩
  cases outcome <;> simp [tell, Outcome.cause?]

namespace Floor
variable (advance : σ → σ × Outcome) {workers : Nat} {f : Floor ι σ}

/-- The last two moves of a task. -/
theorem run_counted {unit : ι} {outcome : Outcome}
    (h : f.stages.get? unit = some (.ended outcome)) :
    f.run advance workers [unit, unit] =
      { progress := { f.progress.tell unit outcome with latch := f.progress.latch.countDown }
        stages := f.stages.set unit (.counted outcome) } := by
  have htell : f.move advance workers unit =
      { progress := f.progress.tell unit outcome, stages := f.stages.set unit (.told outcome) } :=
    move_of_get? advance h rfl
  have hcount : (f.move advance workers unit).move advance workers unit = _ :=
    move_of_get? advance (by rw [htell, Table.get?_set, if_pos rfl]) rfl
  show (f.move advance workers unit).move advance workers unit = _
  rw [hcount, htell]
  simp only [Progress.move, Table.set_set]
  rfl

/-- All the moves of one task, while no worker has another. -/
theorem exists_run_counted (hworkers : 0 < workers) (hfree : f.busy = 0) {unit : ι} {t : Task ι}
    (h : f.stages.get? unit = some (.queued t)) :
    ∃ schedule outcome, f.run advance workers schedule =
      { progress := f.progress.run advance false (unit, t)
        stages := f.stages.set unit (.counted outcome) } := by
  have hstart : f.move advance workers unit =
      { progress := f.progress
        stages := f.stages.set unit (.running t.target t.times .running) } :=
    move_of_get? advance h (decide_eq_true (hfree ▸ hworkers))
  have hrunning : (f.move advance workers unit).stages.get? unit =
      some (.running t.target t.times .running) := by
    rw [hstart, Table.get?_set, if_pos rfl]
  obtain ⟨schedule, hended⟩ := exists_run_ended advance t.times hrunning
  have hover : ((f.move advance workers unit).run advance workers schedule).run advance workers
      [unit, unit] = _ :=
    run_counted advance (by rw [hended, Table.get?_set, if_pos rfl])
  refine ⟨unit :: (schedule ++ [unit, unit]),
    (repeated (advanceIn advance · t.target) t.times f.progress.store .running).2, ?_⟩
  show (f.move advance workers unit).run advance workers (schedule ++ [unit, unit]) = _
  rw [run_append, hover, hended, hstart, Progress.run_eq_tell]
  simp only [Table.set_set]

/-- The tasks of units that still queue can be run one after the other. After that no worker has a
task, and other tasks are where they were. -/
theorem exists_run_runTasks (hworkers : 0 < workers) (order : List (ι × Task ι))
    (hnodup : (order.map Prod.fst).Nodup) (hfree : f.busy = 0)
    (hqueued : ∀ e ∈ order, f.stages.get? e.1 = some (.queued e.2)) :
    ∃ schedule, (f.run advance workers schedule).progress =
        runTasks advance false f.progress order ∧
      (f.run advance workers schedule).busy = 0 ∧
      ∀ v ∉ order.map Prod.fst,
        (f.run advance workers schedule).stages.get? v = f.stages.get? v := by
  induction order generalizing f with
  | nil => exact ⟨[], rfl, hfree, fun _ _ => rfl⟩
  | cons e order ih =>
    obtain ⟨hnot, hnodup⟩ := List.nodup_cons.mp hnodup
    obtain ⟨hfirst, hrest⟩ := List.forall_mem_cons.mp hqueued
    obtain ⟨schedule, outcome, hrun⟩ := exists_run_counted advance hworkers hfree hfirst
    have hbusy : (f.run advance workers schedule).busy = 0 := by
      have hcount := Table.countP_values_set (a := .counted outcome) Stage.isBusy hfirst
      rw [hrun]
      exact hcount.trans hfree
    have hother {v : ι} (hne : e.1 ≠ v) :
        (f.run advance workers schedule).stages.get? v = f.stages.get? v := by
      rw [hrun, Table.get?_set_of_ne hne]
    have hqueued : ∀ e' ∈ order, (f.run advance workers schedule).stages.get? e'.1 =
        some (.queued e'.2) := fun e' he' =>
      (hother fun heq => hnot (heq ▸ List.mem_map_of_mem he')).trans (hrest e' he')
    obtain ⟨more, hmore, hfree', hother'⟩ := ih hnodup hbusy hqueued
    refine ⟨schedule ++ more, ?_, ?_, fun v hv => ?_⟩
    · rw [run_append, hmore, hrun]
      rfl
    · rwa [run_append]
    · rw [List.map_cons, List.mem_cons, not_or] at hv
      rw [run_append, hother' v hv.2, hother (Ne.symm hv.1)]

end Floor

theorem latch_runTasks (p : Progress ι σ) (order : List (ι × Task ι)) :
    (runTasks advance false p order).latch =
      { p.latch with remaining := p.latch.remaining - order.length } := by
  induction order generalizing p with
  | nil => rfl
  | cons e order ih =>
    have hlatch : (p.run advance false e).latch = p.latch.countDown := by
      rw [show e = (e.1, e.2) from rfl, p.run_eq_tell]
    show (runTasks advance false (p.run advance false e) order).latch = _
    rw [ih, hlatch, List.length_cons, Latch.countDown, Nat.sub_sub, Nat.add_comm]

/-- **Running the tasks one by one, in any order, is one of the schedules.** -/
theorem Scheduler.exists_schedule {s : Scheduler ι} (hworkers : 0 < s.mode.workers)
    (hnodup : s.units.Nodup) (store : Table ι σ) {order : List (ι × Task ι)}
    (horder : order.Perm s.table.entries) :
    ∃ schedule, s.runRoundAlong advance schedule store =
      (s.runRoundIn advance order store).map some := by
  have hqueued : ∀ e ∈ order, (s.floor store).stages.get? e.1 = some (.queued e.2) := by
    intro e he
    rw [get?_floor, Table.get?_of_mem hnodup (horder.mem_iff.mp he)]
    rfl
  obtain ⟨schedule, hrun, -⟩ := Floor.exists_run_runTasks advance hworkers order
    ((horder.map Prod.fst).nodup_iff.mpr hnodup) busy_floor hqueued
  have hprogress : (s.along advance schedule store).progress =
      runTasks advance false (s.begin store) order := hrun
  have hdone : (s.along advance schedule store).Done := by
    rw [Floor.Done, hprogress, latch_runTasks, Latch.wait?, if_pos]
    show s.table.size - order.length = 0
    rw [horder.length_eq]
    exact Nat.sub_self _
  refine ⟨schedule, ?_⟩
  rw [runRoundAlong, runRoundIn]
  split
  · rfl
  · rw [hprogress]
    rfl

end Rewind
