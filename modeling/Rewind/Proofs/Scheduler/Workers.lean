import Mathlib.Data.List.Nodup
import Rewind.Proofs.Table
import Rewind.Scheduler.Basic

/-! Workers.

A round hands its tasks to a pool of workers. A task queues until a worker is free, advances
its unit time after time, has told what came of it, and is counted off; and the tasks make these
moves in whatever order the workers come to them (`Floor.move`). Whoever waits for the round
looks at the latch alone.

Nothing depends on the order. From any moment on a round can go on to its end
(`Floor.exists_done`). At the end every task has been done to its unit as it was before the
round, and what came of it has been told once (`Floor.Heads.done`). Running the tasks one by one
is one of the ways to get there (`Scheduler.exists_schedule`). -/

namespace Rewind

/-- Whatever is asked for, there is a worker. -/
theorem ExecutionMode.workers_pos (concurrency : Int) :
    0 < (ofConcurrency concurrency).workers := by
  rw [ofConcurrency]
  split
  · exact Nat.one_pos
  · split
    · exact Nat.one_pos
    · show 0 < concurrency.toNat
      omega

/-! ### Repeating -/

/-- A task whose unit came out so goes on to the next time. -/
def Outcome.goesOn : Outcome → Bool
  | .running | .halted => true
  | .failed _ | .panicked _ => false

/-- Acts so many times, up to the first that fails; `last` is how the time before came out. -/
def repeated {τ : Type} (act : τ → τ × Outcome) : Nat → τ → Outcome → τ × Outcome
  | 0, s, last => (s, last)
  | n + 1, s, _ => if (act s).2.goesOn then repeated act n (act s).1 (act s).2 else act s

/-- Advances the unit in a place that may be empty. -/
def advanceHeld {σ : Type} (advance : σ → σ × Outcome) : Option σ → Option σ × Outcome
  | none => (none, .running)
  | some s => (some (advance s).1, (advance s).2)

section
variable {τ τ' : Type} {act : τ → τ × Outcome} {act' : τ' → τ' × Outcome} {g : τ → τ'}

/-- Repeating is seen through a function as acting is. -/
theorem repeated_map (h : ∀ s, act' (g s) = (g (act s).1, (act s).2)) (n : Nat) (s : τ)
    (last : Outcome) :
    repeated act' n (g s) last = (g (repeated act n s last).1, (repeated act n s last).2) := by
  induction n generalizing s last with
  | zero => rfl
  | succ n ih =>
    rw [repeated, repeated, h]
    split
    · exact ih _ _
    · rfl

end

section
variable {ι σ : Type} [DecidableEq ι] {advance : σ → σ × Outcome} {store : Table ι σ} {unit v : ι}

theorem repeated_advanceHeld_some (n : Nat) (s : σ) (last : Outcome) :
    repeated (advanceHeld advance) n (some s) last =
      (some (repeated advance n s last).1, (repeated advance n s last).2) :=
  repeated_map (g := some) (fun _ => rfl) n s last

theorem repeated_advanceHeld_none (n : Nat) :
    repeated (advanceHeld advance) n none .running = (none, .running) := by
  induction n with
  | zero => rfl
  | succ n ih => exact ih

/-- Advancing a unit of a store is advancing in its place. -/
theorem advanceHeld_get? : advanceHeld advance (store.get? unit) =
    ((advanceIn advance store unit).1.get? unit, (advanceIn advance store unit).2) := by
  rw [advanceIn]
  cases hs : store.get? unit with
  | none => simp only [hs, advanceHeld]
  | some s => simp only [Table.get?_set, if_pos, advanceHeld]

theorem get?_advanceIn_of_ne (h : unit ≠ v) :
    (advanceIn advance store unit).1.get? v = store.get? v := by
  rw [advanceIn]
  split
  · rfl
  · exact Table.get?_set_of_ne h

theorem keys_advanceIn : (advanceIn advance store unit).1.keys = store.keys := by
  rw [advanceIn]
  split
  · rfl
  · next s hs => exact Table.keys_set_of_get? hs

theorem advanceTimes_eq (n : Nat) (store : Table ι σ) (last : Outcome) :
    advanceTimes advance unit n store last =
      repeated (advanceIn advance · unit) n store last := by
  induction n generalizing store last with
  | zero => rfl
  | succ n ih =>
    rw [advanceTimes, repeated]
    rcases hstep : advanceIn advance store unit with ⟨store', o⟩
    cases o with
    | running | halted => exact ih _ _
    | failed | panicked => rfl

end

/-! ### Stages and moves -/

/-- How far a task of a round has come. -/
inductive Stage (ι : Type) where
  | queued (t : Task ι)
  /-- A worker has it, so many times are left, and the time before came out as `last`. -/
  | running (target : ι) (left : Nat) (last : Outcome)
  /-- It has come out so, and nobody knows. -/
  | ended (outcome : Outcome)
  /-- What came of it has been told. -/
  | told (outcome : Outcome)
  /-- It has been counted off, and the worker is free. -/
  | counted (outcome : Outcome)

namespace Stage
variable {ι : Type}

/-- After a time that came out so. -/
def after (target : ι) (left : Nat) (outcome : Outcome) : Stage ι :=
  if outcome.goesOn then running target left outcome else ended outcome

def isBusy : Stage ι → Bool
  | running .. | ended _ | told _ => true
  | queued _ | counted _ => false

/-- It has not been counted off. -/
def isOpen : Stage ι → Bool
  | counted _ => false
  | _ => true

/-- What has been told. -/
def told? : Stage ι → Option Outcome
  | told outcome | counted outcome => some outcome
  | _ => none

/-- The number of moves to the end, if no time fails. -/
def toGo : Stage ι → Nat
  | queued t => t.times + 4
  | running _ left _ => left + 3
  | ended _ => 2
  | told _ => 1
  | counted _ => 0

end Stage

/-- The cause that is reported of an outcome. -/
def Outcome.cause? : Outcome → Option FailureCause
  | .failed e => some (.error e)
  | .panicked text => some (.panic text)
  | .running | .halted => none

namespace Progress
variable {ι σ : Type} [DecidableEq ι]

/-- Tells what came of a task. -/
def tell (p : Progress ι σ) (unit : ι) (outcome : Outcome) : Progress ι σ :=
  { p with
    halted := p.halted ++ if outcome = .halted then [unit] else []
    failures := p.failures ++ (outcome.cause?.map (TaskFailure.mk unit)).toList }

/-- One move of the task of a unit. -/
def move (advance : σ → σ × Outcome) (unit : ι) (p : Progress ι σ) :
    Stage ι → Progress ι σ × Stage ι
  | .queued t => (p, .running t.target t.times .running)
  | .running _ 0 last => (p, .ended last)
  | .running target (left + 1) _ =>
    ({ p with store := (advanceIn advance p.store target).1 },
      .after target left (advanceIn advance p.store target).2)
  | .ended outcome => (p.tell unit outcome, .told outcome)
  | .told outcome => ({ p with latch := p.latch.countDown }, .counted outcome)
  | .counted outcome => (p, .counted outcome)

end Progress

/-- A round under way: what has come of it so far, and how far the task of each unit is. -/
structure Floor (ι σ : Type) where
  progress : Progress ι σ
  stages : Table ι (Stage ι)

namespace Floor
variable {ι σ : Type} [DecidableEq ι]

/-- How many workers have a task. -/
def busy (f : Floor ι σ) : Nat := f.stages.values.countP Stage.isBusy

/-- Whether a task can move. It does not start unless a worker is free. -/
def canMove (workers : Nat) (f : Floor ι σ) : Stage ι → Bool
  | .queued _ => decide (f.busy < workers)
  | .counted _ => false
  | _ => true

/-- The task of a unit makes its next move, if it has one. -/
def move (advance : σ → σ × Outcome) (workers : Nat) (f : Floor ι σ) (unit : ι) : Floor ι σ :=
  match f.stages.get? unit with
  | none => f
  | some stage =>
    if f.canMove workers stage then
      let (progress, stage) := f.progress.move advance unit stage
      { progress, stages := f.stages.set unit stage }
    else f

/-- The moves of a schedule, which says whose turn it is. -/
def run (advance : σ → σ × Outcome) (workers : Nat) (f : Floor ι σ) (schedule : List ι) :
    Floor ι σ :=
  schedule.foldl (move advance workers) f

/-- Whoever waits for the round may go on. -/
def Done (f : Floor ι σ) : Prop := f.progress.latch.wait? = some .done

instance (f : Floor ι σ) : Decidable f.Done := inferInstanceAs (Decidable (_ = _))

end Floor

namespace Scheduler
variable {ι σ : Type} [DecidableEq ι]

/-- A round that has just been handed to the workers. -/
def floor (s : Scheduler ι) (store : Table ι σ) : Floor ι σ :=
  { progress := s.begin store, stages := ⟨s.table.entries.map fun e => (e.1, .queued e.2)⟩ }

/-- A round after the moves of a schedule. -/
def along (s : Scheduler ι) (advance : σ → σ × Outcome) (schedule : List ι) (store : Table ι σ) :
    Floor ι σ :=
  (s.floor store).run advance s.mode.workers schedule

/-- Runs a round along a schedule. There is no answer if the wait for it is not over. -/
def runRoundAlong (s : Scheduler ι) (advance : σ → σ × Outcome) (schedule : List ι)
    (store : Table ι σ) :
    Except SchedulerError (Option (Scheduler ι × Progress ι σ × RoundReport ι)) :=
  if s.disposed then .error .disposed
  else if (s.along advance schedule store).Done then
    let p := (s.along advance schedule store).progress
    .ok (some (s.complete, p,
      { round := s.rounds + 1, submitted := s.table.size, halted := p.halted }))
  else .ok none

end Scheduler

/-! ### The invariant of the moves -/

section
variable {ι σ : Type} [DecidableEq ι] {advance : σ → σ × Outcome} {unit : ι}

/-- From here the task comes to the result, where its unit is now in a place. -/
def Stage.Leads (advance : σ → σ × Outcome) (unit : ι) (result : Option σ × Outcome)
    (now : Option σ) : Stage ι → Prop
  | .queued t => t.target = unit ∧ repeated (advanceHeld advance) t.times now .running = result
  | .running target left last =>
    target = unit ∧ repeated (advanceHeld advance) left now last = result
  | .ended outcome | .told outcome | .counted outcome => (now, outcome) = result

namespace Progress
variable {p : Progress ι σ} {stage : Stage ι} {result : Option σ × Outcome}

theorem keys_move : (p.move advance unit stage).1.store.keys = p.store.keys := by
  unfold move
  split
  · rfl
  · rfl
  · exact keys_advanceIn
  · rfl
  · rfl
  · rfl

theorem leads_move (h : stage.Leads advance unit result (p.store.get? unit)) :
    (p.move advance unit stage).2.Leads advance unit result
      ((p.move advance unit stage).1.store.get? unit) := by
  cases stage with
  | queued | ended | told | counted => exact h
  | running target left last =>
    obtain ⟨rfl, h⟩ := h
    cases left with
    | zero => exact h
    | succ left =>
      rw [repeated, advanceHeld_get?] at h
      show Stage.Leads advance target result _
        (.after target left (advanceIn advance p.store target).2)
      by_cases hgo : (advanceIn advance p.store target).2.goesOn = true
      · rw [if_pos hgo] at h
        rw [Stage.after, if_pos hgo]
        exact ⟨rfl, h⟩
      · rw [if_neg hgo] at h
        rw [Stage.after, if_neg hgo]
        exact h

/-- A task moves nothing but its own unit. -/
theorem get?_move_of_ne {v : ι} (h : stage.Leads advance unit result (p.store.get? unit))
    (hv : unit ≠ v) : (p.move advance unit stage).1.store.get? v = p.store.get? v := by
  cases stage with
  | running target left last =>
    obtain ⟨rfl, -⟩ := h
    cases left with
    | zero => rfl
    | succ left => exact get?_advanceIn_of_ne hv
  | _ => rfl

theorem move_running_succ (target : ι) (left : Nat) (last : Outcome) :
    p.move advance unit (.running target (left + 1) last) =
      ({ p with store := (advanceIn advance p.store target).1 },
        .after target left (advanceIn advance p.store target).2) := rfl

/-- A move either tells what came of the task, or tells nothing. -/
theorem move_cases (advance : σ → σ × Outcome) (unit : ι) (p : Progress ι σ) (stage : Stage ι) :
    (∃ outcome, stage = .ended outcome ∧
      p.move advance unit stage = (p.tell unit outcome, .told outcome)) ∨
    (p.move advance unit stage).1.halted = p.halted ∧
      (p.move advance unit stage).1.failures = p.failures ∧
      (p.move advance unit stage).2.told? = stage.told? := by
  cases stage with
  | ended outcome => exact .inl ⟨outcome, rfl, rfl⟩
  | queued | told | counted => exact .inr ⟨rfl, rfl, rfl⟩
  | running target left last =>
    cases left with
    | zero => exact .inr ⟨rfl, rfl, rfl⟩
    | succ left =>
      refine .inr ⟨rfl, rfl, ?_⟩
      show (Stage.after target left (advanceIn advance p.store target).2).told? = none
      unfold Stage.after
      split <;> rfl

/-- A move either counts the task off, or leaves the latch alone. -/
theorem move_cases_latch (advance : σ → σ × Outcome) (unit : ι) (p : Progress ι σ)
    (stage : Stage ι) :
    (∃ outcome, stage = .told outcome ∧
      p.move advance unit stage = ({ p with latch := p.latch.countDown }, .counted outcome)) ∨
    (p.move advance unit stage).1.latch = p.latch ∧
      (p.move advance unit stage).2.isOpen = stage.isOpen := by
  cases stage with
  | told outcome => exact .inl ⟨outcome, rfl, rfl⟩
  | queued | ended | counted => exact .inr ⟨rfl, rfl⟩
  | running target left last =>
    cases left with
    | zero => exact .inr ⟨rfl, rfl⟩
    | succ left =>
      refine .inr ⟨rfl, ?_⟩
      show (Stage.after target left (advanceIn advance p.store target).2).isOpen = true
      unfold Stage.after
      split <;> rfl

theorem count_halted_tell (v : ι) (outcome : Outcome) :
    (p.tell unit outcome).halted.count v =
      p.halted.count v + if unit = v ∧ outcome = .halted then 1 else 0 := by
  rw [tell, List.count_append]
  by_cases ho : outcome = .halted <;> simp [ho, List.count_singleton]

theorem count_failures_tell (v : ι) (cause : FailureCause) (outcome : Outcome) :
    (p.tell unit outcome).failures.count ⟨v, cause⟩ =
      p.failures.count ⟨v, cause⟩ + if unit = v ∧ outcome.cause? = some cause then 1 else 0 := by
  rw [tell, List.count_append]
  cases ho : outcome.cause? with
  | none => simp
  | some c => simp [List.count_singleton]

end Progress

namespace Floor
variable {f : Floor ι σ} {workers : Nat} {result : ι → Option σ × Outcome}

/-- The tasks head for their results. Units without a task are left alone. -/
structure Heads (advance : σ → σ × Outcome) (result : ι → Option σ × Outcome) (f : Floor ι σ) :
    Prop where
  leads : ∀ v stage, f.stages.get? v = some stage →
    stage.Leads advance v (result v) (f.progress.store.get? v)
  others : ∀ v, f.stages.get? v = none → f.progress.store.get? v = (result v).1

/-- What has been told of the task of a unit. -/
def told? (f : Floor ι σ) (v : ι) : Option Outcome := (f.stages.get? v).bind Stage.told?

/-- What has been told of each task has been noted once. -/
structure Tells (f : Floor ι σ) : Prop where
  halted : ∀ v, f.progress.halted.count v = if f.told? v = some .halted then 1 else 0
  failures : ∀ v cause, f.progress.failures.count ⟨v, cause⟩ =
    if (f.told? v).bind Outcome.cause? = some cause then 1 else 0

/-- The latch counts the tasks that are not over. -/
def Counts (f : Floor ι σ) : Prop :=
  f.progress.latch = ⟨f.stages.values.countP Stage.isOpen, false⟩

theorem move_of_get? (advance : σ → σ × Outcome) {unit : ι} {stage : Stage ι}
    (h : f.stages.get? unit = some stage) (hcan : f.canMove workers stage = true) :
    f.move advance workers unit =
      { progress := (f.progress.move advance unit stage).1
        stages := f.stages.set unit (f.progress.move advance unit stage).2 } := by
  unfold move
  rw [h]
  exact if_pos hcan

/-- A move is one of the unit's task, or nothing happens. -/
theorem move_cases (advance : σ → σ × Outcome) (workers : Nat) (f : Floor ι σ) (unit : ι) :
    f.move advance workers unit = f ∨ ∃ stage, f.stages.get? unit = some stage ∧
      f.canMove workers stage = true ∧ f.move advance workers unit =
        { progress := (f.progress.move advance unit stage).1
          stages := f.stages.set unit (f.progress.move advance unit stage).2 } := by
  cases hstage : f.stages.get? unit with
  | none =>
    refine .inl ?_
    unfold move
    rw [hstage]
  | some stage =>
    by_cases hcan : f.canMove workers stage = true
    · exact .inr ⟨stage, rfl, hcan, move_of_get? advance hstage hcan⟩
    · refine .inl ?_
      unfold move
      rw [hstage]
      exact if_neg hcan

theorem told?_set (p : Progress ι σ) (stage : Stage ι) (v : ι) :
    told? ⟨p, f.stages.set unit stage⟩ v = if unit = v then stage.told? else f.told? v := by
  rw [told?, told?, Table.get?_set]
  split <;> rfl

theorem Heads.move (h : f.Heads advance result) (unit : ι) :
    (f.move advance workers unit).Heads advance result := by
  rcases f.move_cases advance workers unit with hmove | ⟨stage, hstage, -, hmove⟩
  · rwa [hmove]
  have hleads := h.leads unit stage hstage
  rw [hmove]
  refine ⟨fun v stage' hstage' => ?_, fun v hnone => ?_⟩
  · rw [Table.get?_set] at hstage'
    by_cases hv : unit = v
    · subst hv
      rw [if_pos rfl] at hstage'
      exact Option.some.inj hstage' ▸ Progress.leads_move hleads
    · rw [if_neg hv] at hstage'
      rw [Progress.get?_move_of_ne hleads hv]
      exact h.leads v stage' hstage'
  · rw [Table.get?_set] at hnone
    by_cases hv : unit = v
    · rw [if_pos hv] at hnone
      cases hnone
    · rw [if_neg hv] at hnone
      rw [Progress.get?_move_of_ne hleads hv]
      exact h.others v hnone

theorem Tells.move (h : f.Tells) (unit : ι) : (f.move advance workers unit).Tells := by
  rcases f.move_cases advance workers unit with hmove | ⟨stage, hstage, -, hmove⟩
  · rwa [hmove]
  have hself : f.told? unit = stage.told? := by rw [told?, hstage, Option.bind_some]
  rw [hmove]
  rcases f.progress.move_cases advance unit stage with ⟨outcome, rfl, htell⟩ | ⟨hh, hf, htell⟩
  · -- The task had told nothing before.
    have hnone : f.told? unit = none := hself
    rw [htell]
    constructor
    · intro v
      rw [Progress.count_halted_tell, told?_set, h.halted]
      by_cases hv : unit = v
      · subst hv
        simp [hnone, Stage.told?]
      · simp [hv]
    · intro v cause
      rw [Progress.count_failures_tell, told?_set, h.failures]
      by_cases hv : unit = v
      · subst hv
        simp [hnone, Stage.told?]
      · simp [hv]
  · have hsame (v : ι) : told? ⟨(f.progress.move advance unit stage).1,
        f.stages.set unit (f.progress.move advance unit stage).2⟩ v = f.told? v := by
      rw [told?_set]
      split
      · next hv => rw [htell, ← hself, hv]
      · rfl
    constructor
    · intro v
      rw [hsame, hh, h.halted]
    · intro v cause
      rw [hsame, hf, h.failures]

/-- A move counts the latch down, or leaves it alone. -/
theorem latch_move (f : Floor ι σ) (unit : ι) :
    (f.move advance workers unit).progress.latch = f.progress.latch ∨
      (f.move advance workers unit).progress.latch = f.progress.latch.countDown := by
  rcases f.move_cases advance workers unit with hmove | ⟨stage, -, -, hmove⟩
  · exact .inl (by rw [hmove])
  · rw [hmove]
    rcases f.progress.move_cases_latch advance unit stage with ⟨outcome, -, hmove⟩ | ⟨hlatch, -⟩
    · exact .inr (by rw [hmove])
    · exact .inl hlatch

theorem interrupted_move (f : Floor ι σ) (unit : ι) :
    (f.move advance workers unit).progress.latch.interrupted = f.progress.latch.interrupted := by
  rcases f.latch_move unit with hlatch | hlatch <;> rw [hlatch]
  rfl

/-- The tasks that the latch counts, it counts after a move, interrupted or not. -/
theorem remaining_move
    (h : f.progress.latch.remaining = f.stages.values.countP Stage.isOpen) (unit : ι) :
    (f.move advance workers unit).progress.latch.remaining =
      (f.move advance workers unit).stages.values.countP Stage.isOpen := by
  rcases f.move_cases advance workers unit with hmove | ⟨stage, hstage, -, hmove⟩
  · rwa [hmove]
  have hcount (stage' : Stage ι) :=
    Table.countP_values_set (a := stage') Stage.isOpen hstage
  rw [hmove]
  rcases f.progress.move_cases_latch advance unit stage with ⟨outcome, rfl, hmove⟩ | ⟨hlatch, hopen⟩
  · have hone : (f.stages.set unit (.counted outcome)).values.countP Stage.isOpen + 1 =
        f.stages.values.countP Stage.isOpen := hcount (.counted outcome)
    rw [hmove]
    show f.progress.latch.remaining - 1 = _
    rw [h, ← hone, Nat.add_sub_cancel]
  · have hsame := hcount (f.progress.move advance unit stage).2
    rw [hopen, Nat.add_right_cancel_iff] at hsame
    rw [hlatch, h, hsame]

omit [DecidableEq ι] in
theorem counts_iff : f.Counts ↔
    f.progress.latch.remaining = f.stages.values.countP Stage.isOpen ∧
      f.progress.latch.interrupted = false := by
  rw [Counts]
  cases f.progress.latch
  exact Latch.mk.injEq .. ▸ .rfl

theorem Counts.move (h : f.Counts) (unit : ι) : (f.move advance workers unit).Counts := by
  obtain ⟨hremaining, hinterrupted⟩ := counts_iff.mp h
  exact counts_iff.mpr
    ⟨remaining_move hremaining unit, (f.interrupted_move unit).trans hinterrupted⟩

/-- A task that moves comes closer to its end. -/
theorem toGo_move (advance : σ → σ × Outcome) (unit : ι) {stage : Stage ι}
    (hcan : f.canMove workers stage = true) :
    (f.progress.move advance unit stage).2.toGo < stage.toGo := by
  cases stage with
  | counted => cases hcan
  | queued | ended | told => exact Nat.lt_succ_self _
  | running target left last =>
    cases left with
    | zero => exact Nat.lt_succ_self _
    | succ left =>
      show (Stage.after target left (advanceIn advance f.progress.store target).2).toGo < left + 4
      unfold Stage.after
      split
      · exact Nat.lt_succ_self _
      · show 2 < left + 4
        omega

theorem keys_stages_move (f : Floor ι σ) (unit : ι) :
    (f.move advance workers unit).stages.keys = f.stages.keys := by
  rcases f.move_cases advance workers unit with hmove | ⟨stage, hstage, -, hmove⟩
  · rw [hmove]
  · rw [hmove]
    exact Table.keys_set_of_get? hstage

theorem keys_store_move (f : Floor ι σ) (unit : ι) :
    (f.move advance workers unit).progress.store.keys = f.progress.store.keys := by
  rcases f.move_cases advance workers unit with hmove | ⟨stage, -, -, hmove⟩
  · rw [hmove]
  · rw [hmove]
    exact Progress.keys_move

/-! ### Runs -/

/-- What every move keeps, a run keeps. -/
theorem run_keeps {P : Floor ι σ → Prop}
    (hmove : ∀ f unit, P f → P (f.move advance workers unit)) (h : P f) (schedule : List ι) :
    P (f.run advance workers schedule) := by
  induction schedule generalizing f with
  | nil => exact h
  | cons unit schedule ih => exact ih (hmove f unit h)

theorem run_append (f : Floor ι σ) (schedule more : List ι) :
    f.run advance workers (schedule ++ more) =
      (f.run advance workers schedule).run advance workers more :=
  List.foldl_append

omit [DecidableEq ι] in
theorem done_iff (h : f.Counts) : f.Done ↔ ∀ stage ∈ f.stages.values, stage.isOpen = false := by
  rw [Done, Latch.wait?, show f.progress.latch = _ from h]
  by_cases hzero : f.stages.values.countP Stage.isOpen = 0
  · rw [if_pos hzero]
    simpa using hzero
  · rw [if_neg hzero]
    simpa using hzero

omit [DecidableEq ι] in
/-- As long as the round is not over some task can move: one that a worker has, or if there
are none the next one in the queue. -/
theorem exists_canMove (hworkers : 0 < workers) (hopen : ∃ stage ∈ f.stages.values, stage.isOpen) :
    ∃ stage ∈ f.stages.values, f.canMove workers stage = true := by
  by_cases hbusy : ∃ stage ∈ f.stages.values, stage.isBusy = true
  · obtain ⟨stage, hstage, hbusy⟩ := hbusy
    refine ⟨stage, hstage, ?_⟩
    cases stage <;> first | rfl | cases hbusy
  · obtain ⟨stage, hstage, hopen⟩ := hopen
    have hfree : f.busy = 0 :=
      List.countP_eq_zero.mpr fun stage hstage hb => hbusy ⟨stage, hstage, hb⟩
    refine ⟨stage, hstage, ?_⟩
    cases stage with
    | queued => exact decide_eq_true (hfree ▸ hworkers)
    | counted => cases hopen
    | _ => rfl

/-- **A round never gets stuck**: from any moment on there are moves that bring it to its end. -/
theorem exists_done (advance : σ → σ × Outcome) (hworkers : 0 < workers)
    (hnodup : f.stages.keys.Nodup) (h : f.Counts) :
    ∃ more, (f.run advance workers more).Done := by
  induction hn : (f.stages.values.map Stage.toGo).sum using Nat.strongRecOn generalizing f with
  | ind n ih =>
    by_cases hdone : f.Done
    · exact ⟨[], hdone⟩
    · have hopen : ∃ stage ∈ f.stages.values, stage.isOpen = true := by
        simpa [done_iff h] using hdone
      obtain ⟨stage, hmem, hcan⟩ := exists_canMove hworkers hopen
      obtain ⟨⟨unit, stage⟩, hentry, rfl⟩ := List.mem_map.mp hmem
      have hstage := Table.get?_of_mem hnodup hentry
      have hless : ((f.move advance workers unit).stages.values.map Stage.toGo).sum < n := by
        have hsum := Table.sum_values_set (a := (f.progress.move advance unit stage).2)
          Stage.toGo hstage
        have htoGo := toGo_move advance unit hcan
        rw [move_of_get? advance hstage hcan, ← hn]
        simp only at htoGo ⊢
        omega
      obtain ⟨more, hmore⟩ := ih _ hless (by rwa [keys_stages_move]) (h.move unit) rfl
      exact ⟨unit :: more, hmore⟩

/-- At the end of a round every unit is where its task leads, and what came of each task has
been noted once. -/
theorem Heads.done (hnodup : f.stages.keys.Nodup) (h : f.Heads advance result) (ht : f.Tells)
    (hc : f.Counts) (hdone : f.Done) :
    (∀ v, f.progress.store.get? v = (result v).1) ∧
    f.progress.halted.Perm (f.stages.keys.filter fun v => (result v).2 = .halted) ∧
    f.progress.failures.Perm
      (f.stages.keys.filterMap fun v => (result v).2.cause?.map (TaskFailure.mk v)) := by
  have hover (v : ι) (hv : v ∈ f.stages.keys) :
      f.told? v = some (result v).2 ∧ f.progress.store.get? v = (result v).1 := by
    obtain ⟨stage, hstage⟩ := Table.mem_keys_iff.mp hv
    have hleads := h.leads v stage hstage
    have hopen : stage.isOpen = false :=
      (done_iff hc).mp hdone stage (List.mem_map_of_mem (Table.mem_of_get? hstage))
    cases stage with
    | counted outcome =>
      rw [told?, hstage, ← show _ = result v from hleads]
      exact ⟨rfl, rfl⟩
    | _ => cases hopen
  have hnone (v : ι) (hv : v ∉ f.stages.keys) : f.told? v = none := by
    rw [told?, Table.get?_eq_none_iff.mpr hv, Option.bind_none]
  refine ⟨fun v => ?_, List.perm_iff_count.mpr fun v => ?_, List.perm_iff_count.mpr fun e => ?_⟩
  · by_cases hv : v ∈ f.stages.keys
    · exact (hover v hv).2
    · exact h.others v (Table.get?_eq_none_iff.mpr hv)
  · rw [ht.halted, (hnodup.filter _).count]
    simp only [List.mem_filter]
    by_cases hv : v ∈ f.stages.keys
    · simp [(hover v hv).1, hv]
    · simp [hnone v hv, hv]
  · obtain ⟨v, cause⟩ := e
    have hinj : ∀ a b e, e ∈ (result a).2.cause?.map (TaskFailure.mk a) →
        e ∈ (result b).2.cause?.map (TaskFailure.mk b) → a = b := by
      intro a b e ha hb
      obtain ⟨c, -, rfl⟩ := Option.map_eq_some_iff.mp ha
      obtain ⟨c', -, heq⟩ := Option.map_eq_some_iff.mp hb
      exact (TaskFailure.mk.inj heq).1.symm
    have hmem : (⟨v, cause⟩ : TaskFailure ι) ∈
        (f.stages.keys.filterMap fun v => (result v).2.cause?.map (TaskFailure.mk v)) ↔
          v ∈ f.stages.keys ∧ (result v).2.cause? = some cause := by
      simp [List.mem_filterMap]
    rw [ht.failures, (hnodup.filterMap hinj).count]
    simp only [hmem]
    by_cases hv : v ∈ f.stages.keys
    · simp [(hover v hv).1, hv]
    · simp [hnone v hv, hv]

end Floor
end

end Rewind
