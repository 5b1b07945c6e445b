import Rewind.Proofs.Controller.Sweep

/-! One round of steps, whatever comes of them.

The tasks of a round have their units to themselves: a round steps every unit on the
schedule from the state that it had before the round, and no other
(`Progress.Advanced`, `runTasks_advance`). Units whose step halts leave the schedule, and
those whose step fails stay on it (`Controller.InService.scheduled_advanced`). Rounds follow
one another up to the first whose recording fails (`Controller.stepOnto_succ`). -/

namespace Rewind

/-! ### The schedule -/

/-- Every registered unit has the task to take one step. -/
structure Scheduler.Advances (s : Scheduler UnitId) : Prop where
  tasks : ∀ e ∈ s.table.entries, e.2 = .advance e.1
  nodup : s.units.Nodup

namespace Scheduler
variable {s : Scheduler UnitId} {unit : UnitId}

theorem units_register :
    (s.register unit).units = if unit ∈ s.units then s.units else s.units ++ [unit] :=
  Table.keys_set

theorem mem_units_register {v : UnitId} :
    v ∈ (s.register unit).units ↔ v = unit ∨ v ∈ s.units := by
  rw [units_register]
  split
  · next h => exact ⟨.inr, fun hv => hv.elim (fun hv => hv ▸ h) id⟩
  · rw [List.mem_append, List.mem_singleton, or_comm]

theorem mem_units_registerAll {units : List UnitId} {v : UnitId} :
    v ∈ (s.registerAll units).units ↔ v ∈ s.units ∨ v ∈ units := by
  induction units generalizing s with
  | nil => simp [registerAll]
  | cons unit units ih =>
    show v ∈ ((s.register unit).registerAll units).units ↔ _
    rw [ih, mem_units_register, List.mem_cons]
    tauto

theorem disposed_registerAll (units : List UnitId) :
    (s.registerAll units).disposed = s.disposed := by
  induction units generalizing s with
  | nil => rfl
  | cons unit units ih => exact ih

namespace Advances

theorem entries_eq (h : s.Advances) : s.table.entries = s.units.map fun u => (u, .advance u) := by
  rw [units, Table.keys, List.map_map]
  refine (List.map_id' _).symm.trans (List.map_congr_left fun e he => ?_)
  exact Prod.ext rfl (h.tasks e he)

theorem register (h : s.Advances) (unit : UnitId) : (s.register unit).Advances := by
  refine ⟨fun e he => ?_, Table.nodup_keys_set h.nodup⟩
  rcases Table.mem_of_mem_put he with rfl | he
  · rfl
  · exact h.tasks e he

theorem registerAll (h : s.Advances) (units : List UnitId) : (s.registerAll units).Advances := by
  induction units generalizing s with
  | nil => exact h
  | cons unit units ih => exact ih (h.register unit)

theorem unregister (h : s.Advances) (unit : UnitId) : (s.unregister unit).Advances :=
  ⟨fun e he => h.tasks e (Table.drop_sublist.subset he), Table.nodup_keys_erase h.nodup⟩

theorem units_unregister (h : s.Advances) (unit : UnitId) :
    (s.unregister unit).units = s.units.filter fun u => u ≠ unit := by
  show (Table.drop unit s.table.entries).map Prod.fst = _
  rw [Table.drop_eq_filter h.nodup, units, Table.keys, List.filter_map]
  rfl

theorem complete (h : s.Advances) : s.complete.Advances := ⟨h.tasks, h.nodup⟩

/-- Taking units out one after the other. -/
theorem units_foldl_unregister (h : s.Advances) (gone : List UnitId) :
    (gone.foldl Scheduler.unregister s).Advances ∧
      (gone.foldl Scheduler.unregister s).units = s.units.filter fun u => u ∉ gone := by
  rw [foldl_unregister gone h.nodup]
  refine ⟨⟨fun e he => h.tasks e (List.mem_of_mem_filter he), ?_⟩, ?_⟩
  · exact h.nodup.sublist (List.filter_sublist.map _)
  · simp only [units, Table.keys, List.filter_map]
    rfl

end Advances
end Scheduler

/-! ### The tasks of a round -/

/-- How the next step of a unit comes out. -/
def outcomeIn (store : Table UnitId Simulation) (unit : UnitId) : Option Outcome :=
  (store.get? unit).map fun s => s.step.2

/-- What is reported of a step that comes to nothing. -/
def Outcome.failure? (unit : UnitId) : Outcome → Option (TaskFailure UnitId)
  | .failed e => some ⟨unit, .error e⟩
  | .panicked text => some ⟨unit, .panic text⟩
  | _ => none

/-- Each of the units has been stepped once, and no other. -/
structure Progress.Advanced (units : List UnitId) (p q : Progress UnitId Simulation) : Prop where
  store : ∀ v, q.store.get? v = (p.store.get? v).map fun s => if v ∈ units then s.step.1 else s
  keys : q.store.keys = p.store.keys
  halted : q.halted = p.halted ++ units.filter fun u => outcomeIn p.store u = some .halted
  failures : q.failures = p.failures ++
    units.filterMap fun u => (outcomeIn p.store u).bind (Outcome.failure? u)

theorem Progress.run_of_get? {p : Progress UnitId Simulation} {unit : UnitId} {s : Simulation}
    (h : p.store.get? unit = some s) :
    p.run Simulation.step false (unit, .advance unit) =
      { store := p.store.set unit s.step.1
        halted := p.halted ++ if s.step.2 = .halted then [unit] else []
        failures := p.failures ++ (s.step.2.failure? unit).toList
        latch := p.latch.countDown } := by
  simp only [run, Task.run, Task.advance, advanceTimes, advanceIn, h]
  cases hstep : s.step.2 <;> simp [Outcome.failure?]

/-- The tasks of distinct units do not see one another. -/
theorem runTasks_advance {p : Progress UnitId Simulation} {units : List UnitId}
    (hnodup : units.Nodup) (hheld : ∀ u ∈ units, u ∈ p.store.keys) :
    p.Advanced units
      (runTasks Simulation.step false p (units.map fun u => (u, .advance u))) := by
  induction units generalizing p with
  | nil => exact ⟨by simp [runTasks], rfl, by simp [runTasks], by simp [runTasks]⟩
  | cons unit units ih =>
    obtain ⟨hnot, hnodup⟩ := List.nodup_cons.mp hnodup
    obtain ⟨hunit, hheld⟩ := List.forall_mem_cons.mp hheld
    obtain ⟨s, hs⟩ := Table.mem_keys_iff.mp hunit
    have hrun := Progress.run_of_get? hs
    have hkeys : (p.run Simulation.step false (unit, .advance unit)).store.keys = p.store.keys := by
      rw [hrun]
      exact Table.keys_set_of_get? hs
    -- The units to come are as they were.
    have hother : ∀ u ∈ units,
        outcomeIn (p.run Simulation.step false (unit, .advance unit)).store u =
          outcomeIn p.store u := by
      intro u hu
      rw [hrun, outcomeIn, outcomeIn, Table.get?_set_of_ne]
      rintro rfl
      exact hnot hu
    have hrest := ih (p := p.run Simulation.step false (unit, .advance unit)) hnodup
      (by rwa [hkeys])
    have hout : outcomeIn p.store unit = some s.step.2 := by rw [outcomeIn, hs]; rfl
    refine ⟨fun v => ?_, hrest.keys.trans hkeys, ?_, ?_⟩
    · refine (hrest.store v).trans ?_
      rw [hrun, Table.get?_set]
      by_cases hv : unit = v
      · subst hv
        simp [hs, hnot]
      · simp [hv, Ne.symm hv]
    · refine hrest.halted.trans ?_
      rw [List.filter_congr fun u hu => by rw [hother u hu], hrun, List.append_assoc]
      by_cases hhalt : s.step.2 = .halted <;> simp [hout, hhalt]
    · refine hrest.failures.trans ?_
      rw [List.filterMap_congr fun u hu => by rw [hother u hu], hrun, List.append_assoc]
      cases hfail : s.step.2.failure? unit <;> simp [hout, hfail]

/-! ### A round of the controller -/

/-- What operations keep of a controller that is not disposed. -/
structure Controller.InService (c : Controller) : Prop where
  live : c.scheduler.disposed = false
  schedule : c.scheduler.Advances
  nodup : c.units.keys.Nodup
  /-- Only units that the controller holds are on the schedule. -/
  held : ∀ u ∈ c.scheduled, u ∈ c.units.keys
  /-- Numbers are not given out twice. -/
  numbered : ∀ u ∈ c.units.keys, u.number < c.nextId

namespace Controller

/-- The controller after the steps of a round, of which nothing has been recorded yet. -/
def advanced (c : Controller) : Controller :=
  match c.scheduler.runRound Simulation.step c.units with
  | .error _ => c
  | .ok (s, p, _) => c.afterRound s p

/-- The units that halt in the next round. -/
def halting (c : Controller) : List UnitId :=
  c.scheduled.filter fun u => outcomeIn c.units u = some .halted

/-- The failures of the next round. -/
def failing (c : Controller) : List (TaskFailure UnitId) :=
  c.scheduled.filterMap fun u => (outcomeIn c.units u).bind (Outcome.failure? u)

/-- The pass over all units that records each of them. -/
def recordPass (c : Controller) : Sweep Unit := Team.record c.recorder c.units.entries

/-- The controller after that pass. -/
def recorded (c : Controller) : Controller := { c with units := ⟨c.recordPass.team⟩ }

theorem recordEach_keys {c : Controller} (h : c.units.keys.Nodup) :
    c.recordEach c.units.keys = (c.recorded, c.recordPass.result) :=
  recordEach_eq [] rfl h

namespace InService
variable {c : Controller}

theorem runRound (h : c.InService) :
    ∃ p report,
      c.scheduler.runRound Simulation.step c.units = .ok (c.scheduler.complete, p, report) ∧
      (c.scheduler.begin c.units).Advanced c.scheduled p := by
  have hp := runTasks_advance (p := c.scheduler.begin c.units) h.schedule.nodup h.held
  rw [Scheduler.runRound, Scheduler.runRoundIn, h.live, h.schedule.entries_eq]
  exact ⟨_, _, rfl, hp⟩

theorem advanced_eq (h : c.InService) :
    ∃ p, (c.scheduler.begin c.units).Advanced c.scheduled p ∧
      p.halted = c.halting ∧ p.failures = c.failing ∧
      c.advanced = c.afterRound c.scheduler.complete p := by
  obtain ⟨p, report, hround, hp⟩ := h.runRound
  refine ⟨p, hp, hp.halted, hp.failures, ?_⟩
  rw [advanced, hround]

/-- A unit is stepped in a round exactly if it is on the schedule. -/
theorem get?_advanced (h : c.InService) (u : UnitId) :
    c.advanced.units.get? u =
      (c.units.get? u).map fun s => if u ∈ c.scheduled then s.step.1 else s := by
  obtain ⟨p, hp, -, -, hadvanced⟩ := h.advanced_eq
  rw [hadvanced]
  exact hp.store u

/-- A unit is taken off the schedule exactly if its step halts. -/
theorem scheduled_advanced (h : c.InService) :
    c.advanced.scheduled = c.scheduled.filter fun u => outcomeIn c.units u ≠ some .halted := by
  obtain ⟨p, -, hhalted, -, hadvanced⟩ := h.advanced_eq
  have hunits : c.advanced.scheduled = c.scheduled.filter fun u => u ∉ c.halting := by
    rw [hadvanced, scheduled, afterRound, hhalted]
    exact (h.schedule.complete.units_foldl_unregister _).2
  rw [hunits]
  refine List.filter_congr fun u hu => ?_
  simp [halting, hu]

theorem advanced (h : c.InService) : c.advanced.InService := by
  obtain ⟨p, hp, -, -, hadvanced⟩ := h.advanced_eq
  have hkeys : c.advanced.units.keys = c.units.keys := by
    rw [hadvanced]
    exact hp.keys
  refine ⟨?_, ?_, hkeys ▸ h.nodup, fun u hu => ?_, ?_⟩
  · rw [hadvanced, afterRound, Scheduler.foldl_unregister _ h.schedule.complete.nodup]
    exact h.live
  · rw [hadvanced]
    exact (h.schedule.complete.units_foldl_unregister _).1
  · rw [h.scheduled_advanced] at hu
    rw [hkeys]
    exact h.held u (List.mem_of_mem_filter hu)
  · have hnext : c.advanced.nextId = c.nextId := by rw [hadvanced]; rfl
    rw [hkeys, hnext]
    exact h.numbered

theorem recorder_advanced (h : c.InService) : c.advanced.recorder = c.recorder := by
  obtain ⟨p, -, -, -, hadvanced⟩ := h.advanced_eq
  rw [hadvanced]
  rfl

theorem recording_advanced (h : c.InService) : c.advanced.recording = c.recording := by
  obtain ⟨p, -, -, -, hadvanced⟩ := h.advanced_eq
  rw [hadvanced]
  rfl

/-- One round: steps, and then recordings if they are asked for. -/
theorem step_one (h : c.InService) :
    c.step 1 =
      if c.recording then
        ⟨c.advanced.recorded, c.failing, c.advanced.recordPass.result.map fun _ =>
          { StepReport.empty with rounds := 1, halted := c.halting }⟩
      else
        ⟨c.advanced, c.failing,
          .ok { StepReport.empty with rounds := 1, halted := c.halting }⟩ := by
  obtain ⟨p, report, hround, hp⟩ := h.runRound
  have hadvanced : c.afterRound c.scheduler.complete p = c.advanced := by
    rw [Controller.advanced, hround]
  have hhalted : p.halted = c.halting := hp.halted
  have hfailures : p.failures = c.failing := hp.failures
  rw [← h.recording_advanced, step, stepOnto, hround]
  simp only [hadvanced, hhalted, hfailures]
  split
  · rw [recordEach_keys h.advanced.nodup]
    cases c.advanced.recordPass.result <;> rfl
  · rfl

end InService

/-- More rounds go on from the first, unless that ends with an error. -/
theorem stepOnto_succ (c : Controller) (report : StepReport)
    (failures : List (TaskFailure UnitId)) (n : Nat) :
    c.stepOnto report failures (n + 1) =
      match c.step 1 with
      | ⟨c', more, .ok r⟩ => c'.stepOnto
          { report with rounds := report.rounds + 1, halted := report.halted ++ r.halted }
          (failures ++ more) n
      | ⟨c', more, .error e⟩ => ⟨c', failures ++ more, .error e⟩ := by
  rw [step, stepOnto, stepOnto]
  cases hround : c.scheduler.runRound Simulation.step c.units with
  | error e => simp
  | ok q =>
    obtain ⟨s, p, _⟩ := q
    by_cases hrecording : (c.afterRound s p).recording = true
    · simp only [hrecording, if_true]
      rcases (c.afterRound s p).recordEach (c.afterRound s p).units.keys with ⟨c', result⟩
      cases result <;> simp [stepOnto, StepReport.empty]
    · simp [hrecording, stepOnto, StepReport.empty]

end Controller
end Rewind
