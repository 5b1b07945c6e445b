import Rewind.Proofs.Controller.Orders

/-! What can become of a controller.

Besides the calls there are the round that is interrupted, the end of service, and whoever has got
hold of a unit and changes it (`Controller.Reachable`). All of these keep what rounds and rollbacks
rely on (`Controller.Reachable.sound`): the units are told apart, there is a worker, and a
controller that is not disposed is in service. -/

namespace Rewind

variable {ι σ : Type} [DecidableEq ι] {advance : σ → σ × Outcome}

/-! ### Stores of interrupted rounds -/

theorem keys_repeated_advanceIn (target : ι) (n : Nat) (store : Table ι σ) (last : Outcome) :
    (repeated (advanceIn advance · target) n store last).1.keys = store.keys := by
  induction n generalizing store last with
  | zero => rfl
  | succ n ih =>
    rw [repeated]
    split
    · exact (ih _ _).trans keys_advanceIn
    · exact keys_advanceIn

/-- Tasks add no unit to the store, and take none out of it. -/
theorem keys_runTasks (p : Progress ι σ) (entries : List (ι × Task ι)) :
    (runTasks advance false p entries).store.keys = p.store.keys := by
  induction entries generalizing p with
  | nil => rfl
  | cons e entries ih =>
    have hrun : (p.run advance false e).store.keys = p.store.keys := by
      rw [show e = (e.1, e.2) from rfl, p.run_eq_tell]
      exact keys_repeated_advanceIn _ _ _ _
    exact (ih _).trans hrun

namespace Controller

/-- Whoever has got hold of a unit may change it. -/
def editUnit (c : Controller) (unit : UnitId) (f : Simulation → Simulation) : Controller :=
  { c with units := c.units.update unit f }

/-- What calls along any plan, whatever comes of them, make of a controller, and all that can
happen to it besides. -/
inductive Reachable (settings : Settings) (formats : FormatTable) : Controller → Prop
  | start : Reachable settings formats (.ofSettings settings formats)
  | call {c : Controller} (h : Reachable settings formats c) (plan : Plan) (call : Call) :
    Reachable settings formats (c.callAlong plan call)
  | interruptedStep {c : Controller} (h : Reachable settings formats c) (gates : List UnitId) :
    Reachable settings formats (c.interruptedStep gates).controller
  | editUnit {c : Controller} (h : Reachable settings formats c) (unit : UnitId)
    (f : Simulation → Simulation) : Reachable settings formats (c.editUnit unit f)
  | dispose {c : Controller} (h : Reachable settings formats c) :
    Reachable settings formats c.dispose
  | settle {c : Controller} (h : Reachable settings formats c) : Reachable settings formats c.settle

/-- An interrupted round changes units, and nothing else. -/
theorem exists_interruptedStep {c : Controller} (h : c.scheduler.disposed = false)
    (gates : List UnitId) : ∃ store : Table UnitId Simulation, store.keys = c.units.keys ∧
      (c.interruptedStep gates).controller =
        { c with units := store, scheduler := { c.scheduler with current := none } } := by
  rw [interruptedStep, Scheduler.interruptRound, if_neg (h ▸ Bool.false_ne_true)]
  refine ⟨_, ?_, rfl⟩
  show (runTasks _ c.scheduler.disposed _ _).store.keys = _
  rw [h, keys_runTasks, keys_runTasks, keys_runTasks]
  rfl

/-- What holds of a controller at any time, in service or not. -/
structure Sound (c : Controller) : Prop where
  nodup : c.units.keys.Nodup
  workers : 0 < c.scheduler.mode.workers
  inService : c.scheduler.disposed = false → c.InService

namespace Sound
variable {c c' : Controller}

theorem of_inService (h : c.InService) (hworkers : 0 < c.scheduler.mode.workers) : c.Sound :=
  ⟨h.nodup, hworkers, fun _ => h⟩

/-- A controller that is not in service and has the workers that it had. -/
theorem of_disposed (h : c.Sound) (hdisposed : c'.scheduler.disposed = true)
    (hmode : c'.scheduler.mode = c.scheduler.mode) (hnodup : c'.units.keys.Nodup) : c'.Sound := by
  refine ⟨hnodup, hmode ▸ h.workers, fun hlive => ?_⟩
  rw [hdisposed] at hlive
  cases hlive

theorem of_rolledBack (h : c.Sound) (hdisposed : c.scheduler.disposed = true) :
    c.rolledBack.scheduler.disposed = true ∧ c.rolledBack.Sound := by
  have hdisposed' : c.rolledBack.scheduler.disposed = true :=
    (Scheduler.disposed_registerAll _).trans hdisposed
  exact ⟨hdisposed', h.of_disposed hdisposed' (Scheduler.mode_registerAll _ _)
    (keys_rolledBack c ▸ h.nodup)⟩

theorem stepBackOnto_of_disposed (h : c.Sound) (hdisposed : c.scheduler.disposed = true)
    (report : StepReport) (n : Nat) : (c.stepBackOnto report n).controller.Sound := by
  induction n generalizing c report with
  | zero => exact h
  | succ n ih =>
    obtain ⟨hdisposed', hsound⟩ := h.of_rolledBack hdisposed
    rw [stepBackOnto_succ h.nodup]
    split
    · exact hsound
    · split
      · exact hsound
      · exact ih hsound hdisposed' _

theorem callAlong_of_disposed (h : c.Sound) (hdisposed : c.scheduler.disposed = true) (plan : Plan)
    (call : Call) : (c.callAlong plan call).Sound := by
  cases call with
  | add s =>
    show (c.call (.add s)).Sound
    rw [Controller.call]
    cases hadd : c.add s with
    | error e => exact h
    | ok p =>
      obtain ⟨t, -, rfl⟩ := add_eq_ok hadd
      exact h.of_disposed hdisposed rfl (Table.nodup_keys_set h.nodup)
  | remove unit => exact h.of_disposed hdisposed rfl (Table.nodup_keys_erase h.nodup)
  | step n =>
    cases n with
    | zero => exact h
    | succ n =>
      rw [callAlong, stepOntoAlong, Scheduler.runRoundAlong_of_disposed hdisposed]
      exact h
  | stepBack n => exact h.stepBackOnto_of_disposed hdisposed .empty n
  | recordNow =>
    have hkeys : c.recorded.units.keys = c.units.keys := Team.keys_sweep _ _
    have hrecorded : c.recorded.Sound := h.of_disposed hdisposed rfl (hkeys ▸ h.nodup)
    show c.recordNow.controller.Sound
    rw [recordNow, recordEach_keys h.nodup]
    cases c.recordPass.result <;> exact hrecorded
  | restoreNow =>
    show c.restoreNow.controller.Sound
    rw [restoreNow_eq h.nodup]
    exact (h.of_rolledBack hdisposed).2

theorem callAlong (h : c.Sound) (plan : Plan) (call : Call) : (c.callAlong plan call).Sound := by
  cases hdisposed : c.scheduler.disposed with
  | true => exact h.callAlong_of_disposed hdisposed plan call
  | false =>
    have hservice := h.inService hdisposed
    rw [(hservice.callAlong_eq h.workers plan call).1]
    exact .of_inService (hservice.lives_call call).inService
      (hservice.mode_call call ▸ h.workers)

/-- Where the units have changed, and nothing else. -/
theorem of_keys (h : c.Sound) {units : Table UnitId Simulation} {current : Option Latch}
    (hkeys : units.keys = c.units.keys) :
    { c with units, scheduler := { c.scheduler with current } }.Sound := by
  refine ⟨hkeys ▸ h.nodup, h.workers, fun hlive => ?_⟩
  obtain ⟨hlive, ⟨htasks, hnodup⟩, -, hheld, hnumbered⟩ := h.inService hlive
  exact ⟨hlive, ⟨htasks, hnodup⟩, hkeys ▸ h.nodup, hkeys ▸ hheld, hkeys ▸ hnumbered⟩

theorem interruptedStep (h : c.Sound) (gates : List UnitId) :
    (c.interruptedStep gates).controller.Sound := by
  cases hdisposed : c.scheduler.disposed with
  | true =>
    rw [Controller.interruptedStep, Scheduler.interruptRound, if_pos hdisposed]
    exact h
  | false =>
    obtain ⟨store, hkeys, hstep⟩ := exists_interruptedStep hdisposed gates
    rw [hstep]
    exact h.of_keys hkeys

theorem editUnit (h : c.Sound) (unit : UnitId) (f : Simulation → Simulation) :
    (c.editUnit unit f).Sound := by
  have hkeys : (c.units.update unit f).keys = c.units.keys := by
    rw [Table.update]
    split
    · next s hs => exact Table.keys_set_of_get? hs
    · rfl
  exact h.of_keys hkeys

theorem settle (h : c.Sound) : c.settle.Sound := by
  have hkeys : c.settle.units.keys = c.units.keys := by
    rw [Table.keys, Controller.settle, List.map_map]
    rfl
  exact h.of_keys hkeys

end Sound

/-- **Whatever happens, a controller stays sound.** -/
theorem Reachable.sound {settings : Settings} {formats : FormatTable} {c : Controller}
    (h : Reachable settings formats c) : c.Sound := by
  induction h with
  | start =>
    exact .of_inService (inService_ofSettings settings formats)
      (ExecutionMode.workers_pos settings.concurrency)
  | call _ plan call ih => exact ih.callAlong plan call
  | interruptedStep _ gates ih => exact ih.interruptedStep gates
  | editUnit _ unit f ih => exact ih.editUnit unit f
  | dispose _ ih => exact ih.of_disposed rfl rfl ih.nodup
  | settle _ ih => exact ih.settle

theorem Reachable.runAlong {settings : Settings} {formats : FormatTable} {c : Controller}
    (h : Reachable settings formats c) (plan : Plan) (calls : List Call) :
    Reachable settings formats (c.runAlong plan calls) := by
  induction calls generalizing c with
  | nil => exact h
  | cons call calls ih => exact ih (h.call plan call)

/-- What calls come to in the order of registration can come about. -/
theorem reachable_run (settings : Settings) (formats : FormatTable) (calls : List Call) :
    Reachable settings formats ((ofSettings settings formats).run calls) := by
  obtain ⟨plan⟩ := (inferInstance : Nonempty Plan)
  rw [← ((inService_ofSettings settings formats).runAlong_eq
    (ExecutionMode.workers_pos settings.concurrency) plan calls).1]
  exact Reachable.start.runAlong plan calls

end Controller
end Rewind
