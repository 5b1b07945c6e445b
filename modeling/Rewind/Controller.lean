import Rewind.Scheduler.Basic
import Rewind.Settings.Basic

/-! The controller: simulations that move forward and back together.

A step is a round of the scheduler; units that halt in it leave the rounds, and then,
if recording is on, the state of every unit is recorded. Rolling back restores the
units one after the other, and a unit that was restored takes part in rounds again.
An error ends a call where it occurs, and what was done up to there stays done; so
every operation answers with the controller as it is then. -/

namespace Rewind

/-- The number that tells a unit from all others. -/
structure UnitId where
  number : Nat
deriving DecidableEq, Inhabited

def UnitId.text (u : UnitId) : String := "unit#" ++ toString u.number

inductive ControllerError where
  | scheduler (e : SchedulerError)
  | history (unit : UnitId) (e : HistoryError)
  /-- The thread that did the work panicked. -/
  | worker (text : String)
deriving DecidableEq

/-- A format that breaks off takes its thread with it. -/
def ControllerError.ofHistory (unit : UnitId) : HistoryError → ControllerError
  | .encode (.panicked text) => worker text
  | e => history unit e

structure StepReport where
  rounds : Nat
  /-- The units that halted, round after round. -/
  halted : List UnitId
  interrupted : Bool
  /-- The units that were restored, round after round, and the cycles they went to. -/
  restored : List (UnitId × UInt64)
deriving DecidableEq, Inhabited

def StepReport.empty : StepReport :=
  { rounds := 0, halted := [], interrupted := false, restored := [] }

structure Controller where
  scheduler : Scheduler UnitId
  units : Table UnitId Simulation
  recorder : Recorder
  /-- Whether units are recorded when added and after every round. -/
  recording : Bool
  nextId : Nat

/-- A controller after an operation, the failures of tasks during it, and its answer. -/
structure Answer (α : Type) where
  controller : Controller
  failures : List (TaskFailure UnitId)
  result : Except ControllerError α

namespace Controller

def ofSettings (s : Settings) (formats : FormatTable) : Controller :=
  { scheduler := .new s.concurrency
    units := .empty
    recorder :=
      { format := formats.ofName s.format
        level := if s.history.compress then some (clampLevel s.history.level) else none
        maxDepth := s.history.maxDepth }
    recording := s.history.enabled
    nextId := 1 }

/-- Adds a simulation and schedules it. If recording is on it is recorded first, so
that its first step can be taken back; if that fails it is not added. -/
def add (c : Controller) (s : Simulation) : Except ControllerError (Controller × UnitId) :=
  let unit : UnitId := ⟨c.nextId⟩
  let recorded := if c.recording then s.record c.recorder else .ok s
  match recorded with
  | .error e => .error (.ofHistory unit e)
  | .ok s =>
    .ok ({ c with
      scheduler := c.scheduler.register unit
      units := c.units.set unit s
      nextId := c.nextId + 1 }, unit)

/-- Takes a simulation out and hands it back. -/
def remove (c : Controller) (unit : UnitId) : Controller × Option Simulation :=
  ({ c with scheduler := c.scheduler.unregister unit, units := c.units.erase unit },
    c.units.get? unit)

/-- The units still taking part in rounds. -/
def scheduled (c : Controller) : List UnitId := c.scheduler.units

/-! ### Recording and restoring -/

/-- Records units one after the other up to the first that cannot be recorded. -/
def recordEach (c : Controller) : List UnitId → Controller × Except ControllerError Unit
  | [] => (c, .ok ())
  | unit :: rest =>
    match c.units.get? unit with
    | none => c.recordEach rest
    | some s =>
      match s.record c.recorder with
      | .error e => (c, .error (.ofHistory unit e))
      | .ok s => { c with units := c.units.set unit s }.recordEach rest

/-- Records every unit; answers how many there are. -/
def recordNow (c : Controller) : Answer Nat :=
  match c.recordEach c.units.keys with
  | (c, .ok ()) => ⟨c, [], .ok c.units.size⟩
  | (c, .error e) => ⟨c, [], .error e⟩

/-- Restores one unit, which is scheduled again if it went back. -/
def restoreUnit (c : Controller) (unit : UnitId) (s : Simulation) :
    Except ControllerError (Controller × Restored) :=
  match s.restore c.recorder with
  | .error e => .error (.ofHistory unit e)
  | .ok (s, .nothing) => .ok ({ c with units := c.units.set unit s }, .nothing)
  | .ok (s, .to cycle) =>
    .ok ({ c with units := c.units.set unit s, scheduler := c.scheduler.register unit }, .to cycle)

/-- Restores units one after the other; those without a history come to nothing. -/
def restoreEach (c : Controller) (done : List (UnitId × Restored)) :
    List UnitId → Answer (List (UnitId × Restored))
  | [] => ⟨c, [], .ok done⟩
  | unit :: rest =>
    match c.units.get? unit with
    | none => c.restoreEach done rest
    | some s =>
      match c.restoreUnit unit s with
      | .error e => ⟨c, [], .error e⟩
      | .ok (c, r) => c.restoreEach (done ++ [(unit, r)]) rest

/-- Restores every unit once. -/
def restoreNow (c : Controller) : Answer (List (UnitId × Restored)) :=
  c.restoreEach [] c.units.keys

/-! ### Stepping forward -/

/-- The controller after a completed round, with the units that halted in it out of
the rounds to come. -/
def afterRound (c : Controller) (s : Scheduler UnitId) (p : Progress UnitId Simulation) :
    Controller :=
  { c with scheduler := p.halted.foldl Scheduler.unregister s, units := p.store }

def stepOnto (c : Controller) (report : StepReport) (failures : List (TaskFailure UnitId)) :
    Nat → Answer StepReport
  | 0 => ⟨c, failures, .ok report⟩
  | n + 1 =>
    match c.scheduler.runRound Simulation.step c.units with
    | .error e => ⟨c, failures, .error (.scheduler e)⟩
    | .ok (s, p, _) =>
      let c := c.afterRound s p
      let failures := failures ++ p.failures
      let report := { report with rounds := report.rounds + 1, halted := report.halted ++ p.halted }
      if c.recording then
        match c.recordEach c.units.keys with
        | (c, .ok ()) => c.stepOnto report failures n
        | (c, .error e) => ⟨c, failures, .error e⟩
      else c.stepOnto report failures n

/-- Runs so many rounds. -/
def step (c : Controller) (n : Nat) : Answer StepReport := c.stepOnto .empty [] n

/-- Starts stepping and interrupts the first round while the steps of `gates` are held
up; then lets them go on. -/
def interruptedStep (c : Controller) (gates : List UnitId) : Answer StepReport :=
  match c.scheduler.interruptRound Simulation.step gates false c.units with
  | .error e => ⟨c, [], .error (.scheduler e)⟩
  | .ok i =>
    ⟨{ c with scheduler := i.scheduler, units := i.progress.store }, i.progress.failures,
      .ok { StepReport.empty with interrupted := true }⟩

/-! ### Stepping back -/

/-- One round of restoring, over the units that have a history. -/
def backEach (c : Controller) (done : List (UnitId × UInt64)) :
    List UnitId → Answer (List (UnitId × UInt64))
  | [] => ⟨c, [], .ok done⟩
  | unit :: rest =>
    match c.units.get? unit with
    | none => c.backEach done rest
    | some s =>
      if s.canStepBack then
        match c.restoreUnit unit s with
        | .error e => ⟨c, [], .error e⟩
        | .ok (c, .to cycle) => c.backEach (done ++ [(unit, cycle)]) rest
        | .ok (c, .nothing) => c.backEach done rest
      else c.backEach done rest

def stepBackOnto (c : Controller) (report : StepReport) : Nat → Answer StepReport
  | 0 => ⟨c, [], .ok report⟩
  | n + 1 =>
    match c.backEach [] c.units.keys with
    | ⟨c, _, .error e⟩ => ⟨c, [], .error e⟩
    | ⟨c, _, .ok []⟩ => ⟨c, [], .ok report⟩
    | ⟨c, _, .ok restored⟩ =>
      c.stepBackOnto
        { report with rounds := report.rounds + 1, restored := report.restored ++ restored } n

/-- Rolls every unit back so many times, or until no unit can go back. -/
def stepBack (c : Controller) (n : Nat) : Answer StepReport := c.stepBackOnto .empty n

/-- Ends the service of the scheduler. The units stay. -/
def dispose (c : Controller) : Controller := { c with scheduler := c.scheduler.dispose }

/-- Lets all compression end. -/
def settle (c : Controller) : Controller :=
  { c with units := ⟨c.units.entries.map fun u => (u.1, { u.2 with toWorld := u.2.settle })⟩ }

end Controller
end Rewind
