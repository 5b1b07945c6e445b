import Rewind.Scheduler.Latch
import Rewind.Simulation.Basic

/-! The scheduler: rounds of tasks, one task for every registered unit.

A round runs every registered task once. A task that fails does not fail the round:
its cause is reported and the other tasks run on. Tasks of a round may run in any
order, and `runTasks` takes them in the order it is given; `runRound` gives it the
order of registration.

A wait can be interrupted. The round then counts for nothing, neither its number nor
the units that halted in it, but its tasks go on to their ends. -/

namespace Rewind

/-- Why a task came to nothing. -/
inductive FailureCause where
  | error (e : StepError)
  | panic (text : String)
  /-- The scheduler was disposed before the task's turn came. -/
  | cancelled
deriving DecidableEq, Inhabited

def FailureCause.text : FailureCause → String
  | error e => e.text
  | panic text => "panicked: " ++ text
  | cancelled => "cancelled"

structure TaskFailure (ι : Type) where
  unit : ι
  cause : FailureCause
deriving DecidableEq, Inhabited

/-! ### Workers -/

inductive ExecutionMode where
  /-- One worker of its own. -/
  | single
  | pool (workers : Nat)
deriving DecidableEq, Inhabited

namespace ExecutionMode

/-- Zero asks for the single worker, and less than zero for a pool of one. -/
def ofConcurrency (concurrency : Int) : ExecutionMode :=
  if concurrency = 0 then single
  else if concurrency < 0 then pool 1
  else pool concurrency.toNat

def workers : ExecutionMode → Nat
  | single => 1
  | pool n => n

/-- What is shown as active while so many workers have a task. -/
def active (busy : Nat) : ExecutionMode → Nat
  | single => 1
  | pool n => min busy n

end ExecutionMode

/-! ### Tasks -/

/-- Advances a unit so many times, up to the first that fails. -/
structure Task (ι : Type) where
  target : ι
  times : Nat
deriving DecidableEq, Inhabited

/-- What every unit does unless told otherwise: one step of its own. -/
def Task.advance {ι : Type} (unit : ι) : Task ι := { target := unit, times := 1 }

section
variable {ι σ : Type} [DecidableEq ι]

/-- Advances one unit of a store. -/
def advanceIn (advance : σ → σ × Outcome) (store : Table ι σ) (unit : ι) : Table ι σ × Outcome :=
  match store.get? unit with
  | none => (store, .running)
  | some s => (store.set unit (advance s).1, (advance s).2)

/-- Advances so many times; `last` is how the time before came out. -/
def advanceTimes (advance : σ → σ × Outcome) (unit : ι) :
    Nat → Table ι σ → Outcome → Table ι σ × Outcome
  | 0, store, last => (store, last)
  | n + 1, store, _ =>
    match advanceIn advance store unit with
    | (store, .running) => advanceTimes advance unit n store .running
    | (store, .halted) => advanceTimes advance unit n store .halted
    | (store, outcome) => (store, outcome)

/-- Runs a task; a task of no times counts as running. -/
def Task.run (advance : σ → σ × Outcome) (t : Task ι) (store : Table ι σ) : Table ι σ × Outcome :=
  advanceTimes advance t.target t.times store .running

/-- What the tasks of a round have come to so far. -/
structure Progress (ι σ : Type) where
  store : Table ι σ
  halted : List ι
  failures : List (TaskFailure ι)
  latch : Latch

/-- Runs one task of a round, unless the scheduler has been disposed. -/
def Progress.run (advance : σ → σ × Outcome) (disposed : Bool) (p : Progress ι σ)
    (entry : ι × Task ι) : Progress ι σ :=
  let report (store : Table ι σ) (cause : FailureCause) : Progress ι σ :=
    { p with
      store
      failures := p.failures ++ [⟨entry.1, cause⟩]
      latch := p.latch.countDown }
  if disposed then report p.store .cancelled
  else
    match entry.2.run advance p.store with
    | (store, .running) => { p with store, latch := p.latch.countDown }
    | (store, .halted) =>
      { p with store, halted := p.halted ++ [entry.1], latch := p.latch.countDown }
    | (store, .failed e) => report store (.error e)
    | (store, .panicked text) => report store (.panic text)

/-- Runs tasks in the order given. -/
def runTasks (advance : σ → σ × Outcome) (disposed : Bool) (p : Progress ι σ)
    (entries : List (ι × Task ι)) : Progress ι σ :=
  entries.foldl (Progress.run advance disposed) p

end

/-! ### The scheduler -/

inductive SchedulerError where
  | disposed
deriving DecidableEq

def SchedulerError.message : SchedulerError → String
  | disposed => "scheduler has been disposed"

structure RoundReport (ι : Type) where
  /-- Completed rounds are numbered from one. -/
  round : Nat
  submitted : Nat
  /-- The units whose task halted. -/
  halted : List ι
deriving DecidableEq, Inhabited

inductive RoundOutcome (ι : Type) where
  | completed (report : RoundReport ι)
  | interrupted (pending : Nat)
deriving DecidableEq, Inhabited

structure Scheduler (ι : Type) where
  mode : ExecutionMode
  table : Table ι (Task ι)
  disposed : Bool
  /-- How many rounds have been completed. -/
  rounds : Nat
  /-- The latch of the round in progress. -/
  current : Option Latch

namespace Scheduler

variable {ι σ : Type} [DecidableEq ι]

def new (concurrency : Int) : Scheduler ι :=
  { mode := .ofConcurrency concurrency
    table := .empty
    disposed := false
    rounds := 0
    current := none }

/-- Registers a task for a unit, in place of the one it had. -/
def registerTask (s : Scheduler ι) (unit : ι) (t : Task ι) : Scheduler ι :=
  { s with table := s.table.set unit t }

/-- Registers a unit with the task to take one step. -/
def register (s : Scheduler ι) (unit : ι) : Scheduler ι := s.registerTask unit (.advance unit)

def unregister (s : Scheduler ι) (unit : ι) : Scheduler ι :=
  { s with table := s.table.erase unit }

def isRegistered (s : Scheduler ι) (unit : ι) : Bool := s.table.contains unit

def units (s : Scheduler ι) : List ι := s.table.keys

def hasUnits (s : Scheduler ι) : Bool := !s.table.isEmpty

/-- Between rounds no worker has a task. -/
def activeWorkers (s : Scheduler ι) : Nat := s.mode.active 0

/-- Ends the service: no unit stays registered and no round runs any more. -/
def dispose (s : Scheduler ι) : Scheduler ι := { s with table := .empty, disposed := true }

/-- Interrupts the wait for the round in progress, and says whether there was one. -/
def interrupt (s : Scheduler ι) : Scheduler ι × Bool :=
  match s.current with
  | some l => ({ s with current := some l.interrupt }, true)
  | none => (s, false)

/-- The progress of a round that has just begun. -/
def begin (s : Scheduler ι) (store : Table ι σ) : Progress ι σ :=
  { store, halted := [], failures := [], latch := .new s.table.size }

/-- A scheduler after a round that was waited for to the end. -/
def complete (s : Scheduler ι) : Scheduler ι := { s with rounds := s.rounds + 1, current := none }

/-- Runs all tasks in the order given, which is some order of the table, and waits
for them. -/
def runRoundIn (s : Scheduler ι) (advance : σ → σ × Outcome) (order : List (ι × Task ι))
    (store : Table ι σ) :
    Except SchedulerError (Scheduler ι × Progress ι σ × RoundReport ι) :=
  if s.disposed then .error .disposed
  else
    let p := runTasks advance false (s.begin store) order
    .ok (s.complete, p,
      { round := s.rounds + 1, submitted := s.table.size, halted := p.halted })

/-- Runs all tasks in the order of registration. -/
def runRound (s : Scheduler ι) (advance : σ → σ × Outcome) (store : Table ι σ) :
    Except SchedulerError (Scheduler ι × Progress ι σ × RoundReport ι) :=
  s.runRoundIn advance s.table.entries store

end Scheduler

/-! ### Rounds that are held up -/

/-- The tasks of a round at a moment when some are held up. -/
structure Standstill (ι : Type) where
  ended : List (ι × Task ι)
  /-- Started and held up, each by a worker of its own. -/
  held : List (ι × Task ι)
  /-- Waiting for a worker. -/
  queued : List (ι × Task ι)

namespace Standstill

variable {ι : Type} [DecidableEq ι]

/-- Whether a task is held up when units of `gates` are: it is as soon as it has to
advance one of them, whatever unit it is registered for. -/
def holds (gates : List ι) (t : Task ι) : Bool := decide (0 < t.times ∧ t.target ∈ gates)

/-- How far tasks get with so many free workers while units of `gates` are held up. -/
def reach (gates : List ι) : Nat → List (ι × Task ι) → Standstill ι
  | _, [] => ⟨[], [], []⟩
  | 0, entries => ⟨[], [], entries⟩
  | free + 1, e :: entries =>
    if holds gates e.2 then
      let s := reach gates free entries
      { s with held := e :: s.held }
    else
      let s := reach gates (free + 1) entries
      { s with ended := e :: s.ended }

end Standstill

namespace Scheduler

variable {ι σ : Type} [DecidableEq ι]

/-- What is seen of a round whose wait was interrupted at a standstill. -/
structure Interrupted (ι σ : Type) where
  scheduler : Scheduler ι
  /-- After the tasks of the round have all come to their ends. -/
  progress : Progress ι σ
  delivered : Bool
  /-- What the wait came to, if it came to anything. -/
  wait : Option Wait
  /-- The workers that had a task at the standstill. -/
  active : Nat

/-- A round that is interrupted when the units of `gates` are held up and all tasks
that could run without them are over. If asked to, the scheduler is then disposed.
After that the tasks held up go on, and so do those that still queue. -/
def interruptRound (s : Scheduler ι) (advance : σ → σ × Outcome) (gates : List ι)
    (disposeThen : Bool) (store : Table ι σ) : Except SchedulerError (Interrupted ι σ) :=
  if s.disposed then .error .disposed
  else
    let still := Standstill.reach gates s.mode.workers s.table.entries
    let p := runTasks advance false (s.begin store) still.ended
    let (waiting, delivered) := { s with current := some p.latch }.interrupt
    let wait := waiting.current.bind Latch.wait?
    let s := { waiting with current := none }
    let s := if disposeThen then s.dispose else s
    let p := runTasks advance false p still.held
    let p := runTasks advance s.disposed p still.queued
    .ok
      { scheduler := s
        progress := p
        delivered
        wait
        active := s.mode.active still.held.length }

end Scheduler
end Rewind
