import Rewind.History.Recorder

/-! Simulations: a world and the behaviors that move it on.

A step runs the behaviors one after the other at one cycle. Each sees what the ones
before it did, and what it did stays done even if the step fails. The cycle moves on
when all have run; a behavior that wants the simulation to stop does not keep the
others from running.

Cycles are counted in a word, and the one after the last is the first again. Rolling
back brings the tree and the cycle back, and not what behaviors keep for themselves. -/

namespace Rewind

inductive StepError where
  | behavior (name : String) (cycle : UInt64) (reason : String)
  | message (text : String)
deriving DecidableEq, Inhabited

def StepError.text : StepError → String
  | behavior name cycle reason =>
    "behavior `" ++ name ++ "` failed at cycle " ++ toString cycle ++ ": " ++ reason
  | message text => text

/-- How a step, or the part that one behavior has in it, came out. -/
inductive Outcome where
  | running
  /-- Done, and wants no further steps. -/
  | halted
  | failed (e : StepError)
  | panicked (text : String)
deriving DecidableEq, Inhabited

/-! ### Behaviors -/

/-- What a behavior is handed at a cycle. -/
structure CycleContext where
  context : Context
  cycle : UInt64
  root : Entity

/-- A behavior may keep a state of its own from one cycle to the next. Whatever it keeps has come
of what it was handed, so what it does is a function of that and of what it is handed now; one
that is given by the state it keeps is a `machine`. -/
structure Behavior where
  name : String
  /-- What it was handed so far, the newest first. -/
  handed : List CycleContext
  /-- The tree that it leaves, and how its part in the step came out. -/
  act : List CycleContext → CycleContext → Entity × Outcome

namespace Behavior

/-- Does the same whatever it was handed before. -/
def plain (name : String) (act : CycleContext → Entity × Outcome) : Behavior :=
  { name, handed := [], act := fun _ => act }

section
variable {κ : Type}

/-- The state of a machine after what it was handed. -/
def stateAfter (start : κ) (step : κ → CycleContext → κ × Entity × Outcome)
    (handed : List CycleContext) : κ :=
  handed.foldr (fun now state => (step state now).1) start

/-- Keeps a state of some type. -/
def machine (name : String) (start : κ) (step : κ → CycleContext → κ × Entity × Outcome) :
    Behavior :=
  { name, handed := [], act := fun handed now => (step (stateAfter start step handed) now).2 }

end

/-- What it does when it is handed something, and what it is after that. -/
def onCycle (b : Behavior) (now : CycleContext) : Behavior × Entity × Outcome :=
  ({ b with handed := now :: b.handed }, b.act b.handed now)

end Behavior

/-! ### Simulations -/

structure Simulation extends World where
  name : String
  behaviors : List Behavior

namespace Simulation

/-- A simulation of an empty tree at cycle zero. -/
def new (name : String) (context : Context) : Simulation :=
  { name, context, root := .newRoot, cycle := 0, history := none, behaviors := [] }

/-- Runs behaviors to the first that fails. A plain message is put together with the
name of its behavior. -/
def runBehaviors (c : Context) (cycle : UInt64) :
    List Behavior → Entity → List Behavior × Entity × Outcome
  | [], root => ([], root, .running)
  | b :: bs, root =>
    match b.onCycle ⟨c, cycle, root⟩ with
    | (b, root, .running) =>
      let (bs, root, outcome) := runBehaviors c cycle bs root
      (b :: bs, root, outcome)
    | (b, root, .halted) =>
      match runBehaviors c cycle bs root with
      | (bs, root, .running) => (b :: bs, root, .halted)
      | (bs, root, outcome) => (b :: bs, root, outcome)
    | (b, root, .failed (.message reason)) =>
      (b :: bs, root, .failed (.behavior b.name cycle reason))
    | (b, root, outcome) => (b :: bs, root, outcome)

/-- One cycle. -/
def step (s : Simulation) : Simulation × Outcome :=
  match runBehaviors s.context s.cycle s.behaviors s.root with
  | (behaviors, root, .running) => ({ s with behaviors, root, cycle := s.cycle + 1 }, .running)
  | (behaviors, root, .halted) => ({ s with behaviors, root, cycle := s.cycle + 1 }, .halted)
  | (behaviors, root, outcome) => ({ s with behaviors, root }, outcome)

/-- Records the present. -/
def record (s : Simulation) (r : Recorder) : Except HistoryError Simulation := do
  let w ← r.record s.toWorld
  .ok { s with toWorld := w }

/-- Brings the most recent past back. -/
def restore (s : Simulation) (r : Recorder) : Except HistoryError (Simulation × Restored) := do
  let (w, restored) ← r.restore s.toWorld
  .ok ({ s with toWorld := w }, restored)

end Simulation
end Rewind
