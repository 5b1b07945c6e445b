import Rewind.Simulation.Basic

/-! Ready-made behaviors: counting, breeding, linking, and coming to an end in every
way there is. -/

namespace Rewind.Behavior

/-- Adds one to an integer attribute, which counts as zero as long as it is none. -/
def counter (name : String) : Behavior :=
  plain "counter" fun now =>
    let current := ((now.root.get? name).bind Value.asInt?).getD 0
    (now.root.set name (.int (current + 1)), .running)

/-- Spawns a member and notes on it when it was born. -/
def spawn (species : String) : Behavior :=
  plain "spawn" fun now =>
    let born (e : Entity) := e.set "born" (.int now.cycle.toInt64)
    (now.root.withPopulation species fun p => p.spawn.update p.nextIndex born, .running)

/-- Comes out in a given way at one cycle and does nothing at others. -/
def once (name : String) (when : UInt64) (outcome : Outcome) : Behavior :=
  plain name fun now => (now.root, if now.cycle = when then outcome else .running)

/-- Fails at a cycle. -/
def failAt (cycle : UInt64) : Behavior :=
  once "failing" cycle (.failed (.message "scripted failure"))

/-- Fails at a cycle with an error that names another behavior. -/
def raiseAt (cycle : UInt64) : Behavior :=
  once "raise" cycle (.failed (.behavior "inner" 77 "raised"))

/-- Panics at a cycle. -/
def panicAt (cycle : UInt64) : Behavior :=
  once "panic" cycle (.panicked ("panic at cycle " ++ toString cycle))

/-- Wants to stop from a cycle on. -/
def haltAt (when : UInt64) : Behavior :=
  plain "halt" fun now => (now.root, if now.cycle < when then .running else .halted)

/-- Keeps a link to the member with the highest index, and the name of the context. -/
def link (species : String) : Behavior :=
  plain "link" fun now =>
    let root := now.root.ensurePopulation species
    let root :=
      match (root.populationOf species).members.values.getLast? with
      | some e => root.set "newest" (.entity (Address.root.child species e.index))
      | none => root
    (root.set "context" (.str now.context.name), .running)

/-- Does nothing. Steps can be held up in it while others go on. -/
def gate : Behavior := plain "gate" fun now => (now.root, .running)

end Rewind.Behavior
