import Rewind.Scheduler.Basic

/-! Units that do one thing, for trying a scheduler out. Each counts its steps first
and then acts. -/

namespace Rewind

inductive Script where
  /-- Always runs on. -/
  | count
  | halt
  | fail (text : String)
  | panic (text : String)
  /-- Runs on for so many steps, halts on the last, and fails after it. -/
  | countdown (left : Nat)
  /-- Runs on; steps can be held up in it. -/
  | gate
deriving DecidableEq, Inhabited

structure ScriptedUnit where
  script : Script
  steps : Nat
deriving DecidableEq, Inhabited

namespace ScriptedUnit

def new (script : Script) : ScriptedUnit := { script, steps := 0 }

/-- What a panic says that was raised with something other than a text. -/
def opaquePanic : String := "non-string panic payload"

def advance (u : ScriptedUnit) : ScriptedUnit × Outcome :=
  let u := { u with steps := u.steps + 1 }
  match u.script with
  | .count | .gate => (u, .running)
  | .halt => (u, .halted)
  | .fail text => (u, .failed (.message text))
  | .panic text => (u, .panicked text)
  | .countdown 0 => (u, .failed (.message "already finished"))
  | .countdown (left + 1) =>
    ({ u with script := .countdown left }, if 0 < left then .running else .halted)

end ScriptedUnit
end Rewind
