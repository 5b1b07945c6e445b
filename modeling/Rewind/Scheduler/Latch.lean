/-! The latch of a round.

A round opens with a latch that counts its tasks. Every task counts it down once when
it is over, whatever came of it. The thread that waits for the round goes on when the
count is zero, or earlier if it has been interrupted, and then knows how many tasks
are still under way. A count of zero wins over an interrupt. -/

namespace Rewind

structure Latch where
  remaining : Nat
  interrupted : Bool
deriving DecidableEq, Inhabited

/-- How a wait came out. -/
inductive Wait where
  | done
  | interrupted (pending : Nat)
deriving DecidableEq, Inhabited

namespace Latch

/-- The latch of a round of so many tasks. -/
def new (tasks : Nat) : Latch := { remaining := tasks, interrupted := false }

def countDown (l : Latch) : Latch := { l with remaining := l.remaining - 1 }

def interrupt (l : Latch) : Latch := { l with interrupted := true }

/-- What the waiting thread finds when it looks, or nothing if it has to wait on. -/
def wait? (l : Latch) : Option Wait :=
  if l.remaining = 0 then some .done
  else if l.interrupted then some (.interrupted l.remaining)
  else none

end Latch
end Rewind
