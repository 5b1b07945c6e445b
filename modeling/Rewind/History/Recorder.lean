import Rewind.History.Stack
import Rewind.Format

/-! Recording a unit and rolling it back.

Both either do their work or leave the unit as it was: a tree that cannot be written
is not recorded, and a snapshot that cannot be read leaves tree, cycle and history
alone. A rollback uses up the snapshot it went to and all newer ones, so rollbacks
walk strictly back in time until nothing is left. -/

namespace Rewind

/-- What is recorded of a unit, and where the records are. -/
structure World where
  context : Context
  root : Entity
  cycle : UInt64
  /-- There is none before the first recording. -/
  history : Option History
deriving Inhabited

namespace World

def canStepBack (w : World) : Bool :=
  match w.history with
  | some h => h.canStepBack
  | none => false

/-- Lets the compression of all its snapshots end. -/
def settle (w : World) : World := { w with history := w.history.map History.settle }

end World

inductive HistoryError where
  | encode (e : EncodeError)
  | decode (e : DecodeError)
  /-- The compressed bytes of the snapshot of a cycle are broken. -/
  | corrupt (cycle : UInt64)
deriving DecidableEq

/-- Nothing where the cause has no message of its own. -/
def HistoryError.message? : HistoryError → Option String
  | encode e => some ("failed to encode snapshot: " ++ e.message)
  | decode e => e.message?.map fun m => "failed to decode snapshot: " ++ m
  | corrupt cycle =>
    some ("snapshot for cycle " ++ toString cycle ++ " could not be decompressed")

/-- What a rollback did. -/
inductive Restored where
  | to (cycle : UInt64)
  | nothing
deriving DecidableEq, Inhabited

structure Recorder where
  format : Format
  /-- The level at which snapshots are compressed, if they are. -/
  level : Option Nat
  /-- The limit of the histories that recording creates. -/
  maxDepth : Option Nat

namespace Recorder

/-- A node as recording leaves it: handed in for compression, if that is wanted. -/
def node (r : Recorder) (cycle : UInt64) (bytes : Bytes) : Node :=
  match r.level with
  | some level => (Node.new cycle bytes).submit level
  | none => .new cycle bytes

/-- Puts a snapshot of the present onto the history. -/
def record (r : Recorder) (w : World) : Except HistoryError World :=
  match r.format.encodeTree w.root w.cycle with
  | .error e => .error (.encode e)
  | .ok bytes =>
    let history := w.history.getD (.new r.maxDepth)
    .ok { w with history := some (history.push (r.node w.cycle bytes)) }

/-- The tree that a node holds. -/
def tree (r : Recorder) (c : Context) (n : Node) : Except HistoryError Entity :=
  match n.bytes? with
  | none => .error (.corrupt n.cycle)
  | some bytes =>
    match r.format.decodeClosedTree c bytes with
    | .error e => .error (.decode e)
    | .ok (root, _) => .ok root

/-- Brings the most recent past back. With nothing but the present on record the
history is emptied. -/
def restore (r : Recorder) (w : World) : Except HistoryError (World × Restored) :=
  match w.history with
  | none => .ok (w, .nothing)
  | some h =>
    match h.target? w.cycle with
    | none => .ok ({ w with history := some h.clear }, .nothing)
    | some (n, older) =>
      match r.tree w.context n with
      | .error e => .error e
      | .ok root =>
        .ok ({ w with root, cycle := n.cycle, history := some { h with nodes := older } },
          .to n.cycle)

end Recorder
end Rewind
