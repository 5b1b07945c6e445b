import Rewind.History.Node

/-! A history: the stack of a unit's snapshots.

Cycles grow from the bottom to the top. Pushing a snapshot drops those taken at its
cycle or later, which a rollback has made obsolete, and a stack with a depth limit
then forgets its oldest ones. -/

namespace Rewind

structure History where
  /-- The newest first. -/
  nodes : List Node
  maxDepth : Option Nat
deriving Inhabited

namespace History

/-- The first so many, if there is a limit. -/
def keep {α : Type} : Option Nat → List α → List α
  | none, as => as
  | some n, as => as.take n

/-- An empty stack. A limit of zero counts as one. -/
def new (maxDepth : Option Nat) : History := { nodes := [], maxDepth := maxDepth.map (max 1) }

def push (h : History) (n : Node) : History :=
  { h with nodes := keep h.maxDepth (n :: h.nodes.dropWhile fun m => n.cycle ≤ m.cycle) }

def top? (h : History) : Option Node := h.nodes.head?

def pop (h : History) : History := { h with nodes := h.nodes.tail }

def clear (h : History) : History := { h with nodes := [] }

def size (h : History) : Nat := h.nodes.length

def isEmpty (h : History) : Bool := h.nodes.isEmpty

def canStepBack (h : History) : Bool := !h.isEmpty

/-- The cycles, the oldest first. -/
def cycles (h : History) : List UInt64 := (h.nodes.map Node.cycle).reverse

def storedBytes (h : History) : Nat := h.nodes.foldr (fun n total => n.storedSize + total) 0

/-- Changes the newest node. -/
def updateTop (h : History) (f : Node → Node) : History :=
  match h.nodes with
  | [] => h
  | n :: ns => { h with nodes := f n :: ns }

/-- Lets all jobs run to their ends. -/
def settle (h : History) : History := { h with nodes := h.nodes.map Node.settle }

/-- What a unit at cycle `current` goes back to: the newest node, or the one below if
the newest is the present; and what is left below that. -/
def target? (h : History) (current : UInt64) : Option (Node × List Node) :=
  match h.nodes with
  | [] => none
  | n :: ns =>
    if n.cycle = current then
      match ns with
      | [] => none
      | m :: ms => some (m, ms)
    else some (n, ns)

end History
end Rewind
