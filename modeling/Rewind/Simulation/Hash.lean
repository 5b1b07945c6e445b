import Rewind.Simulation.Basic

/-! A fingerprint of a state.

Bytes are mixed in one at a time: the byte is folded into the low end of a word, and
the word is multiplied by an odd prime. Both can be undone, so two states of the word
that differ stay different whatever is mixed in after. -/

namespace Rewind

structure StateHash where
  word : UInt64
deriving DecidableEq, Inhabited

namespace StateHash

def start : StateHash := ⟨0xcbf29ce484222325⟩

def mix (h : StateHash) (b : UInt8) : StateHash := ⟨(h.word ^^^ b.toUInt64) * 0x100000001b3⟩

def write (h : StateHash) (bs : Bytes) : StateHash := bs.foldl mix h

/-- The eight bytes of a word, the lowest first. -/
def wordBytes (n : UInt64) : Bytes := (List.range 8).map fun i => (n >>> (8 * i).toUInt64).toUInt8

def writeWord (h : StateHash) (n : UInt64) : StateHash := h.write (wordBytes n)

end StateHash

/-- The fingerprint of a simulation's cycle and tree, as a format writes them. -/
def Simulation.stateHash (s : Simulation) (f : Format) : Except EncodeError StateHash := do
  let bytes ← f.encodeTree s.root s.cycle
  .ok ((StateHash.start.writeWord s.cycle).write bytes)

end Rewind
