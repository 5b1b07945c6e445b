import Rewind.Zlib.Deflate

/-! One snapshot in a history, and its compression.

A node is a cycle and the bytes of a snapshot, raw or compressed. Compressing goes
on in the background: `submit` hands the node in, and until the job ends the node is
pending. A node that is pending or compressed is not handed in again, and whoever
wants the bytes waits for the job, so compression is seen in the stored size and
nowhere else. -/

namespace Rewind

inductive Payload where
  | raw (bytes : Bytes)
  | zipped (bytes : Bytes)
deriving DecidableEq, Inhabited

structure Node where
  cycle : UInt64
  payload : Payload
  /-- The level of the job that has this node, from the submit to its end. -/
  pending : Option Nat
deriving DecidableEq, Inhabited

/-- The level of those who do not ask for one. -/
def defaultLevel : Nat := 6

/-- Levels above nine count as nine. -/
def clampLevel (level : Nat) : Nat := min level 9

namespace Node

def new (cycle : UInt64) (bytes : Bytes) : Node := { cycle, payload := .raw bytes, pending := none }

def isCompressed (n : Node) : Bool :=
  match n.payload with
  | .raw _ => false
  | .zipped _ => true

/-- The byte that marks how a node is stored. -/
def marker (n : Node) : UInt8 := if n.isCompressed then 1 else 0

def storedSize (n : Node) : Nat :=
  match n.payload with
  | .raw bytes => bytes.length
  | .zipped bytes => bytes.length

/-- Hands a raw node in, unless a job has it already. -/
def submit (level : Nat) (n : Node) : Node :=
  match n.pending, n.payload with
  | none, .raw _ => { n with pending := some (clampLevel level) }
  | _, _ => n

/-- A job that ends with a result, or with none if the compressor failed. -/
def finish (result : Option Bytes) (n : Node) : Node :=
  match result, n.payload with
  | some bytes, .raw _ => { n with payload := .zipped bytes, pending := none }
  | _, _ => { n with pending := none }

/-- Lets the job that has the node run to its end. -/
def settle (n : Node) : Node :=
  match n.pending, n.payload with
  | some level, .raw bytes => n.finish (some (Zlib.zip level bytes))
  | _, _ => { n with pending := none }

/-- The bytes of the snapshot, after waiting for a job. -/
def bytes? (n : Node) : Option Bytes :=
  match n.settle.payload with
  | .raw bytes => some bytes
  | .zipped bytes => Zlib.unzip? bytes

end Node
end Rewind
