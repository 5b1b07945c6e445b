import Rewind.Document.Binary
import Rewind.Document.Json
import Rewind.Document.OfTree
import Rewind.Document.ToTree

/-! Formats: how documents become bytes, and trees through them.

A format only knows how to write and read documents. Everything else, taking a tree
apart and putting it together, is the same for all of them and is stated here once
for any format. Formats are found in a table by number or by name, and whoever asks
for one that is not there gets the binary format. -/

namespace Rewind

structure Format where
  id : UInt8
  name : String
  write : Document → Except EncodeError Bytes
  /-- Nothing, where the bytes are not a document of the format. -/
  read? : Bytes → Option Document

namespace Format

/-- Bytes without limits on floats or nesting. -/
def binary : Format where
  id := 0
  name := "binary"
  write d := .ok d.binaryBytes
  read? := Document.ofBinaryBytes?

/-- Text, for documents whose floats are finite. -/
def json : Format where
  id := 1
  name := "json"
  write d :=
    match d.firstNonFinite? with
    | some x => .error (.nonFinite x)
    | none => .ok d.jsonBytes
  read? := Document.ofJsonBytes?

/-! ### Snapshots -/

section
variable (f : Format)

def read (bs : Bytes) : Except DecodeError Document :=
  match f.read? bs with
  | some d => .ok d
  | none => .error (.malformed f.name)

/-- The snapshot of a tree at a cycle. -/
def encodeTree (root : Entity) (cycle : UInt64) : Except EncodeError Bytes :=
  f.write (.ofTree root cycle)

/-- The snapshot of a value held somewhere in a tree. -/
def encodeValue (root : Entity) (v : Value) : Except EncodeError Bytes := do
  f.write (← Document.ofHeldValue root v)

/-- The tree of a snapshot and its cycle. -/
def decodeTree (c : Context) (bs : Bytes) : Except DecodeError (Entity × UInt64) := do
  (← f.read bs).tree c

/-- As `decodeTree`, and every address in the tree leads somewhere. -/
def decodeClosedTree (c : Context) (bs : Bytes) : Except DecodeError (Entity × UInt64) := do
  (← f.read bs).closedTree c

/-- Puts the tree of a snapshot, if it is closed, in the place of `root`, and gives the
cycle; where that fails `root` stays. -/
def decodeInto (c : Context) (root : Entity) (bs : Bytes) : Entity × Except DecodeError UInt64 :=
  match f.decodeClosedTree c bs with
  | .ok (tree, cycle) => (tree, .ok cycle)
  | .error e => (root, .error e)

/-- A value read into a tree, and the tree with the entities that came with it. -/
def decodeValue (c : Context) (root : Entity) (bs : Bytes) :
    Except DecodeError (Value × Entity) := do
  (← f.read bs).value c root

/-- As `decodeValue`, and the tree with the entities takes the place of `root`; where that
fails `root` stays. -/
def decodeValueInto (c : Context) (root : Entity) (bs : Bytes) :
    Entity × Except DecodeError Value :=
  match f.decodeValue c root bs with
  | .ok (v, placed) => (placed, .ok v)
  | .error e => (root, .error e)

/-- The header of a snapshot of either kind. -/
def decodeHeader (bs : Bytes) : Except DecodeError Header := do
  let d ← f.read bs
  d.check
  .ok d.header

end
end Format

/-! ### The table of formats -/

structure FormatTable where
  byId : Table UInt8 Format
  byName : Table String Format

namespace FormatTable

/-- Registering replaces what was under the number and what was under the name, each
for itself. -/
def register (t : FormatTable) (f : Format) : FormatTable :=
  { byId := t.byId.set f.id f, byName := t.byName.set f.name f }

/-- The binary format alone. -/
def new : FormatTable := register ⟨.empty, .empty⟩ .binary

/-- Both formats. -/
def standard : FormatTable := new.register .json

def ofId (t : FormatTable) (id : UInt8) : Format := (t.byId.get? id).getD .binary

def ofName (t : FormatTable) (name : String) : Format := (t.byName.get? name).getD .binary

def contains (t : FormatTable) (name : String) : Bool := t.byName.contains name

/-- The names in use, sorted. -/
def names (t : FormatTable) : List String :=
  t.byName.keys.mergeSort fun a b => !bytesBefore b a

end FormatTable
end Rewind
