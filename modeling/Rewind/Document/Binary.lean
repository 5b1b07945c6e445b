import Rewind.Document.Basic
import Rewind.Text.Bytes

/-! Documents as bytes, without limits.

Every piece of a document says by itself where it ends: numbers in groups of seven
bits of which the last is marked, texts and lists behind their length, choices
behind a tag. So what was written is read back whatever follows it, a payload that
was cut short runs out of bytes, and one that was extended leaves some over; both
are refused. A signature in front keeps other payloads out, text above all.

Floats go in as their bits and come back as them, a NaN with its payload. -/

namespace Rewind.Binary

/-- The bytes in front of every document. -/
def signature : Bytes := [0x52, 0x57, 0x4E, 0x44]

/-! ### Writing -/

/-- Seven bits at a time, the lowest first; all bytes but the last are 128 or more. -/
def natBytesUpTo : Nat → Nat → Bytes
  | 0, n => [n.toUInt8]
  | fuel + 1, n =>
    if n < 128 then [n.toUInt8] else (n % 128 + 128).toUInt8 :: natBytesUpTo fuel (n / 128)

def natBytes (n : Nat) : Bytes := natBytesUpTo n n

def boolBytes (b : Bool) : Bytes := [if b then 1 else 0]

def stringBytes (s : String) : Bytes := let bs := utf8 s; natBytes bs.length ++ bs

def floatBytes (x : Binary64) : Bytes := natBytes x.bits.toNat

def optionBytes {α : Type} (write : α → Bytes) : Option α → Bytes
  | none => [0]
  | some a => 1 :: write a

/-- A length, and then the items one after the other. -/
def listBytes {α : Type} (write : α → Bytes) (as : List α) : Bytes :=
  natBytes as.length ++ as.flatMap write

def pathBytes (p : PathForm) : Bytes :=
  listBytes stringBytes p.species ++ listBytes (fun i => natBytes i.toNat) p.indices

def pointBytes (p : Point) : Bytes := floatBytes p.x ++ floatBytes p.y ++ floatBytes p.z

def shapeBytes (s : ShapeForm) : Bytes :=
  optionBytes floatBytes s.depth ++ [s.kind] ++ listBytes pointBytes s.points ++
    optionBytes pathBytes s.owner

/-- A type, in front of what follows. -/
def typeOnto : TypeExpr → Bytes → Bytes
  | .simple name, rest => 0 :: (stringBytes name ++ rest)
  | .compound name key content, rest =>
    1 :: (stringBytes name ++ typeOnto key (typeOnto content rest))

mutual

/-- A value, in front of what follows. -/
def valueOnto : ValueForm → Bytes → Bytes
  | .nil, rest => 0 :: rest
  | .bool b, rest => 1 :: (boolBytes b ++ rest)
  | .int i, rest => 2 :: (natBytes i.toUInt64.toNat ++ rest)
  | .float x, rest => 3 :: (floatBytes x ++ rest)
  | .str s, rest => 4 :: (stringBytes s ++ rest)
  | .list content items, rest =>
    5 :: typeOnto content (natBytes items.length ++ itemsOnto items rest)
  | .map key content ordered entries, rest =>
    6 :: typeOnto key (typeOnto content
      (boolBytes ordered ++ (natBytes entries.length ++ entriesOnto entries rest)))
  | .type t, rest => 7 :: typeOnto t rest
  | .context name, rest => 8 :: (stringBytes name ++ rest)
  | .shape s, rest => 9 :: (shapeBytes s ++ rest)
  | .full owner e, rest => 10 :: (optionBytes pathBytes owner ++ entityOnto e rest)
  | .reference p, rest => 11 :: (pathBytes p ++ rest)
termination_by structural v => v

def itemsOnto : List ValueForm → Bytes → Bytes
  | [], rest => rest
  | v :: vs, rest => valueOnto v (itemsOnto vs rest)
termination_by structural vs => vs

def entriesOnto : List (ValueForm × ValueForm) → Bytes → Bytes
  | [], rest => rest
  | (k, v) :: es, rest => valueOnto k (valueOnto v (entriesOnto es rest))
termination_by structural es => es

/-- An entity, in front of what follows. -/
def entityOnto : EntityForm → Bytes → Bytes
  | .mk index species attributes populations, rest =>
    natBytes index.toNat ++ (stringBytes species ++
      (natBytes attributes.length ++ attributesOnto attributes
        (natBytes populations.length ++ populationsOnto populations rest)))
termination_by structural e => e

def attributesOnto : List (String × ValueForm) → Bytes → Bytes
  | [], rest => rest
  | (name, v) :: as, rest => stringBytes name ++ valueOnto v (attributesOnto as rest)
termination_by structural as => as

def populationsOnto : List (PopulationForm EntityForm) → Bytes → Bytes
  | [], rest => rest
  | ⟨species, nextIndex, members⟩ :: ps, rest =>
    stringBytes species ++ (natBytes nextIndex.toNat ++
      (natBytes members.length ++ membersOnto members (populationsOnto ps rest)))
termination_by structural ps => ps

def membersOnto : List EntityForm → Bytes → Bytes
  | [], rest => rest
  | e :: es, rest => entityOnto e (membersOnto es rest)
termination_by structural es => es

end

def headerBytes (h : Header) : Bytes :=
  natBytes h.magic.toNat ++ natBytes h.version.toNat ++ [h.kind] ++ natBytes h.cycle.toNat

def bodyBytes : Body → Bytes
  | .entity e => 0 :: entityOnto e []
  | .object v => 1 :: valueOnto v []

/-! ### Reading -/

/-- Reads something off the front. -/
abbrev Reader (α : Type) := Bytes → Option (α × Bytes)

def readByte : Reader UInt8
  | [] => none
  | b :: bs => some (b, bs)

def readNat : Reader Nat
  | [] => none
  | b :: bs =>
    if b < 128 then some (b.toNat, bs)
    else
      match readNat bs with
      | some (n, bs) => some (128 * n + (b.toNat - 128), bs)
      | none => none

/-- A number below a bound. -/
def readBelow (bound : Nat) : Reader Nat := fun bs =>
  match readNat bs with
  | some (n, bs) => if n < bound then some (n, bs) else none
  | none => none

def readBool : Reader Bool
  | 0 :: bs => some (false, bs)
  | 1 :: bs => some (true, bs)
  | _ => none

/-- Exactly `n` bytes, put backwards onto `taken`. -/
def takeOnto (taken : Bytes) : Nat → Bytes → Option (Bytes × Bytes)
  | 0, bs => some (taken, bs)
  | n + 1, b :: bs => takeOnto (b :: taken) n bs
  | _ + 1, [] => none

def readString : Reader String := fun bs => do
  let (n, bs) ← readNat bs
  let (taken, bs) ← takeOnto [] n bs
  some (← ofUtf8? taken.reverse, bs)

def readFloat : Reader Binary64 := fun bs => do
  let (n, bs) ← readBelow UInt64.size bs
  some (⟨UInt64.ofNat n⟩, bs)

def readUInt32 : Reader UInt32 := fun bs => do
  let (n, bs) ← readBelow UInt32.size bs
  some (UInt32.ofNat n, bs)

def readUInt64 : Reader UInt64 := fun bs => do
  let (n, bs) ← readBelow UInt64.size bs
  some (UInt64.ofNat n, bs)

def readOption {α : Type} (read : Reader α) : Reader (Option α)
  | 0 :: bs => some (none, bs)
  | 1 :: bs => (read bs).map fun r => (some r.1, r.2)
  | _ => none

/-- So many items, put backwards onto `done`. -/
def readOnto {α : Type} (read : Reader α) (done : List α) : Nat → Reader (List α)
  | 0, bs => some (done.reverse, bs)
  | n + 1, bs =>
    match read bs with
    | some (a, bs) => readOnto read (a :: done) n bs
    | none => none

def readList {α : Type} (read : Reader α) : Reader (List α) := fun bs => do
  let (n, bs) ← readNat bs
  readOnto read [] n bs

/-- Two things, one after the other. -/
def readPair {α β : Type} (first : Reader α) (second : Reader β) : Reader (α × β) := fun bs => do
  let (a, bs) ← first bs
  let (b, bs) ← second bs
  some ((a, b), bs)

/-- Types nested no deeper than `fuel`. -/
def readType : Nat → Reader TypeExpr
  | 0, _ => none
  | fuel + 1, bs => do
    let (compound, bs) ← readBool bs
    let (name, bs) ← readString bs
    if compound then
      let (key, bs) ← readType fuel bs
      let (content, bs) ← readType fuel bs
      some (.compound name key content, bs)
    else some (.simple name, bs)

def readPath : Reader PathForm := fun bs => do
  let (species, bs) ← readList readString bs
  let (indices, bs) ← readList readUInt32 bs
  some ({ species, indices }, bs)

def readPoint : Reader Point := fun bs => do
  let (x, bs) ← readFloat bs
  let (y, bs) ← readFloat bs
  let (z, bs) ← readFloat bs
  some (⟨x, y, z⟩, bs)

def readShape : Reader ShapeForm := fun bs => do
  let (depth, bs) ← readOption readFloat bs
  let (kind, bs) ← readByte bs
  let (points, bs) ← readList readPoint bs
  let (owner, bs) ← readOption readPath bs
  some ({ depth, kind, points, owner }, bs)

mutual

/-- Values nested no deeper than `fuel`. -/
def readValue : Nat → Reader ValueForm
  | 0, _ => none
  | fuel + 1, bs => do
    let (tag, bs) ← readByte bs
    match tag with
    | 0 => some (.nil, bs)
    | 1 =>
      let (b, bs) ← readBool bs
      some (.bool b, bs)
    | 2 =>
      let (n, bs) ← readUInt64 bs
      some (.int n.toInt64, bs)
    | 3 =>
      let (x, bs) ← readFloat bs
      some (.float x, bs)
    | 4 =>
      let (s, bs) ← readString bs
      some (.str s, bs)
    | 5 =>
      let (content, bs) ← readType (fuel + 1) bs
      let (items, bs) ← readList (readValue fuel) bs
      some (.list content items, bs)
    | 6 =>
      let (key, bs) ← readType (fuel + 1) bs
      let (content, bs) ← readType (fuel + 1) bs
      let (ordered, bs) ← readBool bs
      let (entries, bs) ← readList (readPair (readValue fuel) (readValue fuel)) bs
      some (.map key content ordered entries, bs)
    | 7 =>
      let (t, bs) ← readType (fuel + 1) bs
      some (.type t, bs)
    | 8 =>
      let (name, bs) ← readString bs
      some (.context name, bs)
    | 9 =>
      let (s, bs) ← readShape bs
      some (.shape s, bs)
    | 10 =>
      let (owner, bs) ← readOption readPath bs
      let (e, bs) ← readEntity fuel bs
      some (.full owner e, bs)
    | 11 =>
      let (p, bs) ← readPath bs
      some (.reference p, bs)
    | _ => none
termination_by structural fuel => fuel

/-- Entities nested no deeper than `fuel`. -/
def readEntity : Nat → Reader EntityForm
  | 0, _ => none
  | fuel + 1, bs => do
    let (index, bs) ← readUInt32 bs
    let (species, bs) ← readString bs
    let (attributes, bs) ← readList (readPair readString (readValue fuel)) bs
    let (populations, bs) ← readList (readPopulation fuel) bs
    some (.mk index species attributes populations, bs)
termination_by structural fuel => fuel

def readPopulation : Nat → Reader (PopulationForm EntityForm)
  | 0, _ => none
  | fuel + 1, bs => do
    let (species, bs) ← readString bs
    let (nextIndex, bs) ← readUInt32 bs
    let (members, bs) ← readList (readEntity fuel) bs
    some (⟨species, nextIndex, members⟩, bs)
termination_by structural fuel => fuel

end

def readHeader : Reader Header := fun bs => do
  let (magic, bs) ← readUInt32 bs
  let (version, bs) ← readUInt32 bs
  let (kind, bs) ← readByte bs
  let (cycle, bs) ← readUInt64 bs
  some ({ magic, version, kind, cycle }, bs)

def readBody (fuel : Nat) : Reader Body
  | 0 :: bs => (readEntity fuel bs).map fun r => (.entity r.1, r.2)
  | 1 :: bs => (readValue fuel bs).map fun r => (.object r.1, r.2)
  | _ => none

/-- Whether some bytes start with others, and what follows those. -/
def strip? : Bytes → Bytes → Option Bytes
  | [], bs => some bs
  | a :: as, b :: bs => if a = b then strip? as bs else none
  | _ :: _, [] => none

end Binary

namespace Document

/-- The document in the binary format. -/
def binaryBytes (d : Document) : Bytes :=
  Binary.signature ++ Binary.headerBytes d.header ++ Binary.bodyBytes d.body

/-- The document that some bytes are, which must end with it. Nothing can be nested
deeper than there are bytes. -/
def ofBinaryBytes? (bs : Bytes) : Option Document := do
  let bs ← Binary.strip? Binary.signature bs
  let (header, bs) ← Binary.readHeader bs
  let (body, bs) ← Binary.readBody (bs.length + 1) bs
  if bs.isEmpty then some ⟨header, body⟩ else none

end Document
end Rewind
