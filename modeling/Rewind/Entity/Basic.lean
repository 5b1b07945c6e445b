import Rewind.Table
import Rewind.Entity.Value

/-! Entities and their populations.

An entity has attributes and owns populations; a population holds members, each under
an index, and a counter from which new indices come. The counter only grows, so an
index that was given once is not given again; it stops at the largest index there is,
and from then on `spawn` finds the member that is already there.

Populations are found by the species and members by the index that they were put under.
A population knows its species and an entity its index besides; that it is put under
them is up to the operations. -/

namespace Rewind

structure Population (ε : Type) where
  species : String
  /-- The index the next spawned member will have. -/
  nextIndex : UInt32
  /-- In the order of the indices. -/
  members : Table UInt32 ε
deriving Inhabited

structure Entity where
  species : String
  index : UInt32
  attributes : Table String Value
  populations : Table String (Population Entity)
deriving Inhabited

/-- The species of the entity at the top of a tree. -/
def rootSpecies : String := "simulation"

/-- One more, but never past the largest index. -/
def indexAfter (i : UInt32) : UInt32 := if i = 0xFFFFFFFF then i else i + 1

/-! ### Members -/

namespace Members

/-- Puts an entity at the place of an index, over the one that is there. -/
def put (index : UInt32) (e : Entity) : List (UInt32 × Entity) → List (UInt32 × Entity)
  | [] => [(index, e)]
  | (i, m) :: ms =>
    if index < i then (index, e) :: (i, m) :: ms
    else if i = index then (i, e) :: ms
    else (i, m) :: put index e ms

end Members

/-! ### Entities -/

namespace Entity

/-- An entity without attributes and populations. -/
def new (species : String) (index : UInt32) : Entity :=
  { species, index, attributes := .empty, populations := .empty }

/-- The root of an empty tree. -/
def newRoot : Entity := new rootSpecies 0

def get? (e : Entity) (name : String) : Option Value := e.attributes.get? name

def set (e : Entity) (name : String) (v : Value) : Entity :=
  { e with attributes := e.attributes.set name v }

def unset (e : Entity) (name : String) : Entity :=
  { e with attributes := e.attributes.erase name }

end Entity

/-! ### Populations -/

namespace Population

/-- A population without members whose counter stands at `nextIndex`. -/
def counting (species : String) (nextIndex : UInt32) : Population Entity :=
  { species, nextIndex, members := .empty }

def new (species : String) : Population Entity := counting species 0

def member? (p : Population Entity) (index : UInt32) : Option Entity := p.members.get? index

/-- Puts an entity under its own index and moves the counter past it. -/
def insert (p : Population Entity) (e : Entity) : Population Entity :=
  { p with
    nextIndex := max p.nextIndex (indexAfter e.index)
    members := ⟨Members.put e.index e p.members.entries⟩ }

/-- Creates a member at the counter. A member that is already there is kept, which
happens only at the largest index. -/
def spawn (p : Population Entity) : Population Entity :=
  { p with
    nextIndex := indexAfter p.nextIndex
    members :=
      match p.member? p.nextIndex with
      | some _ => p.members
      | none => ⟨Members.put p.nextIndex (.new p.species p.nextIndex) p.members.entries⟩ }

/-- The member that `spawn` hands out: the one it creates, or the one that is already there. -/
def spawned (p : Population Entity) : Entity :=
  (p.member? p.nextIndex).getD (.new p.species p.nextIndex)

/-- Moves the counter up to an index, as members that come and go would. -/
def advanceTo (p : Population Entity) (index : UInt32) : Population Entity :=
  { p with nextIndex := max p.nextIndex index }

def erase (p : Population Entity) (index : UInt32) : Population Entity :=
  { p with members := p.members.erase index }

/-- Replaces the member under an index. Whatever comes in its place stays there. -/
def setMember (p : Population Entity) (index : UInt32) (e : Entity) : Population Entity :=
  { p with members := p.members.update index fun _ => e }

/-- Changes the member under an index, if there is one. -/
def update (p : Population Entity) (index : UInt32) (f : Entity → Entity) : Population Entity :=
  match p.member? index with
  | some e => p.setMember index (f e)
  | none => p

def size (p : Population Entity) : Nat := p.members.size

end Population

/-! ### The populations of an entity -/

namespace Entity

def population? (e : Entity) (species : String) : Option (Population Entity) :=
  e.populations.get? species

/-- Puts a population under a species, over the one that is there. -/
def shelve (e : Entity) (species : String) (p : Population Entity) : Entity :=
  { e with populations := e.populations.set species p }

/-- Puts a population under its own species. -/
def setPopulation (e : Entity) (p : Population Entity) : Entity := e.shelve p.species p

/-- The population of a species, empty if the entity owns none. -/
def populationOf (e : Entity) (species : String) : Population Entity :=
  (e.population? species).getD (.new species)

/-- Changes the population of a species, which is created if need be. -/
def withPopulation (e : Entity) (species : String)
    (f : Population Entity → Population Entity) : Entity :=
  e.shelve species (f (e.populationOf species))

/-- Sees to it that the entity owns a population of a species. -/
def ensurePopulation (e : Entity) (species : String) : Entity := e.withPopulation species id

end Entity
end Rewind
