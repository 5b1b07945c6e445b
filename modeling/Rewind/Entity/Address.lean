/-! Where an entity lives.

An entity is addressed from the root of its tree: each hop names a population of
the entity reached so far and the index of a member in it. The empty address is
the root. Links between entities are addresses, never the entities themselves,
which is why a tree stays a tree whatever its entities refer to. -/

namespace Rewind

/-- One step down: a population and a member of it. -/
structure Hop where
  species : String
  index : UInt32
deriving DecidableEq, Inhabited

/-- An owner path, outermost hop first. -/
structure Address where
  hops : List Hop
deriving DecidableEq, Inhabited

namespace Hop

def text (h : Hop) : String := "/" ++ h.species ++ "[" ++ toString h.index.toNat ++ "]"

end Hop

/-- Strings are ordered by their UTF-8 bytes. -/
def bytesBefore (a b : String) : Bool :=
  (a.toUTF8.toList.map UInt8.toNat).lex (b.toUTF8.toList.map UInt8.toNat)

namespace Hop

/-- Species first, then index. -/
def before (a b : Hop) : Bool :=
  bytesBefore a.species b.species || (a.species == b.species && a.index.toNat < b.index.toNat)

end Hop

namespace Address

/-- The address of the root entity. -/
def root : Address := ⟨[]⟩

def isRoot (a : Address) : Bool := a.hops.isEmpty

/-- The member `index` of the population `species` of the entity at `a`. -/
def child (a : Address) (species : String) (index : UInt32) : Address :=
  ⟨a.hops ++ [⟨species, index⟩]⟩

def depth (a : Address) : Nat := a.hops.length

def last? (a : Address) : Option Hop := a.hops.getLast?

/-- The owner's address; the root has no owner. -/
def parent? (a : Address) : Option Address :=
  if a.isRoot then none else some ⟨a.hops.dropLast⟩

/-- The two columns of the path. -/
def species (a : Address) : List String := a.hops.map Hop.species

def indices (a : Address) : List UInt32 := a.hops.map Hop.index

/-- A path from its two columns, which must be equally long. -/
def ofColumns? (species : List String) (indices : List UInt32) : Option Address :=
  if species.length = indices.length then some ⟨List.zipWith Hop.mk species indices⟩ else none

/-- Shown as `/` for the root and as `/ant[2]/egg[0]` below it. -/
def text (a : Address) : String :=
  if a.isRoot then "/" else String.join (a.hops.map Hop.text)

/-- Hop by hop; a path comes before its extensions. -/
def before (a b : Address) : Bool := a.hops.lex b.hops Hop.before

end Address
end Rewind
