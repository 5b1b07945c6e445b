import Rewind.Entity.Basic

/-! An entity as the root of a tree: addressing, walking, counting, comparing.

Reading and changing at an address follow the same hops, so a change is seen at
its own address and nowhere else but below it. Walking goes through the attributes
first and then through the members, population by population. -/

namespace Rewind.Entity

/-! ### Addressing -/

/-- The entity that a list of hops leads to. -/
def follow (e : Entity) : List Hop → Option Entity
  | [] => some e
  | h :: hs => do
    let p ← e.population? h.species
    let m ← p.member? h.index
    m.follow hs

/-- The entity at an address of the tree. -/
def at? (root : Entity) (a : Address) : Option Entity := root.follow a.hops

/-- Changes the entity that a list of hops leads to. -/
def changeAlong (f : Entity → Entity) (e : Entity) : List Hop → Option Entity
  | [] => some (f e)
  | h :: hs => do
    let p ← e.population? h.species
    let m ← p.member? h.index
    let m' ← changeAlong f m hs
    some (e.shelve h.species (p.setMember h.index m'))

/-- Changes the entity at an address, which has to exist. -/
def modify? (root : Entity) (a : Address) (f : Entity → Entity) : Option Entity :=
  changeAlong f root a.hops

/-- The population that an address goes through last. -/
def owningPopulation? (root : Entity) (a : Address) : Option (Population Entity) := do
  let last ← a.last?
  let owner ← root.at? (← a.parent?)
  owner.population? last.species

/-! ### Walking -/

mutual

/-- How many entities the tree holds. -/
def count : Entity → Nat
  | ⟨_, _, _, ⟨ps⟩⟩ => 1 + countPopulations ps
termination_by structural e => e

def countPopulations : List (String × Population Entity) → Nat
  | [] => 0
  | (_, ⟨_, _, ⟨ms⟩⟩) :: ps => countMembers ms + countPopulations ps
termination_by structural ps => ps

def countMembers : List (UInt32 × Entity) → Nat
  | [] => 0
  | (_, e) :: es => e.count + countMembers es
termination_by structural es => es

end

mutual

/-- The addresses that the entities of the tree hold, in reading order: the
attributes of an entity before its members. -/
def references : Entity → List Address
  | ⟨_, _, as, ⟨ps⟩⟩ => as.values.flatMap Value.references ++ populationReferences ps
termination_by structural e => e

def populationReferences : List (String × Population Entity) → List Address
  | [] => []
  | (_, ⟨_, _, ⟨ms⟩⟩) :: ps => memberReferences ms ++ populationReferences ps
termination_by structural ps => ps

def memberReferences : List (UInt32 × Entity) → List Address
  | [] => []
  | (_, e) :: es => e.references ++ memberReferences es
termination_by structural es => es

end

/-- The first of some addresses that leads nowhere in the tree. -/
def firstUnresolved? (root : Entity) (addresses : List Address) : Option Address :=
  addresses.find? fun a => (root.at? a).isNone

mutual

/-- The addresses of the entities of a subtree that stands at `here`, going by the species that
populations have and the indices that members have of themselves. -/
def addresses (here : Address) : Entity → List Address
  | ⟨_, _, _, ⟨ps⟩⟩ => here :: populationAddresses here ps
termination_by structural e => e

def populationAddresses (here : Address) : List (String × Population Entity) → List Address
  | [] => []
  | (_, ⟨species, _, ⟨ms⟩⟩) :: ps => memberAddresses here species ms ++ populationAddresses here ps
termination_by structural ps => ps

def memberAddresses (here : Address) (species : String) : List (UInt32 × Entity) → List Address
  | [] => []
  | (_, e) :: es => addresses (here.child species e.index) e ++ memberAddresses here species es
termination_by structural es => es

end

/-! ### Comparing -/

/-- Every attribute is matched by one of the same name that agrees. -/
def attributesAgree : List (String × Value) → Table String Value → Bool
  | [], _ => true
  | (name, v) :: rest, t =>
    (match t.get? name with
      | some w => v.agrees w
      | none => false) && attributesAgree rest t

mutual

/-- Agreement of trees. Attributes and populations are compared by what they are under
and not by position, members one by one. -/
def agrees : Entity → Entity → Bool
  | ⟨s, i, as, ⟨ps⟩⟩, e =>
    s == e.species && i == e.index &&
      as.size == e.attributes.size && attributesAgree as.entries e.attributes &&
      ps.length == e.populations.size && populationsAgree ps e.populations
termination_by structural e => e

def populationsAgree : List (String × Population Entity) → Table String (Population Entity) → Bool
  | [], _ => true
  | (key, ⟨s, n, ⟨ms⟩⟩) :: ps, t =>
    (match t.get? key with
      | some q => s == q.species && n == q.nextIndex && membersAgree ms q.members.entries
      | none => false) && populationsAgree ps t
termination_by structural ps => ps

def membersAgree : List (UInt32 × Entity) → List (UInt32 × Entity) → Bool
  | [], others => others.isEmpty
  | (i, e) :: es, others =>
    match others with
    | [] => false
    | (j, o) :: os => i == j && e.agrees o && membersAgree es os
termination_by structural es => es

end

end Rewind.Entity
