import Rewind.Document.Basic
import Rewind.Document.Error
import Rewind.Entity.Tree
import Rewind.Vocabulary

/-! From documents to trees.

Reading checks what a document could not promise: names against the vocabulary of
the context, columns and tags, and the indices and species of members. Whether
addresses lead anywhere is not asked here; the tree has to be complete first.

Entities written in full inside values are set aside as *arrivals*, an inner one
before the one that holds it. Placing them, in that order, puts each into the
population of its species at its owner, or in place of the root if it has none. -/

namespace Rewind

/-- An entity that came inside a value, and where it belongs. -/
structure Arrival where
  owner : Option Address
  entity : Entity

/-! ### Names, paths and shapes -/

namespace Context

/-- Every name in a type is known and applied as its registration says. -/
def checkType (c : Context) : TypeExpr → Except DecodeError Unit
  | .simple name =>
    match c.vocabulary.lookup? name with
    | none => .error (.unknownType name c.name)
    | some i => if i.parametric then .error (.typeArity name true) else .ok ()
  | .compound name key content =>
    match c.vocabulary.lookup? name with
    | none => .error (.unknownType name c.name)
    | some i =>
      if i.parametric then do
        c.checkType key
        c.checkType content
      else .error (.typeArity name false)

def checkSpecies (c : Context) (species : String) : Except DecodeError Unit :=
  if c.vocabulary.isSpecies species then .ok () else .error (.unknownSpecies species c.name)

end Context

def PathForm.read (p : PathForm) : Except DecodeError Address :=
  match Address.ofColumns? p.species p.indices with
  | some a => .ok a
  | none => .error (.raggedPath p.species.length p.indices.length)

def readOwner : Option PathForm → Except DecodeError (Option Address)
  | none => .ok none
  | some p => do .ok (some (← p.read))

def ShapeForm.read (s : ShapeForm) : Except DecodeError Shape :=
  match ShapeKind.ofTag? s.kind with
  | none => .error (.unknownShapeKind s.kind)
  | some kind => do
    let owner ← readOwner s.owner
    .ok { kind, points := s.points, depth := s.depth, owner }

/-! ### Values and entities -/

/-- Where an arrival ends up. -/
def Arrival.address (a : Arrival) : Address :=
  match a.owner with
  | some o => o.child a.entity.species a.entity.index
  | none => .root

mutual

def ValueForm.read (c : Context) : ValueForm → Except DecodeError (Value × List Arrival)
  | .nil => .ok (.nil, [])
  | .bool b => .ok (.bool b, [])
  | .int i => .ok (.int i, [])
  | .float x => .ok (.float x, [])
  | .str s => .ok (.str s, [])
  | .list content items => do
    c.checkType content
    let (items, arrivals) ← readItems c items
    .ok (.list content items, arrivals)
  | .map key content ordered entries => do
    c.checkType key
    c.checkType content
    let (entries, arrivals) ← readEntries c entries
    .ok (.map key content ordered (Entries.ofList entries), arrivals)
  | .type t => do
    c.checkType t
    .ok (.type t, [])
  | .context name => .ok (.context name, [])
  | .shape s => do .ok (.shape (← s.read), [])
  | .reference p => do .ok (.entity (← p.read), [])
  | .full owner e => do
    let owner ← readOwner owner
    let (entity, arrivals) ← e.read c
    let arrival : Arrival := ⟨owner, entity⟩
    .ok (.entity arrival.address, arrivals ++ [arrival])
termination_by structural v => v

def readItems (c : Context) : List ValueForm → Except DecodeError (List Value × List Arrival)
  | [] => .ok ([], [])
  | f :: fs => do
    let (v, here) ← f.read c
    let (vs, later) ← readItems c fs
    .ok (v :: vs, here ++ later)
termination_by structural fs => fs

def readEntries (c : Context) : List (ValueForm × ValueForm) →
    Except DecodeError (List (Value × Value) × List Arrival)
  | [] => .ok ([], [])
  | (fk, fv) :: fs => do
    let (k, first) ← fk.read c
    let (v, second) ← fv.read c
    let (es, later) ← readEntries c fs
    .ok ((k, v) :: es, first ++ second ++ later)
termination_by structural fs => fs

def EntityForm.read (c : Context) : EntityForm → Except DecodeError (Entity × List Arrival)
  | .mk index species attributes populations => do
    c.checkSpecies species
    let (attributes, first) ← readAttributes c attributes
    let (populations, second) ← readPopulations c populations
    let bare : Entity := { Entity.new species index with attributes := Table.ofList attributes }
    .ok (populations.foldl Entity.setPopulation bare, first ++ second)
termination_by structural e => e

def readAttributes (c : Context) : List (String × ValueForm) →
    Except DecodeError (List (String × Value) × List Arrival)
  | [] => .ok ([], [])
  | (name, f) :: fs => do
    let (v, here) ← f.read c
    let (as, later) ← readAttributes c fs
    .ok ((name, v) :: as, here ++ later)
termination_by structural fs => fs

def readPopulations (c : Context) : List (PopulationForm EntityForm) →
    Except DecodeError (List (Population Entity) × List Arrival)
  | [] => .ok ([], [])
  | ⟨species, nextIndex, members⟩ :: fs => do
    c.checkSpecies species
    let (members, here) ← readMembers c species nextIndex members
    let (ps, later) ← readPopulations c fs
    .ok (members.foldl Population.insert (.counting species nextIndex) :: ps, here ++ later)
termination_by structural fs => fs

/-- Members lie below the counter of their population and have its species. -/
def readMembers (c : Context) (species : String) (nextIndex : UInt32) : List EntityForm →
    Except DecodeError (List Entity × List Arrival)
  | [] => .ok ([], [])
  | f :: fs =>
    if f.index < nextIndex then do
      let (e, here) ← f.read c
      if e.species = species then
        let (es, later) ← readMembers c species nextIndex fs
        .ok (e :: es, here ++ later)
      else .error (.flawed (.foreignMember e.species species))
    else .error (.flawed (.indexOutOfRange f.index species nextIndex))
termination_by structural fs => fs

end

/-! ### Placing arrivals -/

/-- Puts an arrival where it belongs. -/
def Entity.place (root : Entity) (a : Arrival) : Except DecodeError Entity :=
  match a.owner with
  | none => .ok a.entity
  | some o =>
    match root.modify? o fun t => t.withPopulation a.entity.species fun p => p.insert a.entity with
    | some root => .ok root
    | none => .error (.unresolved o)

def Entity.placeAll (root : Entity) : List Arrival → Except DecodeError Entity
  | [] => .ok root
  | a :: as => do (← root.place a).placeAll as

/-- All the given addresses lead somewhere. -/
def Entity.checkResolved (root : Entity) (addresses : List Address) : Except DecodeError Unit :=
  match root.firstUnresolved? addresses with
  | some a => .error (.unresolved a)
  | none => .ok ()

/-! ### Headers -/

namespace Header

def check (h : Header) : Except DecodeError Unit :=
  if h.magic ≠ documentMagic then .error (.invalidMagic h.magic)
  else if documentVersion < h.version then .error (.futureVersion h.version)
  else if h.version < documentVersion then .error (.unsupportedVersion h.version)
  else .ok ()

end Header

namespace Document

/-- The header is in order and says what the body is. -/
def check (d : Document) : Except DecodeError Unit := do
  d.header.check
  if d.header.kind = d.body.kind then .ok ()
  else .error (.flawed (.kindMismatch d.header.kind d.body.label))

/-- The tree of an entity document, with its cycle. -/
def tree (d : Document) (c : Context) : Except DecodeError (Entity × UInt64) := do
  d.check
  match d.body with
  | .object _ => .error (.unexpectedPayload "entity" d.body.label)
  | .entity e =>
    let (root, arrivals) ← e.read c
    .ok (← root.placeAll arrivals, d.header.cycle)

/-- As `tree`, and every address in it leads somewhere. -/
def closedTree (d : Document) (c : Context) : Except DecodeError (Entity × UInt64) := do
  let (root, cycle) ← d.tree c
  root.checkResolved root.references
  .ok (root, cycle)

/-- The value of an object document, read into a tree: the value, and the tree with
the entities that arrived with it. -/
def value (d : Document) (c : Context) (root : Entity) : Except DecodeError (Value × Entity) := do
  d.check
  match d.body with
  | .entity _ => .error (.unexpectedPayload "object" d.body.label)
  | .object f =>
    let (v, arrivals) ← f.read c
    let root ← root.placeAll arrivals
    root.checkResolved (root.references ++ v.references)
    .ok (v, root)

end Document
end Rewind
