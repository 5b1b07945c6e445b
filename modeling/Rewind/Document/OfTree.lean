import Rewind.Document.Basic
import Rewind.Document.Error
import Rewind.Entity.Tree

/-! From trees to documents.

Ownership is written out and links are not: an entity is written with all its
members in full, and wherever it or one of them holds the address of an entity,
the address is written. So the document of a tree is as large as the tree, whatever
cycles the links form, and writing a tree cannot fail.

A value of its own is written so that it can be read back elsewhere: the first
time it names an entity, the entity is written in full with the path of its owner,
and from then on it and everything it owns count as written, and are named by
address again. Only this can fail, at an address that leads nowhere. -/

namespace Rewind

def Address.form (a : Address) : PathForm := ⟨a.species, a.indices⟩

def Shape.form (s : Shape) : ShapeForm :=
  { depth := s.depth, kind := s.kind.tag, points := s.points, owner := s.owner.map Address.form }

/-! ### Entities -/

mutual

/-- A value whose links stay addresses. -/
def Value.form : Value → ValueForm
  | .nil => .nil
  | .bool b => .bool b
  | .int i => .int i
  | .float x => .float x
  | .str s => .str s
  | .list content items => .list content (itemForms items)
  | .map key content ordered entries => .map key content ordered (entryForms entries)
  | .type t => .type t
  | .context name => .context name
  | .shape s => .shape s.form
  | .entity a => .reference a.form
termination_by structural v => v

def itemForms : List Value → List ValueForm
  | [] => []
  | v :: vs => v.form :: itemForms vs
termination_by structural vs => vs

def entryForms : List (Value × Value) → List (ValueForm × ValueForm)
  | [] => []
  | (k, v) :: es => (k.form, v.form) :: entryForms es
termination_by structural es => es

end

mutual

/-- An entity with everything it owns. -/
def Entity.form : Entity → EntityForm
  | ⟨species, index, as, ⟨ps⟩⟩ =>
    .mk index species (as.entries.map fun a => (a.1, a.2.form)) (populationForms ps)
termination_by structural e => e

def populationForms : List (String × Population Entity) → List (PopulationForm EntityForm)
  | [] => []
  | (_, ⟨species, nextIndex, ⟨ms⟩⟩) :: ps =>
    ⟨species, nextIndex, memberForms ms⟩ :: populationForms ps
termination_by structural ps => ps

def memberForms : List (UInt32 × Entity) → List EntityForm
  | [] => []
  | (_, e) :: es => e.form :: memberForms es
termination_by structural es => es

end

/-! ### Values of their own -/

mutual

/-- A value whose entities are written in full when first met. `written` are the
addresses of the entities written so far; it comes back with those added. -/
def Value.fullForm (root : Entity) (written : List Address) :
    Value → Except EncodeError (ValueForm × List Address)
  | .entity a =>
    if a ∈ written then .ok (.reference a.form, written)
    else
      match root.at? a with
      | some e => .ok (.full (a.parent?.map Address.form) e.form, written ++ e.addresses a)
      | none => .error (.dangling a)
  | .list content items => do
    let (items, written) ← itemFullForms root written items
    .ok (.list content items, written)
  | .map key content ordered entries => do
    let (entries, written) ← entryFullForms root written entries
    .ok (.map key content ordered entries, written)
  | .nil => .ok (.nil, written)
  | .bool b => .ok (.bool b, written)
  | .int i => .ok (.int i, written)
  | .float x => .ok (.float x, written)
  | .str s => .ok (.str s, written)
  | .type t => .ok (.type t, written)
  | .context name => .ok (.context name, written)
  | .shape s => .ok (.shape s.form, written)
termination_by structural v => v

def itemFullForms (root : Entity) (written : List Address) :
    List Value → Except EncodeError (List ValueForm × List Address)
  | [] => .ok ([], written)
  | v :: vs => do
    let (f, written) ← v.fullForm root written
    let (fs, written) ← itemFullForms root written vs
    .ok (f :: fs, written)
termination_by structural vs => vs

def entryFullForms (root : Entity) (written : List Address) :
    List (Value × Value) → Except EncodeError (List (ValueForm × ValueForm) × List Address)
  | [] => .ok ([], written)
  | (k, v) :: es => do
    let (fk, written) ← k.fullForm root written
    let (fv, written) ← v.fullForm root written
    let (fs, written) ← entryFullForms root written es
    .ok ((fk, fv) :: fs, written)
termination_by structural es => es

end

/-- The document of a tree at a cycle. -/
def Document.ofTree (root : Entity) (cycle : UInt64) : Document := .ofEntity root.form cycle

/-- The document of a value held somewhere in a tree. -/
def Document.ofHeldValue (root : Entity) (v : Value) : Except EncodeError Document := do
  let (form, _) ← v.fullForm root []
  .ok (.ofValue form)

end Rewind
