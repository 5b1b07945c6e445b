import Rewind.Entity.Shape
import Rewind.Entity.TypeExpr

/-! Documents: what a snapshot is made of before it becomes bytes.

A document is a header and a body, and the body is either an entity with all it
owns or a single value. In a document a link to an entity is a pair of columns,
species and indices, and a value may also hold an entity written out in full
together with the path of its owner. Nothing in a document has been checked:
columns may differ in length, tags may be unknown, names may mean nothing. -/

namespace Rewind

/-- The number every document starts with. -/
def documentMagic : UInt32 := 0x57EB0001

/-- The version written, and the newest that is read. -/
def documentVersion : UInt32 := 1

/-- The kind of a document whose body is an entity. -/
def entityKind : UInt8 := 42

/-- The kind of a document whose body is a value. -/
def objectKind : UInt8 := 43

structure Header where
  magic : UInt32
  version : UInt32
  kind : UInt8
  cycle : UInt64
deriving DecidableEq, Inhabited

/-- The header of a document written here. -/
def Header.new (kind : UInt8) (cycle : UInt64) : Header :=
  { magic := documentMagic, version := documentVersion, kind, cycle }

/-- An owner path in two columns. -/
structure PathForm where
  species : List String
  indices : List UInt32
deriving DecidableEq, Inhabited

structure ShapeForm where
  depth : Option Binary64
  kind : UInt8
  points : List Point
  owner : Option PathForm
deriving DecidableEq, Inhabited

/-- A population as written, with its members in their order. -/
structure PopulationForm (ε : Type) where
  species : String
  nextIndex : UInt32
  members : List ε
deriving Inhabited

mutual

/-- A value as written. -/
inductive ValueForm where
  | nil
  | bool (b : Bool)
  | int (i : Int64)
  | float (x : Binary64)
  | str (s : String)
  | list (content : TypeExpr) (items : List ValueForm)
  | map (key content : TypeExpr) (ordered : Bool) (entries : List (ValueForm × ValueForm))
  | type (t : TypeExpr)
  | context (name : String)
  | shape (s : ShapeForm)
  /-- An entity written out in full; the root has no owner. -/
  | full (owner : Option PathForm) (entity : EntityForm)
  | reference (path : PathForm)

/-- An entity as written, with everything it owns. -/
inductive EntityForm where
  | mk (index : UInt32) (species : String) (attributes : List (String × ValueForm))
      (populations : List (PopulationForm EntityForm))

end

instance : Inhabited ValueForm := ⟨.nil⟩

instance : Inhabited EntityForm := ⟨.mk 0 "" [] []⟩

namespace EntityForm

def index : EntityForm → UInt32
  | mk i _ _ _ => i

def species : EntityForm → String
  | mk _ s _ _ => s

def attributes : EntityForm → List (String × ValueForm)
  | mk _ _ as _ => as

def populations : EntityForm → List (PopulationForm EntityForm)
  | mk _ _ _ ps => ps

end EntityForm

inductive Body where
  | entity (e : EntityForm)
  | object (v : ValueForm)
deriving Inhabited

namespace Body

def kind : Body → UInt8
  | entity _ => entityKind
  | object _ => objectKind

def label : Body → String
  | entity _ => "entity"
  | object _ => "object"

end Body

structure Document where
  header : Header
  body : Body
deriving Inhabited

namespace Document

/-- The document of an entity at a cycle. -/
def ofEntity (e : EntityForm) (cycle : UInt64) : Document := ⟨.new entityKind cycle, .entity e⟩

/-- The document of a value; values have no cycle. -/
def ofValue (v : ValueForm) : Document := ⟨.new objectKind 0, .object v⟩

end Document

/-! ### Floats in writing order -/

/-- The coordinates of points, in order. -/
def coordinates : List Point → List Binary64
  | [] => []
  | p :: ps => p.x :: p.y :: p.z :: coordinates ps

def ShapeForm.floats (s : ShapeForm) : List Binary64 := s.depth.toList ++ coordinates s.points

mutual

/-- The floats of a value form, in the order in which they are written. -/
def ValueForm.floats : ValueForm → List Binary64
  | .float x => [x]
  | .list _ items => itemFloats items
  | .map _ _ _ entries => entryFloats entries
  | .shape s => s.floats
  | .full _ e => e.floats
  | .nil | .bool _ | .int _ | .str _ | .type _ | .context _ | .reference _ => []
termination_by structural v => v

def itemFloats : List ValueForm → List Binary64
  | [] => []
  | v :: vs => v.floats ++ itemFloats vs
termination_by structural vs => vs

def entryFloats : List (ValueForm × ValueForm) → List Binary64
  | [] => []
  | (k, v) :: es => k.floats ++ v.floats ++ entryFloats es
termination_by structural es => es

/-- The floats of an entity form: its attributes' before its members'. -/
def EntityForm.floats : EntityForm → List Binary64
  | .mk _ _ as ps => attributeFloats as ++ populationFloats ps
termination_by structural e => e

def attributeFloats : List (String × ValueForm) → List Binary64
  | [] => []
  | (_, v) :: as => v.floats ++ attributeFloats as
termination_by structural as => as

def populationFloats : List (PopulationForm EntityForm) → List Binary64
  | [] => []
  | ⟨_, _, ms⟩ :: ps => memberFloats ms ++ populationFloats ps
termination_by structural ps => ps

def memberFloats : List EntityForm → List Binary64
  | [] => []
  | e :: es => e.floats ++ memberFloats es
termination_by structural es => es

end

def Body.floats : Body → List Binary64
  | .entity e => e.floats
  | .object v => v.floats

def Document.floats (d : Document) : List Binary64 := d.body.floats

/-- The first float without a decimal form. -/
def Document.firstNonFinite? (d : Document) : Option Binary64 := d.floats.find? fun x => !x.isFinite

end Rewind
