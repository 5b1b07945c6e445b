import Rewind.Binary64
import Rewind.Entity.Address

/-! Geometry attached to entities. -/

namespace Rewind

inductive ShapeKind where
  | null
  | point
  | lineString
  | polygon
  | multiPoint
  | multiLineString
  | multiPolygon
  | box
  | sphere
  | cylinder
deriving DecidableEq, Inhabited

namespace ShapeKind

/-- Every kind, in the order of the tags. -/
def all : List ShapeKind :=
  [null, point, lineString, polygon, multiPoint, multiLineString, multiPolygon, box, sphere,
    cylinder]

/-- The byte that stands for a kind. -/
def tag : ShapeKind → UInt8
  | null => 0
  | point => 1
  | lineString => 2
  | polygon => 3
  | multiPoint => 4
  | multiLineString => 5
  | multiPolygon => 6
  | box => 7
  | sphere => 8
  | cylinder => 9

def ofTag? (t : UInt8) : Option ShapeKind := all[t.toNat]?

def text : ShapeKind → String
  | null => "Null"
  | point => "Point"
  | lineString => "LineString"
  | polygon => "Polygon"
  | multiPoint => "MultiPoint"
  | multiLineString => "MultiLineString"
  | multiPolygon => "MultiPolygon"
  | box => "Box"
  | sphere => "Sphere"
  | cylinder => "Cylinder"

end ShapeKind

structure Point where
  x : Binary64
  y : Binary64
  z : Binary64
deriving DecidableEq, Inhabited

/-- Coordinates agree as numbers do. -/
def Point.agrees (p q : Point) : Bool := p.x.agrees q.x && p.y.agrees q.y && p.z.agrees q.z

structure Shape where
  kind : ShapeKind
  points : List Point
  depth : Option Binary64
  /-- The entity this shape belongs to. -/
  owner : Option Address
deriving DecidableEq, Inhabited

namespace Shape

def pointsAgree : List Point → List Point → Bool
  | [], [] => true
  | p :: ps, q :: qs => p.agrees q && pointsAgree ps qs
  | _, _ => false

def depthsAgree : Option Binary64 → Option Binary64 → Bool
  | none, none => true
  | some x, some y => x.agrees y
  | _, _ => false

def agrees (a b : Shape) : Bool :=
  a.kind == b.kind && pointsAgree a.points b.points && depthsAgree a.depth b.depth &&
    a.owner == b.owner

/-- A single point in the plane. -/
def at2d (x y : Binary64) : Shape :=
  { kind := .point, points := [⟨x, y, ⟨0⟩⟩], depth := none, owner := none }

end Shape
end Rewind
