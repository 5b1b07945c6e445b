import Rewind.Document.Basic
import Rewind.Json.Tree

/-! Documents as JSON.

Writing gives every record its fields in a fixed order, and every case of a choice
as an object of one field, or as its bare name when nothing belongs to it.

Reading accepts what a reader of these records can be expected to accept: fields in
any order, unknown ones skipped unread, absent options, and records written as
arrays of all their fields. It is limited in depth: each array and object that is
entered takes one level, a skipped one takes none, and a text that needs more than
the levels there are is refused. So every function below either reads a leaf or
spends one level. -/

namespace Rewind

/-! ### Writing -/

def TypeExpr.json : TypeExpr → Json
  | .simple name => .record [("name", .str name), ("params", .null)]
  | .compound name key content =>
    .record [("name", .str name), ("params", .array [key.json, content.json])]

def PathForm.json (p : PathForm) : Json :=
  .record [("species", .array (p.species.map .str)),
    ("indices", .array (p.indices.map fun i => .nat i.toNat))]

def ownerJson : Option PathForm → Json
  | none => .null
  | some p => p.json

def Point.json (p : Point) : Json := .array [.float p.x, .float p.y, .float p.z]

def ShapeForm.json (s : ShapeForm) : Json :=
  .record [("depth", match s.depth with | none => .null | some x => .float x),
    ("kind", .nat s.kind.toNat), ("points", .array (s.points.map Point.json)),
    ("owner", ownerJson s.owner)]

mutual

def ValueForm.json : ValueForm → Json
  | .nil => .str "Nil"
  | .bool b => .variant "Bool" (.bool b)
  | .int i => .variant "Int" (.int i.toInt)
  | .float x => .variant "Float" (.float x)
  | .str s => .variant "Str" (.str s)
  | .list content items =>
    .variant "List" (.record [("content", content.json), ("items", .array (itemsJson items))])
  | .map key content ordered entries =>
    .variant "Map" (.record [("key", key.json), ("content", content.json),
      ("ordered", .bool ordered), ("entries", .array (entriesJson entries))])
  | .type t => .variant "Type" t.json
  | .context name => .variant "Context" (.str name)
  | .shape s => .variant "Shape" s.json
  | .full owner e =>
    .variant "Entity" (.variant "Full" (.record [("owner", ownerJson owner), ("agent", e.json)]))
  | .reference p => .variant "Entity" (.variant "Ref" p.json)
termination_by structural v => v

def itemsJson : List ValueForm → List Json
  | [] => []
  | v :: vs => v.json :: itemsJson vs
termination_by structural vs => vs

def entriesJson : List (ValueForm × ValueForm) → List Json
  | [] => []
  | (k, v) :: es => .array [k.json, v.json] :: entriesJson es
termination_by structural es => es

def EntityForm.json : EntityForm → Json
  | .mk index species attributes populations =>
    .record [("index", .nat index.toNat), ("species", .str species),
      ("attributes", .array (attributesJson attributes)),
      ("populations", .array (populationsJson populations))]
termination_by structural e => e

def attributesJson : List (String × ValueForm) → List Json
  | [] => []
  | (name, v) :: as => .array [.str name, v.json] :: attributesJson as
termination_by structural as => as

def populationsJson : List (PopulationForm EntityForm) → List Json
  | [] => []
  | ⟨species, nextIndex, members⟩ :: ps =>
    .record [("species", .str species), ("next_index", .nat nextIndex.toNat),
      ("members", .array (membersJson members))] :: populationsJson ps
termination_by structural ps => ps

def membersJson : List EntityForm → List Json
  | [] => []
  | e :: es => e.json :: membersJson es
termination_by structural es => es

end

def Header.json (h : Header) : Json :=
  .record [("magic", .nat h.magic.toNat), ("version", .nat h.version.toNat),
    ("kind", .nat h.kind.toNat), ("cycle", .nat h.cycle.toNat)]

def Body.json : Body → Json
  | .entity e => .variant "Entity" e.json
  | .object v => .variant "Object" v.json

def Document.json (d : Document) : Json :=
  .record [("header", d.header.json), ("body", d.body.json)]

/-! ### Reading -/

namespace Json

/-- The levels of arrays and objects a document may open. -/
def depthLimit : Nat := 127

def toUInt8? (j : Json) : Option UInt8 := (j.toNat? UInt8.size).map UInt8.ofNat

def toUInt32? (j : Json) : Option UInt32 := (j.toNat? UInt32.size).map UInt32.ofNat

def toUInt64? (j : Json) : Option UInt64 := (j.toNat? UInt64.size).map UInt64.ofNat

def toInt64? (j : Json) : Option Int64 :=
  (j.toBounded? (-0x8000000000000000) 0x8000000000000000).map Int64.ofInt

/-- An option of a record: absent, null, or given. -/
def toOption? {α : Type} (read : Json → Option α) : Option Json → Option (Option α)
  | none | some .null => some none
  | some j => (read j).map some

/-- The items of an array, which takes a level. -/
def elements? {α : Type} (read : Nat → Json → Option α) : Nat → Json → Option (List α)
  | level + 1, .array items => items.mapM (read level)
  | _, _ => none

def toType? : Nat → Json → Option TypeExpr
  | 0, _ => none
  | level + 1, j =>
    match j.known? ["name", "params"] with
    | some [some name, none] | some [some name, some .null] => do
      some (.simple (← name.toStr?))
    | some [some name, some (.array [key, content])] => do
      let name ← name.toStr?
      match level with
      | 0 => none
      | level + 1 => some (.compound name (← toType? level key) (← toType? level content))
    | _ => none

def toPath? : Nat → Json → Option PathForm
  | level + 1, j =>
    match j.known? ["species", "indices"] with
    | some [some species, some indices] => do
      let species ← elements? (fun _ => toStr?) level species
      let indices ← elements? (fun _ => toUInt32?) level indices
      some { species, indices }
    | _ => none
  | 0, _ => none

def toPoint? : Nat → Json → Option Point
  | _ + 1, .array [x, y, z] => do some ⟨← x.toFloat?, ← y.toFloat?, ← z.toFloat?⟩
  | _, _ => none

def toShape? : Nat → Json → Option ShapeForm
  | level + 1, j =>
    match j.known? ["depth", "kind", "points", "owner"] with
    | some [depth, some kind, some points, owner] => do
      let depth ← toOption? toFloat? depth
      let kind ← kind.toUInt8?
      let points ← elements? toPoint? level points
      let owner ← toOption? (toPath? level) owner
      some { depth, kind, points, owner }
    | _ => none
  | 0, _ => none

mutual

def toValue? : Nat → Json → Option ValueForm
  | _, .text t => if t.toString? = some "Nil" then some .nil else none
  | level + 1, j =>
    match j.case? with
    | some ("Nil", some .null) => some .nil
    | some ("Bool", some p) => do some (.bool (← p.toBool?))
    | some ("Int", some p) => do some (.int (← p.toInt64?))
    | some ("Float", some p) => do some (.float (← p.toFloat?))
    | some ("Str", some p) => do some (.str (← p.toStr?))
    | some ("List", some p) => toList? level p
    | some ("Map", some p) => toMap? level p
    | some ("Type", some p) => do some (.type (← toType? level p))
    | some ("Context", some p) => do some (.context (← p.toStr?))
    | some ("Shape", some p) => do some (.shape (← toShape? level p))
    | some ("Entity", some p) => toLink? level p
    | _ => none
  | 0, _ => none
termination_by structural level => level

def toList? : Nat → Json → Option ValueForm
  | level + 1, j =>
    match j.known? ["content", "items"] with
    | some [some content, some items] => do
      let content ← toType? level content
      some (.list content (← toValues? level items))
    | _ => none
  | 0, _ => none
termination_by structural level => level

def toValues? : Nat → Json → Option (List ValueForm)
  | level + 1, .array items => items.mapM (toValue? level)
  | _, _ => none
termination_by structural level => level

def toMap? : Nat → Json → Option ValueForm
  | level + 1, j =>
    match j.known? ["key", "content", "ordered", "entries"] with
    | some [some key, some content, some ordered, some entries] => do
      let key ← toType? level key
      let content ← toType? level content
      let ordered ← ordered.toBool?
      some (.map key content ordered (← toEntries? level entries))
    | _ => none
  | 0, _ => none
termination_by structural level => level

def toEntries? : Nat → Json → Option (List (ValueForm × ValueForm))
  | level + 1, .array items => items.mapM (toKeyed? level)
  | _, _ => none
termination_by structural level => level

def toKeyed? : Nat → Json → Option (ValueForm × ValueForm)
  | level + 1, .array [k, v] => do some (← toValue? level k, ← toValue? level v)
  | _, _ => none
termination_by structural level => level

def toLink? : Nat → Json → Option ValueForm
  | level + 1, j =>
    match j.case? with
    | some ("Full", some p) => toFull? level p
    | some ("Ref", some p) => do some (.reference (← toPath? level p))
    | _ => none
  | 0, _ => none
termination_by structural level => level

def toFull? : Nat → Json → Option ValueForm
  | level + 1, j =>
    match j.known? ["owner", "agent"] with
    | some [owner, some entity] => do
      let owner ← toOption? (toPath? level) owner
      some (.full owner (← toEntity? level entity))
    | _ => none
  | 0, _ => none
termination_by structural level => level

def toEntity? : Nat → Json → Option EntityForm
  | level + 1, j =>
    match j.known? ["index", "species", "attributes", "populations"] with
    | some [some index, some species, some attributes, some populations] => do
      let index ← index.toUInt32?
      let species ← species.toStr?
      let attributes ← toAttributes? level attributes
      some (.mk index species attributes (← toPopulations? level populations))
    | _ => none
  | 0, _ => none
termination_by structural level => level

def toAttributes? : Nat → Json → Option (List (String × ValueForm))
  | level + 1, .array items => items.mapM (toAttribute? level)
  | _, _ => none
termination_by structural level => level

def toAttribute? : Nat → Json → Option (String × ValueForm)
  | level + 1, .array [name, v] => do some (← name.toStr?, ← toValue? level v)
  | _, _ => none
termination_by structural level => level

def toPopulations? : Nat → Json → Option (List (PopulationForm EntityForm))
  | level + 1, .array items => items.mapM (toPopulation? level)
  | _, _ => none
termination_by structural level => level

def toPopulation? : Nat → Json → Option (PopulationForm EntityForm)
  | level + 1, j =>
    match j.known? ["species", "next_index", "members"] with
    | some [some species, some nextIndex, some members] => do
      let species ← species.toStr?
      let nextIndex ← nextIndex.toUInt32?
      some ⟨species, nextIndex, ← toMembers? level members⟩
    | _ => none
  | 0, _ => none
termination_by structural level => level

def toMembers? : Nat → Json → Option (List EntityForm)
  | level + 1, .array items => items.mapM (toEntity? level)
  | _, _ => none
termination_by structural level => level

end

def toHeader? (j : Json) : Option Header :=
  match j.known? ["magic", "version", "kind", "cycle"] with
  | some [some magic, some version, some kind, some cycle] => do
    let magic ← magic.toUInt32?
    let version ← version.toUInt32?
    let kind ← kind.toUInt8?
    let cycle ← cycle.toUInt64?
    some { magic, version, kind, cycle }
  | _ => none

def toBody? (level : Nat) (j : Json) : Option Body :=
  match j.case? with
  | some ("Entity", some p) => do some (.entity (← toEntity? level p))
  | some ("Object", some p) => do some (.object (← toValue? level p))
  | _ => none

def toDocument? (j : Json) : Option Document :=
  match j.known? ["header", "body"] with
  | some [some header, some body] => do
    let header ← header.toHeader?
    some ⟨header, ← body.toBody? (depthLimit - 2)⟩
  | _ => none

end Json

namespace Document

/-- The document as compact JSON text. -/
def jsonBytes (d : Document) : Bytes := d.json.bytes

/-- The document that a JSON text says. -/
def ofJsonBytes? (bs : Bytes) : Option Document := do (← Json.parse? bs).toDocument?

end Document
end Rewind
