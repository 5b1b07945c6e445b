import Rewind.Entity.TypeExpr
import Rewind.Entity.Shape

/-! Attribute values.

A value is plain data: a link to an entity is its address, and a context handle is
the name of the context. Two values *agree* when a model would call them equal:
numbers agree numerically, so a value that holds a NaN anywhere does not agree
with itself, and the entries of a map agree one by one in their order. -/

namespace Rewind

inductive Value where
  | nil
  | bool (b : Bool)
  | int (i : Int64)
  | float (x : Binary64)
  | str (s : String)
  | list (content : TypeExpr) (items : List Value)
  | map (key content : TypeExpr) (ordered : Bool) (entries : List (Value × Value))
  | type (t : TypeExpr)
  | context (name : String)
  | shape (s : Shape)
  | entity (address : Address)
deriving Inhabited

namespace Value

/-! ### Agreement -/

mutual

def agrees : Value → Value → Bool
  | nil, w => match w with | nil => true | _ => false
  | bool a, w => match w with | bool b => a == b | _ => false
  | int a, w => match w with | int b => a == b | _ => false
  | float a, w => match w with | float b => a.agrees b | _ => false
  | str a, w => match w with | str b => a == b | _ => false
  | list c items, w =>
    match w with
    | list c' items' => c == c' && itemsAgree items items'
    | _ => false
  | map k c o entries, w =>
    match w with
    | map k' c' o' entries' => k == k' && c == c' && o == o' && entriesAgree entries entries'
    | _ => false
  | type a, w => match w with | type b => a == b | _ => false
  | context a, w => match w with | context b => a == b | _ => false
  | shape a, w => match w with | shape b => a.agrees b | _ => false
  | entity a, w => match w with | entity b => a == b | _ => false
termination_by structural v => v

def itemsAgree : List Value → List Value → Bool
  | [], w => w.isEmpty
  | v :: vs, w =>
    match w with
    | [] => false
    | v' :: vs' => v.agrees v' && itemsAgree vs vs'
termination_by structural vs => vs

def entriesAgree : List (Value × Value) → List (Value × Value) → Bool
  | [], w => w.isEmpty
  | (k, v) :: es, w =>
    match w with
    | [] => false
    | (k', v') :: es' => k.agrees k' && v.agrees v' && entriesAgree es es'
termination_by structural es => es

end

/-! ### Views -/

/-- The name of the value's kind. -/
def typeName : Value → String
  | nil => "nil"
  | bool _ => "bool"
  | int _ => "int"
  | float _ => "float"
  | str _ => "string"
  | list _ _ => "list"
  | map _ _ _ _ => "map"
  | type _ => "type"
  | context _ => "context"
  | shape _ => "geometry"
  | entity _ => "agent"

def asInt? : Value → Option Int64
  | int i => some i
  | _ => none

def asFloat? : Value → Option Binary64
  | float x => some x
  | _ => none

def asEntity? : Value → Option Address
  | entity a => some a
  | _ => none

def asList? : Value → Option (TypeExpr × List Value)
  | list c items => some (c, items)
  | _ => none

/-! ### References -/

mutual

/-- The addresses a value holds, in reading order: items in order, a key before its
value, and the owner of a shape. -/
def references : Value → List Address
  | entity a => [a]
  | shape s => s.owner.toList
  | list _ items => itemReferences items
  | map _ _ _ entries => entryReferences entries
  | nil | bool _ | int _ | float _ | str _ | type _ | context _ => []
termination_by structural v => v

def itemReferences : List Value → List Address
  | [] => []
  | v :: vs => v.references ++ itemReferences vs
termination_by structural vs => vs

def entryReferences : List (Value × Value) → List Address
  | [] => []
  | (k, v) :: es => k.references ++ v.references ++ entryReferences es
termination_by structural es => es

end

end Value

/-! ### Map entries

The entries of a map are kept in the order of first insertion. A key is found by
agreement, so a key that does not agree with itself is never found and every
insertion of it appends. -/

namespace Entries

/-- The value under the first key that agrees with `key`. -/
def get? (key : Value) : List (Value × Value) → Option Value
  | [] => none
  | (k, v) :: es => if k.agrees key then some v else get? key es

/-- Replaces the value under the first agreeing key, or appends. -/
def insert (key value : Value) : List (Value × Value) → List (Value × Value)
  | [] => [(key, value)]
  | (k, v) :: es => if k.agrees key then (k, value) :: es else (k, v) :: insert key value es

/-- An insertion, with the value that it replaces. -/
def exchange (key value : Value) : List (Value × Value) → Option Value × List (Value × Value)
  | [] => (none, [(key, value)])
  | (k, v) :: es =>
    if k.agrees key then (some v, (k, value) :: es)
    else
      let (old, es) := exchange key value es
      (old, (k, v) :: es)

/-- The entries that a sequence of insertions leaves. -/
def ofList (es : List (Value × Value)) : List (Value × Value) :=
  es.foldl (fun m e => insert e.1 e.2 m) []

end Entries
end Rewind
