import Rewind.Entity.Basic

/-! The names a context knows: types and species.

A vocabulary is drafted name by name; the first registration of a name gives it
the next number, and a later one is noted as a repeat and answered with the number
of the first. A draft becomes a vocabulary if nothing was repeated and no name is
empty. -/

namespace Rewind

inductive NameKind where
  | type
  | species
deriving DecidableEq, Inhabited

/-- What is known about a name. -/
structure NameInfo where
  name : String
  /-- Whether the name takes a key type and a content type. -/
  parametric : Bool
  kind : NameKind
deriving DecidableEq, Inhabited

/-- Registered names. -/
structure Names where
  /-- What is known about them, in the order of their numbers. -/
  infos : List NameInfo
  /-- The numbers under their names. -/
  index : Table String Nat
deriving Inhabited

namespace Names

def empty : Names := ⟨[], .empty⟩

def number? (ns : Names) (name : String) : Option Nat := ns.index.get? name

/-- A new name, and its number. Numbers have thirty-two bits. -/
def push (ns : Names) (i : NameInfo) : Names × Nat :=
  let n := ns.infos.length % 0x100000000
  ({ infos := ns.infos ++ [i], index := ns.index.set i.name n }, n)

end Names

structure Vocabulary where
  names : Names
deriving Inhabited

namespace Vocabulary

def number? (v : Vocabulary) (name : String) : Option Nat := v.names.number? name

def get? (v : Vocabulary) (number : Nat) : Option NameInfo := v.names.infos[number]?

def lookup? (v : Vocabulary) (name : String) : Option NameInfo := do v.get? (← v.number? name)

def isSpecies (v : Vocabulary) (name : String) : Bool :=
  match v.lookup? name with
  | some i => i.kind == .species
  | none => false

def size (v : Vocabulary) : Nat := v.names.infos.length

end Vocabulary

inductive VocabularyError where
  | repeated (name : String)
  | emptyName
deriving DecidableEq

def VocabularyError.message : VocabularyError → String
  | repeated name => "type `" ++ name ++ "` registered twice"
  | emptyName => "type names must not be empty"

/-- Names registered so far, and the names of the registrations that repeated one. -/
structure Draft where
  names : Names
  repeats : List String
deriving Inhabited

namespace Draft

def empty : Draft := ⟨.empty, []⟩

def number? (d : Draft) (name : String) : Option Nat := d.names.number? name

/-- The draft after a registration, and the number of the name. -/
def register (d : Draft) (i : NameInfo) : Draft × Nat :=
  match d.number? i.name with
  | some n => ({ d with repeats := d.repeats ++ [i.name] }, n)
  | none =>
    let (names, n) := d.names.push i
    ({ d with names }, n)

def registerType (d : Draft) (name : String) (parametric : Bool) : Draft × Nat :=
  d.register ⟨name, parametric, .type⟩

def registerSpecies (d : Draft) (name : String) : Draft × Nat := d.register ⟨name, false, .species⟩

/-- The types every vocabulary starts from. -/
def builtinTypes : List (String × Bool) :=
  [("unknown", false), ("bool", false), ("int", false), ("float", false), ("string", false),
    ("type", false), ("geometry", false), ("agent", false), ("context", false),
    ("list", true), ("map", true), ("pair", true), ("container", true)]

/-- The builtin types and the species of root entities. -/
def builtins : Draft :=
  let types := builtinTypes.foldl (fun d t => (d.registerType t.1 t.2).1) empty
  (types.registerSpecies rootSpecies).1

def build (d : Draft) : Except VocabularyError Vocabulary :=
  match d.repeats with
  | name :: _ => .error (.repeated name)
  | [] => if d.names.infos.any (·.name.isEmpty) then .error .emptyName else .ok ⟨d.names⟩

end Draft

/-- The builtin types and the species of root entities. -/
def Vocabulary.builtin : Vocabulary := ⟨Draft.builtins.names⟩

/-! ### Contexts -/

/-- The scope a tree lives in. Contexts are told apart by name. -/
structure Context where
  name : String
  vocabulary : Vocabulary
deriving Inhabited

/-- The context of another name with the same vocabulary. -/
def Context.child (c : Context) (name : String) : Context := { c with name }

end Rewind
