/-! Tables in the order of first insertion.

Attributes, registered tasks and held units are all shown in the order in which
they came. Setting a key that is present replaces the value where it stands;
erasing closes the gap and keeps the order of the rest. -/

namespace Rewind

structure Table (κ α : Type) where
  entries : List (κ × α)
deriving Inhabited

namespace Table

variable {κ α : Type} [DecidableEq κ]

def empty : Table κ α := ⟨[]⟩

def find (key : κ) : List (κ × α) → Option α
  | [] => none
  | (k, a) :: rest => if k = key then some a else find key rest

def put (key : κ) (a : α) : List (κ × α) → List (κ × α)
  | [] => [(key, a)]
  | (k, b) :: rest => if k = key then (k, a) :: rest else (k, b) :: put key a rest

def drop (key : κ) : List (κ × α) → List (κ × α)
  | [] => []
  | (k, b) :: rest => if k = key then rest else (k, b) :: drop key rest

def get? (t : Table κ α) (key : κ) : Option α := find key t.entries

def contains (t : Table κ α) (key : κ) : Bool := (t.get? key).isSome

def set (t : Table κ α) (key : κ) (a : α) : Table κ α := ⟨put key a t.entries⟩

def erase (t : Table κ α) (key : κ) : Table κ α := ⟨drop key t.entries⟩

def keys (t : Table κ α) : List κ := t.entries.map Prod.fst

def values (t : Table κ α) : List α := t.entries.map Prod.snd

def size (t : Table κ α) : Nat := t.entries.length

def isEmpty (t : Table κ α) : Bool := t.entries.isEmpty

/-- Replaces the value under a key that is present. -/
def update (t : Table κ α) (key : κ) (f : α → α) : Table κ α :=
  match t.get? key with
  | some a => t.set key (f a)
  | none => t

/-- Sets a list of pairs one after the other. -/
def ofList (pairs : List (κ × α)) : Table κ α := pairs.foldl (fun t p => t.set p.1 p.2) empty

end Table
end Rewind
