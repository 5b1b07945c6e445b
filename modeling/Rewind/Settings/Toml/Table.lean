import Rewind.Table
import Rewind.Settings.Toml.Scalar

/-! TOML tables and who may add to them.

A table is *open* for headers as long as it only came into being as part of a longer
header. A header closes it. A table made by a dotted key takes more dotted keys and
no header, and a value takes nothing at all. -/

namespace Rewind.Toml

/-- How a table came into being. -/
inductive Origin where
  /-- Named by a header, or written inline. -/
  | explicit
  /-- Part of the path of a header. -/
  | implicit
  /-- Part of a dotted key. -/
  | dotted
deriving DecidableEq, Inhabited

inductive Item where
  | scalar (s : Scalar)
  | array (items : List Item)
  /-- A value between braces. -/
  | inline (origin : Origin) (fields : List (String × Item))
  | table (origin : Origin) (fields : List (String × Item))
  /-- The tables of a repeated header, the last one first. -/
  | tables (items : List (List (String × Item)))
deriving Inhabited

abbrev Fields := List (String × Item)

/-- A table inside an item: how it came into being, what it holds, and the item with
something else in its place. Of repeated tables the last is meant. -/
def tableIn? : Item → Option (Origin × Fields × (Fields → Item))
  | .table origin fields => some (origin, fields, .table origin)
  | .tables (last :: before) => some (.implicit, last, fun fs => .tables (fs :: before))
  | _ => none

/-- Likewise inside a value between braces. -/
def inlineIn? : Item → Option (Origin × Fields × (Fields → Item))
  | .inline origin fields => some (origin, fields, .inline origin)
  | _ => none

/-- Changes the table at the end of a path of dotted keys, which are created as
needed. Of the tables already there the explicit ones take no part, and the last one
has to be a dotted key's as well. -/
def alongKeys? (new : Fields → Item) (inside? : Item → Option (Origin × Fields × (Fields → Item)))
    (change : Fields → Option Fields) : List String → Fields → Option Fields
  | [], fields => change fields
  | key :: path, fields =>
    match Table.find key fields with
    | none => do some (Table.put key (new (← alongKeys? new inside? change path [])) fields)
    | some item => do
      let (origin, inner, rebuild) ← inside? item
      if origin = .explicit ∨ (path.isEmpty ∧ origin ≠ .dotted) then none
      else some (Table.put key (rebuild (← alongKeys? new inside? change path inner)) fields)

/-- A key that is not there yet. -/
def addKey? (key : String) (item : Item) (fields : Fields) : Option Fields :=
  match Table.find key fields with
  | none => some (Table.put key item fields)
  | some _ => none

/-- Adds a key, dotted or not, to a table. -/
def addPair? (path : List String) (key : String) (item : Item) (fields : Fields) : Option Fields :=
  alongKeys? (.table .dotted) tableIn? (addKey? key item) path fields

/-- Adds a key, dotted or not, to a value between braces. -/
def addInlinePair? (path : List String) (key : String) (item : Item) (fields : Fields) :
    Option Fields :=
  alongKeys? (.inline .dotted) inlineIn? (addKey? key item) path fields

/-- Changes the table at the end of a header's path; tables on the way are created as
needed. -/
def alongHeader? (change : Fields → Option Fields) : List String → Fields → Option Fields
  | [], fields => change fields
  | key :: path, fields =>
    match Table.find key fields with
    | none => do some (Table.put key (.table .implicit (← alongHeader? change path [])) fields)
    | some item => do
      let (_, inner, rebuild) ← tableIn? item
      some (Table.put key (rebuild (← alongHeader? change path inner)) fields)

/-- Opens the table of a header: a new one, or one that headers have only passed
through. -/
def openTable? (key : String) (fields : Fields) : Option Fields :=
  match Table.find key fields with
  | none => some (Table.put key (.table .explicit []) fields)
  | some (.table .implicit inner) => some (Table.put key (.table .explicit inner) fields)
  | some _ => none

/-- Opens one more table of a repeated header. -/
def openRepeated? (key : String) (fields : Fields) : Option Fields :=
  match Table.find key fields with
  | none => some (Table.put key (.tables [[]]) fields)
  | some (.tables all) => some (Table.put key (.tables ([] :: all)) fields)
  | some _ => none

end Rewind.Toml
