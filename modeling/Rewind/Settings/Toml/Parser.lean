import Rewind.Settings.Toml.Table

/-! Reading TOML documents.

A document is lines: pairs, headers, and nothing. A header says where the pairs that
follow it belong. Values between brackets may go over several lines, those between
braces may not. -/

namespace Rewind.Toml

/-! ### Blanks, comments and keys -/

def skipBlanks (cs : List Char) : List Char := cs.dropWhile isBlank

/-- A comment at the front, up to the end of its line. -/
def skipComment (cs : List Char) : List Char :=
  match cs with
  | '#' :: cs => cs.dropWhile isPlain
  | cs => cs

/-- Blanks, line ends and comments. -/
def skipSpace : Nat → List Char → List Char
  | 0, cs => cs
  | fuel + 1, cs =>
    let rest := skipComment (skipBlankLines (cs.length + 1) cs)
    if rest.length < cs.length then skipSpace fuel rest else rest

/-- The end of a line: nothing more on it, or a comment. -/
def endLine? (cs : List Char) : Option (List Char) :=
  match skipComment (skipBlanks cs) with
  | [] => some []
  | cs => newline? cs

def isBare (c : Char) : Bool := c.isAlphanum || c == '_' || c == '-'

/-- One part of a key. -/
def takePart? (cs : List Char) : Option (String × List Char) :=
  match cs.takeWhile isBare with
  | [] => takeSimpleString? cs
  | bare => some (String.ofList bare, cs.dropWhile isBare)

/-- A key at the front, blanks around it included, part by part. -/
def takeParts? : Nat → List Char → Option (List String × List Char)
  | 0, _ => none
  | fuel + 1, cs => do
    let (part, cs) ← takePart? (skipBlanks cs)
    match skipBlanks cs with
    | '.' :: cs => do
      let (parts, cs) ← takeParts? fuel cs
      some (part :: parts, cs)
    | cs => some ([part], cs)

/-- How deep values and keys may go. -/
def depthLimit : Nat := 80

/-- A key as the path of its dotted parts and the last one. -/
def takeKey? (cs : List Char) : Option (List String × String × List Char) := do
  let (parts, cs) ← takeParts? (depthLimit - 1) cs
  some (parts.dropLast, ← parts.getLast?, cs)

/-! ### Values -/

/-- The items of an array after its bracket, backwards onto `done`. -/
def takeItems? (value? : List Char → Option (Item × List Char)) :
    Nat → List Item → List Char → Option (Item × List Char)
  | 0, _, _ => none
  | fuel + 1, done, cs =>
    match skipSpace cs.length cs with
    | ']' :: cs => some (.array done.reverse, cs)
    | cs => do
      let (item, cs) ← value? cs
      match skipSpace cs.length cs with
      | ',' :: cs => takeItems? value? fuel (item :: done) cs
      | ']' :: cs => some (.array (item :: done).reverse, cs)
      | _ => none

/-- A key, an equals sign and a value. -/
def takePair? (value? : List Char → Option (Item × List Char)) (cs : List Char) :
    Option ((List String × String × Item) × List Char) := do
  let (path, key, cs) ← takeKey? cs
  let cs ← expect? '=' cs
  let (item, cs) ← value? (skipBlanks cs)
  some ((path, key, item), cs)

def closingBrace : Char := Char.ofNat 125

def openingBrace : Char := Char.ofNat 123

/-- The pairs after an opening brace, of which there is at least one. -/
def takePairs? (value? : List Char → Option (Item × List Char)) :
    Nat → Fields → List Char → Option (Item × List Char)
  | 0, _, _ => none
  | fuel + 1, fields, cs => do
    let ((path, key, item), cs) ← takePair? value? cs
    let fields ← addInlinePair? path key item fields
    match skipBlanks cs with
    | ',' :: cs => takePairs? value? fuel fields cs
    | c :: cs => if c = closingBrace then some (.inline .explicit fields, cs) else none
    | [] => none

/-- A value at the front, no deeper than `depth`. -/
def takeValue? : Nat → List Char → Option (Item × List Char)
  | 0, _ => none
  | _ + 1, [] => none
  | depth + 1, c :: cs =>
    if c = '[' then
      if depth = 0 then none else takeItems? (takeValue? depth) (cs.length + 1) [] cs
    else if c = openingBrace then
      if depth = 0 then none
      else
        match skipBlanks cs with
        | [] => none
        | d :: rest =>
          if d = closingBrace then some (.inline .explicit [], rest)
          else takePairs? (takeValue? depth) (cs.length + 1) [] cs
    else if c = quote ∨ c = tick then
      (takeString? (c :: cs)).map fun r => (.scalar (.str r.1), r.2)
    else (takeWord? (c :: cs)).map fun r => (.scalar r.1, r.2)

/-! ### Documents -/

/-- The tables so far, and where the pairs that follow belong. -/
structure Doc where
  fields : Fields
  header : List String

/-- A header after its opening brackets, up to and with its closing ones. -/
def takeHeader? (closing : Nat) (cs : List Char) : Option (List String × String × List Char) := do
  let (path, key, cs) ← takeKey? cs
  if cs.take closing = List.replicate closing ']' then some (path, key, cs.drop closing) else none

/-- Reads one line. -/
def line? (d : Doc) (cs : List Char) : Option (Doc × List Char) :=
  match skipBlanks cs with
  | '[' :: '[' :: cs => do
    let (path, key, cs) ← takeHeader? 2 cs
    let fields ← alongHeader? (openRepeated? key) path d.fields
    some (⟨fields, path ++ [key]⟩, ← endLine? cs)
  | '[' :: cs => do
    let (path, key, cs) ← takeHeader? 1 cs
    let fields ← alongHeader? (openTable? key) path d.fields
    some (⟨fields, path ++ [key]⟩, ← endLine? cs)
  | cs =>
    match endLine? cs with
    | some cs => some (d, cs)
    | none => do
      let ((path, key, item), cs) ← takePair? (takeValue? depthLimit) cs
      let fields ← alongHeader? (addPair? path key item) d.header d.fields
      some ({ d with fields }, ← endLine? cs)

/-- Reads line after line; every line but the last is at least a line end. -/
def lines? : Nat → Doc → List Char → Option Fields
  | _, d, [] => some d.fields
  | 0, _, _ => none
  | fuel + 1, d, cs =>
    match line? d cs with
    | some (d, cs) => lines? fuel d cs
    | none => none

/-- The top table of a document. A byte order mark in front of it is let through. -/
def parse? (text : String) : Option Fields :=
  let cs := text.toList
  let cs := if cs.head? = some (Char.ofNat 0xFEFF) then cs.tail else cs
  lines? (cs.length + 1) ⟨[], []⟩ cs

end Rewind.Toml
