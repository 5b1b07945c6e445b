import Rewind.Json.Token

/-! JSON trees from tokens, and tokens from trees.

The parser is a machine that takes one token at a time and keeps the containers
that are still open on a stack, so nesting costs it nothing. A value that is
complete is delivered into the container on top; with no container open it is the
result, and nothing may follow. -/

namespace Rewind.Json

/-! ### Writing -/

mutual

/-- The tokens of a tree, in front of what follows. -/
def tokensOnto : Json → List Token → List Token
  | .null, rest => .null :: rest
  | .bool b, rest => .bool b :: rest
  | .number n, rest => .number n :: rest
  | .text t, rest => .text t :: rest
  | .array items, rest => .openArray :: itemsOnto items (.closeArray :: rest)
  | .object fields, rest => .openObject :: fieldsOnto fields (.closeObject :: rest)
termination_by structural j => j

/-- Items with commas between them. -/
def itemsOnto : List Json → List Token → List Token
  | [], rest => rest
  | j :: js, rest => j.tokensOnto (if js.isEmpty then rest else .comma :: itemsOnto js rest)
termination_by structural js => js

/-- Fields with commas between them. -/
def fieldsOnto : List (Text × Json) → List Token → List Token
  | [], rest => rest
  | (key, j) :: fs, rest =>
    .text key :: .colon :: j.tokensOnto (if fs.isEmpty then rest else .comma :: fieldsOnto fs rest)
termination_by structural fs => fs

end

def tokens (j : Json) : List Token := j.tokensOnto []

/-- The compact text of a tree. -/
def bytes (j : Json) : Bytes := j.tokens.flatMap Token.bytes

/-! ### Reading -/

/-- A container that is still open; what it holds stands backwards. -/
inductive Open where
  | array (items : List Json)
  | object (fields : List (Text × Json))
  /-- An object of which a field waits for its value. -/
  | field (fields : List (Text × Json)) (name : Text)

/-- What the parser expects next, inside the open containers. -/
inductive Parsing where
  | value (stack : List Open)
  /-- An item, or the end of an array without items. -/
  | firstItem (stack : List Open)
  /-- A key, or the end of an object without fields. -/
  | firstKey (stack : List Open)
  | key (fields : List (Text × Json)) (stack : List Open)
  | colon (fields : List (Text × Json)) (name : Text) (stack : List Open)
  /-- A comma or an end. -/
  | next (top : Open) (stack : List Open)
  | done (j : Json)

namespace Parsing

/-- A complete value goes into the container on top. -/
def deliver (j : Json) : List Open → Parsing
  | [] => .done j
  | .array items :: stack => .next (.array (j :: items)) stack
  | .field fields name :: stack => .next (.object ((name, j) :: fields)) stack
  | .object fields :: stack => .next (.object fields) stack

/-- The first token of a value. -/
def open? (stack : List Open) : Token → Option Parsing
  | .null => some (deliver .null stack)
  | .bool b => some (deliver (.bool b) stack)
  | .number n => some (deliver (.number n) stack)
  | .text t => some (deliver (.text t) stack)
  | .openArray => some (.firstItem stack)
  | .openObject => some (.firstKey stack)
  | .closeArray | .closeObject | .comma | .colon => none

def step : Parsing → Token → Option Parsing
  | value stack, t => open? stack t
  | firstItem stack, .closeArray => some (deliver (.array []) stack)
  | firstItem stack, t => open? (.array [] :: stack) t
  | firstKey stack, .closeObject => some (deliver (.object []) stack)
  | firstKey stack, .text name => some (.colon [] name stack)
  | firstKey _, _ => none
  | key fields stack, .text name => some (.colon fields name stack)
  | key _ _, _ => none
  | colon fields name stack, .colon => some (.value (.field fields name :: stack))
  | colon _ _ _, _ => none
  | next (.array items) stack, .comma => some (.value (.array items :: stack))
  | next (.array items) stack, .closeArray => some (deliver (.array items.reverse) stack)
  | next (.object fields) stack, .comma => some (.key fields stack)
  | next (.object fields) stack, .closeObject => some (deliver (.object fields.reverse) stack)
  | next _ _, _ => none
  | done _, _ => none

def run (s : Parsing) : List Token → Option Parsing
  | [] => some s
  | t :: ts =>
    match s.step t with
    | some s => run s ts
    | none => none

end Parsing

/-- The tree of some tokens. -/
def ofTokens? (ts : List Token) : Option Json :=
  match (Parsing.value []).run ts with
  | some (.done j) => some j
  | _ => none

/-- The tree of a text. -/
def parse? (bs : Bytes) : Option Json := do ofTokens? (← tokens? bs)

/-! ### Asking a tree -/

/-- The fields of an object with their names decoded. -/
def named? : List (Text × Json) → Option (List (String × Json))
  | [] => some []
  | (key, j) :: fs => do some ((← key.toString?, j) :: (← named? fs))

/-- What an object says under a name: nothing, or one value. A name that is given
twice is an error. -/
def single? (fields : List (String × Json)) (name : String) : Option (Option Json) :=
  match fields.filter (·.1 = name) with
  | [] => some none
  | [f] => some (some f.2)
  | _ => none

/-- The known fields of a record. An object may give them in any order, leave some
out and hold others besides; an array gives exactly all of them in order. -/
def known? (names : List String) : Json → Option (List (Option Json))
  | .object fields => do
    let fields ← named? fields
    names.mapM (single? fields)
  | .array items => if items.length = names.length then some (items.map some) else none
  | _ => none

/-- A case of a choice: its name alone, or an object with its name and payload. -/
def case? : Json → Option (String × Option Json)
  | .text t => do some (← t.toString?, none)
  | .object [(key, j)] => do some (← key.toString?, some j)
  | _ => none

def toBool? : Json → Option Bool
  | .bool b => some b
  | _ => none

def toStr? : Json → Option String
  | .text t => t.toString?
  | _ => none

def toInt? : Json → Option Int
  | .number n => n.toInt?
  | _ => none

def toFloat? : Json → Option Binary64
  | .number n => n.toFloat?
  | _ => none

/-- An integer literal from `low` up to below `high`. -/
def toBounded? (low high : Int) (j : Json) : Option Int :=
  match j.toInt? with
  | some i => if low ≤ i ∧ i < high then some i else none
  | none => none

/-- An integer literal below `bound` and not negative. -/
def toNat? (bound : Nat) (j : Json) : Option Nat := (j.toBounded? 0 bound).map Int.toNat

end Rewind.Json
