import Rewind.Settings.Ron
import Rewind.Settings.Toml.Parser
import Rewind.Json.Tree

/-! Settings from text and from files.

The notation of a file is told by the extension of its name. Whatever the notation,
settings are read, then filled up with defaults, then checked. -/

namespace Rewind

inductive Notation where
  | ron
  | toml
  | json
deriving DecidableEq, Inhabited

inductive SettingsError where
  | unsupported (file : String)
  | notFound
  /-- The file is not text. -/
  | invalidData
  | parse
  | invalid (e : InvalidSetting)
deriving DecidableEq

def unsupportedMessage (file : String) : String := "unsupported config format for file: " ++ file

/-! ### Notations -/

namespace Notation

/-- The name of the file that a path leads to, if it leads to one. -/
def fileName? (path : String) : Option String :=
  let parts := (path.splitOn "/").filter fun p => p ≠ "" ∧ p ≠ "."
  match parts.getLast? with
  | some ".." => none
  | other => other

/-- What follows the last point of a file's name, unless the name starts with it. -/
def extension? (path : String) : Option String :=
  match fileName? path with
  | none => none
  | some name =>
    let cs := name.toList.reverse
    let behind := cs.takeWhile (· != '.')
    match cs.dropWhile (· != '.') with
    | _ :: _ :: _ => some (String.ofList behind.reverse)
    | _ => none

/-- The notation of a file. -/
def ofPath? (path : String) : Option Notation :=
  match extension? path with
  | some "ron" => some ron
  | some "toml" => some toml
  | some "json" => some json
  | _ => none

def text : Notation → String
  | ron => "ron"
  | toml => "toml"
  | json => "json"

end Notation

/-! ### TOML -/

mutual

/-- A date counts as a record of which no setting knows a field. -/
def Toml.Item.datum : Toml.Item → Datum
  | .scalar (.bool b) => .bool b
  | .scalar (.int i) => .int i
  | .scalar (.str s) => .str s
  | .scalar .float => .other
  | .scalar .date => .record []
  | .array items => .list (Toml.itemsDatum items)
  | .inline _ fields => .record (Toml.fieldsDatum fields)
  | .table _ fields => .record (Toml.fieldsDatum fields)
  | .tables all => .list (Toml.tablesDatum all).reverse
termination_by structural item => item

def Toml.itemsDatum : List Toml.Item → List Datum
  | [] => []
  | item :: items => item.datum :: Toml.itemsDatum items
termination_by structural items => items

def Toml.fieldsDatum : List (String × Toml.Item) → List (String × Datum)
  | [] => []
  | (key, item) :: fields => (key, item.datum) :: Toml.fieldsDatum fields
termination_by structural fields => fields

def Toml.tablesDatum : List (List (String × Toml.Item)) → List Datum
  | [] => []
  | fields :: all => .record (Toml.fieldsDatum fields) :: Toml.tablesDatum all
termination_by structural all => all

end

/-! ### JSON -/

/-- A value that holds no others. -/
def Json.leafDatum : Json → Datum
  | .null => .nothing
  | .bool b => .bool b
  | .number n => (n.toInt?.map Datum.int).getD .other
  | .text t => (t.toString?.map Datum.str).getD .other
  | .array _ | .object _ => .other

/-- A record with known fields, each of which may be missing. Unknown ones are not
looked at, but an array must not go on beyond the known ones. -/
def Json.recordDatum? (names : List String) (read? : String → Json → Option Datum) :
    Json → Option Datum
  | .object fields => do
    let fields ← Json.named? fields
    let known ← names.mapM fun n => do
      match ← Json.single? fields n with
      | some j => some [(n, ← read? n j)]
      | none => some []
    some (.record known.flatten)
  | .array items =>
    if items.length ≤ names.length then do
      some (.list (← (names.zip items).mapM fun (n, j) => read? n j))
    else none
  | j => some j.leafDatum

def Json.settingsDatum? (j : Json) : Option Datum :=
  let history (j : Json) : Option Datum :=
    j.recordDatum? historyNames fun _ j => some j.leafDatum
  j.recordDatum? settingsNames fun n j => if n = "history" then history j else some j.leafDatum

/-! ### Reading -/

/-- The data that a text holds. -/
def Notation.datum? (text : String) : Notation → Option Datum
  | ron => Ron.parse? text
  | toml => (Toml.parse? text).map fun fields => .record (Toml.fieldsDatum fields)
  | json => do (← Json.parse? (utf8 text)).settingsDatum?

namespace Settings

/-- The settings of a text, checked. -/
def ofText (n : Notation) (text : String) : Except SettingsError Settings :=
  match (n.datum? text).bind Settings.ofDatum? with
  | none => .error .parse
  | some s => s.validate.mapError .invalid

/-- The settings of a file, given its path and what it holds, if it is there. -/
def load (path : String) (content : Option Bytes) : Except SettingsError Settings :=
  match Notation.ofPath? path with
  | none => .error (.unsupported path)
  | some n =>
    match content with
    | none => .error .notFound
    | some bytes =>
      match ofUtf8? bytes with
      | none => .error .invalidData
      | some text => ofText n text

end Settings
end Rewind
