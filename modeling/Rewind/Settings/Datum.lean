import Rewind.Settings.Basic

/-! Settings from data, whatever notation the data came in.

A record gives some of the settings by name and leaves the others at their defaults;
names it does not share are ignored. A list gives them by position, and may stop
early; what it says beyond the last setting is ignored too. -/

namespace Rewind

inductive Datum where
  | nothing
  | bool (b : Bool)
  | int (i : Int)
  | str (s : String)
  | list (items : List Datum)
  | record (fields : List (String × Datum))
  /-- Something no setting can be. -/
  | other
deriving Inhabited

namespace Datum

/-- The data for some names, in the order of the names. -/
def fields? (names : List String) : Datum → Option (List (Option Datum))
  | record fields => some (names.map fun n => (fields.find? (·.1 == n)).map Prod.snd)
  | list items => some (names.zipIdx.map fun n => items[n.2]?)
  | _ => none

/-- An integer from `low` up to below `high`. -/
def int? (low high : Int) : Datum → Option Int
  | int i => if low ≤ i ∧ i < high then some i else none
  | _ => none

def nat? (bound : Nat) (d : Datum) : Option Nat := (d.int? 0 bound).map Int.toNat

def bool? : Datum → Option Bool
  | bool b => some b
  | _ => none

def str? : Datum → Option String
  | str s => some s
  | _ => none

/-- Nothing, or a number that may be given. -/
def optionalNat? (bound : Nat) : Datum → Option (Option Nat)
  | nothing => some none
  | d => (d.nat? bound).map some

/-- What a datum says, or the default where there is none. -/
def orDefault {α : Type} (read : Datum → Option α) (default : α) : Option Datum → Option α
  | none => some default
  | some d => read d

end Datum

def historyNames : List String := ["enabled", "compress", "compression_level", "max_depth"]

def settingsNames : List String := ["concurrency", "codec", "history"]

def HistorySettings.ofDatum? (d : Datum) : Option HistorySettings :=
  let default := HistorySettings.default
  match d.fields? historyNames with
  | some [enabled, compress, level, maxDepth] => do
    let enabled ← Datum.orDefault Datum.bool? default.enabled enabled
    let compress ← Datum.orDefault Datum.bool? default.compress compress
    let level ← Datum.orDefault (Datum.nat? UInt32.size) default.level level
    let maxDepth ← Datum.orDefault (Datum.optionalNat? UInt64.size) default.maxDepth maxDepth
    some { enabled, compress, level, maxDepth }
  | _ => none

def Settings.ofDatum? (d : Datum) : Option Settings :=
  let default := Settings.default
  match d.fields? settingsNames with
  | some [concurrency, format, history] => do
    let concurrency ←
      Datum.orDefault (Datum.int? (-0x80000000) 0x80000000) default.concurrency concurrency
    let format ← Datum.orDefault Datum.str? default.format format
    let history ← Datum.orDefault HistorySettings.ofDatum? default.history history
    some { concurrency, format, history }
  | _ => none

end Rewind
