import Rewind.History.Node

/-! Settings of a run, and what is wrong with them. -/

namespace Rewind

structure HistorySettings where
  enabled : Bool
  compress : Bool
  level : Nat
  maxDepth : Option Nat
deriving DecidableEq, Inhabited

structure Settings where
  concurrency : Int
  /-- The name of the format of snapshots. -/
  format : String
  history : HistorySettings
deriving DecidableEq, Inhabited

def HistorySettings.default : HistorySettings :=
  { enabled := true, compress := false, level := defaultLevel, maxDepth := none }

def Settings.default : Settings :=
  { concurrency := 0, format := "binary", history := .default }

/-- A setting out of its range. -/
inductive InvalidSetting where
  | level (level : Nat)
  | maxDepth
  | format
deriving DecidableEq

namespace InvalidSetting

def field : InvalidSetting → String
  | level _ => "history.compression_level"
  | maxDepth => "history.max_depth"
  | format => "codec"

def reason : InvalidSetting → String
  | level n => toString n ++ " is outside 0..=9"
  | maxDepth => "must be at least 1 when set"
  | format => "format name must not be empty"

def message (e : InvalidSetting) : String :=
  "invalid value for `" ++ e.field ++ "`: " ++ e.reason

end InvalidSetting

/-- The settings, if all of them are in range. -/
def Settings.validate (s : Settings) : Except InvalidSetting Settings :=
  if 9 < s.history.level then .error (.level s.history.level)
  else if s.history.maxDepth = some 0 then .error .maxDepth
  else if s.format.isEmpty then .error .format
  else .ok s

end Rewind
