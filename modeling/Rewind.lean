import Rewind.Binary64
import Rewind.Binary64.Nearest
import Rewind.Binary64.Shortest
import Rewind.Controller
import Rewind.Document.Basic
import Rewind.Document.Binary
import Rewind.Document.Error
import Rewind.Document.Json
import Rewind.Document.OfTree
import Rewind.Document.ToTree
import Rewind.Entity.Address
import Rewind.Entity.Basic
import Rewind.Entity.Shape
import Rewind.Entity.Tree
import Rewind.Entity.TypeExpr
import Rewind.Entity.Value
import Rewind.Format
import Rewind.History.Node
import Rewind.History.Recorder
import Rewind.History.Stack
import Rewind.Json.Basic
import Rewind.Json.Token
import Rewind.Json.Tree
import Rewind.Sample
import Rewind.Scheduler.Basic
import Rewind.Scheduler.Latch
import Rewind.Scheduler.Script
import Rewind.Settings.Basic
import Rewind.Settings.Datum
import Rewind.Settings.Load
import Rewind.Settings.Ron
import Rewind.Settings.Toml.Parser
import Rewind.Settings.Toml.Scalar
import Rewind.Settings.Toml.Table
import Rewind.Simulation.Basic
import Rewind.Simulation.Behaviors
import Rewind.Simulation.Hash
import Rewind.Table
import Rewind.Text.Bytes
import Rewind.Vocabulary
import Rewind.Zlib.Code
import Rewind.Zlib.Deflate
import Rewind.Zlib.Huffman
import Rewind.Zlib.Inflate
import Rewind.Zlib.Repeats
import Rewind.Proofs.BinaryFormat
import Rewind.Proofs.Text
import Rewind.Proofs.Tree.Tidy
import Rewind.Proofs.Tree.Snapshot
import Rewind.Proofs.Json.Word
import Rewind.Proofs.Json.Lexer
import Rewind.Proofs.Json.Parser
import Rewind.Proofs.Json.Scalar
import Rewind.Proofs.Binary64.Rounding
import Rewind.Proofs.Binary64.Shortest
import Rewind.Proofs.Json.Float
import Rewind.Proofs.JsonFormat
import Rewind.Proofs.Json.Layout
import Rewind.Proofs.Format
import Rewind.Proofs.Zlib
import Rewind.Proofs.History.Copies
import Rewind.Proofs.History.Reference
import Rewind.Proofs.History.Timeline
import Rewind.Proofs.Controller
import Rewind.Proofs.Tree.Sound
import Rewind.Proofs.Tree.Decoded
import Rewind.Proofs.Tree.References
import Rewind.Proofs.Closure
import Rewind.Proofs.Tree.Place
import Rewind.Proofs.Tree.Covers
import Rewind.Proofs.Tree.HeldValue
import Rewind.Proofs.HeldValue
import Rewind.Proofs.Rebuild
import Rewind.Proofs.Tree.InFull
import Rewind.Proofs.Table
import Rewind.Proofs.Controller.Sweep
import Rewind.Proofs.Controller.Round
import Rewind.Proofs.Controller.Retreat
import Rewind.Proofs.Controller.Life
import Rewind.Proofs.Controller.Schedule
import Rewind.Proofs.Controller.StepBack
import Rewind.Proofs.Controller.FailedRollback
import Rewind.Proofs.Controller.Attempts
import Rewind.Proofs.JsonText
import Rewind.Proofs.History.Acceptance
import Rewind.Proofs.Scheduler.Workers
import Rewind.Proofs.Scheduler.Rounds
import Rewind.Proofs.Scheduler.Service
import Rewind.Proofs.Controller.Seats
import Rewind.Proofs.Controller.Orders
import Rewind.Proofs.Controller.Apart
import Rewind.Proofs.Payload.Binary
import Rewind.Proofs.Payload.Json
import Rewind.Proofs.Payload
import Rewind.Proofs.Tree.Places
import Rewind.Proofs.Tree.Edits
import Rewind.Proofs.Tree.Agents
import Rewind.Proofs.Scheduler.View
import Rewind.Proofs.Scheduler.Hall
import Rewind.Proofs.Scheduler.Barrier
import Rewind.Proofs.Scheduler.Overlap
import Rewind.Proofs.Controller.Reach
import Rewind.Proofs.Controller.Additive
import Rewind.Proofs.Controller.Undisturbed
import Rewind.Proofs.Controller.Lock
import Rewind.Proofs.History.Retention
import Rewind.Proofs.History.Goal
import Rewind.Proofs.Tree.Frame
import Rewind.Proofs.Frame
import Rewind.Proofs.Scheduler.Halts
import Rewind.Proofs.Controller.Office
import Rewind.Proofs.Controller.OfficeRuns
import Rewind.Proofs.Controller.Halts
import Rewind.Proofs.Dangling
import Rewind.Proofs.JsonFloats
import Rewind.Proofs.Latest
import Rewind.Proofs.Tree.Admits
import Rewind.Proofs.Layout
import Rewind.Proofs.Tree.Indices
import Rewind.Proofs.Tree.Agreement
import Rewind.Proofs.Tree.Keys
import Rewind.Proofs.History.Press
import Rewind.Proofs.Vocabulary
import Rewind.Proofs.Tree.Alike
import Rewind.Proofs.Fingerprint
import Rewind.Proofs.Tree.Lens
