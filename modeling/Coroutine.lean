import Coroutine.Binder
import Coroutine.BuildError
import Coroutine.Cli.Arguments
import Coroutine.Cli.Commands
import Coroutine.Cli.Console
import Coroutine.Cli.Style
import Coroutine.Cli.Toml
import Coroutine.Code.Basic
import Coroutine.Code.Build
import Coroutine.Compiler
import Coroutine.Graph.Basic
import Coroutine.Graph.Document
import Coroutine.Graph.Guards
import Coroutine.Graph.Lowering
import Coroutine.Graph.Simplify
import Coroutine.Graph.Text
import Coroutine.Graph.Transition
import Coroutine.Host.Effect
import Coroutine.Host.Env
import Coroutine.Host.Functions
import Coroutine.Interpreter.Context
import Coroutine.Interpreter.Run
import Coroutine.Interpreter.Step
import Coroutine.Json.Basic
import Coroutine.Json.Reader
import Coroutine.Json.Record
import Coroutine.Json.Writer
import Coroutine.Machine.Basic
import Coroutine.Machine.Compiled
import Coroutine.Machine.Generator
import Coroutine.Machine.Interpreted
import Coroutine.Main
import Coroutine.Number.Binary
import Coroutine.Number.Decimal
import Coroutine.Number.Numeral
import Coroutine.Number.Power
import Coroutine.Options
import Coroutine.Program.Assembly
import Coroutine.Program.Basic
import Coroutine.Program.Text
import Coroutine.Proofs.Binder.Resolution
import Coroutine.Proofs.Code.Built
import Coroutine.Proofs.Code.Mirrored
import Coroutine.Proofs.Code.Routes
import Coroutine.Proofs.Code.Routing
import Coroutine.Proofs.Code.Rules
import Coroutine.Proofs.Code.Slots
import Coroutine.Proofs.Code.Sound
import Coroutine.Proofs.Ensures
import Coroutine.Proofs.Graph.Collapse
import Coroutine.Proofs.Graph.Discipline
import Coroutine.Proofs.Graph.Edits
import Coroutine.Proofs.Graph.Noops
import Coroutine.Proofs.Graph.Placement
import Coroutine.Proofs.Graph.Reach
import Coroutine.Proofs.Graph.Shape
import Coroutine.Proofs.Graph.Simplified
import Coroutine.Proofs.Graph.Stable
import Coroutine.Proofs.Graph.Zones
import Coroutine.Proofs.Host.Safe
import Coroutine.Proofs.Interpreter.Concerns
import Coroutine.Proofs.Interpreter.Heights
import Coroutine.Proofs.Interpreter.Hiding
import Coroutine.Proofs.Interpreter.Modes
import Coroutine.Proofs.Interpreter.Privacy
import Coroutine.Proofs.Interpreter.Safety
import Coroutine.Proofs.Interpreter.Stack
import Coroutine.Proofs.Interpreter.Walk
import Coroutine.Proofs.Json.Text
import Coroutine.Proofs.Lowering.Acceptance
import Coroutine.Proofs.Lowering.Accounts
import Coroutine.Proofs.Lowering.Books
import Coroutine.Proofs.Lowering.Constructs
import Coroutine.Proofs.Lowering.Drafts
import Coroutine.Proofs.Lowering.Partition
import Coroutine.Proofs.Lowering.Records
import Coroutine.Proofs.Lowering.Result
import Coroutine.Proofs.Lowering.Steps
import Coroutine.Proofs.Lowering.Tree
import Coroutine.Proofs.Machine.Abreast
import Coroutine.Proofs.Machine.Agreement
import Coroutine.Proofs.Machine.Cleanups
import Coroutine.Proofs.Machine.Delivery
import Coroutine.Proofs.Machine.Events
import Coroutine.Proofs.Machine.Exec
import Coroutine.Proofs.Machine.Fork
import Coroutine.Proofs.Machine.Fuel
import Coroutine.Proofs.Machine.Instructions
import Coroutine.Proofs.Machine.Interpreted
import Coroutine.Proofs.Machine.Jumps
import Coroutine.Proofs.Machine.Limits
import Coroutine.Proofs.Machine.Lockstep
import Coroutine.Proofs.Machine.Moves
import Coroutine.Proofs.Machine.Nesting
import Coroutine.Proofs.Machine.Observation
import Coroutine.Proofs.Machine.Records
import Coroutine.Proofs.Machine.Resumption
import Coroutine.Proofs.Machine.Safety
import Coroutine.Proofs.Machine.Twins
import Coroutine.Proofs.Program.Dispatch
import Coroutine.Proofs.Program.Emission
import Coroutine.Proofs.Program.Exits
import Coroutine.Proofs.Program.Image
import Coroutine.Proofs.Program.Labels
import Coroutine.Proofs.Program.Places
import Coroutine.Proofs.Program.Tables
import Coroutine.Proofs.Program.Variants
import Coroutine.Proofs.Program.Whole
import Coroutine.Proofs.Scheduler.Courses
import Coroutine.Proofs.Scheduler.Order
import Coroutine.Proofs.Scheduler.Threads
import Coroutine.Proofs.Scheduler.Tickets
import Coroutine.Proofs.Tree.Abridged
import Coroutine.Proofs.Tree.Census
import Coroutine.Proofs.Tree.Checked
import Coroutine.Proofs.Tree.Documents
import Coroutine.Proofs.Tree.Facts
import Coroutine.Proofs.Tree.Parts
import Coroutine.Proofs.Tree.RoundTrip
import Coroutine.Proofs.Tree.Rules
import Coroutine.Proofs.Tree.Settings
import Coroutine.Proofs.Tree.WellFormed
import Coroutine.Proofs.World.Bindings
import Coroutine.Proofs.World.Copied
import Coroutine.Proofs.World.Reach
import Coroutine.Report.Code
import Coroutine.Report.Error
import Coroutine.Report.Machine
import Coroutine.Report.Program
import Coroutine.Report.Tree
import Coroutine.Report.Value
import Coroutine.RunError
import Coroutine.Scheduler
import Coroutine.Text.Quoted
import Coroutine.Text.Visible
import Coroutine.Tree.Basic
import Coroutine.Tree.Check
import Coroutine.Tree.Children
import Coroutine.Tree.Compact
import Coroutine.Tree.Document
import Coroutine.Tree.Labels
import Coroutine.Tree.Rethrow
import Coroutine.Tree.Suspension
import Coroutine.Tree.Text
import Coroutine.Value.Basic
import Coroutine.Value.Document
import Coroutine.Value.Operator
import Coroutine.World.Basic
import Coroutine.World.Copy
