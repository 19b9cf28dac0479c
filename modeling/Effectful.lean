import Effectful.Main
import Effectful.Proofs.Computation.Direct
import Effectful.Proofs.Console.Interpreters
import Effectful.Proofs.Console.Terminals
import Effectful.Proofs.Ending
import Effectful.Proofs.Program.Meaning
import Effectful.Proofs.Program.Morphism
import Effectful.Proofs.Target.Agreement
import Effectful.Proofs.Target.Runner
import Effectful.Proofs.Work.Footprint
import Effectful.Proofs.Work.Frame
import Effectful.Proofs.Work.Pair
import Effectful.Proofs.Work.Rounds
import Effectful.Proofs.Work.Sides
import Effectful.Proofs.Work.Split
import Effectful.Proofs.Work.Stack
import Effectful.Work.Evaluation
import Effectful.Proofs.Program.Nesting
import Effectful.Proofs.Program.Operations
import Effectful.Proofs.Computation.Runners
import Effectful.Proofs.Cell.History
import Effectful.Proofs.Cell.Protocol
import Effectful.Proofs.Cell.Shared
import Effectful.Proofs.Program.Exposure
import Effectful.Proofs.Program.Malformed
import Effectful.Proofs.Console.Refusal
import Effectful.Proofs.Cell.Fresh
import Effectful.Proofs.Work.Rest
import Effectful.Proofs.Work.Deeds
import Effectful.Proofs.Work.Accounts
import Effectful.Proofs.Work.Finish
import Effectful.Proofs.Work.Tidy
import Effectful.Proofs.Routine.Succession
import Effectful.Proofs.Cell.Memory
import Effectful.Proofs.Cell.Machine
import Effectful.Proofs.Text.Lines
import Effectful.Proofs.CommandLine.Prediction
import Effectful.Proofs.Routine.Forks
import Effectful.Proofs.Console.Buffers
import Effectful.Proofs.Console.Supply
import Effectful.Proofs.Demo.Dialogue
import Effectful.Proofs.Program.Interpreter
import Effectful.Proofs.Program.Traversal
import Effectful.Proofs.Program.Repetition
import Effectful.Proofs.Program.Unfolding
import Effectful.Proofs.Demo.Refusal
import Effectful.Proofs.Program.Iteration
import Effectful.Proofs.Target.Replacement
import Effectful.Proofs.Console.Witness
import Effectful.Proofs.Computation.Endless
import Effectful.Proofs.Computation.Timetable
import Effectful.Proofs.Demo.Factorial
import Effectful.Proofs.Work.Clock
import Effectful.Proofs.Program.Named
import Effectful.Proofs.Computation.Rounds
import Effectful.Proofs.Demo.Replay
import Effectful.Proofs.Text.Chunks
import Effectful.Proofs.CommandLine.Reading
