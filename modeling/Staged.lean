import Staged.Compile
import Staged.Compiler.Code
import Staged.Compiler.State
import Staged.Compiler.Value
import Staged.Constant.Basic
import Staged.Constant.Emitted
import Staged.Constant.Fold
import Staged.Constant.Frame
import Staged.Declare.Bring
import Staged.Declare.Function
import Staged.Declare.Global
import Staged.Declare.Member
import Staged.Declare.Register
import Staged.Declare.Skill
import Staged.Declare.Type
import Staged.Diagnostic
import Staged.Emit.Access
import Staged.Emit.Aggregate
import Staged.Emit.Assembly
import Staged.Emit.Assign
import Staged.Emit.Await
import Staged.Emit.Binary
import Staged.Emit.Call
import Staged.Emit.Cast
import Staged.Emit.Construct
import Staged.Emit.Copy
import Staged.Emit.Expr
import Staged.Emit.Heap
import Staged.Emit.Local
import Staged.Emit.Loop
import Staged.Emit.Name
import Staged.Emit.Operand
import Staged.Emit.Sentence
import Staged.Emit.Unary
import Staged.Entity.Dependencies
import Staged.Entity.Graph
import Staged.Entity.Kind
import Staged.Entity.Scheduler
import Staged.Entity.Uses
import Staged.Fault
import Staged.Ir.Function
import Staged.Ir.Instr
import Staged.Ir.Module
import Staged.Ir.Value
import Staged.Known.Default
import Staged.Known.Evaluate
import Staged.Known.Shape
import Staged.Module.Resolve
import Staged.Module.Tree
import Staged.Module.Visibility
import Staged.Number.Binary64
import Staged.Number.Integer
import Staged.Number.Shortest
import Staged.Options
import Staged.Options.Toml
import Staged.Proofs.Arithmetic.Bytes
import Staged.Proofs.Arithmetic.Cast
import Staged.Proofs.Arithmetic.Fold
import Staged.Proofs.Arithmetic.Range
import Staged.Proofs.Arithmetic.Variants
import Staged.Proofs.Arithmetic.Word
import Staged.Proofs.Code.Accounts
import Staged.Proofs.Code.Body
import Staged.Proofs.Code.Effect
import Staged.Proofs.Code.Expr
import Staged.Proofs.Code.Instr
import Staged.Proofs.Code.Members
import Staged.Proofs.Code.Phase
import Staged.Proofs.Code.Sentence
import Staged.Proofs.Code.Sound
import Staged.Proofs.Code.Valid
import Staged.Proofs.Compile.Closed
import Staged.Proofs.Compile.Coherent
import Staged.Proofs.Compile.Enter
import Staged.Proofs.Compile.Gather
import Staged.Proofs.Compile.NotReady
import Staged.Proofs.Compile.Order
import Staged.Proofs.Compile.Phase
import Staged.Proofs.Compile.Refusal
import Staged.Proofs.Compile.Register
import Staged.Proofs.Compile.Requests
import Staged.Proofs.Compile.Run
import Staged.Proofs.Compile.Schedulable
import Staged.Proofs.Compile.Visible
import Staged.Proofs.Definitions
import Staged.Proofs.Frames.Balance
import Staged.Proofs.Frames.Evaluate
import Staged.Proofs.Frames.Locals
import Staged.Proofs.Graph
import Staged.Proofs.Halting.Compile
import Staged.Proofs.Halting.Evaluate
import Staged.Proofs.Halting.Nesting
import Staged.Proofs.Halting.Phase
import Staged.Proofs.Halting.Rounds
import Staged.Proofs.Halting.Types
import Staged.Proofs.Halting.Unbounded
import Staged.Proofs.Jumps.Exit
import Staged.Proofs.Jumps.Lower
import Staged.Proofs.Jumps.Nested
import Staged.Proofs.Jumps.Run
import Staged.Proofs.Layouts.Aggregate
import Staged.Proofs.Layouts.Alignment
import Staged.Proofs.Layouts.Compile
import Staged.Proofs.Layouts.Evolve
import Staged.Proofs.Layouts.Phase
import Staged.Proofs.Lists
import Staged.Proofs.Lowering.Calls
import Staged.Proofs.Lowering.Declare
import Staged.Proofs.Lowering.Evaluate
import Staged.Proofs.Lowering.Expr
import Staged.Proofs.Lowering.Known
import Staged.Proofs.Lowering.Logic
import Staged.Proofs.Lowering.Sentence
import Staged.Proofs.Members.Apart
import Staged.Proofs.Members.Home
import Staged.Proofs.Members.Lifecycle
import Staged.Proofs.Modules.Compile
import Staged.Proofs.Modules.Forest
import Staged.Proofs.Modules.Levels
import Staged.Proofs.Modules.Naming
import Staged.Proofs.Modules.Register
import Staged.Proofs.Modules.Scope
import Staged.Proofs.Names
import Staged.Proofs.Numbering
import Staged.Proofs.Phis.Block
import Staged.Proofs.Phis.Expr
import Staged.Proofs.Phis.Flow
import Staged.Proofs.Phis.Graph
import Staged.Proofs.Phis.Line
import Staged.Proofs.Phis.Sentence
import Staged.Proofs.Resolve
import Staged.Proofs.Schedule.Cycle
import Staged.Proofs.Schedule.Invariant
import Staged.Proofs.Schedule.Order
import Staged.Proofs.Schedule.Outcome
import Staged.Proofs.Schedule.Run
import Staged.Proofs.Schedule.Safety
import Staged.Proofs.Schedule.Stuck
import Staged.Proofs.Search
import Staged.Proofs.Ssa.Body
import Staged.Proofs.Ssa.Declare
import Staged.Proofs.Ssa.Expr
import Staged.Proofs.Ssa.Form
import Staged.Proofs.Ssa.Grow
import Staged.Proofs.Ssa.Instr
import Staged.Proofs.Ssa.Logic
import Staged.Proofs.Ssa.Phase
import Staged.Proofs.Ssa.Point
import Staged.Proofs.Ssa.Sentence
import Staged.Proofs.Ssa.Valid
import Staged.Proofs.Strings.Blocks
import Staged.Proofs.Strings.Equality
import Staged.Proofs.Strings.Machine
import Staged.Proofs.Tree
import Staged.Proofs.Typing.Accept
import Staged.Proofs.Typing.Body
import Staged.Proofs.Typing.Call
import Staged.Proofs.Typing.Code
import Staged.Proofs.Typing.Compile
import Staged.Proofs.Typing.Declare
import Staged.Proofs.Typing.Expr
import Staged.Proofs.Typing.Literal
import Staged.Proofs.Typing.Operator
import Staged.Proofs.Typing.Phase
import Staged.Proofs.Typing.Prototype
import Staged.Proofs.Typing.Sentence
import Staged.Proofs.Values.Bounded
import Staged.Proofs.Values.Calls
import Staged.Proofs.Values.Declare
import Staged.Proofs.Values.Default
import Staged.Proofs.Values.Emitted
import Staged.Proofs.Values.Fields
import Staged.Proofs.Values.Logic
import Staged.Proofs.Values.Shape
import Staged.Proofs.Values.Solid
import Staged.Proofs.Values.Sound
import Staged.Proofs.Values.Twin
import Staged.Proofs.Values.Unseen
import Staged.Proofs.Values.Untouched
import Staged.Proofs.Variability.Assign
import Staged.Proofs.Variability.Place
import Staged.Source.Decl
import Staged.Source.Expr
import Staged.Source.Kind
import Staged.Source.Operator
import Staged.Source.Sentence
import Staged.Source.Span
import Staged.Text.Basic
import Staged.Toml.Document
import Staged.Toml.Moment
import Staged.Toml.Scalar
import Staged.Toml.Scan
import Staged.Toml.Table
import Staged.Ty.Basic
import Staged.Ty.Definition
import Staged.Ty.Layout
import Staged.Ty.Lifecycle
import Staged.Ty.Table
