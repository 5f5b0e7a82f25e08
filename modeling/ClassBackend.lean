import ClassBackend.Main
import ClassBackend.Host.FileTree
import ClassBackend.LogFilter
import ClassBackend.Program.Construct
import ClassBackend.Proofs.Layout.SubtypeTest
import ClassBackend.Proofs.Lowering.Laws
import ClassBackend.Proofs.Scope.Nesting
import ClassBackend.Proofs.Lowering.Simulation
import ClassBackend.Proofs.Lowering.Steps
import ClassBackend.Proofs.Lowering.Forms
import ClassBackend.Proofs.Lowering.Names
import ClassBackend.Proofs.Lowering.Flow
import ClassBackend.Proofs.Layout.Inheritance
import ClassBackend.Proofs.Meaning.Selection
import ClassBackend.Proofs.Lowering.Dispatch
import ClassBackend.Proofs.Lowering.Cases
import ClassBackend.Proofs.Lowering.Sound
import ClassBackend.Proofs.Machine.Heap
import ClassBackend.Proofs.Machine.Run
import ClassBackend.Proofs.Mips.Machine
import ClassBackend.Proofs.Mips.Conventions
import ClassBackend.Proofs.Mips.Steps
import ClassBackend.Proofs.Mips.Emission
import ClassBackend.Proofs.Mips.Model
import ClassBackend.Proofs.Mips.Motion
import ClassBackend.Proofs.Mips.Storage
import ClassBackend.Proofs.Mips.Words
import ClassBackend.Proofs.Mips.Control
import ClassBackend.Proofs.Mips.Calls
import ClassBackend.Proofs.Layout.Builtins
import ClassBackend.Proofs.Mips.Sound
import ClassBackend.Proofs.Llvm.Conventions
import ClassBackend.Proofs.Llvm.Emission
import ClassBackend.Proofs.Llvm.Model
import ClassBackend.Proofs.Llvm.Motion
import ClassBackend.Proofs.Llvm.Storage
import ClassBackend.Proofs.Layout.Overriding
import ClassBackend.Proofs.Text.Numeral
import ClassBackend.Proofs.Llvm.Tables
import ClassBackend.Proofs.Mips.Tables
import ClassBackend.Proofs.Dispatch
import ClassBackend.Proofs.Emission.Discipline
import ClassBackend.Proofs.Emission.Forms
import ClassBackend.Proofs.Scope.WellScoped
import ClassBackend.Proofs.Emission.Expressions
import ClassBackend.Proofs.Emission.Unit
import ClassBackend.Proofs.Llvm.ControlFlow
import ClassBackend.Proofs.Llvm.Discipline
import ClassBackend.Proofs.Llvm.WellFormed
import ClassBackend.Proofs.Mips.Annotated
import ClassBackend.Proofs.Mips.Erasure
import ClassBackend.Proofs.Mips.StackPaths
import ClassBackend.Proofs.Mips.StackDiscipline
import ClassBackend.Proofs.Mips.StackBalance
import ClassBackend.Proofs.Scope.Program
import ClassBackend.Proofs.Mips.Constants
import ClassBackend.Proofs.Compilation
import ClassBackend.Proofs.Scope.Resolved
import ClassBackend.Proofs.Scope.Resolution
import ClassBackend.Proofs.Scope.ResolvedUnit
import ClassBackend.Proofs.Layout.Fields
import ClassBackend.Proofs.Fields
import ClassBackend.Proofs.Account.Laws
import ClassBackend.Proofs.Account.Judgement
import ClassBackend.Proofs.Account.Forms
import ClassBackend.Proofs.Account.Unit
import ClassBackend.Proofs.Account.Pooling
import ClassBackend.Proofs.Llvm.Dominance
import ClassBackend.Proofs.Llvm.Reaching
import ClassBackend.Proofs.Llvm.SingleAssignment
import ClassBackend.Proofs.Text.GlobalName
import ClassBackend.Proofs.Account.Interning
import ClassBackend.Proofs.Account.Symbols
import ClassBackend.Proofs.Mips.Appending
import ClassBackend.Proofs.Mips.References
import ClassBackend.Proofs.Mips.Labels
import ClassBackend.Proofs.Mips.DataSymbols
import ClassBackend.Proofs.Mips.Closed
import ClassBackend.Proofs.Llvm.Ledger
import ClassBackend.Proofs.Llvm.References
import ClassBackend.Proofs.Llvm.Closed
import ClassBackend.Proofs.Closed
import ClassBackend.Proofs.Initializer.Plan
import ClassBackend.Proofs.Initializer.Transcript
import ClassBackend.Proofs.Mips.Transcript
import ClassBackend.Proofs.Llvm.Transcript
import ClassBackend.Proofs.Initialization
import ClassBackend.Proofs.Agreement
import ClassBackend.Proofs.Barrier.Sources
import ClassBackend.Proofs.WriteBarriers
import ClassBackend.Proofs.Mips.Roots.Functions
import ClassBackend.Proofs.Parts
import ClassBackend.Proofs.Reordering
import ClassBackend.Proofs.Program.RoundTrip
import ClassBackend.Proofs.Layout.Acceptance
import ClassBackend.Proofs.Mips.Threads
import ClassBackend.Proofs.Mips.CallingConvention
import ClassBackend.Proofs.Mips.ClassObjects
import ClassBackend.Proofs.Machine.Listed
import ClassBackend.Proofs.Machine.Replay
import ClassBackend.Proofs.Mips.Routines
import ClassBackend.Proofs.Llvm.ClassObjects
import ClassBackend.Proofs.SelfType
import ClassBackend.Proofs.Llvm.FieldTypes
import ClassBackend.Proofs.Llvm.Accesses
import ClassBackend.Proofs.Llvm.InBounds
import ClassBackend.Proofs.Llvm.Routines
import ClassBackend.Proofs.Mips.Prototypes
import ClassBackend.Proofs.Llvm.Literals
import ClassBackend.Proofs.Llvm.TextConstants
import ClassBackend.Proofs.Llvm.SourceName
import ClassBackend.Proofs.Mips.Image
import ClassBackend.Proofs.Mips.TextObjects
import ClassBackend.Proofs.Mips.Reading
import ClassBackend.Proofs.Account.Requests
import ClassBackend.Proofs.Artifacts
import ClassBackend.Proofs.AbortPlaces
import ClassBackend.Proofs.CaseSelection
import ClassBackend.Proofs.FreshNames
import ClassBackend.Proofs.Mips.FrameTracker
import ClassBackend.Proofs.Emission.ClassDriver
import ClassBackend.Proofs.ClassOrder
import ClassBackend.Proofs.Llvm.Building
import ClassBackend.Proofs.Llvm.Reading
