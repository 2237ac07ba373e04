import BpfVerifier.Analysis.BasicBlocks
import BpfVerifier.Analysis.Dataflow
import BpfVerifier.Analysis.PathRelation
import BpfVerifier.Analysis.StackBounds
import BpfVerifier.Analysis.StackLockstep
import BpfVerifier.Analysis.StackTransfer
import BpfVerifier.Analysis.StackWitness
import BpfVerifier.Analysis.WitnessText
import BpfVerifier.Ast.ClangAst
import BpfVerifier.Ast.Convert
import BpfVerifier.Ast.Emit
import BpfVerifier.Ast.EmitText
import BpfVerifier.Ast.Intermediate
import BpfVerifier.Ast.ReadText
import BpfVerifier.Bpf.Decode
import BpfVerifier.Bpf.Helpers
import BpfVerifier.Bpf.Instruction
import BpfVerifier.Cfg.Paths
import BpfVerifier.Checks.Forward
import BpfVerifier.Checks.NullSafety
import BpfVerifier.Checks.NullSound
import BpfVerifier.Checks.StackBounds
import BpfVerifier.Checks.StackSound
import BpfVerifier.Checks.StepSafe
import BpfVerifier.Checks.Tracking
import BpfVerifier.Checks.TypeSafety
import BpfVerifier.Checks.TypeSound
import BpfVerifier.Codegen.Hints
import BpfVerifier.Codegen.InsnText
import BpfVerifier.Codegen.Listing
import BpfVerifier.Concrete.Machine
import BpfVerifier.Concrete.Run
import BpfVerifier.Elf.BtfExt
import BpfVerifier.Elf.Parser
import BpfVerifier.Elf.Structs
import BpfVerifier.Fstar.Chunks
import BpfVerifier.Fstar.Diagnose
import BpfVerifier.Fstar.Emit
import BpfVerifier.Fstar.Environment
import BpfVerifier.Fstar.Executors
import BpfVerifier.Fstar.Helpers
import BpfVerifier.Fstar.Integers
import BpfVerifier.Fstar.Path
import BpfVerifier.Fstar.Places
import BpfVerifier.Fstar.Safe
import BpfVerifier.Fstar.Schedules
import BpfVerifier.Fstar.Semantics
import BpfVerifier.Fstar.State
import BpfVerifier.Fstar.Steps
import BpfVerifier.Fstar.Taint
import BpfVerifier.Fstar.Verify
import BpfVerifier.FstarAst.Accesses
import BpfVerifier.FstarAst.Expr
import BpfVerifier.FstarAst.Helpers
import BpfVerifier.FstarAst.Refine
import BpfVerifier.FstarAst.Stmt
import BpfVerifier.FstarAst.Traces
import BpfVerifier.FstarAst.Types
import BpfVerifier.FstarAst.ValClass
import BpfVerifier.FstarAst.VarCtx
import BpfVerifier.Kverify.Accepts
import BpfVerifier.Kverify.Branch
import BpfVerifier.Kverify.Coverage
import BpfVerifier.Kverify.Debug
import BpfVerifier.Kverify.Error
import BpfVerifier.Kverify.Offsets
import BpfVerifier.Kverify.Stable
import BpfVerifier.Kverify.State
import BpfVerifier.Kverify.Tnum
import BpfVerifier.Kverify.Transfer
import BpfVerifier.Kverify.Worklist
import BpfVerifier.Machinery.Agree
import BpfVerifier.Machinery.AssocMap
import BpfVerifier.Machinery.Buckets
import BpfVerifier.Machinery.Bytes
import BpfVerifier.Machinery.Carry
import BpfVerifier.Machinery.Checked
import BpfVerifier.Machinery.Chunks
import BpfVerifier.Machinery.Comments
import BpfVerifier.Machinery.Descent
import BpfVerifier.Machinery.Driven
import BpfVerifier.Machinery.Explore
import BpfVerifier.Machinery.Fuel
import BpfVerifier.Machinery.History
import BpfVerifier.Machinery.Journal
import BpfVerifier.Machinery.Loop
import BpfVerifier.Machinery.Monitor
import BpfVerifier.Machinery.Placement
import BpfVerifier.Machinery.Reader
import BpfVerifier.Machinery.Scan
import BpfVerifier.Machinery.Tape
import BpfVerifier.Machinery.Terms
import BpfVerifier.Machinery.Text
import BpfVerifier.Machinery.TextSearch
import BpfVerifier.Machinery.Word
import BpfVerifier.Machinery.Words
import BpfVerifier.Properties.Arithmetic
import BpfVerifier.Properties.Blocks
import BpfVerifier.Properties.Branches
import BpfVerifier.Properties.Budget
import BpfVerifier.Properties.Checks
import BpfVerifier.Properties.Chunks
import BpfVerifier.Properties.Conjuncts
import BpfVerifier.Properties.Conversion
import BpfVerifier.Properties.CoreRelocs
import BpfVerifier.Properties.Decoding
import BpfVerifier.Properties.DefiniteAssignment
import BpfVerifier.Properties.Diagnosis
import BpfVerifier.Properties.Domains
import BpfVerifier.Properties.Emission
import BpfVerifier.Properties.EmitComments
import BpfVerifier.Properties.EmitText
import BpfVerifier.Properties.EmittedSteps
import BpfVerifier.Properties.Encodings
import BpfVerifier.Properties.Enumeration
import BpfVerifier.Properties.Environment
import BpfVerifier.Properties.Fuel
import BpfVerifier.Properties.Guarded
import BpfVerifier.Properties.Hints
import BpfVerifier.Properties.Laws
import BpfVerifier.Properties.Leaks
import BpfVerifier.Properties.LineRanges
import BpfVerifier.Properties.Listing
import BpfVerifier.Properties.Memory
import BpfVerifier.Properties.Merges
import BpfVerifier.Properties.NullDerefs
import BpfVerifier.Properties.NullPaths
import BpfVerifier.Properties.Offsets
import BpfVerifier.Properties.Operations
import BpfVerifier.Properties.PathSimulation
import BpfVerifier.Properties.Paths
import BpfVerifier.Properties.PcMap
import BpfVerifier.Properties.References
import BpfVerifier.Properties.Reports
import BpfVerifier.Properties.Represents
import BpfVerifier.Properties.RingBuffer
import BpfVerifier.Properties.RoundTrips
import BpfVerifier.Properties.Runs
import BpfVerifier.Properties.Scans
import BpfVerifier.Properties.Slots
import BpfVerifier.Properties.Stores
import BpfVerifier.Properties.StructSizes
import BpfVerifier.Properties.Substates
import BpfVerifier.Properties.Targets
import BpfVerifier.Properties.Termination
import BpfVerifier.Properties.Tightness
import BpfVerifier.Properties.Tnums
import BpfVerifier.Properties.Transfers
import BpfVerifier.Properties.Witness
import BpfVerifier.Soundness.Alu
import BpfVerifier.Soundness.Bounds
import BpfVerifier.Soundness.Calls
import BpfVerifier.Soundness.Depicts
import BpfVerifier.Soundness.Describes
import BpfVerifier.Soundness.Invariant
import BpfVerifier.Soundness.Memory
import BpfVerifier.Soundness.Merge
import BpfVerifier.Soundness.Precise
import BpfVerifier.Soundness.Reading
import BpfVerifier.Soundness.Refine
import BpfVerifier.Soundness.Registers
import BpfVerifier.Soundness.Results
import BpfVerifier.Soundness.Sealed
import BpfVerifier.Soundness.Simulation
import BpfVerifier.Soundness.Tight
import BpfVerifier.Soundness.WellFormed
import BpfVerifier.Verify.Conjuncts
import BpfVerifier.Verify.Lines
import BpfVerifier.Verify.Requirements
