import WasmLowering.FileStore
import WasmLowering.Instance
import WasmLowering.Main
import WasmLowering.Proofs.ControlFlow
import WasmLowering.Proofs.DraftCode
import WasmLowering.Proofs.PlainOperators
import WasmLowering.Proofs.Moves
import WasmLowering.Proofs.Run
import WasmLowering.Proofs.DraftGrowth
import WasmLowering.Proofs.Discipline
import WasmLowering.Proofs.Phis
import WasmLowering.Proofs.Nesting
import WasmLowering.Proofs.DraftScope
import WasmLowering.Proofs.Dominance
import WasmLowering.Proofs.Returns
import WasmLowering.Proofs.Typing
import WasmLowering.Proofs.Agreement
import WasmLowering.Proofs.BinaryFormat
import WasmLowering.Proofs.TableInvariant
import WasmLowering.Proofs.Completion
import WasmLowering.Proofs.Layout
import WasmLowering.Proofs.Reading
import WasmLowering.Proofs.DeadCode
import WasmLowering.Proofs.ValidBodies
import WasmLowering.Proofs.Independence
import WasmLowering.Proofs.ModuleFormat
import WasmLowering.Proofs.RoundTrip
import WasmLowering.Proofs.Soundness
import WasmLowering.Proofs.IntegerFormat
import WasmLowering.Proofs.BlockTypes
import WasmLowering.Proofs.AcceptedBodies
import WasmLowering.Proofs.EntryFormat
import WasmLowering.Proofs.Loading
import WasmLowering.Proofs.AcceptedModules
import WasmLowering.Proofs.Execution
import WasmLowering.Proofs.Machine
import WasmLowering.Proofs.Arithmetic
import WasmLowering.Proofs.Matching
import WasmLowering.Proofs.Numbering
import WasmLowering.Proofs.Persistence
import WasmLowering.Proofs.StraightLine
import WasmLowering.Proofs.Transfers
import WasmLowering.Proofs.ReturnedValues
import WasmLowering.Proofs.OpenConstructs
import WasmLowering.Proofs.Conditionals
import WasmLowering.Proofs.Exits
import WasmLowering.Proofs.EntryBlock
import WasmLowering.Proofs.SemanticPreservation
import WasmLowering.Proofs.Modularity
import WasmLowering.Proofs.CustomSections
import WasmLowering.Proofs.OperandFrames
import WasmLowering.Proofs.DeclaredIntrinsics
import WasmLowering.Proofs.ModuleLife
import WasmLowering.Proofs.Calculations
import WasmLowering.Proofs.Divisions
import WasmLowering.Proofs.CheckedConversions
import WasmLowering.Proofs.LocalSlots
import WasmLowering.Proofs.Predecessors
import WasmLowering.Proofs.BranchTargets
import WasmLowering.Proofs.Instantiation
import WasmLowering.Proofs.Segments
import WasmLowering.Proofs.Delivery
import WasmLowering.Proofs.HeaderText
import WasmLowering.Proofs.Counts
import WasmLowering.Proofs.Checkpoints
import WasmLowering.Proofs.FaultPlaces
import WasmLowering.Proofs.Verification
import WasmLowering.Proofs.DumpFaithful
