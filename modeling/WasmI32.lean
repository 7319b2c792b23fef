import WasmI32.Activation
import WasmI32.CommandLine.Directory
import WasmI32.CommandLine.Job
import WasmI32.CommandLine.Options
import WasmI32.CommandLine.Report
import WasmI32.Frame
import WasmI32.Instruction.Basic
import WasmI32.Instruction.Decode
import WasmI32.Instruction.Encode
import WasmI32.Instruction.Text
import WasmI32.Leb128
import WasmI32.Limits
import WasmI32.Listing
import WasmI32.Machine
import WasmI32.Main
import WasmI32.Memory
import WasmI32.Module.Basic
import WasmI32.Module.Builder
import WasmI32.Module.Decode
import WasmI32.Module.Error
import WasmI32.Module.Section
import WasmI32.Numeric
import WasmI32.OperandStack
import WasmI32.Text.Hex
import WasmI32.Text.Utf8
import WasmI32.Trap
import WasmI32.ValueType
import WasmI32.Window
import WasmI32.Window.Nested
import WasmI32.Word
import WasmI32.Proofs.Leb128
import WasmI32.Proofs.Reading
import WasmI32.Proofs.InstructionBytes
import WasmI32.Proofs.Run
import WasmI32.Proofs.OperandStack
import WasmI32.Proofs.Structured.Code
import WasmI32.Proofs.Structured.Reference
import WasmI32.Proofs.Structured.Operands
import WasmI32.Proofs.Structured.Effect
import WasmI32.Proofs.Inversion
import WasmI32.Proofs.Structured.SkippedCode
import WasmI32.Proofs.Structured.Stepping
import WasmI32.Proofs.Structured.Shape
import WasmI32.Proofs.Structured.Simulation
import WasmI32.Proofs.Structured.Equivalence
import WasmI32.Proofs.Nesting
import WasmI32.Proofs.Module.Grammar
import WasmI32.Proofs.Image
import WasmI32.Proofs.Module.Contents
import WasmI32.Proofs.Module.Sections
import WasmI32.Proofs.Module.Collect
import WasmI32.Proofs.Module.Denotation
import WasmI32.Proofs.Module.Framing
import WasmI32.Proofs.Module.Truncation
import WasmI32.Proofs.Module.Inert
import WasmI32.Proofs.Module.Encoding
import WasmI32.Proofs.Module.Written
import WasmI32.Proofs.Module.RoundTrip
import WasmI32.Proofs.Module.Operations
import WasmI32.Proofs.CallStack
import WasmI32.Proofs.Displacement.Operands
import WasmI32.Proofs.Displacement.Instruction
import WasmI32.Proofs.Displacement.Machine
import WasmI32.Proofs.Isolation
import WasmI32.Proofs.Skipping
import WasmI32.Proofs.NestedCall
import WasmI32.Proofs.Reencoding
import WasmI32.Proofs.Termination
import WasmI32.Proofs.Traps
import WasmI32.Proofs.CallLimits
import WasmI32.Proofs.TrapReports
import WasmI32.Proofs.LinearMemory
import WasmI32.Proofs.Checked.Partial
import WasmI32.Proofs.Checked.Running
import WasmI32.Proofs.Checked.Reading
import WasmI32.Proofs.Checked.Decoding
import WasmI32.Proofs.Checked.Safety
import WasmI32.Proofs.Leb128.Shortest
import WasmI32.Proofs.Lookahead
import WasmI32.Proofs.InstructionCodec
import WasmI32.Proofs.InstructionText
import WasmI32.Proofs.ListingText
import WasmI32.Proofs.ByteMap
import WasmI32.Proofs.Listing
import WasmI32.Proofs.Module.Faults
import WasmI32.Proofs.Module.ErrorPlaces
import WasmI32.Proofs.Leb128.Buffer
import WasmI32.Proofs.PrefixCode
import WasmI32.Proofs.Numeric
import WasmI32.Proofs.NestedWindows
