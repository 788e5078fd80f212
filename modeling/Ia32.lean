import Ia32.Command.Directory
import Ia32.Main
import Ia32.Proofs.Bytes
import Ia32.Proofs.Failure
import Ia32.Proofs.Opcode
import Ia32.Proofs.OperandBytes
import Ia32.Proofs.Selection
import Ia32.Proofs.Instruction
import Ia32.Proofs.Stages
import Ia32.Proofs.Length
import Ia32.Proofs.Canonical
import Ia32.Proofs.Placement
import Ia32.Proofs.Roundtrip
import Ia32.Proofs.Decoded
import Ia32.Proofs.Decoder
import Ia32.Proofs.Families
import Ia32.Proofs.Effect
import Ia32.Proofs.Action
import Ia32.Proofs.Execution
import Ia32.Proofs.Control
import Ia32.Proofs.Run
import Ia32.Proofs.Extent
import Ia32.Proofs.Fetch
import Ia32.Proofs.Outline
import Ia32.Proofs.Text
import Ia32.Proofs.Concatenation
import Ia32.Proofs.Numeral
import Ia32.Proofs.Written
import Ia32.Proofs.Printed
import Ia32.Proofs.Rebuilt
import Ia32.Proofs.Reprint
import Ia32.Proofs.Sweep
import Ia32.Proofs.Lines
import Ia32.Proofs.Warnings
import Ia32.Proofs.Metadata
import Ia32.Proofs.Blame
import Ia32.Proofs.Harmless
import Ia32.Proofs.StackFailure
import Ia32.Proofs.Flags
import Ia32.Proofs.WideShift
import Ia32.Proofs.Watched
import Ia32.Proofs.Operations
import Ia32.Proofs.Parts
import Ia32.Proofs.Footprint
import Ia32.Proofs.Frame
import Ia32.Proofs.Nesting
import Ia32.Proofs.SavedRegisters
import Ia32.Proofs.Spelling
import Ia32.Proofs.Expressible
import Ia32.Proofs.Synonyms
import Ia32.Proofs.SingleShifts
import Ia32.Proofs.Multiplication
import Ia32.Proofs.Division
import Ia32.Proofs.Addition
import Ia32.Proofs.Comparison
import Ia32.Proofs.Rotation
import Ia32.Proofs.CarryChains
import Ia32.Proofs.NumberGrammar
import Ia32.Proofs.Loading
import Ia32.Proofs.Data
import Ia32.Proofs.SavedFlags
import Ia32.Proofs.MemoryViews
import Ia32.Proofs.RegisterViews
import Ia32.Proofs.Widths
import Ia32.Proofs.Commas
import Ia32.Proofs.StackDump
