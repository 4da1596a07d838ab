import WasmMachine.Binary.Module
import WasmMachine.Instantiate
import WasmMachine.Proofs.Plain
import WasmMachine.Proofs.Structured
import WasmMachine.Proofs.Layout
import WasmMachine.Proofs.Control
import WasmMachine.Proofs.FlatRun
import WasmMachine.Proofs.Flattening
import WasmMachine.Proofs.DecodedCode
import WasmMachine.Proofs.Building
import WasmMachine.Proofs.DecodedModule
import WasmMachine.Proofs.Tame
import WasmMachine.Proofs.Discipline
import WasmMachine.Proofs.Towers
import WasmMachine.Proofs.Neutral
import WasmMachine.Proofs.Moves
import WasmMachine.Proofs.Isolation
import WasmMachine.Proofs.LabelStack
import WasmMachine.Proofs.Reached
import WasmMachine.Proofs.Faults
import WasmMachine.Proofs.Groups
import WasmMachine.Proofs.Numbers
import WasmMachine.Proofs.InstrForms
import WasmMachine.Proofs.InstrReads
import WasmMachine.Proofs.CodeForms
import WasmMachine.Proofs.SectionForms
import WasmMachine.Proofs.ModuleForms
import WasmMachine.Proofs.RoundTrip
import WasmMachine.Proofs.Families
import WasmMachine.Proofs.Bounds
import WasmMachine.Proofs.Grounded
import WasmMachine.Proofs.Unwinding
import WasmMachine.Proofs.Accesses
import WasmMachine.Proofs.Metering
import WasmMachine.Proofs.Evolution
import WasmMachine.Proofs.Counting
import WasmMachine.Proofs.Termination
import WasmMachine.Proofs.Fuel
import WasmMachine.Proofs.Homes
import WasmMachine.Proofs.Ownership
import WasmMachine.Proofs.Ranges
import WasmMachine.Proofs.Guarded
import WasmMachine.Proofs.Stability
import WasmMachine.Proofs.Linking
import WasmMachine.Proofs.Chronicle
import WasmMachine.Proofs.Confinement
import WasmMachine.Proofs.SelfContained
import WasmMachine.Proofs.Positions
import WasmMachine.Proofs.SectionRows
import WasmMachine.Proofs.Registry
import WasmMachine.Proofs.Exporting
import WasmMachine.Proofs.Limits
import WasmMachine.Proofs.Pushes
import WasmMachine.Proofs.Targets
import WasmMachine.Proofs.Spellings
import WasmMachine.Proofs.SpelledInstrs
import WasmMachine.Proofs.SpelledBodies
import WasmMachine.Proofs.CallLimit
import WasmMachine.Proofs.Moments
import WasmMachine.Proofs.Depth
import WasmMachine.Proofs.ImportedGlobals
import WasmMachine.Proofs.Truncation
import WasmMachine.Proofs.StraightLine
import WasmMachine.Proofs.Overlay
import WasmMachine.Proofs.Initialisation
import WasmMachine.Proofs.Placeless
import WasmMachine.Proofs.Footing
import WasmMachine.Proofs.ConstantBodies
import WasmMachine.Proofs.MemoryImage
import WasmMachine.Proofs.MemoryAccess
import WasmMachine.Proofs.HostMemory
import WasmMachine.Proofs.Resolving
import WasmMachine.Proofs.NumberReads
import WasmMachine.Proofs.Integers
import WasmMachine.Proofs.BulkMoves
import WasmMachine.Proofs.Loops
import WasmMachine.Proofs.ListLengths
