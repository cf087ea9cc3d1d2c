import Mc68000.Command.Options
import Mc68000.Command.Run
import Mc68000.Condition
import Mc68000.Cursor
import Mc68000.Decode
import Mc68000.EffectiveAddress.Basic
import Mc68000.EffectiveAddress.Decode
import Mc68000.EffectiveAddress.Encode
import Mc68000.Extension
import Mc68000.Family
import Mc68000.Fault
import Mc68000.Instruction
import Mc68000.Json
import Mc68000.Layout.Arithmetic
import Mc68000.Layout.Basic
import Mc68000.Layout.Control
import Mc68000.Layout.Logic
import Mc68000.Layout.Movement
import Mc68000.Listing
import Mc68000.Literal
import Mc68000.Main
import Mc68000.Numeral
import Mc68000.Opcode
import Mc68000.Operation
import Mc68000.Proofs.AddressCodec
import Mc68000.Proofs.AddressEncoding
import Mc68000.Proofs.AddressText
import Mc68000.Proofs.ArchitecturalFault
import Mc68000.Proofs.BranchTarget
import Mc68000.Proofs.CommandLine
import Mc68000.Proofs.CommandRun
import Mc68000.Proofs.CursorRun
import Mc68000.Proofs.DataWord
import Mc68000.Proofs.Dependence
import Mc68000.Proofs.IgnoredBits
import Mc68000.Proofs.InstructionEncoding
import Mc68000.Proofs.Iteration
import Mc68000.Proofs.JsonText
import Mc68000.Proofs.LayoutRule
import Mc68000.Proofs.LayoutShape
import Mc68000.Proofs.ListingText
import Mc68000.Proofs.LiteralText
import Mc68000.Proofs.MnemonicText
import Mc68000.Proofs.NumeralGrammar
import Mc68000.Proofs.NumeralReading
import Mc68000.Proofs.OperandText
import Mc68000.Proofs.Outcome
import Mc68000.Proofs.RangeWalk
import Mc68000.Proofs.ReadingBounds
import Mc68000.Proofs.Reassembly.Arithmetic
import Mc68000.Proofs.Reassembly.Basic
import Mc68000.Proofs.Reassembly.Control
import Mc68000.Proofs.Reassembly.Dispatch
import Mc68000.Proofs.Reassembly.Logic
import Mc68000.Proofs.Reassembly.Movement
import Mc68000.Proofs.RegisterListText
import Mc68000.Proofs.RegisterTransfer
import Mc68000.Proofs.RoundTrip
import Mc68000.Proofs.Shortage
import Mc68000.Proofs.SlotOperand
import Mc68000.Proofs.SlotReading
import Mc68000.Proofs.TableLabel
import Mc68000.Proofs.TableLookup
import Mc68000.Proofs.TableOrder
import Mc68000.Proofs.TableReach
import Mc68000.Proofs.WrittenOperand
import Mc68000.RegisterList
import Mc68000.Size
import Mc68000.Statement
import Mc68000.Table
import Mc68000.Walk
