import Mc68000.Condition
import Mc68000.Size

namespace Mc68000

abbrev Opcode := UInt16

namespace Opcode

def field (w : Opcode) (low count : Nat) : Nat := (w.toNat >>> low) % (1 <<< count)

def bit (w : Opcode) (i : Nat) : Bool := w.toNat.testBit i

def mode (w : Opcode) : Nat := w.field 3 3

def reg (w : Opcode) : Nat := w.field 0 3

def upperReg (w : Opcode) : Nat := w.field 9 3

def size (w : Opcode) : Except Fault Size := Size.ofBits (w.field 6 2)

def wordOrLong (w : Opcode) (i : Nat) : Size := if w.bit i then .long else .word

def condition (w : Opcode) : Condition := Condition.ofBits (w.field 8 4)

/-- A count from 1 to 8, where the field holds 0 for 8. -/
def quick (w : Opcode) : Nat := if w.upperReg = 0 then 8 else w.upperReg

/-- Whether the addressed operand is data that can be written: no address register, nothing
relative to the program counter and no immediate. The undefined registers of mode 7 pass. -/
def dataAlterable (w : Opcode) : Bool :=
  match w.mode with
  | 1 => false
  | 7 => !(2 ≤ w.reg && w.reg ≤ 4)
  | _ => true

def memoryAlterable (w : Opcode) : Bool := w.mode != 0 && w.dataAlterable

end Opcode

end Mc68000
