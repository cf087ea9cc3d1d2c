import Mc68000.Layout.Basic

namespace Mc68000.Layout

/-- An operation between a data register and an addressed operand. Bit 8 makes the addressed one
the destination, and that has to be in alterable memory. As a source an address register serves
only where `fromAddress` says so, and never for bytes. -/
def dyadic (op : Operation) (fromAddress : Bool) (w : Opcode) : Except Fault Layout := do
  let s ← w.size
  return if w.bit 8 then
      if w.memoryAlterable then sized op s [.dataReg w.upperReg, w.address s] else dataWord w
    else if w.mode = 1 ∧ (!fromAddress ∨ s = .byte) then dataWord w
    else sized op s [w.address s, .dataReg w.upperReg]

def toAddress (op : Operation) (w : Opcode) : Layout :=
  sized op (w.wordOrLong 8) [w.address (w.wordOrLong 8), .addressReg w.upperReg]

def immediate (op : Operation) (w : Opcode) : Except Fault Layout := do
  let s ← w.size
  return sized op s [.immediate s, w.address s]

def registerPair (w : Opcode) : List Slot :=
  if w.bit 3 then
    [.fixed (.address (.preDecrement w.reg)), .fixed (.address (.preDecrement w.upperReg))]
  else [.dataReg w.reg, .dataReg w.upperReg]

def extended (op : Operation) (w : Opcode) : Except Fault Layout := do
  return sized op (← w.size) (registerPair w)

def decimal (op : Operation) (w : Opcode) : Layout := plain op (registerPair w)

/-- An address register can be changed as well, but not a byte of it. -/
def alterable (w : Opcode) (size : Size) : Bool :=
  if w.mode = 1 then size ≠ .byte else w.dataAlterable

def quick (w : Opcode) : Except Fault Layout := do
  let s ← w.size
  return if alterable w s then
      sized (if w.bit 8 then .subq else .addq) s [.fixed (.count w.quick), w.address s]
    else dataWord w

def cmpm (w : Opcode) : Except Fault Layout := do
  return sized .cmpm (← w.size)
    [.fixed (.address (.postIncrement w.reg)), .fixed (.address (.postIncrement w.upperReg))]

def mulDiv (w : Opcode) : Layout :=
  let op : Operation :=
    if w.field 12 4 = 0xC then (if w.bit 8 then .muls else .mulu)
    else (if w.bit 8 then .divs else .divu)
  plain op [w.address .word, .dataReg w.upperReg]

def chk (w : Opcode) : Layout := plain .chk [w.address .word, .dataReg w.upperReg]

def ext (w : Opcode) : Layout := sized .ext (w.wordOrLong 6) [.dataReg w.reg]

def unaryOperation? (w : Opcode) : Option Operation :=
  match w.field 8 4 with
  | 0x0 => some .negx
  | 0x2 => some .clr
  | 0x4 => some .neg
  | 0x6 => some .not
  | 0xA => some .tst
  | _ => none

def unary (w : Opcode) : Except Fault Layout :=
  match unaryOperation? w with
  | none => .ok (dataWord w)
  | some op => do
    let s ← w.size
    return if w.dataAlterable then sized op s [w.address s] else dataWord w

def alterableByte (op : Operation) (w : Opcode) : Layout :=
  if w.dataAlterable then plain op [w.address .byte] else dataWord w

end Mc68000.Layout
