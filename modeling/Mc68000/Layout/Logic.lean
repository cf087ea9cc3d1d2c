import Mc68000.Layout.Basic

namespace Mc68000.Layout

def eor (w : Opcode) : Except Fault Layout := do
  let s ← w.size
  return sized .eor s [.dataReg w.upperReg, w.address s]

def statusOperation? (w : Opcode) : Option Operation :=
  match w.upperReg with
  | 0 => some .ori
  | 1 => some .andi
  | 5 => some .eori
  | _ => none

def toCcr (w : Opcode) : Layout :=
  match statusOperation? w with
  | some op => sized op .byte [.immediate .byte, .fixed .ccr]
  | none => dataWord w

def toSr (w : Opcode) : Layout :=
  match statusOperation? w with
  | some op => sized op .word [.immediate .word, .fixed .sr]
  | none => dataWord w

def bitTarget (w : Opcode) : Slot := w.address (if w.mode = 0 then .long else .byte)

def bitDynamic (w : Opcode) : Except Fault Layout := do
  let action ← entryAt BitAction.all (w.field 6 2)
  return plain (.bit action) [.dataReg w.upperReg, bitTarget w]

def bitStatic (w : Opcode) : Except Fault Layout := do
  let action ← entryAt BitAction.all (w.field 6 2)
  return plain (.bit action) [.immediate .byte, bitTarget w]

def direction (w : Opcode) : Direction := if w.bit 8 then .left else .right

/-- The size field 3 marks the memory form, which shifts one word by one place and has its kind
where the register form has its count. -/
def shift (w : Opcode) : Except Fault Layout :=
  if w.field 6 2 = 3 then
    if w.bit 11 then .ok (dataWord w)
    else do
      let kind ← entryAt ShiftKind.all (w.field 9 2)
      return sized (.shift kind (direction w)) .word [w.address .word]
  else do
    let s ← w.size
    let kind ← entryAt ShiftKind.all (w.field 3 2)
    return sized (.shift kind (direction w)) s
      [if w.bit 5 then .dataReg w.upperReg else .fixed (.count w.quick), .dataReg w.reg]

end Mc68000.Layout
