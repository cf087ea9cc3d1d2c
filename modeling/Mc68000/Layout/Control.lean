import Mc68000.Layout.Basic

namespace Mc68000.Layout

def impliedOperation? (w : Opcode) : Option Operation :=
  match w.toNat with
  | 0x4E70 => some .reset
  | 0x4E71 => some .nop
  | 0x4E73 => some .rte
  | 0x4E75 => some .rts
  | 0x4E76 => some .trapv
  | 0x4E77 => some .rtr
  | 0x4AFC => some .illegal
  | _ => none

def implied (w : Opcode) : Layout :=
  match impliedOperation? w with
  | some op => plain op []
  | none => dataWord w

def stop : Layout := plain .stop [.immediate .word]

def trap (w : Opcode) : Layout := plain .trap [.fixed (.count (w.field 0 4))]

def control (op : Operation) (w : Opcode) : Layout := plain op [w.address .long]

/-- The low byte is the displacement, except that 0 and 255 announce a word and a long word. -/
def branch (w : Opcode) : Layout :=
  let op : Operation :=
    match w.condition with
    | .t => .bra
    | .f => .bsr
    | c => .bcc c
  match w.field 0 8 with
  | 0x00 => sized op .word [.wordTarget]
  | 0xFF => sized op .long [.longTarget]
  | _ => ⟨⟨op, .short⟩, [.nearTarget w.toUInt8.toInt8], false, false⟩

def dbcc (w : Opcode) : Layout := plain (.dbcc w.condition) [.dataReg w.reg, .wordTarget]

def scc (w : Opcode) : Layout :=
  if w.dataAlterable then plain (.scc w.condition) [w.address .byte] else dataWord w

end Mc68000.Layout
